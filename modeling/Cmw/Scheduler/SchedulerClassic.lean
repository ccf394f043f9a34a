import Cmw.Common.GlobalData
import Cmw.Library.Run
import Cmw.Library.Table

/-!
# The classic scheduler and its queues

scheduler/scheduler.cpp, scheduler/policy/scheduler_classic.cpp and the queues of
scheduler/policy/classic_context.cpp, one call after another.  A routine is in a map by its
id, and in a queue by its group and its priority, which `DispatchTask` sets when the id is in
the map already.  Routines are numbered in the order in which they are made.

A call that removes a routine waits until no processor has it; what the processors do is in
`Cmw.Scheduler.Turns`.
-/

namespace Cmw
namespace Scheduler
namespace Classic

open Base
open Common
open Config
open Library

def maxPrio : Nat := 20

/-- `"default_grp"` -/
def defaultGroupName : Str := [0x64, 0x65, 0x66, 0x61, 0x75, 0x6C, 0x74, 0x5F, 0x67, 0x72, 0x70]

structure ClassicTask where
  name : Str
  prio : BitVec 32 := 0
  groupName : Str := []

structure SchedGroup where
  name : Str
  processorNum : BitVec 32 := 0
  affinity : Str := []
  cpuset : Str := []
  tasks : List ClassicTask := []

structure ClassicConf where
  groups : List SchedGroup := []

structure CRoutine where
  id : BitVec 64
  name : Str
  priority : BitVec 32 := 0
  groupName : Str := []
  forceStop : Bool := false

/-- What is locked while a routine of one id is dispatched or removed. -/
structure MutexWrapper where

/-- The routines of a group, by their priorities. -/
abbrev MultiPrioQueue := Fin maxPrio → List Nat

structure SchedulerClassic where
  classicConf : ClassicConf
  crConfs : Table Str ClassicTask := ∅
  stop : Bool := false
  globalData : GlobalData := {}
  idMapMutex : AtomicHashMap (BitVec 64) MutexWrapper 7 := {}
  idCr : Table (BitVec 64) Nat := ∅
  crGroup : Table Str MultiPrioQueue := ∅
  notifyGrp : Table Str Int := ∅
  /-- the groups of the contexts -/
  pctxs : List Str := []
  routine : Nat → CRoutine := fun _ => { id := 0, name := [] }
  made : Nat := 0

/-- `.at(prio)` of the queues: nothing where it throws. -/
def atPrio (prio : BitVec 32) : Option (Fin maxPrio) :=
  if h : prio.toNat < maxPrio then some ⟨prio.toNat, h⟩ else none

namespace SchedulerClassic

/-! ## The constructor -/

def initGroup (s : SchedulerClassic) (groupName : Str) : SchedulerClassic :=
  { s with
    crGroup := s.crGroup.touch (fun _ => []) groupName
    notifyGrp := s.notifyGrp.insert groupName 0 }

/-- The context of a processor. -/
def addContext (s : SchedulerClassic) (groupName : Str) : SchedulerClassic :=
  { s.initGroup groupName with pctxs := s.pctxs ++ [groupName] }

def createGroup (s : SchedulerClassic) (group : SchedGroup) : SchedulerClassic :=
  (List.range group.processorNum.toNat).foldl (fun s _ => s.addContext group.name) s

/-- `CreateProcessor()`, of groups whose CPUs can be parsed.  What becomes of the CPUs is in
`Cmw.Scheduler.Affinity`. -/
def createProcessor (s : SchedulerClassic) : SchedulerClassic :=
  s.classicConf.groups.foldl createGroup s

def readConfs (classicConf : ClassicConf) : Table Str ClassicTask :=
  classicConf.groups.foldl (fun confs group =>
    group.tasks.foldl (fun (confs : Table Str ClassicTask) task =>
      confs.insert task.name { task with groupName := group.name }) confs) ∅

/-- The scheduler when it has read its configuration. -/
def configured (classicConf : ClassicConf) : SchedulerClassic :=
  { classicConf, crConfs := readConfs classicConf }

/-- `SchedulerClassic()`, where the configuration has been read. -/
def new (classicConf : ClassicConf) : SchedulerClassic :=
  createProcessor (configured classicConf)

/-- What there is without a configuration. -/
def defaultConf (procNum : BitVec 32) : ClassicConf :=
  { groups := [{ name := defaultGroupName, processorNum := procNum }] }

/-! ## The calls

An answer is missing where the call throws or does not return. -/

def setRoutine (s : SchedulerClassic) (p : Nat) (r : CRoutine) : SchedulerClassic :=
  { s with routine := Function.update s.routine p r }

def stopRoutine (s : SchedulerClassic) (p : Nat) : SchedulerClassic :=
  s.setRoutine p { s.routine p with forceStop := true }

def ensureMutex (s : SchedulerClassic) (crid : BitVec 64) : SchedulerClassic :=
  match s.idMapMutex.get crid with
  | some _ => s
  | none => { s with idMapMutex := s.idMapMutex.set crid {} }

def notify (s : SchedulerClassic) (groupName : Str) : SchedulerClassic :=
  { s with notifyGrp := s.notifyGrp.insert groupName (s.notifyGrp.get 0 groupName + 1) }

/-- The routine with the group and the priority that it is dispatched with. -/
def assigned (s : SchedulerClassic) (r : CRoutine) : Option CRoutine := do
  let r ← match s.crConfs.lookup r.name with
    | some task => some { r with priority := task.prio, groupName := task.groupName }
    | none => s.classicConf.groups.head?.map fun group => { r with groupName := group.name }
  some (if maxPrio ≤ r.priority.toNat then { r with priority := BitVec.ofNat 32 (maxPrio - 1) } else r)

/-- `cr_group_[groupName].at(prio)` -/
def queue (s : SchedulerClassic) (groupName : Str) : MultiPrioQueue :=
  s.crGroup.get (fun _ => []) groupName

def setQueue (s : SchedulerClassic) (groupName : Str) (prio : Fin maxPrio) (crs : List Nat) :
    SchedulerClassic :=
  { s with crGroup := s.crGroup.insert groupName (Function.update (s.queue groupName) prio crs) }

/-- What comes after the routine has been put into the map. -/
def enqueue (s : SchedulerClassic) (p : Nat) : Option Bool × SchedulerClassic :=
  match s.assigned (s.routine p) with
  | none => (none, s)
  | some r =>
      let s := s.setRoutine p r
      match atPrio r.priority with
      | none => (none, s)
      | some prio =>
          let s := s.setQueue r.groupName prio (s.queue r.groupName prio ++ [p])
          (some true, s.notify r.groupName)

def dispatchTask (s : SchedulerClassic) (p : Nat) : Option Bool × SchedulerClassic :=
  let crid := (s.routine p).id
  let s := s.ensureMutex crid
  if crid ∈ s.idCr then (some false, s)
  else enqueue { s with idCr := s.idCr.insert crid p } p

def makeRoutine (s : SchedulerClassic) (r : CRoutine) : SchedulerClassic :=
  { s.setRoutine s.made r with made := s.made + 1 }

def createTask (hash : Str → BitVec 64) (s : SchedulerClassic) (name : Str) :
    Option Bool × SchedulerClassic :=
  if s.stop then (some false, s)
  else
    match s.globalData.registerTaskName hash name with
    | none => (none, s)
    | some (taskId, globalData) =>
        dispatchTask ({ s with globalData }.makeRoutine { id := taskId, name }) s.made

/-- `ClassicContext::RemoveCRoutine(cr)` -/
def removeFromGroup (s : SchedulerClassic) (p : Nat) : Option Bool × SchedulerClassic :=
  let r := s.routine p
  match atPrio r.priority with
  | none => (none, s)
  | some prio =>
      let croutines := s.queue r.groupName prio
      match croutines.find? fun cr => (s.routine cr).id == r.id with
      | none => (some false, { s with crGroup := s.crGroup.touch (fun _ => []) r.groupName })
      | some cr =>
          let rest := croutines.eraseP fun cr => (s.routine cr).id == r.id
          (some true, (s.stopRoutine cr).setQueue r.groupName prio rest)

def removeCRoutine (s : SchedulerClassic) (crid : BitVec 64) : Option Bool × SchedulerClassic :=
  let s := s.ensureMutex crid
  match s.idCr.lookup crid with
  | none => (some false, s)
  | some p => removeFromGroup { s.stopRoutine p with idCr := s.idCr.erase crid } p

def removeTask (hash : Str → BitVec 64) (s : SchedulerClassic) (name : Str) :
    Option Bool × SchedulerClassic :=
  if s.stop then (some true, s) else s.removeCRoutine (GlobalData.generateHashId hash name)

def shutdown (s : SchedulerClassic) : SchedulerClassic :=
  if s.stop then s
  else
    let notifyGrp := s.pctxs.foldl (fun (n : Table Str Int) group => n.insert group 255) s.notifyGrp
    let s := { s with stop := true, notifyGrp }
    let crList := s.idCr.entries.map fun cr => (s.routine cr.2).id
    let s := crList.foldl (fun s id => (s.removeCRoutine id).2) s
    { s with pctxs := [] }

inductive Call
  /-- a routine is made, with an id, a name and a priority -/
  | makeRoutine (id : BitVec 64) (name : Str) (priority : BitVec 32)
  | dispatchTask (p : Nat)
  | createTask (name : Str)
  | removeTask (name : Str)
  | removeCRoutine (crid : BitVec 64)
  | shutdown

def step (hash : Str → BitVec 64) (s : SchedulerClassic) : Call → SchedulerClassic
  | .makeRoutine id name priority => s.makeRoutine { id, name, priority }
  | .dispatchTask p => if p < s.made then (s.dispatchTask p).2 else s
  | .createTask name => (s.createTask hash name).2
  | .removeTask name => (s.removeTask hash name).2
  | .removeCRoutine crid => (s.removeCRoutine crid).2
  | .shutdown => s.shutdown

/-! ## Where the routines are -/

theorem queue_setQueue (s : SchedulerClassic) (g g' : Str) (q q' : Fin maxPrio) (crs : List Nat) :
    (s.setQueue g q crs).queue g' q' = if g' = g ∧ q' = q then crs else s.queue g' q' := by
  rw [setQueue, queue, Table.get_insert]
  by_cases hg : g' = g
  · rw [if_pos hg, Function.update_apply, hg]
    exact if_congr (by simp) rfl rfl
  · rw [if_neg hg, if_neg fun h => hg h.1]
    rfl

theorem atPrio_eq {prio : BitVec 32} {q : Fin maxPrio} : atPrio prio = some q ↔ prio.toNat = q := by
  rw [atPrio]
  split
  case isTrue h => rw [Option.some_inj, Fin.ext_iff]
  case isFalse h => exact iff_of_false (Option.some_ne_none q).symm fun heq => h (heq ▸ q.isLt)

/-- The routine is in one queue, once: that of its group and its priority. -/
def InPlace (queue : Str → MultiPrioQueue) (r : CRoutine) (p : Nat) : Prop :=
  ∃ prio : Fin maxPrio, r.priority.toNat = prio ∧ (queue r.groupName prio).count p = 1 ∧
    ∀ g q, p ∈ queue g q → g = r.groupName ∧ q = prio

/-- The map and the queues have the same routines. -/
structure Consistent (idCr : BitVec 64 → Option Nat) (queue : Str → MultiPrioQueue)
    (routine : Nat → CRoutine) : Prop where
  listed : ∀ x p, idCr x = some p → (routine p).id = x ∧ InPlace queue (routine p) p
  known : ∀ g q p, p ∈ queue g q → idCr (routine p).id = some p

section Consistent

variable {idCr idCr' : BitVec 64 → Option Nat} {queue queue' : Str → MultiPrioQueue}
  {routine routine' : Nat → CRoutine} {x : BitVec 64} {p : Nat}

theorem Consistent.congr (h : Consistent idCr queue routine)
    (hroutine : ∀ x p, idCr x = some p → (routine' p).id = (routine p).id ∧
      (routine' p).priority = (routine p).priority ∧ (routine' p).groupName = (routine p).groupName) :
    Consistent idCr queue routine' := by
  constructor
  · intro x p hp
    obtain ⟨hid, hplace⟩ := h.listed x p hp
    obtain ⟨hid', hprio, hgroup⟩ := hroutine x p hp
    refine ⟨hid'.trans hid, ?_⟩
    rwa [InPlace, hprio, hgroup]
  · intro g q p hp
    have hknown := h.known g q p hp
    rw [(hroutine _ p hknown).1]
    exact hknown

theorem Consistent.notMem (h : Consistent idCr queue routine) (hp : idCr (routine p).id = none)
    (g : Str) (q : Fin maxPrio) : p ∉ queue g q := by
  intro hmem
  exact absurd ((h.known g q p hmem).symm.trans hp) (Option.some_ne_none p)

/-- A routine whose id is new is put into the map, and into the queue of its group. -/
theorem Consistent.insert {prio : Fin maxPrio} (h : Consistent idCr queue routine)
    (hnone : idCr (routine p).id = none) (hid : (routine' p).id = (routine p).id)
    (hprio : (routine' p).priority.toNat = prio) (hother : ∀ p', p' ≠ p → routine' p' = routine p')
    (hidCr : ∀ x, idCr' x = if x = (routine p).id then some p else idCr x)
    (hqueue : ∀ g q, queue' g q = if g = (routine' p).groupName ∧ q = prio then
      queue g q ++ [p] else queue g q) :
    Consistent idCr' queue' routine' := by
  have hnot := h.notMem hnone
  have hmem : ∀ g q p', p' ∈ queue' g q →
      p' ∈ queue g q ∨ p' = p ∧ g = (routine' p).groupName ∧ q = prio := by
    intro g q p' hp'
    rw [hqueue] at hp'
    split at hp'
    case isTrue hgq =>
      rcases List.mem_append.mp hp' with hp' | hp'
      · exact .inl hp'
      · exact .inr ⟨List.mem_singleton.mp hp', hgq⟩
    case isFalse => exact .inl hp'
  constructor
  · intro x p' hp'
    rw [hidCr] at hp'
    split at hp'
    case isTrue hx =>
      obtain rfl := Option.some.inj hp'
      refine ⟨hid.trans hx.symm, prio, hprio, ?_, fun g q hgq => ?_⟩
      · rw [hqueue, if_pos ⟨rfl, rfl⟩, List.count_append, List.count_eq_zero_of_not_mem (hnot _ _),
          List.count_singleton_self]
      · exact (hmem g q p hgq).elim (fun hold => absurd hold (hnot g q)) fun hnew => hnew.2
    case isFalse hx =>
      obtain ⟨hidx, prio', hprio', hcount, honly⟩ := h.listed x p' hp'
      have hne : p' ≠ p := by
        rintro rfl
        exact hx hidx.symm
      rw [hother p' hne]
      refine ⟨hidx, prio', hprio', ?_, fun g q hgq => ?_⟩
      · rw [hqueue]
        split
        · rw [List.count_append, hcount, List.count_singleton, if_neg (by simpa using hne.symm)]
        · exact hcount
      · exact (hmem g q p' hgq).elim (honly g q) fun hnew => absurd hnew.1 hne
  · intro g q p' hp'
    rw [hidCr]
    by_cases hne : p' = p
    · rw [hne, hid, if_pos rfl]
    · have hold := (hmem g q p' hp').resolve_right fun hnew => hne hnew.1
      have hknown := h.known g q p' hold
      have hx : (routine p').id ≠ (routine p).id := by
        intro hx
        rw [hx, hnone] at hknown
        cases hknown
      rw [hother p' hne, if_neg hx]
      exact hknown

/-- The routine of an id is taken out of the map and out of its queue. -/
theorem Consistent.erase {prio : Fin maxPrio} (h : Consistent idCr queue routine)
    (hp : idCr x = some p) (hprio : (routine p).priority.toNat = prio)
    (hidCr : ∀ x', idCr' x' = if x' = x then none else idCr x')
    (hqueue : ∀ g q, queue' g q = if g = (routine p).groupName ∧ q = prio then
      (queue g q).erase p else queue g q) :
    Consistent idCr' queue' routine := by
  obtain ⟨hid, prio', hprio', hcount, honly⟩ := h.listed x p hp
  obtain rfl : prio' = prio := Fin.ext (hprio'.symm.trans hprio)
  have hgone : ∀ g q, p ∉ queue' g q := by
    intro g q hmem
    rw [hqueue] at hmem
    split at hmem
    case isTrue hgq =>
      obtain ⟨rfl, rfl⟩ := hgq
      have hpos := List.count_pos_iff.mpr hmem
      rw [List.count_erase_self, hcount] at hpos
      omega
    case isFalse hgq => exact hgq (honly g q hmem)
  have hkept : ∀ g q p', p' ≠ p → (queue' g q).count p' = (queue g q).count p' := by
    intro g q p' hne
    rw [hqueue]
    split
    · exact List.count_erase_of_ne hne
    · rfl
  have hmem : ∀ g q p', p' ∈ queue' g q → p' ∈ queue g q := by
    intro g q p' hp'
    have hne : p' ≠ p := by
      rintro rfl
      exact hgone g q hp'
    rw [← List.count_pos_iff, ← hkept g q p' hne]
    exact List.count_pos_iff.mpr hp'
  constructor
  · intro x' p' hp'
    rw [hidCr] at hp'
    split at hp'
    case isTrue => cases hp'
    case isFalse hx =>
      obtain ⟨hidx, q, hq, hcount', honly'⟩ := h.listed x' p' hp'
      have hne : p' ≠ p := by
        rintro rfl
        exact hx (hidx.symm.trans hid)
      refine ⟨hidx, q, hq, (hkept _ _ p' hne).trans hcount', fun g q' hgq => ?_⟩
      exact honly' g q' (hmem g q' p' hgq)
  · intro g q p' hp'
    have hknown := h.known g q p' (hmem g q p' hp')
    have hx : (routine p').id ≠ x := by
      intro hx
      rw [hx, hp] at hknown
      exact hgone g q (Option.some.inj hknown ▸ hp')
    rw [hidCr, if_neg hx]
    exact hknown

end Consistent

/-! ## What the calls keep -/

/-- There is a group, the routines in the map have been made, and their ids have mutexes. -/
structure Inv (s : SchedulerClassic) : Prop where
  groups : s.classicConf.groups ≠ []
  consistent : Consistent s.idCr.lookup s.queue s.routine
  made : ∀ x p, s.idCr.lookup x = some p → p < s.made
  mutex : ∀ x p, s.idCr.lookup x = some p → (s.idMapMutex.get x).isSome = true

section Keeps

variable {s : SchedulerClassic}

theorem ensureMutex_eq {crid : BitVec 64} (h : (s.idMapMutex.get crid).isSome = true) :
    s.ensureMutex crid = s := by
  obtain ⟨wrapper, hwrapper⟩ := Option.isSome_iff_exists.mp h
  rw [ensureMutex, hwrapper]

theorem inv_ensureMutex (h : s.Inv) (crid : BitVec 64) : (s.ensureMutex crid).Inv ∧
    (s.ensureMutex crid).idCr = s.idCr ∧ (s.ensureMutex crid).made = s.made ∧
      (s.ensureMutex crid).routine = s.routine := by
  rw [ensureMutex]
  split
  case h_1 => exact ⟨h, rfl, rfl, rfl⟩
  case h_2 =>
    refine ⟨⟨h.groups, h.consistent, h.made, fun x p hp => ?_⟩, rfl, rfl, rfl⟩
    show ((s.idMapMutex.set crid {}).get x).isSome = true
    rw [AtomicHashMap.get_set]
    split
    · rfl
    · exact h.mutex x p hp

theorem mutex_ensureMutex (s : SchedulerClassic) (crid : BitVec 64) :
    ((s.ensureMutex crid).idMapMutex.get crid).isSome = true := by
  rw [ensureMutex]
  split
  case h_1 wrapper hwrapper => rw [hwrapper, Option.isSome_some]
  case h_2 =>
    show ((s.idMapMutex.set crid {}).get crid).isSome = true
    rw [AtomicHashMap.get_set, if_pos rfl, Option.isSome_some]

theorem inv_makeRoutine (h : s.Inv) (r : CRoutine) : (s.makeRoutine r).Inv := by
  refine ⟨h.groups, h.consistent.congr fun x p hp => ?_, fun x p hp => ?_, h.mutex⟩
  · have hne : p ≠ s.made := Nat.ne_of_lt (h.made x p hp)
    have hsame : (s.makeRoutine r).routine p = s.routine p := Function.update_of_ne hne _ _
    rw [hsame]
    exact ⟨rfl, rfl, rfl⟩
  · exact Nat.lt_succ_of_lt (h.made x p hp)

theorem inv_stopRoutine (h : s.Inv) (p : Nat) : (s.stopRoutine p).Inv := by
  refine ⟨h.groups, h.consistent.congr fun x p' _ => ?_, h.made, h.mutex⟩
  by_cases hne : p' = p
  · have hstop : (s.stopRoutine p).routine p' = { s.routine p with forceStop := true } :=
      hne ▸ Function.update_self ..
    rw [hstop, hne]
    exact ⟨rfl, rfl, rfl⟩
  · have hsame : (s.stopRoutine p).routine p' = s.routine p' := Function.update_of_ne hne _ _
    rw [hsame]
    exact ⟨rfl, rfl, rfl⟩

theorem maxPrio_last : (BitVec.ofNat 32 (maxPrio - 1)).toNat < maxPrio := by decide

/-- A routine gets a group, and a priority that there is a queue for. -/
theorem assigned_some (h : s.classicConf.groups ≠ []) (r : CRoutine) :
    ∃ r', s.assigned r = some r' ∧ r'.id = r.id ∧ r'.priority.toNat < maxPrio := by
  have hlower : ∀ r' : CRoutine, r'.id = r.id → ∃ r'',
      some (if maxPrio ≤ r'.priority.toNat then
        { r' with priority := BitVec.ofNat 32 (maxPrio - 1) } else r') = some r'' ∧
      r''.id = r.id ∧ r''.priority.toNat < maxPrio := by
    intro r' hid
    refine ⟨_, rfl, ?_⟩
    split
    · exact ⟨hid, maxPrio_last⟩
    case isFalse hlt => exact ⟨hid, Nat.lt_of_not_le hlt⟩
  rw [assigned]
  cases hconf : s.crConfs.lookup r.name with
  | some task => exact hlower _ rfl
  | none =>
      obtain ⟨group, groups, hgroups⟩ := List.exists_cons_of_ne_nil h
      rw [hgroups]
      exact hlower { r with groupName := group.name } rfl

/-- The routine of an id that is new is in its queue afterwards. -/
theorem enqueue_keeps {x : BitVec 64} {p : Nat} (h : s.Inv) (hp : p < s.made)
    (hx : (s.routine p).id = x) (hnone : s.idCr.lookup x = none)
    (hmutex : (s.idMapMutex.get x).isSome = true) :
    (enqueue { s with idCr := s.idCr.insert x p } p).1 = some true ∧
      (enqueue { s with idCr := s.idCr.insert x p } p).2.Inv := by
  subst hx
  obtain ⟨r, hr, hid, hprio⟩ :=
    assigned_some (s := { s with idCr := s.idCr.insert (s.routine p).id p }) h.groups (s.routine p)
  have hat : atPrio r.priority = some ⟨r.priority.toNat, hprio⟩ := atPrio_eq.mpr rfl
  rw [enqueue, hr]
  dsimp only
  rw [hat]
  refine ⟨rfl, h.groups, ?_, fun x p' hp' => ?_, fun x p' hp' => ?_⟩
  · have hself : Function.update s.routine p r p = r := Function.update_self ..
    have hid' : (Function.update s.routine p r p).id = (s.routine p).id := hself.symm ▸ hid
    have hprio' : (Function.update s.routine p r p).priority.toNat =
        (⟨r.priority.toNat, hprio⟩ : Fin maxPrio) := by rw [hself]
    show Consistent (s.idCr.insert (s.routine p).id p).lookup _ (Function.update s.routine p r)
    refine h.consistent.insert hnone hid' hprio' (fun p' hne => Function.update_of_ne hne _ _)
      (Table.lookup_insert s.idCr _ · p) fun g q => ?_
    rw [hself]
    refine (queue_setQueue _ _ _ _ _ _).trans ?_
    split
    case isTrue hgq =>
      rw [hgq.1, hgq.2]
      rfl
    case isFalse => rfl
  · have hp' : (s.idCr.insert (s.routine p).id p).lookup x = some p' := hp'
    rw [Table.lookup_insert] at hp'
    split at hp'
    · exact Option.some.inj hp' ▸ hp
    · exact h.made x p' hp'
  · have hp' : (s.idCr.insert (s.routine p).id p).lookup x = some p' := hp'
    rw [Table.lookup_insert] at hp'
    split at hp'
    case isTrue hx => exact hx ▸ hmutex
    case isFalse => exact h.mutex x p' hp'

/-- A routine whose id is in the map is refused, and nothing changes. -/
theorem dispatchTask_refused {p : Nat} (h : s.Inv) (hp : (s.routine p).id ∈ s.idCr) :
    s.dispatchTask p = (some false, s) := by
  obtain ⟨p', hp'⟩ := Option.isSome_iff_exists.mp (AList.lookup_isSome.mpr hp)
  rw [dispatchTask, ensureMutex_eq (h.mutex _ _ hp')]
  exact if_pos hp

theorem inv_dispatchTask {p : Nat} (h : s.Inv) (hp : p < s.made) : (s.dispatchTask p).2.Inv := by
  obtain ⟨hinv, hidCr, hmade, hroutine⟩ := inv_ensureMutex h (s.routine p).id
  rw [dispatchTask]
  split
  case isTrue => exact hinv
  case isFalse hnot =>
    have hid : ((s.ensureMutex (s.routine p).id).routine p).id = (s.routine p).id := by
      rw [hroutine]
    exact (enqueue_keeps hinv (hmade ▸ hp) hid (AList.lookup_eq_none.mpr hnot)
      (mutex_ensureMutex s (s.routine p).id)).2

theorem find?_eq_of_mem {crs : List Nat} {p : Nat} (hp : p ∈ crs) {test : Nat → Bool}
    (htest : ∀ cr ∈ crs, test cr = true ↔ cr = p) :
    crs.find? test = some p ∧ crs.eraseP test = crs.erase p := by
  induction crs with
  | nil => cases hp
  | cons cr crs ih =>
      by_cases hcr : cr = p
      · have hpos : test cr = true := (htest cr List.mem_cons_self).mpr hcr
        subst hcr
        rw [List.find?_cons_of_pos hpos, List.eraseP_cons_of_pos hpos, List.erase_cons_head]
        exact ⟨rfl, rfl⟩
      · have hneg : ¬ test cr = true := fun hpos => hcr ((htest cr List.mem_cons_self).mp hpos)
        have hp : p ∈ crs := (List.mem_cons.mp hp).resolve_left fun heq => hcr heq.symm
        obtain ⟨hfind, herase⟩ := ih hp fun cr hmem => htest cr (List.mem_cons_of_mem _ hmem)
        rw [List.find?_cons_of_neg hneg, List.eraseP_cons_of_neg hneg,
          List.erase_cons_tail (by simpa using hcr), herase]
        exact ⟨hfind, rfl⟩

theorem removeFromGroup_keeps {x : BitVec 64} {p : Nat} (h : s.Inv)
    (hp : s.idCr.lookup x = some p) :
    (removeFromGroup { s with idCr := s.idCr.erase x } p).1 = some true ∧
      (removeFromGroup { s with idCr := s.idCr.erase x } p).2.Inv := by
  obtain ⟨hid, prio, hprio, hcount, honly⟩ := h.consistent.listed x p hp
  have hmem : p ∈ s.queue (s.routine p).groupName prio := List.count_pos_iff.mp (by omega)
  have htest : ∀ cr ∈ s.queue (s.routine p).groupName prio,
      ((s.routine cr).id == (s.routine p).id) = true ↔ cr = p := by
    intro cr hcr
    have hknown := h.consistent.known _ _ cr hcr
    rw [beq_iff_eq, hid]
    refine ⟨fun hx => ?_, fun heq => heq ▸ hid⟩
    rw [hx, hp] at hknown
    exact (Option.some.inj hknown).symm
  obtain ⟨hfind, herase⟩ := find?_eq_of_mem hmem htest
  have hat : atPrio (s.routine p).priority = some prio := atPrio_eq.mpr hprio
  have hstop := inv_stopRoutine h p
  have hsame : ((s.stopRoutine p).routine p).groupName = (s.routine p).groupName ∧
      ((s.stopRoutine p).routine p).priority.toNat = prio := by
    have hself : (s.stopRoutine p).routine p = { s.routine p with forceStop := true } :=
      Function.update_self ..
    rw [hself]
    exact ⟨rfl, hprio⟩
  rw [removeFromGroup]
  dsimp only
  rw [hat]
  dsimp only
  have hqueue : queue { s with idCr := s.idCr.erase x } (s.routine p).groupName prio =
      s.queue (s.routine p).groupName prio := rfl
  rw [hqueue, hfind, herase]
  refine ⟨rfl, h.groups, ?_, fun x' p' hp' => ?_, fun x' p' hp' => ?_⟩
  · refine hstop.consistent.erase hp hsame.2 (Table.lookup_erase s.idCr x) fun g q => ?_
    refine (queue_setQueue _ _ _ _ _ _).trans ?_
    rw [hsame.1]
    split
    case isTrue hgq =>
      rw [hgq.1, hgq.2]
      rfl
    case isFalse => rfl
  · have hp' : (s.idCr.erase x).lookup x' = some p' := hp'
    rw [Table.lookup_erase] at hp'
    split at hp'
    · cases hp'
    · exact h.made x' p' hp'
  · have hp' : (s.idCr.erase x).lookup x' = some p' := hp'
    rw [Table.lookup_erase] at hp'
    split at hp'
    · cases hp'
    · exact h.mutex x' p' hp'

theorem inv_removeCRoutine (h : s.Inv) (crid : BitVec 64) : (s.removeCRoutine crid).2.Inv := by
  have hinv := (inv_ensureMutex h crid).1
  rw [removeCRoutine]
  dsimp only
  split
  case h_1 => exact hinv
  case h_2 p hp => exact (removeFromGroup_keeps (inv_stopRoutine hinv p) hp).2

theorem inv_createTask (h : s.Inv) (hash : Str → BitVec 64) (name : Str) :
    (s.createTask hash name).2.Inv := by
  rw [createTask]
  split
  case isTrue => exact h
  case isFalse =>
    split
    case h_1 => exact h
    case h_2 taskId globalData _ =>
      have hkeep : Inv { s with globalData } := ⟨h.groups, h.consistent, h.made, h.mutex⟩
      exact inv_dispatchTask (inv_makeRoutine hkeep _) (Nat.lt_succ_self s.made)

theorem inv_removeTask (h : s.Inv) (hash : Str → BitVec 64) (name : Str) :
    (s.removeTask hash name).2.Inv := by
  rw [removeTask]
  split
  case isTrue => exact h
  case isFalse => exact inv_removeCRoutine h _

theorem inv_shutdown (h : s.Inv) : s.shutdown.Inv := by
  have hremove : ∀ (ids : List (BitVec 64)) (t : SchedulerClassic), t.Inv →
      (ids.foldl (fun t id => (t.removeCRoutine id).2) t).Inv := by
    intro ids
    induction ids with
    | nil => exact fun t ht => ht
    | cons id ids ih => exact fun t ht => ih _ (inv_removeCRoutine ht id)
  rw [shutdown]
  split
  case isTrue => exact h
  case isFalse =>
    have hinv := hremove (s.idCr.entries.map fun cr => (s.routine cr.2).id)
      { s with
        stop := true
        notifyGrp := s.pctxs.foldl (fun (n : Table Str Int) group => n.insert group 255) s.notifyGrp }
      ⟨h.groups, h.consistent, h.made, h.mutex⟩
    exact ⟨hinv.groups, hinv.consistent, hinv.made, hinv.mutex⟩

theorem inv_step (h : s.Inv) (hash : Str → BitVec 64) (call : Call) : (step hash s call).Inv := by
  cases call with
  | makeRoutine id name priority => exact inv_makeRoutine h _
  | dispatchTask p =>
      show (if p < s.made then (s.dispatchTask p).2 else s).Inv
      split
      case isTrue hp => exact inv_dispatchTask h hp
      case isFalse => exact h
  | createTask name => exact inv_createTask h hash name
  | removeTask name => exact inv_removeTask h hash name
  | removeCRoutine crid => exact inv_removeCRoutine h crid
  | shutdown => exact inv_shutdown h

end Keeps

/-! ## What the calls leave as it is -/

/-- The names of the process and of the routines, the configuration and the flag. -/
structure Same (s t : SchedulerClassic) : Prop where
  classicConf : t.classicConf = s.classicConf
  crConfs : t.crConfs = s.crConfs
  stop : t.stop = s.stop
  globalData : t.globalData = s.globalData
  id : ∀ p, (t.routine p).id = (s.routine p).id
  name : ∀ p, (t.routine p).name = (s.routine p).name

section Same

variable {s t u : SchedulerClassic}

theorem Same.refl (s : SchedulerClassic) : s.Same s where
  classicConf := rfl
  crConfs := rfl
  stop := rfl
  globalData := rfl
  id _ := rfl
  name _ := rfl

theorem Same.trans (h : s.Same t) (h' : t.Same u) : s.Same u where
  classicConf := h'.classicConf.trans h.classicConf
  crConfs := h'.crConfs.trans h.crConfs
  stop := h'.stop.trans h.stop
  globalData := h'.globalData.trans h.globalData
  id p := (h'.id p).trans (h.id p)
  name p := (h'.name p).trans (h.name p)

/-- Nothing is said of where the routines are. -/
theorem Same.moved (h : s.Same t) (idCr : Table (BitVec 64) Nat) (crGroup : Table Str MultiPrioQueue)
    (notifyGrp : Table Str Int) : s.Same { t with idCr, crGroup, notifyGrp } :=
  ⟨h.classicConf, h.crConfs, h.stop, h.globalData, h.id, h.name⟩

theorem same_ensureMutex (s : SchedulerClassic) (crid : BitVec 64) :
    s.Same (s.ensureMutex crid) ∧ (s.ensureMutex crid).idCr = s.idCr := by
  rw [ensureMutex]
  split
  · exact ⟨.refl s, rfl⟩
  · exact ⟨⟨rfl, rfl, rfl, rfl, fun _ => rfl, fun _ => rfl⟩, rfl⟩

theorem same_setRoutine {p : Nat} {r : CRoutine} (hid : r.id = (s.routine p).id)
    (hname : r.name = (s.routine p).name) : s.Same (s.setRoutine p r) := by
  have hroutine : ∀ p', ((s.setRoutine p r).routine p').id = (s.routine p').id ∧
      ((s.setRoutine p r).routine p').name = (s.routine p').name := by
    intro p'
    by_cases hne : p' = p
    · have hself : (s.setRoutine p r).routine p' = r := hne ▸ Function.update_self ..
      rw [hself, hne]
      exact ⟨hid, hname⟩
    · have hother : (s.setRoutine p r).routine p' = s.routine p' := Function.update_of_ne hne _ _
      rw [hother]
      exact ⟨rfl, rfl⟩
  exact ⟨rfl, rfl, rfl, rfl, fun p' => (hroutine p').1, fun p' => (hroutine p').2⟩

theorem same_assigned {r r' : CRoutine} (h : s.assigned r = some r') :
    r'.id = r.id ∧ r'.name = r.name := by
  have hlower : ∀ r'' : CRoutine, r''.id = r.id ∧ r''.name = r.name →
      some (if maxPrio ≤ r''.priority.toNat then
        { r'' with priority := BitVec.ofNat 32 (maxPrio - 1) } else r'') = some r' →
      r'.id = r.id ∧ r'.name = r.name := by
    intro r'' hr'' h
    obtain rfl := Option.some.inj h
    split
    · exact hr''
    · exact hr''
  rw [assigned] at h
  cases hconf : s.crConfs.lookup r.name with
  | some task =>
      rw [hconf] at h
      exact hlower { r with priority := task.prio, groupName := task.groupName } ⟨rfl, rfl⟩ h
  | none =>
      rw [hconf] at h
      obtain ⟨r'', hr'', h⟩ := Option.bind_eq_some_iff.mp h
      obtain ⟨group, -, rfl⟩ := Option.map_eq_some_iff.mp hr''
      exact hlower { r with groupName := group.name } ⟨rfl, rfl⟩ h

theorem same_enqueue (s : SchedulerClassic) (p : Nat) :
    s.Same (s.enqueue p).2 ∧ (s.enqueue p).2.idCr = s.idCr := by
  rw [enqueue]
  split
  case h_1 => exact ⟨.refl s, rfl⟩
  case h_2 r hr =>
    have hsame : s.Same (s.setRoutine p r) :=
      same_setRoutine (same_assigned hr).1 (same_assigned hr).2
    dsimp only
    split
    · exact ⟨hsame, rfl⟩
    · exact ⟨hsame.moved _ _ _, rfl⟩

theorem same_dispatchTask (s : SchedulerClassic) (p : Nat) : s.Same (s.dispatchTask p).2 := by
  have hsame := (same_ensureMutex s (s.routine p).id).1
  rw [dispatchTask]
  split
  · exact hsame
  · exact (hsame.moved _ _ _).trans (same_enqueue _ p).1

theorem same_removeFromGroup (s : SchedulerClassic) (p : Nat) :
    s.Same (s.removeFromGroup p).2 ∧ (s.removeFromGroup p).2.idCr = s.idCr := by
  rw [removeFromGroup]
  dsimp only
  split
  · exact ⟨.refl s, rfl⟩
  · split
    · exact ⟨(Same.refl s).moved _ _ _, rfl⟩
    case h_2 cr _ =>
      have hsame : s.Same (s.stopRoutine cr) := same_setRoutine rfl rfl
      exact ⟨hsame.moved _ _ _, rfl⟩

theorem same_removeCRoutine (s : SchedulerClassic) (crid : BitVec 64) :
    s.Same (s.removeCRoutine crid).2 := by
  have hsame := (same_ensureMutex s crid).1
  rw [removeCRoutine]
  dsimp only
  split
  · exact hsame
  case h_2 p _ =>
    have hstop : (s.ensureMutex crid).Same ((s.ensureMutex crid).stopRoutine p) :=
      same_setRoutine rfl rfl
    exact (hsame.trans (hstop.moved _ _ _)).trans (same_removeFromGroup _ p).1

theorem same_removeTask (hash : Str → BitVec 64) (s : SchedulerClassic) (name : Str) :
    s.Same (s.removeTask hash name).2 := by
  rw [removeTask]
  split
  · exact .refl s
  · exact same_removeCRoutine s _

end Same

/-- The constructor makes queues, and puts nothing into them. -/
theorem inv_new {classicConf : ClassicConf} (h : classicConf.groups ≠ []) :
    (new classicConf).Inv := by
  let Blank (s : SchedulerClassic) : Prop :=
    s.classicConf = classicConf ∧ s.idCr = ∅ ∧ ∀ g q, s.queue g q = []
  have hcontext : ∀ (s : SchedulerClassic) (group : SchedGroup), Blank s →
      Blank (s.addContext group.name) := by
    intro s group hs
    refine ⟨hs.1, hs.2.1, fun g q => ?_⟩
    have hget : (s.crGroup.touch (fun _ => []) group.name).get (fun _ => []) g = s.queue g :=
      Table.get_touch ..
    show (s.crGroup.touch (fun _ => []) group.name).get (fun _ => []) g q = []
    rw [hget]
    exact hs.2.2 g q
  have hblank : Blank (new classicConf) := by
    refine List.foldlRecOn _ _ ⟨rfl, rfl, fun g q => rfl⟩ fun s hs group _ => ?_
    exact List.foldlRecOn _ _ hs fun s hs _ _ => hcontext s group hs
  have hnone : ∀ x p, (new classicConf).idCr.lookup x ≠ some p := by
    intro x p hp
    rw [hblank.2.1] at hp
    cases hp
  refine ⟨hblank.1.symm ▸ h, ⟨fun x p hp => absurd hp (hnone x p), fun g q p hp => ?_⟩,
    fun x p hp => absurd hp (hnone x p), fun x p hp => absurd hp (hnone x p)⟩
  rw [hblank.2.2 g q] at hp
  cases hp

/-- Whatever is called, the routines in the map are in the queues, each in one and once, and
no others are; and a routine whose id is in the map is refused. -/
theorem dispatched (hash : Str → BitVec 64) {classicConf : ClassicConf}
    (hgroups : classicConf.groups ≠ []) (calls : List Call) :
    ∀ s ∈ Run.states (step hash) (new classicConf) calls,
      (∀ x p, s.idCr.lookup x = some p → (s.routine p).id = x ∧ InPlace s.queue (s.routine p) p) ∧
      (∀ p, (s.routine p).id ∉ s.idCr → ∀ g q, p ∉ s.queue g q) ∧
      ∀ p, (s.routine p).id ∈ s.idCr → s.dispatchTask p = (some false, s) := by
  have hstep : ∀ (s : SchedulerClassic) call, s.Inv → (step hash s call).Inv :=
    fun s call h => inv_step h hash call
  intro s hs
  have hinv : s.Inv := Run.invariant_always hstep (inv_new hgroups) s hs
  refine ⟨hinv.consistent.listed, fun p hp => ?_, fun p hp => dispatchTask_refused hinv hp⟩
  exact hinv.consistent.notMem (AList.lookup_eq_none.mpr hp)

theorem dispatched_default :
    (defaultConf 2).groups ≠ [] ∧
      ∀ s ∈ Run.states (step fun name => BitVec.ofNat 64 name.length) (new (defaultConf 2))
        [.createTask [0x61], .createTask [0x62], .removeTask [0x63]],
      (∀ x p, s.idCr.lookup x = some p → (s.routine p).id = x ∧ InPlace s.queue (s.routine p) p) ∧
      (∀ p, (s.routine p).id ∉ s.idCr → ∀ g q, p ∉ s.queue g q) ∧
      ∀ p, (s.routine p).id ∈ s.idCr → s.dispatchTask p = (some false, s) :=
  ⟨List.cons_ne_nil _ _, dispatched _ (List.cons_ne_nil _ _) _⟩

end SchedulerClassic

end Classic
end Scheduler
end Cmw
