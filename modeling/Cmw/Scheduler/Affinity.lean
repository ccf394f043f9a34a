import Cmw.Scheduler.PinThread
import Cmw.Scheduler.SchedulerClassic

/-!
# Which CPUs a thread is pinned to

`SetSchedAffinity` of scheduler/common/pin_thread.cpp and its two callers: the processors
of a group, and the threads that the middleware starts for itself.  A request is the mask
that `pthread_setaffinity_np` is given, if it is called.
-/

namespace Cmw
namespace Scheduler
namespace PinThread

open Classic
open Config
open Library

/-- The CPUs that a `cpu_set_t` has a bit for. -/
abbrev Cpu := Fin 1024

abbrev CpuSet := Cpu → Bool

def cpuZero : CpuSet := fun _ => false

/-- `CPU_SET(cpu, &set)` -/
def cpuSet (set : CpuSet) (cpu : Int) : CpuSet := fun c => set c || decide ((c : Int) = cpu)

/-- `"range"` -/
def rangeText : Str := [0x72, 0x61, 0x6E, 0x67, 0x65]

/-- `"1to1"` -/
def oneToOne : Str := [0x31, 0x74, 0x6F, 0x31]

/-- The first comparison holds of any other text than `"range"`. -/
def setSchedAffinity (cpus : List Int) (affinity : Str) (cpuId : BitVec 32) : Option CpuSet :=
  if cpus.length ≠ 0 then
    if affinity ≠ rangeText then some (cpus.foldl cpuSet cpuZero)
    else if affinity = oneToOne then
      if h : cpuId.toNat < cpus.length ∧ cpuId ≠ -1 then
        some (cpuSet cpuZero (cpus.get ⟨cpuId.toNat, h.1⟩))
      else none
    else none
  else none

/-- The processors of a group: their contexts, and the requests for their threads. -/
def createGroup (turns : Nat) (s : SchedulerClassic) (group : SchedGroup) :
    Except Fault (SchedulerClassic × List (Option CpuSet)) := do
  let cpuset ← parseCpuset turns group.cpuset []
  .ok ((List.range group.processorNum.toNat).foldl (fun r i =>
    (r.1.addContext group.name,
      r.2 ++ [setSchedAffinity cpuset group.affinity (BitVec.ofNat 32 i)])) (s, []))

/-- `CreateProcessor()` -/
def createProcessor (turns : Nat) (s : SchedulerClassic) :
    List SchedGroup → Except Fault (SchedulerClassic × List (List (Option CpuSet)))
  | [] => .ok (s, [])
  | group :: groups => do
      let first ← createGroup turns s group
      let rest ← createProcessor turns first.1 groups
      .ok (rest.1, first.2 :: rest.2)

structure InnerThread where
  cpuset : Str := []

/-- `SetInnerThreadAttr(name, thr)`, where there is a thread. -/
def setInnerThreadAttr (turns : Nat) (innerThrConfs : Table Str InnerThread) (name : Str) :
    Except Fault (Option CpuSet) :=
  match innerThrConfs.lookup name with
  | none => .ok none
  | some thConf => do
      let cpus ← parseCpuset turns thConf.cpuset []
      .ok (setSchedAffinity cpus rangeText (-1))

/-! ## What is meant -/

/-- The mask has these CPUs and no others. -/
def IsMask (set : CpuSet) (cpus : List Int) : Prop :=
  ∀ cpu : Int, cpu ∈ cpus ↔ ∃ c : Cpu, set c = true ∧ (c : Int) = cpu

def Requests (request : Option CpuSet) (cpus : List Int) : Prop :=
  ∃ set, request = some set ∧ IsMask set cpus

/-- The request for the processor `i` of a group. -/
def Meant (cpus : List Int) (affinity : Str) (i : Nat) (request : Option CpuSet) : Prop :=
  if affinity = rangeText then Requests request cpus
  else if h : affinity = oneToOne ∧ i < cpus.length then Requests request [cpus.get ⟨i, h.2⟩]
  else request = none

/-- A configuration of a group whose CPUs are well written, and are some. -/
structure ValidGroup where
  conf : SchedGroup
  items : List Item
  written : conf.cpuset = cpusetText items
  some_cpu : items.flatMap Item.cpus ≠ []

def ValidGroup.cpus (g : ValidGroup) : List Int := g.items.flatMap Item.cpus

/-- There is a request as meant for each processor. -/
def ValidGroup.Served (g : ValidGroup) (requests : List (Option CpuSet)) : Prop :=
  requests.length = g.conf.processorNum.toNat ∧
    ∀ i request, requests[i]? = some request → Meant g.cpus g.conf.affinity i request

/-- `SchedulerClassic()` comes to its end, and its requests are as meant. -/
def PinsProcessors (groups : List ValidGroup) : Prop :=
  let classicConf : ClassicConf := { groups := groups.map ValidGroup.conf }
  ∃ turns requests, createProcessor turns (.configured classicConf) classicConf.groups =
      .ok (.new classicConf, requests) ∧
    List.Forall₂ ValidGroup.Served groups requests

def PinsInnerThreads (innerThrConfs : Table Str InnerThread) : Prop :=
  ∀ name thConf items, innerThrConfs.lookup name = some thConf →
    thConf.cpuset = cpusetText items → items.flatMap Item.cpus ≠ [] →
    ∃ turns request, setInnerThreadAttr turns innerThrConfs name = .ok request ∧
      Requests request (items.flatMap Item.cpus)

/-- A mask of all these CPUs has none but this one. -/
def Only (cpus : List Int) (cpu : Int) : Prop :=
  ∃ c : Cpu, (c : Int) = cpu ∧ ∀ c' : Cpu, (c' : Int) ∈ cpus → c' = c

/-- It has no processors, or each is to have one CPU and all the same. -/
structure ValidGroup.OneCpu (g : ValidGroup) : Prop where
  bounded : ∀ item ∈ g.items, item.Bounded
  one : g.conf.processorNum.toNat = 0 ∨
    g.conf.affinity = oneToOne ∧ g.conf.processorNum.toNat ≤ g.cpus.length ∧
      ∀ cpu ∈ g.cpus.take g.conf.processorNum.toNat, Only g.cpus cpu

/-- No inner thread has CPUs that are well written, and some. -/
def NoInnerThread (innerThrConfs : Table Str InnerThread) : Prop :=
  ∀ name thConf items, innerThrConfs.lookup name = some thConf →
    thConf.cpuset = cpusetText items → items.flatMap Item.cpus = []

/-! ## Masks -/

theorem foldl_cpuSet (cpus : List Int) (set : CpuSet) (c : Cpu) :
    cpus.foldl cpuSet set c = true ↔ set c = true ∨ (c : Int) ∈ cpus := by
  induction cpus generalizing set with
  | nil => exact (or_iff_left List.not_mem_nil).symm
  | cons cpu cpus ih =>
      rw [List.foldl_cons, ih, List.mem_cons, cpuSet, Bool.or_eq_true, decide_eq_true_iff, or_assoc]

theorem mem_mask (cpus : List Int) (c : Cpu) :
    cpus.foldl cpuSet cpuZero c = true ↔ (c : Int) ∈ cpus :=
  (foldl_cpuSet cpus cpuZero c).trans (or_iff_right Bool.false_ne_true)

/-- The mask of all CPUs is that of one of them where no other is in it. -/
theorem isMask_singleton_iff {cpus : List Int} {cpu : Int} (hcpu : cpu ∈ cpus) :
    IsMask (cpus.foldl cpuSet cpuZero) [cpu] ↔ Only cpus cpu := by
  constructor
  · intro h
    obtain ⟨c, -, hc⟩ := (h cpu).mp (List.mem_singleton.mpr rfl)
    refine ⟨c, hc, fun c' hc' => ?_⟩
    have hmem := (h c').mpr ⟨c', (mem_mask cpus c').mpr hc', rfl⟩
    have heq : (c' : Int) = c := (List.mem_singleton.mp hmem).trans hc.symm
    exact Fin.ext (Int.ofNat_inj.mp heq)
  · rintro ⟨c, rfl, honly⟩ x
    rw [List.mem_singleton]
    constructor
    · rintro rfl
      exact ⟨c, (mem_mask cpus c).mpr hcpu, rfl⟩
    · rintro ⟨c', hc', rfl⟩
      rw [honly c' ((mem_mask cpus c').mp hc')]

theorem setSchedAffinity_range (cpus : List Int) (cpuId : BitVec 32) :
    setSchedAffinity cpus rangeText cpuId = none := by
  have hne : rangeText ≠ oneToOne := by decide
  unfold setSchedAffinity
  rw [if_neg (not_not.mpr rfl), if_neg hne]
  exact ite_self none

theorem setSchedAffinity_of_ne {cpus : List Int} {affinity : Str} (hcpus : cpus ≠ [])
    (h : affinity ≠ rangeText) (cpuId : BitVec 32) :
    setSchedAffinity cpus affinity cpuId = some (cpus.foldl cpuSet cpuZero) := by
  rw [setSchedAffinity, if_pos fun h => hcpus (List.length_eq_zero_iff.mp h), if_pos h]

theorem not_requests_none (cpus : List Int) : ¬ Requests none cpus := by
  rintro ⟨set, h, -⟩
  cases h

theorem requests_some_iff (set : CpuSet) (cpus : List Int) :
    Requests (some set) cpus ↔ IsMask set cpus := by
  constructor
  · rintro ⟨set, h, hmask⟩
    cases h
    exact hmask
  · exact fun h => ⟨set, rfl, h⟩

/-- What is requested is as meant for none but `"1to1"`. -/
theorem meant_iff {cpus : List Int} (hcpus : cpus ≠ []) (affinity : Str) (i : Nat)
    (cpuId : BitVec 32) : Meant cpus affinity i (setSchedAffinity cpus affinity cpuId) ↔
      affinity = oneToOne ∧ ∃ h : i < cpus.length, Only cpus cpus[i] := by
  have hne : oneToOne ≠ rangeText := by decide
  by_cases hrange : affinity = rangeText
  · subst hrange
    rw [Meant, if_pos rfl, setSchedAffinity_range]
    exact iff_of_false (not_requests_none cpus) fun h => hne h.1.symm
  rw [Meant, if_neg hrange, setSchedAffinity_of_ne hcpus hrange]
  by_cases hone : affinity = oneToOne ∧ i < cpus.length
  · rw [dif_pos hone, List.get_eq_getElem, requests_some_iff,
      isMask_singleton_iff (List.getElem_mem _)]
    exact ⟨fun h => ⟨hone.1, hone.2, h⟩, fun h => h.2.2⟩
  · rw [dif_neg hone]
    refine iff_of_false (Option.some_ne_none _) ?_
    rintro ⟨haff, hi, -⟩
    exact hone ⟨haff, hi⟩

/-! ## A group -/

theorem served_iff (g : ValidGroup) :
    g.Served ((List.range g.conf.processorNum.toNat).map fun i =>
      setSchedAffinity g.cpus g.conf.affinity (BitVec.ofNat 32 i)) ↔
    ∀ i < g.conf.processorNum.toNat,
      g.conf.affinity = oneToOne ∧ ∃ h : i < g.cpus.length, Only g.cpus g.cpus[i] := by
  constructor
  · rintro ⟨-, h⟩ i hi
    refine (meant_iff g.some_cpu _ i (BitVec.ofNat 32 i)).mp (h i _ ?_)
    rw [List.getElem?_map, List.getElem?_range hi]
    rfl
  · intro h
    refine ⟨by rw [List.length_map, List.length_range], fun i request hrequest => ?_⟩
    rw [List.getElem?_map] at hrequest
    obtain ⟨j, hj, rfl⟩ := Option.map_eq_some_iff.mp hrequest
    obtain ⟨hi, rfl⟩ := List.getElem?_eq_some_iff.mp hj
    rw [List.getElem_range]
    rw [List.length_range] at hi
    exact (meant_iff g.some_cpu _ i _).mpr (h i hi)

theorem all_only_iff (n : Nat) (affinity : Str) (cpus : List Int) :
    (∀ i < n, affinity = oneToOne ∧ ∃ h : i < cpus.length, Only cpus cpus[i]) ↔
      n = 0 ∨ affinity = oneToOne ∧ n ≤ cpus.length ∧ ∀ cpu ∈ cpus.take n, Only cpus cpu := by
  constructor
  · intro h
    rcases Nat.eq_zero_or_pos n with hn | hn
    · exact .inl hn
    have hlen : n ≤ cpus.length := by
      obtain ⟨-, hi, -⟩ := h (n - 1) (by omega)
      omega
    refine .inr ⟨(h 0 hn).1, hlen, fun cpu hcpu => ?_⟩
    obtain ⟨i, hi, rfl⟩ := List.mem_iff_getElem.mp hcpu
    rw [List.length_take] at hi
    rw [List.getElem_take]
    obtain ⟨-, _, honly⟩ := h i (by omega)
    exact honly
  · rintro (rfl | ⟨haff, hlen, honly⟩) i hi
    · exact absurd hi (Nat.not_lt_zero i)
    · refine ⟨haff, by omega, honly _ ?_⟩
      exact List.mem_take_iff_getElem.mpr ⟨i, by omega, rfl⟩

theorem foldl_contexts {α : Type} (name : Str) (f : Nat → α) (is : List Nat) (s : SchedulerClassic)
    (requests : List α) :
    is.foldl (fun r i => (r.1.addContext name, r.2 ++ [f i])) (s, requests) =
      (is.foldl (fun s _ => s.addContext name) s, requests ++ is.map f) := by
  induction is generalizing s requests with
  | nil => rw [List.foldl_nil, List.foldl_nil, List.map_nil, List.append_nil]
  | cons i is ih =>
      rw [List.foldl_cons, List.foldl_cons, ih, List.append_assoc]
      rfl

/-- The contexts do not depend on the CPUs, and the requests on nothing else. -/
theorem createGroup_eq (turns : Nat) (s : SchedulerClassic) (group : SchedGroup) :
    createGroup turns s group = (parseCpuset turns group.cpuset []).map fun cpuset =>
      (s.createGroup group, (List.range group.processorNum.toNat).map fun i =>
        setSchedAffinity cpuset group.affinity (BitVec.ofNat 32 i)) := by
  rw [createGroup]
  cases parseCpuset turns group.cpuset [] with
  | error e => rfl
  | ok cpuset => exact congrArg Except.ok (foldl_contexts ..)

/-- What becomes of a group whose CPUs can be parsed. -/
theorem of_createGroup {turns : Nat} {s : SchedulerClassic} {g : ValidGroup}
    {r : SchedulerClassic × List (Option CpuSet)} (h : createGroup turns s g.conf = .ok r) :
    (∀ item ∈ g.items, item.Bounded) ∧
      r.2 = (List.range g.conf.processorNum.toNat).map fun i =>
        setSchedAffinity g.cpus g.conf.affinity (BitVec.ofNat 32 i) := by
  rw [createGroup_eq, g.written] at h
  cases hparse : parseCpuset turns (cpusetText g.items) [] with
  | error e => rw [hparse] at h; cases h
  | ok out =>
      rw [hparse] at h
      obtain ⟨hbounded, rfl⟩ := of_parseCpuset hparse
      exact ⟨hbounded, congrArg Prod.snd (Except.ok.inj h).symm⟩

theorem createGroup_ok {g : ValidGroup} (h : ∀ item ∈ g.items, item.Bounded)
    (s : SchedulerClassic) : createGroup enough s g.conf =
      .ok (s.createGroup g.conf, (List.range g.conf.processorNum.toNat).map fun i =>
        setSchedAffinity g.cpus g.conf.affinity (BitVec.ofNat 32 i)) := by
  rw [createGroup_eq, g.written, parseCpuset_ok h]
  rfl

theorem oneCpu_of_createGroup {turns : Nat} {s : SchedulerClassic} {g : ValidGroup}
    {r : SchedulerClassic × List (Option CpuSet)} (h : createGroup turns s g.conf = .ok r)
    (hserved : g.Served r.2) : g.OneCpu := by
  obtain ⟨hbounded, hrequests⟩ := of_createGroup h
  rw [hrequests] at hserved
  exact ⟨hbounded, (all_only_iff ..).mp ((served_iff g).mp hserved)⟩

/-! ## All groups, and the inner threads -/

theorem oneCpu_of_createProcessor {turns : Nat} {groups : List ValidGroup} {s : SchedulerClassic}
    {r : SchedulerClassic × List (List (Option CpuSet))}
    (h : createProcessor turns s (groups.map ValidGroup.conf) = .ok r)
    (hserved : List.Forall₂ ValidGroup.Served groups r.2) : ∀ g ∈ groups, g.OneCpu := by
  induction groups generalizing s r with
  | nil => exact fun _ hg => absurd hg List.not_mem_nil
  | cons g groups ih =>
      rw [List.map_cons, createProcessor] at h
      cases hgroup : createGroup turns s g.conf with
      | error e => rw [hgroup] at h; cases h
      | ok first =>
          rw [hgroup] at h
          have h : (createProcessor turns first.1 (groups.map ValidGroup.conf) >>= fun rest =>
            .ok (rest.1, first.2 :: rest.2)) = .ok r := h
          cases hrest : createProcessor turns first.1 (groups.map ValidGroup.conf) with
          | error e => rw [hrest] at h; cases h
          | ok rest =>
              rw [hrest] at h
              cases h
              obtain ⟨hfirst, hserved⟩ := List.forall₂_cons.mp hserved
              exact List.forall_mem_cons.mpr
                ⟨oneCpu_of_createGroup hgroup hfirst, ih hrest hserved⟩

theorem createProcessor_served {groups : List ValidGroup} (h : ∀ g ∈ groups, g.OneCpu)
    (s : SchedulerClassic) :
    ∃ requests, createProcessor enough s (groups.map ValidGroup.conf) =
        .ok ((groups.map ValidGroup.conf).foldl SchedulerClassic.createGroup s, requests) ∧
      List.Forall₂ ValidGroup.Served groups requests := by
  induction groups generalizing s with
  | nil => exact ⟨[], rfl, .nil⟩
  | cons g groups ih =>
      obtain ⟨hg, hgroups⟩ := List.forall_mem_cons.mp h
      obtain ⟨rest, hrest, hserved⟩ := ih hgroups (s.createGroup g.conf)
      refine ⟨_ :: rest, ?_, .cons ((served_iff g).mpr ((all_only_iff ..).mpr hg.one)) hserved⟩
      rw [List.map_cons, createProcessor, createGroup_ok hg.bounded]
      show (createProcessor enough (s.createGroup g.conf) (groups.map ValidGroup.conf) >>=
        fun _ => _) = _
      rw [hrest]
      rfl

theorem pinsProcessors_iff (groups : List ValidGroup) :
    PinsProcessors groups ↔ ∀ g ∈ groups, g.OneCpu := by
  constructor
  · rintro ⟨turns, requests, h, hserved⟩
    exact oneCpu_of_createProcessor h hserved
  · intro h
    obtain ⟨requests, hrequests, hserved⟩ := createProcessor_served h (.configured
      { groups := groups.map ValidGroup.conf })
    exact ⟨enough, requests, hrequests, hserved⟩

/-- An inner thread is never pinned. -/
theorem setInnerThreadAttr_eq_none {turns : Nat} {innerThrConfs : Table Str InnerThread}
    {name : Str} {request : Option CpuSet}
    (h : setInnerThreadAttr turns innerThrConfs name = .ok request) : request = none := by
  rw [setInnerThreadAttr] at h
  split at h
  · exact (Except.ok.inj h).symm
  case h_2 thConf _ =>
    cases hparse : parseCpuset turns thConf.cpuset [] with
    | error e => rw [hparse] at h; cases h
    | ok cpus =>
        rw [hparse] at h
        exact (Except.ok.inj h).symm.trans (setSchedAffinity_range cpus _)

theorem pinsInnerThreads_iff (innerThrConfs : Table Str InnerThread) :
    PinsInnerThreads innerThrConfs ↔ NoInnerThread innerThrConfs := by
  constructor
  · intro h name thConf items hname hwritten
    by_contra hcpus
    obtain ⟨turns, request, hattr, hrequest⟩ := h name thConf items hname hwritten hcpus
    rw [setInnerThreadAttr_eq_none hattr] at hrequest
    exact not_requests_none _ hrequest
  · intro h name thConf items hname hwritten hcpus
    exact absurd (h name thConf items hname hwritten) hcpus

/-- The threads are pinned as meant just where no inner thread is to be, and no group with
processors has a second CPU or another affinity than `"1to1"`. -/
theorem pins_iff (groups : List ValidGroup) (innerThrConfs : Table Str InnerThread) :
    PinsProcessors groups ∧ PinsInnerThreads innerThrConfs ↔
      (∀ g ∈ groups, g.OneCpu) ∧ NoInnerThread innerThrConfs :=
  and_congr (pinsProcessors_iff groups) (pinsInnerThreads_iff innerThrConfs)

/-- `2` -/
def two : Numeral := { text := [0x32], digits := by decide, nonempty := by decide, int := by decide }

/-- One processor of affinity `"range"`, on the CPU 2. -/
def rangeOfTwo : ValidGroup :=
  { conf := { name := [], processorNum := 1, affinity := rangeText, cpuset := [0x32] }
    items := [.cpu two]
    written := rfl
    some_cpu := List.cons_ne_nil _ _ }

theorem range_not_pinned : ¬ ∀ groups innerThrConfs,
    PinsProcessors groups ∧ PinsInnerThreads innerThrConfs := by
  intro h
  have hone := (pinsProcessors_iff _).mp (h [rangeOfTwo] ∅).1 rangeOfTwo List.mem_cons_self
  rcases hone.one with hzero | ⟨haff, -⟩
  · exact absurd hzero (by decide)
  · exact absurd haff (by decide)

end PinThread
end Scheduler
end Cmw
