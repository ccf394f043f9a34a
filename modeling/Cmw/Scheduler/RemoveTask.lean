import Cmw.Scheduler.SchedulerClassic

/-!
# Whose task is removed

`CreateTask` of scheduler/scheduler.cpp gives a task the id that its name is registered with, which
is past its hash where another name has that.  `RemoveTask` of scheduler/policy/scheduler_classic.cpp
removes the task at the hash.
-/

namespace Cmw
namespace Scheduler
namespace Classic

open Base
open Common
open Config
open Library

inductive TaskCall
  | create (name : Str)
  | remove (name : Str)
  deriving DecidableEq, Repr

namespace SchedulerClassic

def taskCall (hash : Str → BitVec 64) (s : SchedulerClassic) :
    TaskCall → Option Bool × SchedulerClassic
  | .create name => s.createTask hash name
  | .remove name => s.removeTask hash name

/-- What there is after some calls, each of which returns. -/
def afterCalls (hash : Str → BitVec 64) (s : SchedulerClassic) :
    List TaskCall → Option SchedulerClassic
  | [] => some s
  | call :: calls =>
      match s.taskCall hash call with
      | (none, _) => none
      | (some _, s) => afterCalls hash s calls

/-- The task is in the map, and in a queue. -/
def Present (s : SchedulerClassic) (p : Nat) : Prop :=
  s.idCr.lookup (s.routine p).id = some p ∧ ∃ g q, p ∈ s.queue g q

/-- The call removes the task of that name where there is one, and no other, and answers whether
there was one. -/
structure RemovesOwn (hash : Str → BitVec 64) (s : SchedulerClassic) (name : Str) : Prop where
  answer : ∃ removed, (s.removeTask hash name).1 = some removed ∧
    (removed = true ↔ ∃ p, s.Present p ∧ (s.routine p).name = name)
  left : ∀ p, (s.removeTask hash name).2.Present p ↔ s.Present p ∧ (s.routine p).name ≠ name

/-- No other name has been registered at the hash of this one. -/
def OwnHash (hash : Str → BitVec 64) (s : SchedulerClassic) (name : Str) : Prop :=
  Probing.Stop (s.globalData.names .task) name (hash name)

/-- There is neither a task at the hash nor one of the name. -/
def NoTask (hash : Str → BitVec 64) (s : SchedulerClassic) (name : Str) : Prop :=
  s.idCr.lookup (hash name) = none ∧ ∀ p, s.Present p → (s.routine p).name ≠ name

/-! ## What the calls keep -/

/-- The tasks in the map are there by the ids of their names.  Without a group there are none. -/
structure Tasked (hash : Str → BitVec 64) (s : SchedulerClassic) : Prop where
  running : s.stop = false
  placed : Placed hash (s.globalData.names .task)
  named : ∀ x p, s.idCr.lookup x = some p →
    s.globalData.names .task x = some (s.routine p).name
  kept : s.Inv ∨ s.classicConf.groups = [] ∧ s.crConfs = ∅ ∧ s.idCr = ∅

section Tasked

variable {hash : Str → BitVec 64} {s : SchedulerClassic} {name : Str}

theorem Tasked.inv {x : BitVec 64} {p : Nat} (h : s.Tasked hash) (hp : s.idCr.lookup x = some p) :
    s.Inv := by
  refine h.kept.resolve_right fun hbare => ?_
  rw [hbare.2.2] at hp
  cases hp

theorem Tasked.present_iff (h : s.Tasked hash) (p : Nat) :
    s.Present p ↔ s.idCr.lookup (s.routine p).id = some p := by
  refine ⟨fun hp => hp.1, fun hp => ⟨hp, ?_⟩⟩
  obtain ⟨-, prio, -, hcount, -⟩ := (h.inv hp).consistent.listed _ p hp
  exact ⟨(s.routine p).groupName, prio, List.count_pos_iff.mp (by omega)⟩

theorem Tasked.named_present {p : Nat} (h : s.Tasked hash) (hp : s.Present p) :
    s.globalData.names .task (s.routine p).id = some (s.routine p).name :=
  h.named _ p hp.1

theorem removeTask_running (h : s.stop = false) (hash : Str → BitVec 64) (name : Str) :
    s.removeTask hash name = s.removeCRoutine (hash name) := by
  rw [removeTask, h, if_neg Bool.false_ne_true]
  rfl

/-- Nothing is at the id. -/
theorem removeCRoutine_none {crid : BitVec 64} (h : s.idCr.lookup crid = none) :
    s.removeCRoutine crid = (some false, s.ensureMutex crid) := by
  rw [removeCRoutine, (same_ensureMutex s crid).2, h]

/-- The task at the id is taken out of the map. -/
theorem removeCRoutine_some {crid : BitVec 64} {p : Nat} (h : s.Inv)
    (hp : s.idCr.lookup crid = some p) :
    (s.removeCRoutine crid).1 = some true ∧
      (s.removeCRoutine crid).2.idCr = s.idCr.erase crid := by
  have hmutex := h.mutex crid p hp
  rw [removeCRoutine, ensureMutex_eq hmutex, hp]
  exact ⟨(removeFromGroup_keeps (inv_stopRoutine h p) hp).1, (same_removeFromGroup _ p).2⟩

theorem tasked_removeCRoutine (h : s.Tasked hash) (crid : BitVec 64) :
    (s.removeCRoutine crid).2.Tasked hash := by
  have hsame := same_removeCRoutine s crid
  refine ⟨hsame.stop.trans h.running, hsame.globalData ▸ h.placed, fun x p hx => ?_, ?_⟩
  · rw [hsame.globalData, hsame.name]
    refine h.named x p ?_
    cases hp : s.idCr.lookup crid with
    | none =>
        rw [removeCRoutine_none hp] at hx
        exact (same_ensureMutex s crid).2 ▸ hx
    | some p' =>
        rw [(removeCRoutine_some (h.inv hp) hp).2, Table.lookup_erase] at hx
        split at hx
        · cases hx
        · exact hx
  · rcases h.kept with hinv | ⟨hgroups, hconfs, hidCr⟩
    · exact .inl (inv_removeCRoutine hinv crid)
    · refine .inr ⟨hsame.classicConf.symm ▸ hgroups, hsame.crConfs.trans hconfs, ?_⟩
      rw [removeCRoutine_none (by rw [hidCr]; rfl)]
      exact (same_ensureMutex s crid).2.trans hidCr

/-- A routine that is dispatched is in the map by its id, where its id was new. -/
theorem idCr_dispatchTask (s : SchedulerClassic) (p : Nat) :
    (s.dispatchTask p).2.idCr = s.idCr ∨
      (s.dispatchTask p).2.idCr = s.idCr.insert (s.routine p).id p := by
  have hidCr := (same_ensureMutex s (s.routine p).id).2
  rw [dispatchTask]
  split
  · exact .inl hidCr
  · refine .inr ((same_enqueue _ p).2.trans ?_)
    rw [hidCr]

/-- Where there is no group there is no task. -/
theorem dispatchTask_bare (hgroups : s.classicConf.groups = []) (hconfs : s.crConfs = ∅)
    (hidCr : s.idCr = ∅) (p : Nat) : (s.dispatchTask p).1 = none := by
  obtain ⟨hsame, hsameCr⟩ := same_ensureMutex s (s.routine p).id
  rw [dispatchTask, if_neg]
  · rw [enqueue, assigned]
    dsimp only
    rw [hsame.crConfs, hconfs, hsame.classicConf, hgroups]
    rfl
  · rw [hsameCr, hidCr]
    exact AList.notMem_empty _

/-- The name is registered, and a routine with its id is dispatched. -/
theorem createTask_running (hash : Str → BitVec 64) (name : Str) (h : s.stop = false) :
    (s.createTask hash name).1 = none ∨
      ∃ taskId globalData, s.globalData.registerTaskName hash name = some (taskId, globalData) ∧
        s.createTask hash name =
          ({ s with globalData }.makeRoutine { id := taskId, name }).dispatchTask s.made := by
  rw [createTask, h, if_neg Bool.false_ne_true]
  cases hregister : s.globalData.registerTaskName hash name with
  | none => exact .inl rfl
  | some out => exact .inr ⟨out.1, out.2, rfl, rfl⟩

theorem tasked_createTask {created : Bool} (h : s.Tasked hash)
    (hreturned : (s.createTask hash name).1 = some created) :
    (s.createTask hash name).2.Tasked hash := by
  have hkeep := fun hinv : s.Inv => inv_createTask hinv hash name
  rcases createTask_running hash name h.running with
    hnone | ⟨taskId, globalData, hregister, hcreate⟩
  · rw [hnone] at hreturned
    cases hreturned
  · have hregistered : s.globalData.register hash .task name = some (taskId, globalData) :=
      hregister
    have hentered := (GlobalData.entered_of_register hregistered).1
    generalize hmade : { s with globalData }.makeRoutine { id := taskId, name } = made at hcreate
    have hself : made.routine s.made = { id := taskId, name } :=
      hmade ▸ Function.update_self ..
    have hother : ∀ p, p ≠ s.made → made.routine p = s.routine p := by
      intro p hp
      rw [← hmade]
      exact Function.update_of_ne hp _ _
    have hsame := same_dispatchTask made s.made
    rw [hcreate] at hreturned hkeep ⊢
    refine ⟨?_, ?_, fun x p hx => ?_, ?_⟩
    · rw [hsame.stop, ← hmade]
      exact h.running
    · rw [hsame.globalData, ← hmade]
      exact hentered.placed h.placed
    · have hold : s.idCr.lookup x = some p →
          globalData.names .task x = some (made.routine p).name := by
        intro hp
        rw [hother p (Nat.ne_of_lt ((h.inv hp).made x p hp))]
        exact hentered.kept (h.named x p hp)
      have hdata : made.globalData = globalData := hmade ▸ rfl
      have hidCr : made.idCr = s.idCr := hmade ▸ rfl
      rw [hsame.globalData, hsame.name, hdata]
      rcases idCr_dispatchTask made s.made with hdispatched | hdispatched
      · rw [hdispatched, hidCr] at hx
        exact hold hx
      · rw [hdispatched, Table.lookup_insert, hself, hidCr] at hx
        split at hx
        case isTrue hid =>
          obtain rfl := Option.some.inj hx
          rw [hself, hid]
          exact hentered.self
        case isFalse => exact hold hx
    · rcases h.kept with hinv | ⟨hgroups, hconfs, hidCr⟩
      · exact .inl (hkeep hinv)
      · have hbare : (made.dispatchTask s.made).1 = none :=
          dispatchTask_bare (hmade ▸ hgroups) (hmade ▸ hconfs) (hmade ▸ hidCr) s.made
        rw [hbare] at hreturned
        cases hreturned

theorem tasked_new (hash : Str → BitVec 64) (classicConf : ClassicConf) :
    (new classicConf).Tasked hash := by
  let start : SchedulerClassic := { classicConf, crConfs := readConfs classicConf }
  let Blank (t : SchedulerClassic) : Prop := start.Same t ∧ t.idCr = ∅
  have hblank : Blank (new classicConf) := by
    refine List.foldlRecOn _ _ ⟨.refl start, rfl⟩ fun t ht group _ => ?_
    refine List.foldlRecOn _ _ ht fun t ht _ _ => ?_
    exact ⟨⟨ht.1.classicConf, ht.1.crConfs, ht.1.stop, ht.1.globalData, ht.1.id, ht.1.name⟩, ht.2⟩
  obtain ⟨hsame, hidCr⟩ := hblank
  refine ⟨hsame.stop, fun x y hy => ?_, fun x p hp => ?_, ?_⟩
  · rw [hsame.globalData] at hy
    cases hy
  · rw [hidCr] at hp
    cases hp
  · by_cases hgroups : classicConf.groups = []
    · refine .inr ⟨hsame.classicConf.symm ▸ hgroups, hsame.crConfs.trans ?_, hidCr⟩
      show readConfs classicConf = ∅
      rw [readConfs, hgroups]
      rfl
    · exact .inl (inv_new hgroups)

theorem tasked_afterCalls {calls : List TaskCall} {t : SchedulerClassic} (h : s.Tasked hash)
    (ht : afterCalls hash s calls = some t) : t.Tasked hash := by
  induction calls generalizing s with
  | nil => exact Option.some.inj ht ▸ h
  | cons call calls ih =>
      rw [afterCalls] at ht
      split at ht
      case h_1 => cases ht
      case h_2 answer t' hcall =>
        refine ih ?_ ht
        cases call with
        | create name =>
            have hcall : s.createTask hash name = (some answer, t') := hcall
            have hkept := tasked_createTask h (congrArg Prod.fst hcall)
            rwa [hcall] at hkept
        | remove name =>
            have hcall : s.removeTask hash name = (some answer, t') := hcall
            have hkept := tasked_removeCRoutine h (hash name)
            rwa [← removeTask_running h.running, hcall] at hkept

end Tasked

/-! ## Whose task it is -/

section Remove

variable {hash : Str → BitVec 64} {s : SchedulerClassic} {name : Str}

/-- What is at the hash is gone, and all else is there. -/
theorem present_removeTask (name : Str) (h : s.Tasked hash) (p : Nat) :
    (s.removeTask hash name).2.Present p ↔
      s.Present p ∧ s.idCr.lookup (hash name) ≠ some p := by
  have hsame := same_removeCRoutine s (hash name)
  rw [removeTask_running h.running, (tasked_removeCRoutine h _).present_iff, h.present_iff, hsame.id]
  cases hp : s.idCr.lookup (hash name) with
  | none =>
      rw [removeCRoutine_none hp, (same_ensureMutex s _).2]
      exact (and_iff_left (Option.some_ne_none p).symm).symm
  | some p' =>
      rw [(removeCRoutine_some (h.inv hp) hp).2, Table.lookup_erase]
      split
      case isTrue hid =>
        rw [hid, hp]
        exact iff_of_false (Option.some_ne_none p).symm fun hboth => hboth.2 hboth.1
      case isFalse hid =>
        refine (and_iff_left_of_imp fun hlookup hsome => hid ?_).symm
        obtain rfl := Option.some.inj hsome
        exact ((h.inv hp).consistent.listed _ p' hp).1

theorem answer_removeTask (h : s.Tasked hash) :
    (s.removeTask hash name).1 = some (s.idCr.lookup (hash name)).isSome := by
  rw [removeTask_running h.running]
  cases hp : s.idCr.lookup (hash name) with
  | none => rw [removeCRoutine_none hp]; rfl
  | some p => exact (removeCRoutine_some (h.inv hp) hp).1

/-- The task at the hash, if there is one, is the one that is removed. -/
theorem removesOwn_iff_lookup (h : s.Tasked hash) :
    RemovesOwn hash s name ↔
      ∀ p, s.Present p → (s.idCr.lookup (hash name) = some p ↔ (s.routine p).name = name) := by
  constructor
  · intro hown p hp
    have hleft := (present_removeTask name h p).symm.trans (hown.left p)
    rw [and_congr_right_iff] at hleft
    exact not_iff_not.mp (hleft hp)
  · intro hsame
    refine ⟨⟨_, answer_removeTask h, ?_⟩, fun p => ?_⟩
    · rw [Option.isSome_iff_exists]
      constructor
      · intro hlookup
        obtain ⟨p, hp⟩ := hlookup
        have hid := ((h.inv hp).consistent.listed _ p hp).1
        have hpresent := (h.present_iff p).mpr (hid.symm ▸ hp)
        exact ⟨p, hpresent, (hsame p hpresent).mp hp⟩
      · intro htask
        obtain ⟨p, hpresent, hname⟩ := htask
        exact ⟨p, (hsame p hpresent).mpr hname⟩
    · rw [present_removeTask name h, and_congr_right_iff]
      exact fun hp => not_congr (hsame p hp)

end Remove

/-- Whatever the hash and the calls before, the task of the name is removed where no other name
has its hash, or where there is nothing to remove. -/
theorem removesOwn_iff (hash : Str → BitVec 64) (classicConf : ClassicConf) (calls : List TaskCall)
    {s : SchedulerClassic} (hs : afterCalls hash (new classicConf) calls = some s) (name : Str) :
    RemovesOwn hash s name ↔ OwnHash hash s name ∨ NoTask hash s name := by
  have h := tasked_afterCalls (tasked_new hash classicConf) hs
  rw [removesOwn_iff_lookup h]
  constructor
  · intro hsame
    cases hp : s.idCr.lookup (hash name) with
    | none => exact .inr ⟨hp, fun p hpresent hname => Option.some_ne_none p <|
        ((hsame p hpresent).mpr hname).symm.trans hp⟩
    | some p =>
        have hid := ((h.inv hp).consistent.listed _ p hp).1
        have hname := (hsame p ((h.present_iff p).mpr (hid.symm ▸ hp))).mp hp
        exact .inl (.inr ((h.named _ p hp).trans (congrArg some hname)))
  · intro hcond p hpresent
    rcases hcond with hown | ⟨hnone, hother⟩
    · have hnamed := h.named_present hpresent
      constructor
      · intro hp
        rcases hown with hfree | hself
        · exact absurd ((h.named _ p hp).symm.trans hfree) (Option.some_ne_none _)
        · exact Option.some.inj ((h.named _ p hp).symm.trans hself)
      · intro hname
        -- the search for the name ends at its hash
        have hid := hown.not_past (h.placed _ _ (hname ▸ hnamed))
        exact hid ▸ hpresent.1
    · rw [hnone]
      exact iff_of_false (Option.some_ne_none p).symm (hother p hpresent)

theorem removesOwn_iff_created :
    ∃ s, afterCalls (fun _ => 0) (new (defaultConf 1)) [.create [0x61]] = some s ∧
      (RemovesOwn (fun _ => 0) s [0x61] ↔
        OwnHash (fun _ => 0) s [0x61] ∨ NoTask (fun _ => 0) s [0x61]) :=
  ⟨_, rfl, removesOwn_iff (fun _ => 0) (defaultConf 1) [.create [0x61]] rfl [0x61]⟩

/-- A name that has not been registered, whose hash another has. -/
theorem other_not_removesOwn :
    ∃ s, afterCalls (fun _ => 0) (new (defaultConf 1)) [.create [0x61]] = some s ∧
      ¬ RemovesOwn (fun _ => 0) s [0x62] := by
  obtain ⟨s, hs, hp, hname⟩ : ∃ s,
      afterCalls (fun _ => 0) (new (defaultConf 1)) [.create [0x61]] = some s ∧
        s.idCr.lookup 0 = some 0 ∧ (s.routine 0).name = [0x61] := by
    refine ⟨_, rfl, ?_, ?_⟩
    · rfl
    · rfl
  refine ⟨s, hs, fun hown => ?_⟩
  have h := tasked_afterCalls (tasked_new (fun _ => 0) (defaultConf 1)) hs
  have hid := ((h.inv hp).consistent.listed 0 0 hp).1
  have hsame := (removesOwn_iff_lookup h).mp hown 0 ((h.present_iff 0).mpr (hid.symm ▸ hp))
  rw [hname] at hsame
  exact absurd (hsame.mp hp) (by decide)


end SchedulerClassic
end Classic
end Scheduler
end Cmw
