import Cmw.Scheduler.Turns
import Cmw.Scheduler.DataRoutine

/-!
# No wakeup is lost

The routine announces DATA_WAIT before it looks for a message.  A dispatcher that stores a
message after that sees DATA_WAIT, and clears the flag; or it sees READY, and then the
routine has yet to look.  This needs a callback: a message that is dispatched before it has
been registered may be left alone.
-/

namespace Cmw
namespace Scheduler

open Library
open Library.Thread

variable {ι σ ε μ : Type} [DecidableEq ι]

/-- The messages that are counted on: all, or those whose dispatch was called after
`CreateTask` had returned. -/
def Counted (all : Bool) (s : Shared ι σ) (d : Nat) : Prop := all = true ∨ s.since d = .after

/-- Nobody is on the way to wake the routine for this message. -/
def Finished (s : Shared ι σ) (d : Nat) : Prop := ∀ i, (s.own i).message ≠ some d

namespace Wakeup

structure Inv (V : Visitor σ ε μ) (all : Bool) (s : Shared ι σ) : Prop where
  tasks : Scheduler.Inv s.tasks
  valid : V.Valid s.visitor
  ready : (s.tasks.1.routine ()).state = .ready → s.tasks.2.due () = true
  registered : s.callback = true → s.tasks.1.idCr () = true
  called : ∀ i, (s.own i).since = .after → s.callback = true
  after : ∀ d, s.since d = .after → s.callback = true
  stored : ∀ k d, s.storedAt k = some d → d < s.messages
  unfetched : ∀ k d, V.unfetched s.visitor k → s.storedAt k = some d → Counted all s d →
    Finished s d → Awake () s.tasks

structure Rely (i : ι) (s t : Shared ι σ) : Prop where
  tasks : Scheduler.Rely i s.tasks t.tasks
  own : t.own i = s.own i
  callback : s.callback = true → t.callback = true

/-- No `Notify` finds the callback not yet registered, while its message is in the buffer
and the routine has looked already. -/
def Cond (V : Visitor σ ε μ) (all : Bool) (i : ι) (o : (dataSig ε μ).Op) (s : Shared ι σ) : Prop :=
  match o with
  | .inr .callback => all = true → s.callback = false → ∀ k d, (s.own i).message = some d →
      V.unfetched s.visitor k → s.storedAt k = some d → Awake () s.tasks
  | _ => True

def Pre (i : ι) (o : (dataSig ε μ).Op) (s : Shared ι σ) : Prop :=
  match o with
  | .inl o => Scheduler.Pre i o s.tasks
  | .inr (.fill _) => (s.own i).message = none
  | .inr .registerCallback => s.tasks.1.idCr () = true
  | .inr .tryFetch => Held i () .dataWait true s.tasks
  | .inr _ => True

/-! ### What the operations keep -/

section Keeps

variable {V : Visitor σ ε μ} {all : Bool} {i : ι} {s : Shared ι σ}

omit [DecidableEq ι] in
theorem Rely.refl (i : ι) (s : Shared ι σ) : Rely i s s := ⟨.refl i _, rfl, fun h => h⟩

theorem ready_noted {o : Op Unit} {x : Bool} {m : Memory ι Unit} (hpre : Scheduler.Pre i o m)
    (h : (m.1.routine ()).state = .ready → m.2.due () = true) :
    ((noted i o x m).2.1.routine ()).state = .ready → (noted i o x m).2.2.due () = true := by
  cases o with
  | setState w state =>
      obtain ⟨_, hstate⟩ := hpre
      intro hready
      rcases hstate with ⟨_, hdue⟩ | hwait
      · exact hdue
      · rw [hwait] at hready
        cases hready
  | acquire w =>
      rcases acquire_cases i w x m with ⟨_, hnoted⟩ | ⟨_, hnoted⟩
      · rw [hnoted]
        exact h
      · rw [hnoted]
        exact h
  | testAndSetUpdated w =>
      rcases testAndSet_cases i w x m with ⟨_, hnoted⟩ | ⟨_, hnoted⟩
      · rw [hnoted]
        exact h
      · rw [hnoted]
        exact fun _ => rfl
  | _ => exact h

/-- A thread has done what it has to for its message. -/
theorem Inv.finish (hs : Inv V all s)
    (h : ∀ k d, (s.own i).message = some d → V.unfetched s.visitor k → s.storedAt k = some d →
      Counted all s d → Awake () s.tasks) :
    Inv V all (s.finish i) ∧ ∀ j, j ≠ i → Rely j s (s.finish i) := by
  refine ⟨{ hs with called := fun j hj => ?_, unfetched := fun k d hk hd hcounted hfinished => ?_ },
    fun j hj => ⟨.refl j _, Function.update_of_ne hj _ _, fun h => h⟩⟩
  · have hj : (Function.update s.own i { s.own i with message := none } j).since = .after := hj
    rw [Function.update_apply] at hj
    split at hj
    · exact hs.called i hj
    · exact hs.called j hj
  · by_cases hmine : (s.own i).message = some d
    · exact h k d hmine hk hd hcounted
    · refine hs.unfetched k d hk hd hcounted fun j hj => ?_
      by_cases hji : j = i
      · exact hmine (hji ▸ hj)
      · exact hfinished j ((congrArg Own.message (Function.update_of_ne hji _ _)).trans hj)

/-- A thread stores a message that nobody has been told of. -/
theorem Inv.store (hs : Inv V all s) (hnone : (s.own i).message = none) {k : Nat} {v : σ}
    (hvalid : V.Valid v) (hv : ∀ l, V.unfetched v l → l ≠ k → V.unfetched s.visitor l) :
    Inv V all ({ s with visitor := v }.store i k) ∧
      ∀ j, j ≠ i → Rely j s ({ s with visitor := v }.store i k) := by
  have hother : ∀ {d}, d < s.messages →
      Function.update s.since s.messages (s.own i).since d = s.since d := fun hd =>
    Function.update_of_ne (Nat.ne_of_lt hd) _ _
  refine ⟨{ hs with
    valid := hvalid, called := fun j hj => ?_, after := fun d hd => ?_, stored := fun l d hd => ?_,
    unfetched := fun l d hl hd hcounted hfinished => ?_ },
    fun j hj => ⟨.refl j _, Function.update_of_ne hj _ _, fun h => h⟩⟩
  · have hj : (Function.update s.own i { s.own i with message := some s.messages } j).since =
        .after := hj
    rw [Function.update_apply] at hj
    split at hj
    · exact hs.called i hj
    · exact hs.called j hj
  · have hd : Function.update s.since s.messages (s.own i).since d = .after := hd
    rw [Function.update_apply] at hd
    split at hd
    · exact hs.called i hd
    · exact hs.after d hd
  · have hd : Function.update s.storedAt k (some s.messages) l = some d := hd
    show d < s.messages + 1
    rw [Function.update_apply] at hd
    split at hd
    · have := Option.some.inj hd
      omega
    · exact Nat.lt_succ_of_lt (hs.stored l d hd)
  · have hd : Function.update s.storedAt k (some s.messages) l = some d := hd
    rw [Function.update_apply] at hd
    split at hd
    case isTrue =>
      refine absurd ?_ (hfinished i)
      exact (congrArg Own.message (Function.update_self ..)).trans hd
    case isFalse hlk =>
      have hlt := hs.stored l d hd
      refine hs.unfetched l d (hv l hl hlk) hd (hcounted.imp id fun h => ?_) fun j hj => ?_
      · exact (hother hlt).symm.trans h
      · by_cases hji : j = i
        · rw [hji, hnone] at hj
          cases hj
        · exact hfinished j ((congrArg Own.message (Function.update_of_ne hji _ _)).trans hj)

/-- The operations of the routine. -/
theorem keeps_task {o : Op Unit} {x : Bool} (hs : Inv V all s) (hpre : Scheduler.Pre i o s.tasks) :
    Inv V all (dataExec V i (.inl o) x s).2 ∧
      ∀ j, j ≠ i → Rely j s (dataExec V i (.inl o) x s).2 := by
  obtain ⟨htasks, hrely⟩ := Scheduler.keeps (x := x) hs.tasks hpre
  have hinv : Inv V all { s with tasks := (noted i o x s.tasks).2 } :=
    { hs with
      tasks := htasks
      ready := ready_noted hpre hs.ready
      registered := fun h => idCr_noted (hs.registered h) o x
      unfetched := fun k d hk hd hcounted hfinished =>
        (hs.unfetched k d hk hd hcounted hfinished).noted o x }
  have hrest : ∀ j, j ≠ i → Rely j s { s with tasks := (noted i o x s.tasks).2 } := fun j hj =>
    ⟨hrely j hj, rfl, fun h => h⟩
  simp only [dataExec]
  split
  case isFalse => exact ⟨hinv, hrest⟩
  case isTrue hfinishes =>
    have hwoken : Awake () (noted i o x s.tasks).2 := by
      cases o with
      | state w =>
          have hne : (noted i (.state w) x s.tasks).1 ≠ .dataWait := by simpa [finishes] using hfinishes
          exact .inr (hs.ready ((hs.tasks.state w).resolve_right hne))
      | setUpdateFlag w => exact awake_setUpdateFlag
      | _ => cases hfinishes
    obtain ⟨hfinish, hrely'⟩ := hinv.finish (i := i) fun _ _ _ _ _ _ => hwoken
    exact ⟨hfinish, fun j hj => ⟨(hrest j hj).tasks.trans (hrely' j hj).tasks,
      (hrely' j hj).own.trans (hrest j hj).own, fun h => (hrely' j hj).callback ((hrest j hj).callback h)⟩⟩

/-- A fetch that fails finds no message that has been stored. -/
theorem keeps_tryFetch {x : Bool} (hs : Inv V all s) (hpre : Held i () .dataWait true s.tasks) :
    Inv V all (dataExec V i (.inr .tryFetch) x s).2 ∧
      ∀ j, j ≠ i → Rely j s (dataExec V i (.inr .tryFetch) x s).2 := by
  obtain ⟨hw, hstate, hdue⟩ := hpre
  simp only [dataExec]
  split
  case isTrue =>
    exact ⟨{ hs with
      valid := V.valid_tryFetch hs.valid
      unfetched := fun _ _ _ _ _ _ => .inr hdue }, fun j _ => ⟨.refl j _, rfl, fun h => h⟩⟩
  case isFalse hnone =>
    have hnone := Option.not_isSome_iff_eq_none.mp hnone
    have hlocked := hs.tasks.locked i () hw
    refine ⟨{ hs with
      tasks := ⟨hs.tasks.locked, hs.tasks.unique, hs.tasks.state, fun w hlock => ?_⟩
      valid := V.valid_tryFetch hs.valid
      ready := fun hready => ?_
      unfetched := fun k _ hk => absurd hk (V.unfetched_tryFetch hs.valid hnone) },
      fun j hj => ⟨⟨fun _ h => h, rfl, fun _ _ => rfl, fun w hw' => ?_⟩, rfl, fun h => h⟩⟩
    · exact absurd (hlock.symm.trans hlocked) Bool.false_ne_true
    · exact absurd (hstate.symm.trans hready) (by decide)
    · exact absurd rfl (ne_of_holds hs.tasks hw hj hw')

theorem keeps {o : (dataSig ε μ).Op} {x : Bool} (hs : Inv V all s) (hpre : Pre i o s)
    (hcond : Cond V all i o s) :
    Inv V all (dataExec V i o x s).2 ∧ ∀ j, j ≠ i → Rely j s (dataExec V i o x s).2 := by
  rcases o with o | o
  · exact keeps_task hs hpre
  · cases o with
    | fill m =>
        simp only [dataExec]
        cases hstores : V.stores s.visitor m with
        | none =>
            refine ⟨{ hs with
              valid := V.valid_fill hs.valid
              unfetched := fun k d hk => hs.unfetched k d ?_ },
              fun j _ => ⟨.refl j _, rfl, fun h => h⟩⟩
            refine (V.unfetched_fill hk).resolve_right fun h => ?_
            rw [hstores] at h
            cases h
        | some k =>
            refine hs.store hpre (V.valid_fill hs.valid) fun l hl hlk => ?_
            refine (V.unfetched_fill hl).resolve_right fun h => ?_
            rw [hstores] at h
            exact hlk (Option.some.inj h).symm
    | callback =>
        simp only [dataExec]
        split
        case isTrue => exact ⟨hs, fun j _ => .refl j s⟩
        case isFalse hno =>
          have hno := Bool.eq_false_iff.mpr hno
          refine hs.finish fun k d hd hk hstored hcounted => ?_
          rcases hcounted with hall | hafter
          · exact hcond hall hno k d hd hk hstored
          · exact absurd (hno.symm.trans (hs.after d hafter)) Bool.false_ne_true
    | registerCallback =>
        exact ⟨{ hs with
          registered := fun _ => hpre
          called := fun _ _ => rfl
          after := fun _ _ => rfl }, fun j _ => ⟨.refl j _, rfl, fun _ => rfl⟩⟩
    | tryFetch => exact keeps_tryFetch hs hpre
    | run m => exact ⟨hs, fun j _ => .refl j s⟩

end Keeps

variable (ι) in
def protocol (V : Visitor σ ε μ) (all : Bool) :
    Protocol (dataSig ε μ) ι Unit (Shared ι σ) Bool (dataExec V) where
  Inv := Inv V all
  Rely := Rely
  Cond i _ o _ s := Cond V all i o s
  Pre i _ o s := Pre i o s
  Crash := False
  Hang _ _ := True
  refl := Rely.refl
  trans h h' := ⟨h.tasks.trans h'.tasks, h'.own.trans h.own, fun hs => h'.callback (h.callback hs)⟩
  hang_stable h _ := h
  keeps hs hpre hcond := keeps hs hpre hcond

variable (ι) in
theorem lifts (V : Visitor σ ε μ) (all : Bool) :
    (Scheduler.protocol ι Unit).Lifts (protocol ι V all) Shared.tasks where
  rely h := h.tasks
  inv h := h.tasks
  pre _ h := h
  cond _ _ := trivial
  answer := rfl
  memory {i o x s} := by
    simp only [dataExec]
    split <;> rfl
  crash h := h
  hang h := h

/-! ### What the functions keep to -/

section Functions

variable {V : Visitor σ ε μ} {all : Bool} {i : ι} {r : Unit} {s : Shared ι σ}

/-- A thread that holds no routine, and has nothing to do for a message. -/
def Free (i : ι) (s : Shared ι σ) : Prop := (s.own i).message = none ∧ s.tasks.2.holds i = none

omit [DecidableEq ι] in
theorem Free.of_rely {t : Shared ι σ} (h : Free i s) (hst : Rely i s t) : Free i t :=
  ⟨(congrArg Own.message hst.own).trans h.1, hst.tasks.holds.trans h.2⟩

theorem task_safe {o : Op Unit} {Q : Unit → Ans o → Shared ι σ → Prop}
    (hpre : ∀ t, Rely i s t → Scheduler.Pre i o t.tasks)
    (hQ : ∀ x t, Rely i s t → Inv V all t →
      Q r (noted i o x t.tasks).1 (dataExec V i (.inl o) x t).2) :
    (protocol ι V all).Safe i Q (o.get.lift r) s :=
  Protocol.safe_ask (S := dataSig ε μ) (o := .inl o) fun t hst ht =>
    ⟨hpre t hst, fun x _ => hQ x t hst ht⟩

theorem tasks_exec (V : Visitor σ ε μ) (i : ι) (o : Op Unit) (x : Bool) (s : Shared ι σ) :
    (dataExec V i (.inl o) x s).2.tasks = (noted i o x s.tasks).2 :=
  (lifts ι V false).memory

theorem message_exec {o : Op Unit} {x : Bool}
    (h : finishes o (noted i o x s.tasks).1 = true ∨ (s.own i).message = none) :
    ((dataExec V i (.inl o) x s).2.own i).message = none := by
  simp only [dataExec]
  split
  case isTrue =>
    show (Function.update s.own i { s.own i with message := none } i).message = none
    rw [Function.update_self]
  case isFalse hno => exact h.resolve_left hno

/-- An operation of a thread that stays free. -/
theorem free_safe {o : Op Unit} {Q : Unit → Ans o → Shared ι σ → Prop} (h : Free i s)
    (hpre : ∀ m, Scheduler.Pre i o m) (hholds : ∀ x m, (noted i o x m).2.2.holds = m.2.holds)
    (hQ : ∀ x t, Free i t → Q r x t) : (protocol ι V all).Safe i Q (o.get.lift r) s := by
  refine task_safe (fun t _ => hpre t.tasks) fun x t hst _ => hQ _ _ ⟨?_, ?_⟩
  · exact message_exec (.inr (h.of_rely hst).1)
  · rw [tasks_exec, hholds]
    exact (h.of_rely hst).2

theorem clear_safe {Q : Unit → Unit → Shared ι σ → Prop} (h : s.tasks.2.holds i = none)
    (hQ : ∀ t, Free i t → Q r () t) :
    (protocol ι V all).Safe i Q ((Op.setUpdateFlag ()).get.lift r) s := by
  refine task_safe (fun _ _ => trivial) fun x t hst _ => hQ _ ⟨message_exec (.inl rfl), ?_⟩
  rw [tasks_exec]
  exact hst.tasks.holds.trans h

/-- Where the callback has been registered, the message is seen to. -/
theorem notifyProcessor_safe {Q : Unit → Bool → Shared ι σ → Prop} (hcallback : s.callback = true)
    (hfree : s.tasks.2.holds i = none) (hQ : ∀ t, Free i t → Q r true t) :
    (protocol ι V all).Safe i Q ((notifyProcessor ()).lift r) s := by
  simp only [notifyProcessor, isWaiting, Code.lift_seq, Code.lift_ite, Code.lift_pure,
    Protocol.safe_seq, Protocol.safe_ite, Protocol.safe_pure]
  have hend : ∀ t, Free i t → (protocol ι V all).Safe i (fun x _ t => Q x true t)
      ((Op.notifyGroup ()).get.lift r) t := fun t ht =>
    free_safe ht (fun _ => trivial) (fun _ _ => rfl) fun _ u hu => hQ u hu
  refine task_safe (fun _ _ => trivial) fun x t hst ht => ⟨fun _ => ?_, fun hno => ?_⟩
  · have hfree : t.tasks.2.holds i = none := hst.tasks.holds.trans hfree
    refine task_safe (fun _ _ => trivial) fun x u htu _ => ?_
    have hfree : (dataExec V i (.inl (.state ())) x u).2.tasks.2.holds i = none := by
      rw [tasks_exec]
      exact htu.tasks.holds.trans hfree
    refine ⟨fun _ => ⟨fun _ => clear_safe hfree hend, fun hne => absurd trivial hne⟩, fun hne => ?_⟩
    -- the routine is not waiting for data
    have hseen : Free i (dataExec V i (.inl (.state ())) x u).2 :=
      ⟨message_exec (.inl (bne_iff_ne.mpr hne)), hfree⟩
    refine free_safe hseen (fun _ => trivial) (fun _ _ => rfl) fun y v hv => ⟨fun _ => ?_, fun _ => ?_⟩
    · exact clear_safe hv.2 hend
    · exact hend v hv
  · exact absurd (ht.registered (hst.callback hcallback)) hno

theorem dispatch_safe {m : ε} {Q : Unit → Bool → Shared ι σ → Prop} (h : Free i s)
    (hQ : ∀ x t, Free i t → Q r x t) : (protocol ι V all).Safe i Q (dispatch V m r) s := by
  simp only [dispatch, Protocol.safe_seq, Protocol.safe_ite, Protocol.safe_pure]
  refine Protocol.safe_ask fun t hst _ => ⟨(h.of_rely hst).1, fun x _ => ?_⟩
  have hholds : (dataExec V i (.inr (.fill m)) x t).2.tasks.2.holds i = none := by
    simp only [dataExec]
    cases V.stores t.visitor m <;> exact (h.of_rely hst).2
  refine ⟨fun _ => ?_, fun hnot => hQ false _ ⟨?_, hholds⟩⟩
  · refine Protocol.safe_ask fun u htu _ => ⟨trivial, fun y _ => ?_⟩
    have hholds := htu.tasks.holds.trans hholds
    simp only [dataExec]
    refine ⟨fun hcallback => ?_, fun hno => ?_⟩
    · rw [if_pos hcallback]
      exact notifyProcessor_safe hcallback hholds fun v hv => hQ true v hv
    · rw [if_neg hno]
      refine hQ true _ ⟨?_, hholds⟩
      show (Function.update u.own i { u.own i with message := none } i).message = none
      rw [Function.update_self]
  · simp only [dataExec]
    cases hstores : V.stores t.visitor m with
    | none => exact (h.of_rely hst).1
    | some k => exact absurd (V.notified_of_stores hstores) hnot

theorem createTask_safe {Q : Unit → Bool → Shared ι σ → Prop} (hs : Inv V all s) (h : Free i s)
    (hQ : ∀ x t, Free i t → Q r x t) :
    (protocol ι V all).Safe i Q (Scheduler.createTask (ε := ε) (μ := μ) r) s := by
  simp only [createTask, Protocol.safe_seq, Protocol.safe_ite, Protocol.safe_pure]
  have hdispatch := Protocol.Safe.lift (lifts ι V all) (F := fun t => (t.own i).message = none)
    (fun s t h hst => (congrArg Own.message hst.own).trans h) (fun o x s h => message_exec (.inr h)) h.1
    (dispatchTask_safe (r := r) (w := ()) (Q := fun _ _ n => n.2.holds i = none ∧ n.1.idCr () = true)
      h.2 fun _ n hn hid => ⟨hn, hid⟩)
  refine hdispatch.mono hs fun _ fresh t _ ht => ⟨fun _ => ?_, fun _ => hQ false t ⟨ht.1, ht.2.1⟩⟩
  refine Protocol.safe_ask fun u htu _ => ⟨htu.tasks.idCr () ht.2.2, fun x _ => hQ true _ ?_⟩
  have hfree : Free i u := Free.of_rely ⟨ht.1, ht.2.1⟩ htu
  exact hfree

/-- A round of the routine: it is READY again, or it has found nothing. -/
theorem fetchRound_safe {Q : Unit → Unit → Shared ι σ → Prop} (hmessage : (s.own i).message = none)
    (hheld : Held i () .ready true s.tasks)
    (hQ : ∀ t, (t.own i).message = none → t.tasks.2.holds i = some () → Settled () t.tasks → Q r () t) :
    (protocol ι V all).Safe i Q (fetchRound r) s := by
  simp only [fetchRound, Protocol.safe_seq, Protocol.safe_ite, Protocol.safe_pure,
    Protocol.safe_deref]
  refine task_safe (fun t hst => ⟨(hheld.of_rely hst.tasks).1, .inr rfl⟩) fun x t hst _ => ?_
  have hheld : Held i () .dataWait true (dataExec V i (.inl (.setState () .dataWait)) x t).2.tasks := by
    rw [tasks_exec]
    have h := hheld.of_rely hst.tasks
    exact ⟨h.1, congrArg CRoutine.state (set_routine.trans (if_pos rfl)), h.2.2⟩
  have hmessage : ((dataExec V i (.inl (.setState () .dataWait)) x t).2.own i).message = none :=
    message_exec (.inr ((congrArg Own.message hst.own).trans hmessage))
  refine Protocol.safe_ask fun u htu _ => ⟨hheld.of_rely htu.tasks, fun y _ => ?_⟩
  have hheld : Held i () .dataWait true u.tasks := hheld.of_rely htu.tasks
  have hmessage : (u.own i).message = none := (congrArg Own.message htu.own).trans hmessage
  simp only [dataExec]
  refine ⟨fun hsome => ?_, fun hnone => ?_⟩
  · rw [if_pos hsome]
    refine ⟨fun m _ => ?_, fun hnone => ?_⟩
    · refine Protocol.safe_ask fun v huv _ => ⟨trivial, fun z _ => ?_⟩
      have hheld : Held i () .dataWait true v.tasks := hheld.of_rely huv.tasks
      refine task_safe (fun q hvq => ?_) fun z q hvq _ => ?_
      · have h : Held i () .dataWait true q.tasks := hheld.of_rely hvq.tasks
        exact ⟨h.1, .inl ⟨rfl, h.2.2⟩⟩
      · have h : Held i () .dataWait true q.tasks := hheld.of_rely hvq.tasks
        have hown : q.own i = u.own i := hvq.own.trans huv.own
        refine hQ _ (message_exec (.inr ((congrArg Own.message hown).trans hmessage))) ?_ ?_
        · rw [tasks_exec]
          exact h.1
        · rw [tasks_exec]
          have hdue : (noted i (.setState () .ready) z q.tasks).2.2.due () = true := h.2.2
          have hstate : ((noted i (.setState () .ready) z q.tasks).2.1.routine ()).state = .ready :=
            congrArg CRoutine.state (set_routine.trans (if_pos rfl))
          exact iff_of_true hdue hstate
    · rw [hnone] at hsome
      cases hsome
  · rw [if_neg hnone]
    refine hQ _ hmessage hheld.1 (iff_of_false Bool.false_ne_true ?_)
    rw [hheld.2.1]
    decide

theorem body_safe {c : DataCall ε} (hs : Inv V all s) (h : Free i s) :
    (protocol ι V all).Safe i (fun _ _ t => Free i t) (c.body V r) s := by
  cases c with
  | createTask =>
      simp only [DataCall.body, Protocol.safe_seq, Protocol.safe_pure]
      exact createTask_safe hs h fun _ _ ht => ht
  | dispatch m =>
      simp only [DataCall.body, Protocol.safe_seq, Protocol.safe_pure]
      exact dispatch_safe h fun _ _ ht => ht
  | turn =>
      simp only [DataCall.body, Protocol.safe_seq, Protocol.safe_pure]
      refine turn_safe (lifts ι V all) (F := fun t => (t.own i).message = none)
        (fun s t h hst => (congrArg Own.message hst.own).trans h)
        (fun o x s h => message_exec (.inr h)) hs h.1 h.2 (fun t _ hmessage hheld => ?_)
        fun t _ hmessage hholds => ⟨hmessage, hholds⟩
      exact fetchRound_safe hmessage hheld fun u hmessage hholds hsettled =>
        ⟨hmessage, hholds, hsettled⟩

end Functions

/-! ### Every run -/

section Run

variable {V : Visitor σ ε μ} {all : Bool}

theorem keeps_enter {i : ι} {c : DataCall ε} {s : Shared ι σ} (hs : Inv V all s) (h : Free i s) :
    Inv V all (dataEnter i c s) ∧ ∀ j, j ≠ i → Rely j s (dataEnter i c s) := by
  have hown : ∀ j, (Function.update s.own i { since := s.now } j).message = (s.own j).message := by
    intro j
    rw [Function.update_apply]
    split
    case isTrue hj => rw [hj, h.1]
    case isFalse => rfl
  refine ⟨{ hs with
    called := fun j hj => ?_
    unfetched := fun k d hk hd hcounted hfinished => hs.unfetched k d hk hd hcounted fun j hj =>
      hfinished j ((hown j).trans hj) }, fun j hj => ⟨.refl j _, Function.update_of_ne hj _ _,
    fun h => h⟩⟩
  have hj : (Function.update s.own i { since := s.now } j).since = .after := hj
  rw [Function.update_apply] at hj
  split at hj
  · show s.callback = true
    cases hcallback : s.callback with
    | true => rfl
    | false =>
        simp only [Shared.now, hcallback] at hj
        cases hcreating : s.creating <;> simp [hcreating] at hj
  · exact hs.called j hj

omit [DecidableEq ι] in
theorem inv_start (V : Visitor σ ε μ) (all : Bool) :
    Inv V all (dataStart ι V).shared where
  tasks := ⟨nofun, nofun, fun _ => .inl rfl, fun _ _ => ⟨fun _ => rfl, fun _ => rfl⟩⟩
  valid := V.valid_start
  ready _ := rfl
  registered := nofun
  called := nofun
  after := nofun
  stored := nofun
  unfetched k _ hk := absurd hk (V.unfetched_start k)

/-- The condition on the steps, where all messages are counted on. -/
def Meets (V : Visitor σ ε μ) (all : Bool) (t : DataState ι σ ε μ) : DataStep ι ε → Prop
  | .call _ _ => True
  | .act i _ =>
      match t.threads i with
      | .call _ o _ => Cond V all i o t.shared
      | _ => True

theorem holds_of_meets {es : List (DataStep ι ε)}
    (hes : Run.Along (dataStep V) (Meets V all) (dataStart ι V) es) :
    (protocol ι V all).Holds (fun i _ _ t => Free i t) (Run.exec (dataStep V) (dataStart ι V) es) := by
  have hmeets : Run.Along (dataStep V) ((protocol ι V all).Meets fun _ _ _ _ => True)
      (dataStart ι V) es := by
    refine Run.along_mono (fun t e h => ?_) hes
    cases e with
    | call i c => exact fun _ _ _ => trivial
    | act i x =>
        intro r o k hi
        simp only [Meets, hi] at h
        exact h
  have hstart : (protocol ι V all).Holds (fun i _ _ t => Free i t) (dataStart ι V) :=
    ⟨inv_start V all, fun _ => ⟨rfl, rfl⟩⟩
  refine Protocol.sound ?_ ?_ ?_ hstart hmeets _ (Run.exec_mem_states _ _ _)
  · exact fun i r a s t h hst _ => h.of_rely hst
  · exact fun i c r a s hs h _ => keeps_enter hs h
  · intro i c r a s hs h _
    have hinv := (keeps_enter (c := c) hs h).1
    refine body_safe hinv ⟨?_, h.2⟩
    show (Function.update s.own i { since := s.now } i).message = none
    rw [Function.update_self]

/-- The visitor has no unfetched message whose dispatch was called after `CreateTask` had
returned and has come to its end, while the routine is parked. -/
def NoLostWakeup (V : Visitor σ ε μ) (s : Shared ι σ) : Prop :=
  ∀ k d, V.unfetched s.visitor k → s.storedAt k = some d → s.since d = .after → Finished s d →
    ¬ Parked () s.tasks

theorem noLostWakeup (V : Visitor σ ε μ) (es : List (DataStep ι ε)) :
    NoLostWakeup V (Run.exec (dataStep V) (dataStart ι V) es).shared := by
  have hes : Run.Along (dataStep V) (Meets V false) (dataStart ι V) es := by
    refine Run.along_mono (fun t e _ => ?_) (Run.along_true _ _)
    cases e with
    | call i c => trivial
    | act i x =>
        simp only [Meets]
        split
        case h_1 r o k _ =>
          rcases o with o | o
          · trivial
          · cases o with
            | callback => exact fun h => absurd h Bool.false_ne_true
            | _ => trivial
        case h_2 => trivial
  have hinv := (holds_of_meets hes).inv
  intro k d hk hd hafter hfinished
  exact (hinv.unfetched k d hk hd (.inr hafter) hfinished).not_parked hinv.tasks

/-- The routine is READY, its flag is clear, or it is held by a processor and has yet to look
for messages. -/
def Runnable (m : Memory ι Unit) : Prop :=
  (m.1.routine ()).state = .ready ∨ (m.1.routine ()).updated = false ∨
    (m.1.routine ()).lock = true ∧ m.2.due () = true

/-- After `CreateTask` has returned, no message whose dispatch has come to its end is left
alone. -/
def NotStranded (V : Visitor σ ε μ) (s : Shared ι σ) : Prop :=
  s.callback = true → ∀ k d, V.unfetched s.visitor k → s.storedAt k = some d → Finished s d →
    Runnable s.tasks

theorem notStranded {V : Visitor σ ε μ} {es : List (DataStep ι ε)}
    (hes : Run.Along (dataStep V) (Meets V true) (dataStart ι V) es) :
    NotStranded V (Run.exec (dataStep V) (dataStart ι V) es).shared := by
  have hinv := (holds_of_meets hes).inv
  intro _ k d hk hd hfinished
  rcases hinv.unfetched k d hk hd (.inl rfl) hfinished with hclear | hdue
  · exact .inr (.inl hclear)
  · cases hlock : ((Run.exec (dataStep V) (dataStart ι V) es).shared.tasks.1.routine ()).lock with
    | false => exact .inl ((hinv.tasks.settled () hlock).mp hdue)
    | true => exact .inr (.inr ⟨hlock, hdue⟩)

/-- A message arrives after the routine has been put into its run queue, and before it has
run. -/
def early : List (DataStep Nat Nat) :=
  [.call 0 .createTask, .act 0 false, .act 0 false, .call 1 (.dispatch 7), .act 1 false,
    .act 1 false, .act 0 false, .act 0 false]

theorem notStranded_early :
    NotStranded (Visitor.one Nat 2)
      (Run.exec (dataStep (Visitor.one Nat 2)) (dataStart Nat (Visitor.one Nat 2)) early).shared := by
  refine notStranded ?_
  exact ⟨trivial, trivial, trivial, trivial, trivial, fun _ _ _ _ _ _ _ => .inr rfl, trivial,
    trivial, trivial⟩

/-- The routine looks for a message and is suspended, a message arrives, and then the
callback is registered. -/
def late : List (DataStep Nat Nat) :=
  [.call 0 .createTask, .act 0 false, .act 0 false, .act 0 false] ++
    .call 1 .turn :: List.replicate 9 (.act 1 false) ++
    [.call 2 (.dispatch 7), .act 2 false, .act 2 false, .act 0 false]

theorem not_runnable_of_late :
    ¬ ∀ (V : Visitor (Cmw.Data.DataVisitor Nat) Nat (Nat × Nat)) (es : List (DataStep Nat Nat)),
      (Run.exec (dataStep V) (dataStart Nat V) es).threads 0 = .done () (.created true) →
        (∀ i, ∃ a, (Run.exec (dataStep V) (dataStart Nat V) es).threads i = .done () a) →
          ∀ k d, V.unfetched (Run.exec (dataStep V) (dataStart Nat V) es).shared.visitor k →
            (Run.exec (dataStep V) (dataStart Nat V) es).shared.storedAt k = some d →
              (Run.exec (dataStep V) (dataStart Nat V) es).shared.since d = .during →
                Runnable (Run.exec (dataStep V) (dataStart Nat V) es).shared.tasks := by
  intro h
  have hrest : ∀ i, ∃ a, (Run.exec (dataStep (Visitor.one Nat 2))
      (dataStart Nat (Visitor.one Nat 2)) late).threads i = .done () a := by
    intro i
    rcases i with _ | _ | _ | i
    · exact ⟨_, rfl⟩
    · exact ⟨_, rfl⟩
    · exact ⟨_, rfl⟩
    · exact ⟨_, rfl⟩
  have hunfetched : (Visitor.one Nat 2).unfetched (Run.exec (dataStep (Visitor.one Nat 2))
      (dataStart Nat (Visitor.one Nat 2)) late).shared.visitor 1 := ⟨by decide, by decide, by decide⟩
  rcases h (Visitor.one Nat 2) late rfl hrest 1 0 hunfetched rfl rfl with hready | hclear | ⟨hlock, _⟩
  · cases hready
  · cases hclear
  · cases hlock

end Run

end Wakeup
end Scheduler
end Cmw
