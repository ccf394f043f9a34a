import Cmw.Scheduler.CRoutine
import Mathlib.Logic.Basic

/-!
# What processors keep to

A thread that holds a routine is the only one that changes its state and consumes its
flag.  A routine that nobody holds is READY if and only if it is due.
-/

namespace Cmw
namespace Scheduler

open Library
open Library.Thread

variable {ι ω : Type} [DecidableEq ι] [DecidableEq ω]

/-- The routine is to look for messages if and only if it is READY. -/
def Settled (w : ω) (m : Memory ι ω) : Prop := m.2.due w = true ↔ (m.1.routine w).state = .ready

/-- The routine will look for messages without anything more being announced. -/
def Awake (w : ω) (m : Memory ι ω) : Prop := (m.1.routine w).updated = false ∨ m.2.due w = true

/-- A routine that no processor holds, that waits for data and has nothing announced. -/
def Parked (w : ω) (m : Memory ι ω) : Prop :=
  (m.1.routine w).lock = false ∧ (m.1.routine w).state = .dataWait ∧
    (m.1.routine w).updated = true

structure Inv (m : Memory ι ω) : Prop where
  locked : ∀ i w, m.2.holds i = some w → (m.1.routine w).lock = true
  unique : ∀ i j w, m.2.holds i = some w → m.2.holds j = some w → i = j
  state : ∀ w, (m.1.routine w).state = .ready ∨ (m.1.routine w).state = .dataWait
  settled : ∀ w, (m.1.routine w).lock = false → Settled w m

structure Rely (i : ι) (m n : Memory ι ω) : Prop where
  idCr : ∀ w, m.1.idCr w = true → n.1.idCr w = true
  holds : n.2.holds i = m.2.holds i
  state : ∀ w, m.2.holds i = some w → (n.1.routine w).state = (m.1.routine w).state
  due : ∀ w, m.2.holds i = some w → n.2.due w = m.2.due w

omit [DecidableEq ι] [DecidableEq ω] in
theorem Rely.refl (i : ι) (m : Memory ι ω) : Rely i m m :=
  ⟨fun _ h => h, rfl, fun _ _ => rfl, fun _ _ => rfl⟩

omit [DecidableEq ι] [DecidableEq ω] in
theorem Rely.trans {i : ι} {m n l : Memory ι ω} (h : Rely i m n) (h' : Rely i n l) : Rely i m l where
  idCr w hw := h'.idCr w (h.idCr w hw)
  holds := h'.holds.trans h.holds
  state w hw := (h'.state w (h.holds.trans hw)).trans (h.state w hw)
  due w hw := (h'.due w (h.holds.trans hw)).trans (h.due w hw)

def Pre (i : ι) (o : Op ω) (m : Memory ι ω) : Prop :=
  match o with
  | .setState w state => m.2.holds i = some w ∧
      (state = .ready ∧ m.2.due w = true ∨ state = .dataWait)
  | .acquire _ => m.2.holds i = none
  | .release w => m.2.holds i = some w ∧ Settled w m
  | .testAndSetUpdated w => m.2.holds i = some w
  | _ => True

/-! ### What the operations keep -/

section Keeps

variable {i : ι} {w : ω} {m n : Memory ι ω}

omit [DecidableEq ι] in
theorem set_routine {s : Registry ω} {r : CRoutine} {v : ω} :
    (s.set w r).routine v = if v = w then r else s.routine v := Function.update_apply ..

omit [DecidableEq ι] [DecidableEq ω] in
/-- Nobody but its holder holds a routine. -/
theorem ne_of_holds (hm : Inv m) (hw : m.2.holds i = some w) {j : ι} (hj : j ≠ i) {v : ω}
    (hv : m.2.holds j = some v) : v ≠ w := by
  rintro rfl
  exact hj (hm.unique j i v hv hw)

omit [DecidableEq ι] in
/-- What its holder does to a routine. -/
theorem keeps_of_holder (hm : Inv m) (hw : m.2.holds i = some w) {r : CRoutine} {due : ω → Bool}
    (hlock : r.lock = (m.1.routine w).lock) (hstate : r.state = .ready ∨ r.state = .dataWait)
    (hdue : ∀ v, v ≠ w → due v = m.2.due v) (hn : n = (m.1.set w r, { m.2 with due })) :
    Inv n ∧ ∀ j, j ≠ i → Rely j m n := by
  subst hn
  have hlocked := hm.locked i w hw
  have hroutine : ∀ v, v ≠ w → (m.1.set w r).routine v = m.1.routine v := fun v hv =>
    set_routine.trans (if_neg hv)
  have hself : (m.1.set w r).routine w = r := set_routine.trans (if_pos rfl)
  refine ⟨⟨fun j v hv => ?_, hm.unique, fun v => ?_, fun v hv => ?_⟩, fun j hj => ⟨fun _ h => h, rfl,
    fun v hv => ?_, fun v hv => hdue v (ne_of_holds hm hw hj hv)⟩⟩
  · by_cases hvw : v = w
    · rw [hvw, hself, hlock]
      exact hlocked
    · rw [hroutine v hvw]
      exact hm.locked j v hv
  · by_cases hvw : v = w
    · rw [hvw, hself]
      exact hstate
    · rw [hroutine v hvw]
      exact hm.state v
  · by_cases hvw : v = w
    · rw [hvw, hself, hlock, hlocked] at hv
      cases hv
    · rw [hroutine v hvw] at hv
      rw [Settled, hroutine v hvw]
      exact (congrArg (· = true) (hdue v hvw)).to_iff.trans (hm.settled v hv)
  · rw [hroutine v (ne_of_holds hm hw hj hv)]

theorem keeps_acquire (hm : Inv m) (hfree : (m.1.routine w).lock = false)
    (hn : n = (m.1.set w { m.1.routine w with lock := true },
      { m.2 with holds := Function.update m.2.holds i (some w) })) (hi : m.2.holds i = none) :
    Inv n ∧ ∀ j, j ≠ i → Rely j m n := by
  subst hn
  have hheld : ∀ j v, Function.update m.2.holds i (some w) j = some v →
      j = i ∧ v = w ∨ j ≠ i ∧ v ≠ w ∧ m.2.holds j = some v := by
    intro j v hv
    rw [Function.update_apply] at hv
    split at hv
    case isTrue hj => exact .inl ⟨hj, (Option.some.inj hv).symm⟩
    case isFalse hj =>
      refine .inr ⟨hj, ?_, hv⟩
      rintro rfl
      rw [hm.locked j v hv] at hfree
      cases hfree
  refine ⟨⟨fun j v hv => ?_, fun j k v hj hk => ?_, fun v => ?_, fun v hv => ?_⟩,
    fun j hj => ⟨fun _ h => h, Function.update_of_ne hj _ _, fun v _ => ?_, fun _ _ => rfl⟩⟩
  · show ((m.1.set w _).routine v).lock = true
    rcases hheld j v hv with ⟨_, rfl⟩ | ⟨_, hvw, hv⟩
    · rw [set_routine, if_pos rfl]
    · rw [set_routine, if_neg hvw]
      exact hm.locked j v hv
  · rcases hheld j v hj with ⟨rfl, rfl⟩ | ⟨_, hvw, hj⟩ <;>
      rcases hheld k v hk with ⟨rfl, hv⟩ | ⟨_, hvw', hk⟩
    · rfl
    · exact absurd rfl hvw'
    · exact absurd hv hvw
    · exact hm.unique j k v hj hk
  · show ((m.1.set w _).routine v).state = _ ∨ ((m.1.set w _).routine v).state = _
    rw [set_routine]
    split
    case isTrue h => exact h ▸ hm.state v
    case isFalse => exact hm.state v
  · have hv : ((m.1.set w { m.1.routine w with lock := true }).routine v).lock = false := hv
    show m.2.due v = true ↔ ((m.1.set w { m.1.routine w with lock := true }).routine v).state = _
    by_cases hvw : v = w
    · rw [set_routine, if_pos hvw] at hv
      cases hv
    · rw [set_routine, if_neg hvw] at hv ⊢
      exact hm.settled v hv
  · show ((m.1.set w { m.1.routine w with lock := true }).routine v).state = _
    rw [set_routine]
    split
    case isTrue h => rw [h]
    case isFalse => rfl

theorem keeps_release (hm : Inv m) (hw : m.2.holds i = some w) (hsettled : Settled w m)
    (hn : n = (m.1.set w { m.1.routine w with lock := false },
      { m.2 with holds := Function.update m.2.holds i none })) :
    Inv n ∧ ∀ j, j ≠ i → Rely j m n := by
  subst hn
  have hheld : ∀ j v, Function.update m.2.holds i none j = some v →
      v ≠ w ∧ m.2.holds j = some v := by
    intro j v hv
    rw [Function.update_apply] at hv
    split at hv
    case isTrue => cases hv
    case isFalse hj => exact ⟨ne_of_holds hm hw hj hv, hv⟩
  have hstate : ∀ v, ((m.1.set w { m.1.routine w with lock := false }).routine v).state =
      (m.1.routine v).state := by
    intro v
    rw [set_routine]
    split
    case isTrue h => rw [h]
    case isFalse => rfl
  refine ⟨⟨fun j v hv => ?_, fun j k v hj hk => hm.unique j k v (hheld j v hj).2 (hheld k v hk).2,
    fun v => ?_, fun v hv => ?_⟩, fun j hj => ⟨fun _ h => h, Function.update_of_ne hj _ _,
    fun v _ => hstate v, fun _ _ => rfl⟩⟩
  · obtain ⟨hvw, hv⟩ := hheld j v hv
    rw [set_routine, if_neg hvw]
    exact hm.locked j v hv
  · rw [hstate v]
    exact hm.state v
  · show m.2.due v = true ↔ _
    rw [hstate v]
    by_cases hvw : v = w
    · rw [hvw]
      exact hsettled
    · rw [set_routine, if_neg hvw] at hv
      exact hm.settled v hv

end Keeps

omit [DecidableEq ι] in
/-- The flag may change at any time. -/
theorem keeps_of_updated {i : ι} {w : ω} {m n : Memory ι ω} (hm : Inv m) (updated : Bool)
    (hn : n = (m.1.set w { m.1.routine w with updated }, m.2)) :
    Inv n ∧ ∀ j, j ≠ i → Rely j m n := by
  subst hn
  have hsame : ∀ v, ((m.1.set w { m.1.routine w with updated }).routine v).state =
      (m.1.routine v).state ∧ ((m.1.set w { m.1.routine w with updated }).routine v).lock =
        (m.1.routine v).lock := by
    intro v
    rw [set_routine]
    split
    case isTrue h => exact h ▸ ⟨rfl, rfl⟩
    case isFalse => exact ⟨rfl, rfl⟩
  refine ⟨⟨fun j v hv => ?_, hm.unique, fun v => ?_, fun v hv => ?_⟩,
    fun j _ => ⟨fun _ h => h, rfl, fun v _ => (hsame v).1, fun _ _ => rfl⟩⟩
  · rw [(hsame v).2]
    exact hm.locked j v hv
  · rw [(hsame v).1]
    exact hm.state v
  · rw [(hsame v).2] at hv
    rw [Settled, (hsame v).1]
    exact hm.settled v hv

/-- What was announced is consumed, and the routine is due; or nothing was. -/
theorem testAndSet_cases (i : ι) (w : ω) (x : Bool) (m : Memory ι ω) :
    (m.1.routine w).updated = true ∧ noted i (.testAndSetUpdated w) x m =
        (true, m.1.set w { m.1.routine w with updated := true }, m.2) ∨
      (m.1.routine w).updated = false ∧ noted i (.testAndSetUpdated w) x m =
        (false, m.1.set w { m.1.routine w with updated := true },
          { m.2 with due := Function.update m.2.due w true }) := by
  cases hupdated : (m.1.routine w).updated with
  | true => exact .inl ⟨rfl, by simp [noted, noting, exec, note, hupdated]⟩
  | false => exact .inr ⟨rfl, by simp [noted, noting, exec, note, hupdated]⟩

theorem acquire_cases (i : ι) (w : ω) (x : Bool) (m : Memory ι ω) :
    (m.1.routine w).lock = true ∧ noted i (.acquire w) x m =
        (false, m.1.set w { m.1.routine w with lock := true }, m.2) ∨
      (m.1.routine w).lock = false ∧ noted i (.acquire w) x m =
        (true, m.1.set w { m.1.routine w with lock := true },
          { m.2 with holds := Function.update m.2.holds i (some w) }) := by
  cases hlock : (m.1.routine w).lock with
  | true => exact .inl ⟨rfl, by simp [noted, noting, exec, note, hlock]⟩
  | false => exact .inr ⟨rfl, by simp [noted, noting, exec, note, hlock]⟩

theorem keeps {i : ι} {o : Op ω} {x : Bool} {m : Memory ι ω} (hm : Inv m) (hpre : Pre i o m) :
    Inv (noted i o x m).2 ∧ ∀ j, j ≠ i → Rely j m (noted i o x m).2 := by
  cases o with
  | setState w state =>
      obtain ⟨hw, hstate⟩ := hpre
      exact keeps_of_holder (r := { m.1.routine w with state }) hm hw rfl
        (hstate.imp And.left id) (fun _ _ => rfl) rfl
  | acquire w =>
      rcases acquire_cases i w x m with ⟨hlock, h⟩ | ⟨hlock, h⟩
      · rw [h, ← hlock]
        exact keeps_of_updated hm (m.1.routine w).updated rfl
      · rw [h]
        exact keeps_acquire hm hlock rfl hpre
  | release w => exact keeps_release hm hpre.1 hpre.2 rfl
  | testAndSetUpdated w =>
      rcases testAndSet_cases i w x m with ⟨_, h⟩ | ⟨_, h⟩
      · rw [h]
        exact keeps_of_updated hm _ rfl
      · rw [h]
        exact keeps_of_holder (r := { m.1.routine w with updated := true }) hm hpre rfl (hm.state w)
          (fun v hv => Function.update_of_ne hv _ _) rfl
  | setUpdateFlag w => exact keeps_of_updated hm _ rfl
  | insertId w =>
      refine ⟨⟨hm.locked, hm.unique, hm.state, hm.settled⟩, fun j _ => ⟨fun v hv => ?_, rfl,
        fun _ _ => rfl, fun _ _ => rfl⟩⟩
      show Function.update m.1.idCr w true v = true
      rw [Function.update_apply]
      split
      case isTrue => rfl
      case isFalse => exact hv
  | insertGroup w =>
      exact ⟨⟨hm.locked, hm.unique, hm.state, hm.settled⟩,
        fun j _ => ⟨fun _ h => h, rfl, fun _ _ => rfl, fun _ _ => rfl⟩⟩
  | _ => exact ⟨hm, fun j _ => Rely.refl j m⟩

section Awake

variable {i : ι} {w v : ω} {m : Memory ι ω}

omit [DecidableEq ι] in
theorem updated_set {s : Registry ω} {r : CRoutine} (hr : r.updated = (s.routine v).updated) :
    ((s.set v r).routine w).updated = (s.routine w).updated := by
  rw [set_routine]
  split
  case isTrue h => rw [h, hr]
  case isFalse => rfl

/-- What was announced stays announced until the routine is due. -/
theorem Awake.noted (h : Awake w m) (o : Op ω) (x : Bool) : Awake w (noted i o x m).2 := by
  cases o with
  | setState v state => exact h.imp (updated_set (r := { m.1.routine v with state }) rfl).trans id
  | acquire v =>
      rcases acquire_cases i v x m with ⟨_, hnoted⟩ | ⟨_, hnoted⟩
      · rw [hnoted]
        exact h.imp (updated_set (r := { m.1.routine v with lock := true }) rfl).trans id
      · rw [hnoted]
        exact h.imp (updated_set (r := { m.1.routine v with lock := true }) rfl).trans id
  | release v => exact h.imp (updated_set (r := { m.1.routine v with lock := false }) rfl).trans id
  | testAndSetUpdated v =>
      rcases testAndSet_cases i v x m with ⟨hset, hnoted⟩ | ⟨_, hnoted⟩
      · rw [hnoted]
        exact h.imp (updated_set hset.symm).trans id
      · rw [hnoted]
        by_cases hwv : w = v
        · rw [hwv]
          exact .inr (Function.update_self ..)
        · refine h.imp (fun h => ?_) (Function.update_of_ne hwv _ _).trans
          exact (congrArg CRoutine.updated (set_routine.trans (if_neg hwv))).trans h
  | setUpdateFlag v =>
      by_cases hwv : w = v
      · refine .inl ?_
        rw [hwv]
        exact congrArg CRoutine.updated (set_routine.trans (if_pos rfl))
      · refine h.imp (fun h => ?_) id
        exact (congrArg CRoutine.updated (set_routine.trans (if_neg hwv))).trans h
  | _ => exact h

/-- No task is removed. -/
theorem idCr_noted (h : m.1.idCr w = true) (o : Op ω) (x : Bool) :
    (noted i o x m).2.1.idCr w = true := by
  cases o with
  | insertId v =>
      show Function.update m.1.idCr v true w = true
      rw [Function.update_apply]
      split
      case isTrue => rfl
      case isFalse => exact h
  | _ => exact h

theorem awake_setUpdateFlag {x : Bool} : Awake w (Scheduler.noted i (.setUpdateFlag w) x m).2 :=
  .inl (congrArg CRoutine.updated (set_routine.trans (if_pos rfl)))

omit [DecidableEq ι] [DecidableEq ω] in
theorem Awake.not_parked (h : Awake w m) (hm : Inv m) : ¬ Parked w m := by
  intro hparked
  obtain ⟨hlock, hstate, hupdated⟩ := hparked
  rcases h with hclear | hdue
  · exact absurd (hclear.symm.trans hupdated) Bool.false_ne_true
  · exact absurd (hstate.symm.trans ((hm.settled w hlock).mp hdue)) (by decide)

end Awake

variable (ι ω) in
def protocol : Protocol (sig ω) ι Unit (Memory ι ω) Bool noted where
  Inv := Inv
  Rely := Rely
  Cond _ _ _ _ _ := True
  Pre i _ o m := Pre i o m
  Crash := False
  Hang _ _ := True
  refl := Rely.refl
  trans := Rely.trans
  hang_stable h _ := h
  keeps hm hpre _ := keeps hm hpre

/-! ### What the functions keep to -/

section Functions

variable {i : ι} {w : ω} {r : Unit} {m : Memory ι ω}

/-- A thread holds a routine, in this state. -/
def Held (i : ι) (w : ω) (state : RoutineState) (due : Bool) (m : Memory ι ω) : Prop :=
  m.2.holds i = some w ∧ (m.1.routine w).state = state ∧ m.2.due w = due

omit [DecidableEq ι] [DecidableEq ω] in
theorem Held.of_rely {state : RoutineState} {due : Bool} {n : Memory ι ω} (h : Held i w state due m)
    (hmn : Rely i m n) : Held i w state due n :=
  ⟨hmn.holds.trans h.1, (hmn.state w h.1).trans h.2.1, (hmn.due w h.1).trans h.2.2⟩

variable {state : RoutineState} {due : Bool}

theorem state_safe {Q : Unit → RoutineState → Memory ι ω → Prop} (h : Held i w state due m)
    (hQ : ∀ n, Inv n → Held i w state due n → Q r state n) :
    (protocol ι ω).Safe i Q ((Op.state w).get r) m := by
  refine Protocol.safe_op (fun _ _ _ => trivial) fun x n hmn hn _ => ?_
  have h := h.of_rely hmn
  have hstate : (noted i (.state w) x n).1 = state := h.2.1
  rw [hstate]
  exact hQ n hn h

theorem isWaiting_safe {Q : Unit → Bool → Memory ι ω → Prop} (h : Held i w state due m)
    (hQ : ∀ n, Inv n → Held i w state due n → Q r (state == .dataWait || state == .ioWait) n) :
    (protocol ι ω).Safe i Q (isWaiting w r) m := by
  simp only [isWaiting, Protocol.safe_seq, Protocol.safe_ite, Protocol.safe_pure]
  refine state_safe h fun n hn h => ⟨fun hwait => ?_, fun hwait => ?_⟩
  · have hQ := hQ n hn h
    rw [hwait] at hQ
    exact hQ
  · refine state_safe h fun n hn h => ?_
    have hQ := hQ n hn h
    rw [beq_eq_false_iff_ne.mpr hwait] at hQ
    exact hQ

theorem setReady_safe {Q : Unit → Unit → Memory ι ω → Prop} (h : Held i w state true m)
    (hQ : ∀ n, Held i w .ready true n → Q r () n) :
    (protocol ι ω).Safe i Q ((Op.setState w .ready).get r) m := by
  refine Protocol.safe_op (fun n hmn _ => ?_) fun x n hmn _ _ => ?_
  · have h := h.of_rely hmn
    exact ⟨h.1, .inl ⟨rfl, h.2.2⟩⟩
  · have h := h.of_rely hmn
    exact hQ _ ⟨h.1, congrArg CRoutine.state (set_routine.trans (if_pos rfl)), h.2.2⟩

/-- What was announced makes the routine READY. -/
theorem updateState_safe {Q : Unit → RoutineState → Memory ι ω → Prop} (hm : Inv m)
    (hw : m.2.holds i = some w) (hsettled : Settled w m)
    (hready : ∀ n, Held i w .ready true n → Q r .ready n)
    (hwait : ∀ n, Held i w .dataWait false n → Q r .dataWait n) :
    (protocol ι ω).Safe i Q (updateState w r) m := by
  obtain ⟨state, due, h, hcases⟩ : ∃ state due, Held i w state due m ∧
      (state = .ready ∧ due = true ∨ state = .dataWait ∧ due = false) := by
    refine ⟨_, _, ⟨hw, rfl, rfl⟩, ?_⟩
    rcases hm.state w with hstate | hstate
    · exact .inl ⟨hstate, hsettled.mpr hstate⟩
    · refine .inr ⟨hstate, Bool.eq_false_iff.mpr fun hdue => ?_⟩
      rw [hsettled.mp hdue] at hstate
      cases hstate
  have hQ : ∀ n, Held i w state due n → Q r state n := by
    intro n hn
    rcases hcases with ⟨rfl, rfl⟩ | ⟨rfl, rfl⟩
    · exact hready n hn
    · exact hwait n hn
  have hsleep : state ≠ .sleep := by
    rcases hcases with ⟨rfl, _⟩ | ⟨rfl, _⟩ <;> decide
  simp only [updateState, Protocol.safe_seq, Protocol.safe_ite, Protocol.safe_pure]
  refine state_safe h fun n _ h => ⟨fun hs => absurd hs hsleep, fun _ => ?_⟩
  refine ⟨fun hawake => absurd hawake Bool.false_ne_true, fun _ => ?_⟩
  refine Protocol.safe_op (fun l hnl _ => (h.of_rely hnl).1) fun x l hnl _ _ => ?_
  have h := h.of_rely hnl
  rcases testAndSet_cases i w x l with ⟨_, hnoted⟩ | ⟨_, hnoted⟩
  · have hheld : Held i w state due (l.1.set w { l.1.routine w with updated := true }, l.2) :=
      ⟨h.1, (congrArg CRoutine.state (set_routine.trans (if_pos rfl))).trans h.2.1, h.2.2⟩
    rw [hnoted]
    exact ⟨fun _ => state_safe hheld fun q _ hq => hQ q hq, fun hne => absurd rfl hne⟩
  · have hheld : Held i w state true (l.1.set w { l.1.routine w with updated := true },
        { l.2 with due := Function.update l.2.due w true }) :=
      ⟨h.1, (congrArg CRoutine.state (set_routine.trans (if_pos rfl))).trans h.2.1,
        Function.update_self ..⟩
    rw [hnoted]
    refine ⟨fun heq => absurd heq Bool.false_ne_true, fun _ => ?_⟩
    refine isWaiting_safe hheld fun q _ hq => ⟨fun _ => ?_, fun hstate => ?_⟩
    · exact setReady_safe hq fun q hq => state_safe hq fun q _ hq => hready q hq
    · rcases hcases with ⟨rfl, rfl⟩ | ⟨rfl, rfl⟩
      · exact state_safe hq fun q _ hq => hready q hq
      · exact absurd rfl hstate

omit [DecidableEq ι] [DecidableEq ω] in
theorem settled_of_held (h : Held i w state due m) (hdue : due = true ↔ state = .ready) :
    Settled w m := by
  rw [Settled, h.2.1, h.2.2]
  exact hdue

theorem release_safe {Q : Unit → Unit → Memory ι ω → Prop} (hw : m.2.holds i = some w)
    (hsettled : Settled w m) (hQ : ∀ n, n.2.holds i = none → Q r () n) :
    (protocol ι ω).Safe i Q ((Op.release w).get r) m := by
  refine Protocol.safe_op (fun n hmn _ => ⟨hmn.holds.trans hw, ?_⟩)
    fun x n _ _ _ => hQ _ (Function.update_self ..)
  rw [Settled, hmn.state w hw, hmn.due w hw]
  exact hsettled

theorem nextRoutine_safe {Q : Unit → Bool → Memory ι ω → Prop} (hfree : m.2.holds i = none)
    (hnone : ∀ n, n.2.holds i = none → Q r false n)
    (hsome : ∀ n, Held i w .ready true n → Q r true n) :
    (protocol ι ω).Safe i Q (nextRoutine w r) m := by
  simp only [nextRoutine, Protocol.safe_seq, Protocol.safe_ite, Protocol.safe_pure]
  refine Protocol.safe_op (fun _ _ _ => trivial) fun x n hmn _ _ => ?_
  have hfree := hmn.holds.trans hfree
  refine ⟨fun _ => ?_, fun _ => hnone n hfree⟩
  refine Protocol.safe_op (fun l hnl _ => hnl.holds.trans hfree) fun x l hnl hl _ => ?_
  have hfree := hnl.holds.trans hfree
  have hinv := (keeps (o := .acquire w) (x := x) hl hfree).1
  rcases acquire_cases i w x l with ⟨_, hnoted⟩ | ⟨hlock, hnoted⟩
  · rw [hnoted]
    exact ⟨fun heq => absurd heq Bool.false_ne_true, fun _ => hnone _ hfree⟩
  · rw [hnoted] at hinv ⊢
    refine ⟨fun _ => ?_, fun hne => absurd rfl hne⟩
    refine updateState_safe hinv (Function.update_self ..) ?_ (fun q hq => ?_) fun q hq => ?_
    · rw [Settled, set_routine, if_pos rfl]
      exact hl.settled w hlock
    · exact ⟨fun _ => hsome q hq, fun hne => absurd rfl hne⟩
    · refine ⟨fun heq => absurd heq (by decide), fun _ => ?_⟩
      refine release_safe hq.1 (settled_of_held hq ?_) fun q hq => hnone q hq
      decide

theorem dispatchTask_safe {Q : Unit → Bool → Memory ι ω → Prop} (hfree : m.2.holds i = none)
    (hQ : ∀ fresh n, n.2.holds i = none → n.1.idCr w = true → Q r fresh n) :
    (protocol ι ω).Safe i Q (dispatchTask w r) m := by
  simp only [dispatchTask, Protocol.safe_seq, Protocol.safe_ite, Protocol.safe_pure]
  refine Protocol.safe_op (fun _ _ _ => trivial) fun x n hmn _ _ => ?_
  have hfree : (noted i (.insertId w) x n).2.2.holds i = none := hmn.holds.trans hfree
  have hid : (noted i (.insertId w) x n).2.1.idCr w = true := Function.update_self ..
  refine ⟨fun _ => ?_, fun _ => hQ false _ hfree hid⟩
  refine Protocol.safe_op (fun _ _ _ => trivial) fun x l hnl _ _ => ?_
  refine Protocol.safe_op (fun _ _ _ => trivial) fun y q hlq _ _ => ?_
  exact hQ true q (hlq.holds.trans (hnl.holds.trans hfree)) (hlq.idCr w (hnl.idCr w hid))

/-- The rule of a turn, in a system that keeps to the protocol of the routines: `F` is what
the processor knows of the rest. -/
theorem turn_safe {E : Sig} {μ : Type}
    {execSum : ι → (o : ((sig ω).sum E).Op) → Bool → μ → ((sig ω).sum E).Ans o × μ}
    {P : Protocol ((sig ω).sum E) ι Unit μ Bool execSum} {π : μ → Memory ι ω}
    (hP : (protocol ι ω).Lifts P π) {F : μ → Prop} (hrely : ∀ s t, F s → P.Rely i s t → F t)
    (hexec : ∀ o x s, F s → F (execSum i (.inl o) x s).2) {s : μ} (hs : P.Inv s) (hF : F s)
    (hfree : (π s).2.holds i = none) {body : Code ((sig ω).sum E) Unit Unit}
    (hbody : ∀ t, P.Inv t → F t → Held i w .ready true (π t) →
      P.Safe i (fun _ _ u => F u ∧ (π u).2.holds i = some w ∧ Settled w (π u)) (body r) t)
    {Q : Unit → Unit → μ → Prop}
    (hQ : ∀ t, P.Inv t → F t → (π t).2.holds i = none → Q r () t) :
    P.Safe i Q (turn w body r) s := by
  have hrelease : ∀ t, P.Inv t → F t → (π t).2.holds i = some w → Settled w (π t) →
      P.Safe i Q ((Op.release w).get.lift r) t := by
    intro t ht hF hw hsettled
    have hlift := Protocol.Safe.lift hP hrely hexec hF
      (release_safe (r := r) (Q := fun _ _ n => n.2.holds i = none) hw hsettled fun n hn => hn)
    exact hlift.mono ht fun _ _ u hu h => hQ u hu h.1 h.2
  simp only [turn, Protocol.safe_seq, Protocol.safe_ite, Protocol.safe_pure]
  have hnext := Protocol.Safe.lift hP hrely hexec hF (nextRoutine_safe (r := r) (w := w)
    (Q := fun _ found n => (found = false → n.2.holds i = none) ∧
      (found = true → Held i w .ready true n)) hfree
    (fun n hn => ⟨fun _ => hn, fun h => absurd h Bool.false_ne_true⟩)
    fun n hn => ⟨fun h => absurd h.symm Bool.false_ne_true, fun _ => hn⟩)
  refine hnext.mono hs fun _ found t ht h => ⟨fun hfound => ?_, fun hfound => ?_⟩
  · have hstate := Protocol.Safe.lift hP hrely hexec h.1 (state_safe (r := r)
      (Q := fun _ state n => state = .ready ∧ Held i w .ready true n) (h.2.2 hfound)
      fun n _ hn => ⟨rfl, hn⟩)
    refine hstate.mono ht fun _ state u hu h => ⟨fun _ => ?_, fun hne => absurd h.2.1 hne⟩
    exact (hbody u hu h.1 h.2.2).mono hu fun _ _ v hv h => hrelease v hv h.1 h.2.1 h.2.2
  · exact hQ t ht h.1 (h.2.1 (Bool.not_eq_true _ ▸ hfound))

end Functions

end Scheduler
end Cmw
