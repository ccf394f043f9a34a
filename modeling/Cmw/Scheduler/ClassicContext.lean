import Cmw.Scheduler.CRoutine
import Cmw.Scheduler.SchedulerClassic

/-!
# The routine that comes next

`NextRoutine` of scheduler/policy/classic_context.cpp, with `UpdateState`, `Acquire` and
`Release` of croutine/croutine.h, when nothing else runs.  `Cmw.Scheduler.CRoutine` has the
same functions as code of a thread, with one routine in the queues; here are all twenty queues,
and `updateState_alone` says that `UpdateState` is what that code does.

The clock may move while the queues are searched: `clock n` is what it shows when `n` routines
have been looked at.
-/

namespace Cmw
namespace Scheduler

open Library
open Library.Thread

namespace CRoutine

/-- The routine after `UpdateState`, where its wake time is past or not. -/
def updateState (r : CRoutine) (past : Bool) : CRoutine :=
  if r.state = .sleep ∧ past = true then { r with state := .ready }
  else
    let r' := { r with updated := true }
    if r.updated = false then
      if r.state = .dataWait ∨ r.state = .ioWait then { r' with state := .ready } else r'
    else r'

def acquire (r : CRoutine) : Bool × CRoutine := (!r.lock, { r with lock := true })

def release (r : CRoutine) : CRoutine := { r with lock := false }

/-- The routine waits to be notified. -/
def Waits (r : CRoutine) : Prop := r.state = .dataWait ∨ r.state = .ioWait

end CRoutine

/-- The queues of a context, and the routines in them. -/
structure ClassicContext where
  stop : Bool := false
  multiPriRq : Classic.MultiPrioQueue := fun _ => []
  routine : Nat → CRoutine := fun _ => {}
  wakeTime : Nat → Nat := fun _ => 0

namespace ClassicContext

def setRoutine (c : ClassicContext) (cr : Nat) (r : CRoutine) : ClassicContext :=
  { c with routine := Function.update c.routine cr r }

/-- The loop over a queue, when `n` routines have been looked at before. -/
def scan (clock : Nat → Nat) : List Nat → Nat → ClassicContext → Option Nat × ClassicContext
  | [], _, c => (none, c)
  | cr :: crs, n, c =>
      let (acquired, r) := (c.routine cr).acquire
      if !acquired then scan clock crs (n + 1) (c.setRoutine cr r)
      else
        let r := r.updateState (decide (c.wakeTime cr < clock n))
        if r.state = .ready then (some cr, c.setRoutine cr r)
        else scan clock crs (n + 1) (c.setRoutine cr r.release)

/-- The loop over the priorities. -/
def scanPrios (clock : Nat → Nat) :
    List (Fin Classic.maxPrio) → Nat → ClassicContext → Option Nat × ClassicContext
  | [], _, c => (none, c)
  | prio :: prios, n, c =>
      match scan clock (c.multiPriRq prio) n c with
      | (some cr, c) => (some cr, c)
      | (none, c) => scanPrios clock prios (n + (c.multiPriRq prio).length) c

def nextRoutine (clock : Nat → Nat) (c : ClassicContext) : Option Nat × ClassicContext :=
  if c.stop then (none, c)
  else scanPrios clock (List.finRange Classic.maxPrio).reverse 0 c

/-! ## What it should do -/

/-- The routines in the order of decreasing priority, and of their insertion in each queue. -/
def order (c : ClassicContext) : List Nat :=
  (List.finRange Classic.maxPrio).reverse.flatMap c.multiPriRq

/-- The routine after `UpdateState` at the time `now`. -/
def updated (c : ClassicContext) (now cr : Nat) : CRoutine :=
  (c.routine cr).updateState (decide (c.wakeTime cr < now))

/-- The routine is not locked, and READY after `UpdateState` at the time `now`. -/
def Eligible (c : ClassicContext) (now cr : Nat) : Prop :=
  (c.routine cr).lock = false ∧ (c.updated now cr).state = .ready

/-- `found` is the first eligible routine, or none where there is none. -/
def First (clock : Nat → Nat) (c : ClassicContext) (found : Option Nat) : Prop :=
  (found = none ↔ ∀ n cr, c.order[n]? = some cr → ¬c.Eligible (clock n) cr) ∧
    ∀ cr, found = some cr →
      ∃ n, c.order[n]? = some cr ∧ c.Eligible (clock n) cr ∧
        ∀ m < n, ∀ cr', c.order[m]? = some cr' → ¬c.Eligible (clock m) cr'

/-- A wake-up of the routine is pending, or its sleep has come to an end when the clock is read. -/
def Due (clock : Nat → Nat) (c : ClassicContext) (cr : Nat) : Prop :=
  (c.routine cr).Waits ∧ (c.routine cr).updated = false ∨
    (c.routine cr).state = .sleep ∧ ∃ n, c.order[n]? = some cr ∧ c.wakeTime cr < clock n

/-- What becomes of the routines: `found` is locked and READY, no other lock and no other state
has changed, and of the routines that wait no other one has lost a wake-up. -/
structure Leaves (clock : Nat → Nat) (c : ClassicContext) (found : Option Nat)
    (c' : ClassicContext) : Prop where
  stop : c'.stop = c.stop
  multiPriRq : c'.multiPriRq = c.multiPriRq
  wakeTime : c'.wakeTime = c.wakeTime
  lock : ∀ cr, (c'.routine cr).lock = ((c.routine cr).lock || found == some cr)
  ready : ∀ cr, found = some cr → (c'.routine cr).state = .ready
  state : ∀ cr, (c'.routine cr).state ≠ (c.routine cr).state → found = some cr ∧ c.Due clock cr
  waiting : ∀ cr, (c.routine cr).Waits → found ≠ some cr → c'.routine cr = c.routine cr

/-- Where the context has been shut down nothing is found and nothing changes. -/
structure Picks (clock : Nat → Nat) (c : ClassicContext) (found : Option Nat)
    (c' : ClassicContext) : Prop where
  stopped : c.stop = true → found = none ∧ c' = c
  first : c.stop = false → c.First clock found
  leaves : c.Leaves clock found c'

end ClassicContext

/-! ## One routine -/

namespace CRoutine

variable {r r' : CRoutine} {past : Bool}

/-- When `UpdateState` leaves a routine READY. -/
theorem updateState_ready :
    (r.updateState past).state = .ready ↔
      r.state = .ready ∨ (r.state = .sleep ∧ past = true) ∨ (r.Waits ∧ r.updated = false) := by
  rw [updateState, Waits]
  cases r.state <;> cases past <;> cases r.updated <;> simp

theorem updateState_lock (b : Bool) :
    updateState { r with lock := b } past = { r.updateState past with lock := b } := by
  rw [updateState, updateState]
  split
  · rfl
  · dsimp only
    split
    · split <;> rfl
    · rfl

theorem lock_updateState : (r.updateState past).lock = r.lock := by
  rw [updateState]
  split
  · rfl
  · dsimp only
    split
    · split <;> rfl
    · rfl

/-- The routine is as it was, but for a flag that it does not wait for. -/
def Passed (r r' : CRoutine) : Prop := r' = r ∨ ¬r.Waits ∧ r' = { r with updated := true }

/-- `UpdateState` of a routine that is not READY afterwards loses no wake-up of it. -/
theorem passed_of_not_ready (h : (r.updateState past).state ≠ .ready) :
    Passed r (r.updateState past) := by
  rw [Ne, updateState_ready, not_or, not_or, not_and, not_and, Bool.not_eq_false] at h
  obtain ⟨-, hsleep, hwait⟩ := h
  rw [updateState, if_neg fun hs => hsleep hs.1 hs.2]
  by_cases hw : r.Waits
  · rw [hwait hw, if_neg Bool.noConfusion]
    have hsame : { r with updated := true } = r := by rw [← hwait hw]
    exact .inl hsame
  · have hneg : ¬(r.state = .dataWait ∨ r.state = .ioWait) := hw
    dsimp only
    rw [if_neg hneg, ite_self]
    exact .inr ⟨hw, rfl⟩

/-- The code of a thread that nobody disturbs. -/
theorem updateState_alone {ω : Type} [DecidableEq ω] (s : Registry ω) (w : ω) (past : Bool) :
    Prog.Ends (fun o s => exec o past s)
      (fun _ state t => state = ((s.routine w).updateState past).state ∧
        t = s.set w ((s.routine w).updateState past)) (Scheduler.updateState w ()) s := by
  rw [Scheduler.updateState, updateState]
  generalize hr : s.routine w = r
  obtain ⟨state, updated, lock⟩ := r
  cases state <;> cases updated <;> cases past <;>
    simp [isWaiting, Prog.Ends, Op.get, Code.ask, bind, pure, Prog.bind, exec, hr, Registry.set]

namespace Passed

theorem lock (h : Passed r r') : r'.lock = r.lock := by
  rcases h with rfl | ⟨-, rfl⟩ <;> rfl

theorem state (h : Passed r r') : r'.state = r.state := by
  rcases h with rfl | ⟨-, rfl⟩ <;> rfl

theorem trans {r'' : CRoutine} (h : Passed r r') (h' : Passed r' r'') : Passed r r'' := by
  rcases h with rfl | ⟨hw, rfl⟩
  · exact h'
  · rcases h' with rfl | ⟨-, rfl⟩ <;> exact .inr ⟨hw, rfl⟩

/-- A routine that has been passed will be READY if and only if it would have been. -/
theorem updateState_ready_iff (h : Passed r r') :
    (r'.updateState past).state = .ready ↔ (r.updateState past).state = .ready := by
  rcases h with rfl | ⟨hw, rfl⟩
  · exact Iff.rfl
  · rw [updateState_ready, updateState_ready]
    show r.state = .ready ∨ r.state = .sleep ∧ past = true ∨ r.Waits ∧ true = false ↔
      r.state = .ready ∨ r.state = .sleep ∧ past = true ∨ r.Waits ∧ r.updated = false
    rw [and_iff_left_of_imp fun h => absurd h hw]
    simp only [hw, false_and]

end Passed

end CRoutine

/-! ## The search -/

namespace ClassicContext

variable {clock : Nat → Nat} {c c' : ClassicContext} {cr : Nat}

/-- What the search has changed where it has found nothing yet. -/
structure Passes (c c' : ClassicContext) : Prop where
  stop : c'.stop = c.stop
  multiPriRq : c'.multiPriRq = c.multiPriRq
  wakeTime : c'.wakeTime = c.wakeTime
  routine : ∀ cr, (c.routine cr).Passed (c'.routine cr)

theorem Passes.refl (c : ClassicContext) : Passes c c := ⟨rfl, rfl, rfl, fun _ => .inl rfl⟩

theorem Passes.eligible (h : Passes c c') (now : Nat) : c'.Eligible now cr ↔ c.Eligible now cr := by
  rw [Eligible, Eligible, (h.routine cr).lock, updated, h.wakeTime,
    (h.routine cr).updateState_ready_iff, updated]

theorem Passes.set (h : Passes c c') {r : CRoutine} (hr : (c'.routine cr).Passed r) :
    Passes c (c'.setRoutine cr r) := by
  refine ⟨h.stop, h.multiPriRq, h.wakeTime, fun cr' => ?_⟩
  show (c.routine cr').Passed (Function.update c'.routine cr r cr')
  by_cases hcr : cr' = cr
  · rw [hcr, Function.update_self]
    exact (h.routine cr).trans hr
  · rw [Function.update_of_ne hcr]
    exact h.routine cr'

/-- The turn of a routine: it is passed, or it is found. -/
theorem scan_cons (clock : Nat → Nat) (cr : Nat) (crs : List Nat) (n : Nat) (c : ClassicContext) :
    (c.Eligible (clock n) cr ∧ scan clock (cr :: crs) n c =
        (some cr, c.setRoutine cr { c.updated (clock n) cr with lock := true })) ∨
      (¬c.Eligible (clock n) cr ∧ ∃ r, (c.routine cr).Passed r ∧
        scan clock (cr :: crs) n c = scan clock crs (n + 1) (c.setRoutine cr r)) := by
  rw [scan]
  dsimp only [CRoutine.acquire]
  rw [CRoutine.updateState_lock]
  cases hlock : (c.routine cr).lock with
  | true =>
      refine .inr ⟨fun h => ?_, { c.routine cr with lock := true }, .inl ?_, rfl⟩
      · rw [Eligible, hlock] at h
        exact Bool.noConfusion h.1
      · rw [← hlock]
  | false =>
      rw [if_neg (by decide)]
      split
      case isTrue hready => exact .inl ⟨⟨hlock, hready⟩, rfl⟩
      case isFalse hready =>
        refine .inr ⟨fun h => hready h.2, _, CRoutine.passed_of_not_ready hready, ?_⟩
        have hfree : (c.updated (clock n) cr).lock = false := CRoutine.lock_updateState.trans hlock
        have hrelease : CRoutine.release { c.updated (clock n) cr with lock := true } =
            c.updated (clock n) cr := by
          rw [CRoutine.release, ← hfree]
        exact congrArg (fun r => scan clock crs (n + 1) (c.setRoutine cr r)) hrelease

/-- What a search has found in `crs`, which comes after `n` other routines: the first that is
eligible, in the context as it was before. -/
structure Found (clock : Nat → Nat) (c : ClassicContext) (crs : List Nat) (n : Nat)
    (found : Option Nat) (c' : ClassicContext) : Prop where
  nothing : found = none →
    Passes c c' ∧ ∀ i cr, crs[i]? = some cr → ¬c.Eligible (clock (n + i)) cr
  one : ∀ cr, found = some cr →
    ∃ i, crs[i]? = some cr ∧ c.Eligible (clock (n + i)) cr ∧
      (∀ j < i, ∀ cr', crs[j]? = some cr' → ¬c.Eligible (clock (n + j)) cr') ∧
      ∃ c₁, Passes c c₁ ∧
        c' = c₁.setRoutine cr { c₁.updated (clock (n + i)) cr with lock := true }

theorem found_scan (h : Passes c c') (crs : List Nat) (n : Nat) :
    Found clock c crs n (scan clock crs n c').1 (scan clock crs n c').2 := by
  induction crs generalizing n c' with
  | nil =>
      refine ⟨fun _ => ⟨h, fun i cr hi => ?_⟩, fun cr hcr => ?_⟩
      case refine_2 => exact absurd hcr (Option.some_ne_none cr).symm
      rw [List.getElem?_nil] at hi
      exact absurd hi (Option.some_ne_none cr).symm
  | cons cr crs ih =>
      rcases scan_cons clock cr crs n c' with ⟨helig, heq⟩ | ⟨hnot, r, hr, heq⟩
      · rw [heq]
        refine ⟨fun hnone => absurd hnone (Option.some_ne_none cr), fun cr' hcr' => ?_⟩
        obtain rfl := Option.some.inj hcr'
        exact ⟨0, rfl, (h.eligible _).mp helig, fun j hj => absurd hj (Nat.not_lt_zero j), c', h,
          rfl⟩
      · rw [heq]
        rw [h.eligible] at hnot
        have hrest := ih (h.set hr) (n + 1)
        have hplace : ∀ i, n + 1 + i = n + (i + 1) := fun i => by omega
        refine ⟨fun hnone => ?_, fun cr' hcr' => ?_⟩
        · obtain ⟨hpass, hall⟩ := hrest.nothing hnone
          refine ⟨hpass, fun i cr' hi => ?_⟩
          cases i with
          | zero => exact Option.some.inj hi ▸ hnot
          | succ i => exact hplace i ▸ hall i cr' hi
        · obtain ⟨i, hi, helig, hbefore, hend⟩ := hrest.one cr' hcr'
          rw [hplace] at helig hend
          refine ⟨i + 1, hi, helig, fun j hj cr'' hj' => ?_, hend⟩
          cases j with
          | zero => exact Option.some.inj hj' ▸ hnot
          | succ j => exact hplace j ▸ hbefore j (Nat.lt_of_succ_lt_succ hj) cr'' hj'

theorem scan_append (clock : Nat → Nat) (crs crs' : List Nat) (n : Nat) (c : ClassicContext) :
    scan clock (crs ++ crs') n c =
      match scan clock crs n c with
      | (some cr, c) => (some cr, c)
      | (none, c) => scan clock crs' (n + crs.length) c := by
  induction crs generalizing n c with
  | nil => rfl
  | cons cr crs ih =>
      rw [List.cons_append, List.length_cons, ← Nat.add_assoc, Nat.add_right_comm, scan, scan]
      dsimp only [CRoutine.acquire]
      split
      · exact ih (n + 1) _
      · split
        · rfl
        · exact ih (n + 1) _

theorem multiPriRq_scan (clock : Nat → Nat) (crs : List Nat) (n : Nat) (c : ClassicContext) :
    (scan clock crs n c).2.multiPriRq = c.multiPriRq := by
  induction crs generalizing n c with
  | nil => rfl
  | cons cr crs ih =>
      rcases scan_cons clock cr crs n c with ⟨-, heq⟩ | ⟨-, r, -, heq⟩
      · rw [heq]
        rfl
      · rw [heq, ih]
        rfl

/-- The two loops are one over all routines in their order. -/
theorem scanPrios_eq (clock : Nat → Nat) (prios : List (Fin Classic.maxPrio)) (n : Nat)
    (c : ClassicContext) :
    scanPrios clock prios n c = scan clock (prios.flatMap c.multiPriRq) n c := by
  induction prios generalizing n c with
  | nil => rfl
  | cons prio prios ih =>
      have hqueues := multiPriRq_scan clock (c.multiPriRq prio) n c
      rw [scanPrios, List.flatMap_cons, scan_append]
      split
      case h_1 => rfl
      case h_2 c₁ heq =>
        rw [heq] at hqueues
        have hqueues : c₁.multiPriRq = c.multiPriRq := hqueues
        rw [ih, hqueues]

/-- A search of all routines that is not shut down. -/
theorem found_nextRoutine (hstop : c.stop = false) (clock : Nat → Nat) :
    Found clock c c.order 0 (nextRoutine clock c).1 (nextRoutine clock c).2 := by
  rw [nextRoutine, hstop, if_neg Bool.false_ne_true, scanPrios_eq]
  exact found_scan (Passes.refl c) c.order 0

theorem Found.first {found : Option Nat} (h : Found clock c c.order 0 found c') :
    c.First clock found := by
  have hplace : ∀ n, clock (0 + n) = clock n := fun n => congrArg clock (Nat.zero_add n)
  refine ⟨⟨fun hnone n cr hn => ?_, fun hall => ?_⟩, fun cr hcr => ?_⟩
  · rw [← hplace]
    exact (h.nothing hnone).2 n cr hn
  · cases found with
    | none => rfl
    | some cr =>
        obtain ⟨n, hn, helig, -⟩ := h.one cr rfl
        exact absurd (hplace n ▸ helig) (hall n cr hn)
  · obtain ⟨n, hn, helig, hbefore, -⟩ := h.one cr hcr
    refine ⟨n, hn, hplace n ▸ helig, fun m hm cr' hm' => ?_⟩
    rw [← hplace]
    exact hbefore m hm cr' hm'

theorem Passes.leaves (h : Passes c c') : c.Leaves clock none c' where
  stop := h.stop
  multiPriRq := h.multiPriRq
  wakeTime := h.wakeTime
  lock cr := by rw [(h.routine cr).lock]; exact (Bool.or_false _).symm
  ready cr hcr := absurd hcr (Option.some_ne_none cr).symm
  state cr hne := absurd (h.routine cr).state hne
  waiting cr hw _ := (h.routine cr).resolve_right fun hnot => hnot.1 hw

theorem Found.leaves {found : Option Nat} (h : Found clock c c.order 0 found c') :
    c.Leaves clock found c' := by
  cases found with
  | none => exact (h.nothing rfl).1.leaves
  | some cr =>
      obtain ⟨n, hn, helig, -, c₁, hpass, rfl⟩ := h.one cr rfl
      let r : CRoutine := { c₁.updated (clock (0 + n)) cr with lock := true }
      have hself : (c₁.setRoutine cr r).routine cr = r := Function.update_self ..
      have hother : ∀ cr', cr' ≠ cr → (c₁.setRoutine cr r).routine cr' = c₁.routine cr' :=
        fun cr' hne => Function.update_of_ne hne ..
      have hready : r.state = .ready := ((hpass.eligible _).mpr helig).2
      refine
        { stop := hpass.stop
          multiPriRq := hpass.multiPriRq
          wakeTime := hpass.wakeTime
          lock := fun cr' => ?_
          ready := fun cr' hcr' => ?_
          state := fun cr' hne => ?_
          waiting := fun cr' hw hcr' => ?_ }
      · by_cases hcr : cr' = cr
        · rw [hcr, hself, beq_self_eq_true, Bool.or_true]
        · have hbeq : (some cr == some cr') = false := by
            rw [beq_eq_false_iff_ne]
            exact fun heq => hcr (Option.some.inj heq).symm
          rw [hother cr' hcr, (hpass.routine cr').lock, hbeq, Bool.or_false]
      · obtain rfl := Option.some.inj hcr'
        exact (congrArg CRoutine.state hself).trans hready
      · by_cases hcr : cr' = cr
        · subst hcr
          refine ⟨rfl, ?_⟩
          rw [hself, hready] at hne
          rcases CRoutine.updateState_ready.mp helig.2 with hold | ⟨hsleep, hpast⟩ | hwait
          · exact absurd hold.symm hne
          · refine .inr ⟨hsleep, n, hn, ?_⟩
            rw [Nat.zero_add] at hpast
            exact of_decide_eq_true hpast
          · exact .inl hwait
        · rw [hother cr' hcr] at hne
          exact absurd (hpass.routine cr').state hne
      · have hcr : cr' ≠ cr := fun heq => hcr' (congrArg some heq.symm)
        rw [hother cr' hcr]
        exact (hpass.routine cr').resolve_right fun hnot => hnot.1 hw

theorem nextRoutine_stopped (hstop : c.stop = true) (clock : Nat → Nat) :
    c.nextRoutine clock = (none, c) := by
  rw [nextRoutine, if_pos hstop]

/-- For every content of the queues and every state of the routines: the first routine that is
eligible is found, unless the context has been shut down. -/
theorem nextRoutine_picks (clock : Nat → Nat) (c : ClassicContext) :
    c.Picks clock (c.nextRoutine clock).1 (c.nextRoutine clock).2 := by
  cases hstop : c.stop with
  | true =>
      rw [nextRoutine_stopped hstop]
      exact ⟨fun _ => ⟨rfl, rfl⟩, fun h => absurd (hstop.symm.trans h) Bool.true_eq_false.mp,
        (Passes.refl c).leaves⟩
  | false =>
      have h := found_nextRoutine hstop clock
      exact ⟨fun h' => absurd (hstop.symm.trans h') Bool.false_ne_true, fun _ => h.first, h.leaves⟩

/-- A context that has been shut down finds no routine, however many are READY. -/
theorem nextRoutine_shutdown :
    ¬∀ (clock : Nat → Nat) (c : ClassicContext), c.First clock (c.nextRoutine clock).1 := by
  intro h
  have hfirst := (h (fun _ => 0) { stop := true, multiPriRq := fun _ => [0] }).1.mp rfl
  exact hfirst 0 0 rfl ⟨rfl, rfl⟩

end ClassicContext

end Scheduler
end Cmw
