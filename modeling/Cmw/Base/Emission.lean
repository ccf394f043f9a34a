import Cmw.Base.Signal
import Cmw.Library.Run
import Mathlib.Data.List.Range

/-!
# Emissions whose callbacks use the signal

base/signal.h once more, with an emission taken apart: `operator()` copies `slots_`, gives each
slot of the copy its turn, and clears the list when it is through.  The callback of a turn may
connect and disconnect slots of the signal, and it may emit.  Emissions nest, and the innermost
one is the head of a stack; whoever uses the signal is the callback of this one, or the program
where none is running.

Beside the state of the code stands what its emissions are measured with: the slots that
`Disconnect` and `DisconnectAllSlots` have taken away, and for every emission the slots that were
connected when it started.  `correct_of_exec` holds of every run, `emission_finishes` says that
an emission comes to its end where its callbacks return, and `called_emit` that one that is left
alone is the `Signal.call` of the other modules.
-/

namespace Cmw
namespace Base

open Library

/-- The turn of a slot: whether it had been taken away, and the callback that it called. -/
structure Turn (κ : Type) where
  slot : Nat
  gone : Bool
  called : Option κ

/-- An `operator()` that has not returned.  Of the slots that were connected when it `started`
those in `left` have still to come. -/
structure Emission (κ : Type) where
  started : List Nat
  left : List Nat
  turns : List (Turn κ) := []
  inCallback : Bool := false

inductive SignalEvent (κ : Type) where
  | connect (cb : Option κ)
  | disconnect (conn : Connection)
  | disconnectAllSlots
  | emit
  | turn
  | ret
  | finish

/-- A signal with its slots by address.  `calls` are the slots whose callbacks have been called. -/
structure Emitter (κ : Type) where
  cb : Nat → Option κ := fun _ => none
  connected : Nat → Bool := fun _ => false
  count : Nat := 0
  slots : List Nat := []
  emissions : List (Emission κ) := []
  finished : List (Emission κ) := []
  gone : Nat → Bool := fun _ => false
  calls : List Nat := []

namespace Emitter

variable {κ : Type}

/-- The slots that have been connected and not taken away, in the order of their connection. -/
def live (s : Emitter κ) : List Nat := (List.range s.count).filter fun p => !s.gone p

/-- The program or a callback is running, and not the loop of an emission. -/
def free (s : Emitter κ) : Bool :=
  match s.emissions with
  | [] => true
  | e :: _ => e.inCallback

def clearDisconnectedSlots (s : Emitter κ) : Emitter κ :=
  { s with slots := s.slots.filter s.connected }

def connect (s : Emitter κ) (cb : Option κ) : Emitter κ :=
  { s with
    cb := fun p => if p = s.count then cb else s.cb p
    connected := fun p => if p = s.count then true else s.connected p
    slots := s.slots ++ [s.count]
    count := s.count + 1 }

def disconnect (s : Emitter κ) (conn : Connection) : Emitter κ :=
  if s.slots.contains conn then
    clearDisconnectedSlots
      { s with connected := fun p => if p = conn then false else s.connected p }
  else s

def disconnectAllSlots (s : Emitter κ) : Emitter κ :=
  { s with
    connected := fun p => if s.slots.contains p then false else s.connected p
    slots := [] }

/-- The turn of `p`: its callback is called where it is connected and has one. -/
def turn (s : Emitter κ) (e : Emission κ) (p : Nat) (left : List Nat) : Emission κ :=
  let called := if s.connected p then s.cb p else none
  { e with
    left
    turns := e.turns ++ [{ slot := p, gone := s.gone p, called }]
    inCallback := called.isSome }

/-- An event that the code cannot come to where it stands leaves it as it is. -/
def step (s : Emitter κ) : SignalEvent κ → Emitter κ
  | .connect cb => if s.free then s.connect cb else s
  | .disconnect conn =>
      if s.free then
        { s.disconnect conn with gone := fun p => s.gone p || (p == conn && decide (p < s.count)) }
      else s
  | .disconnectAllSlots =>
      if s.free then
        { s.disconnectAllSlots with gone := fun p => s.gone p || decide (p < s.count) }
      else s
  | .emit =>
      if s.free then
        { s with emissions := { started := s.live, left := s.slots } :: s.emissions }
      else s
  | .turn =>
      match s.emissions with
      | [] => s
      | e :: emissions =>
          match e.inCallback, e.left with
          | false, p :: left =>
              let e' := s.turn e p left
              { s with
                emissions := e' :: emissions
                calls := if e'.inCallback then s.calls ++ [p] else s.calls }
          | _, _ => s
  | .ret =>
      match s.emissions with
      | [] => s
      | e :: emissions => { s with emissions := { e with inCallback := false } :: emissions }
  | .finish =>
      match s.emissions with
      | [] => s
      | e :: emissions =>
          match e.inCallback, e.left with
          | false, [] =>
              { s.clearDisconnectedSlots with emissions, finished := s.finished ++ [e] }
          | _, _ => s

end Emitter

/-- The emission gives every slot that was connected when it started one turn, in the order of
their connection, and a turn calls the slot unless it has been taken away. -/
structure Emission.Exact {κ : Type} (e : Emission κ) (cb : Nat → Option κ) : Prop where
  ordered : e.started.Pairwise (· < ·)
  once : e.turns.map Turn.slot ++ e.left = e.started
  called : ∀ t ∈ e.turns, t.called = if t.gone then none else cb t.slot

/-- What emissions do, those that are running and those that have returned, and what becomes of
a slot that has been taken away. -/
structure Emitter.Correct {κ : Type} (s : Emitter κ) : Prop where
  emitted : ∀ e ∈ s.emissions ++ s.finished, e.Exact s.cb
  complete : ∀ e ∈ s.finished, e.left = []
  removed : ∀ p, s.gone p = true → p ∉ s.slots
  silent : ∀ p, s.gone p = true → ∀ es,
    ∃ later, (Run.exec Emitter.step s es).calls = s.calls ++ later ∧ p ∉ later

namespace Emission.Exact

variable {κ : Type} {e : Emission κ} {cb : Nat → Option κ}

theorem congr {cb' : Nat → Option κ} (h : e.Exact cb) (hcb : ∀ p ∈ e.started, cb' p = cb p) :
    e.Exact cb' := by
  refine { h with called := fun t ht => ?_ }
  have hslot : t.slot ∈ e.started := by
    rw [← h.once]
    exact List.mem_append_left _ (List.mem_map_of_mem ht)
  rw [hcb t.slot hslot]
  exact h.called t ht

theorem mem_left (h : e.Exact cb) {p : Nat} (hp : p ∈ e.left) : p ∈ e.started := by
  rw [← h.once]
  exact List.mem_append_right _ hp

end Emission.Exact

namespace Emitter

variable {κ : Type} {s : Emitter κ}

/-- The list holds the slots that are live, their flags say so, and no emission knows of a slot
that is still to be connected. -/
structure Good (s : Emitter κ) : Prop where
  slots_eq : s.slots = s.live
  connected_eq : ∀ p, s.connected p = (decide (p < s.count) && !s.gone p)
  gone_lt : ∀ p, s.gone p = true → p < s.count
  emissions : ∀ e ∈ s.emissions ++ s.finished, e.Exact s.cb ∧ ∀ p ∈ e.started, p < s.count
  complete : ∀ e ∈ s.finished, e.left = []

theorem mem_live {p : Nat} : p ∈ s.live ↔ p < s.count ∧ s.gone p = false := by
  rw [live, List.mem_filter, List.mem_range, Bool.not_eq_true']

namespace Good

theorem mem_slots (h : s.Good) (p : Nat) : p ∈ s.slots ↔ s.connected p = true := by
  rw [h.slots_eq, mem_live, h.connected_eq, Bool.and_eq_true, decide_eq_true_eq,
    Bool.not_eq_true']

theorem contains_slots (h : s.Good) (p : Nat) : s.slots.contains p = s.connected p := by
  rw [Bool.eq_iff_iff, List.contains_iff_mem, h.mem_slots]

theorem clear (h : s.Good) : s.clearDisconnectedSlots = s := by
  rw [clearDisconnectedSlots, List.filter_eq_self.mpr fun p hp => (h.mem_slots p).mp hp]

theorem init : Good ({} : Emitter κ) where
  slots_eq := rfl
  connected_eq := fun _ => rfl
  gone_lt := fun _ h => absurd h Bool.false_ne_true
  emissions := List.forall_mem_nil _
  complete := List.forall_mem_nil _

theorem connect (h : s.Good) (cb : Option κ) : (s.connect cb).Good := by
  have hnew : s.gone s.count = false := by
    rw [← Bool.not_eq_true]
    exact fun hgone => Nat.lt_irrefl _ (h.gone_lt s.count hgone)
  refine
    { slots_eq := ?_
      connected_eq := fun p => ?_
      gone_lt := fun p hp => Nat.lt_succ_of_lt (h.gone_lt p hp)
      emissions := fun e he => ?_
      complete := h.complete }
  · show s.slots ++ [s.count] = (List.range (s.count + 1)).filter fun p => !s.gone p
    rw [List.range_succ, List.filter_append, List.filter_singleton, hnew, h.slots_eq]
    rfl
  · show (if p = s.count then true else s.connected p) =
      (decide (p < s.count + 1) && !s.gone p)
    split
    case isTrue hp => rw [hp, hnew, decide_eq_true (Nat.lt_succ_self _)]; rfl
    case isFalse hne =>
      rw [h.connected_eq, decide_eq_decide.mpr]
      omega
  · obtain ⟨hexact, hlt⟩ := h.emissions e he
    refine ⟨hexact.congr fun p hp => ?_, fun p hp => Nat.lt_succ_of_lt (hlt p hp)⟩
    exact if_neg (Nat.ne_of_lt (hlt p hp))

theorem disconnect_eq (h : s.Good) (conn : Connection) :
    s.disconnect conn =
      { s with
        connected := fun p => if p = conn then false else s.connected p
        slots := s.slots.filter fun p => p != conn } := by
  rw [Emitter.disconnect, h.contains_slots]
  split
  case isTrue =>
    rw [clearDisconnectedSlots]
    dsimp only
    congr 1
    refine List.filter_congr fun p hp => ?_
    split
    case isTrue heq => exact (bne_eq_false_iff_eq.mpr heq).symm
    case isFalse hne => rw [(h.mem_slots p).mp hp, bne_iff_ne.mpr hne]
  case isFalse hnot =>
    have hconnected : (fun p => if p = conn then false else s.connected p) = s.connected := by
      funext p
      split
      case isTrue heq => exact heq ▸ (Bool.not_eq_true _ ▸ hnot).symm
      case isFalse => rfl
    have hslots : s.slots.filter (fun p => p != conn) = s.slots := by
      refine List.filter_eq_self.mpr fun p hp => bne_iff_ne.mpr fun heq => hnot ?_
      exact heq ▸ (h.mem_slots p).mp hp
    rw [hconnected, hslots]

theorem disconnect (h : s.Good) (conn : Connection) :
    Good { s.disconnect conn with
      gone := fun p => s.gone p || (p == conn && decide (p < s.count)) } := by
  rw [h.disconnect_eq]
  refine
    { slots_eq := ?_
      connected_eq := fun p => ?_
      gone_lt := fun p hp => ?_
      emissions := h.emissions
      complete := h.complete }
  · dsimp only [live]
    rw [h.slots_eq, live, List.filter_filter]
    refine List.filter_congr fun p hp => ?_
    rw [decide_eq_true (List.mem_range.mp hp), Bool.and_true, Bool.not_or, Bool.and_comm]
    rfl
  · dsimp only
    rw [h.connected_eq]
    split
    case isTrue heq =>
      rw [beq_iff_eq.mpr heq]
      cases decide (p < s.count) <;> simp
    case isFalse hne => rw [beq_eq_false_iff_ne.mpr hne, Bool.false_and, Bool.or_false]
  · rcases Bool.or_eq_true_iff.mp hp with hp | hp
    · exact h.gone_lt p hp
    · exact of_decide_eq_true (Bool.and_eq_true_iff.mp hp).2

theorem disconnectAllSlots (h : s.Good) :
    Good { s.disconnectAllSlots with gone := fun p => s.gone p || decide (p < s.count) } := by
  refine
    { slots_eq := ?_
      connected_eq := fun p => ?_
      gone_lt := fun p hp => ?_
      emissions := h.emissions
      complete := h.complete }
  · refine (List.filter_eq_nil_iff.mpr fun p hp => ?_).symm
    have hlt : p < s.count := List.mem_range.mp hp
    show ¬(!(s.gone p || decide (p < s.count))) = true
    rw [decide_eq_true hlt, Bool.or_true]
    exact Bool.false_ne_true
  · show (if s.slots.contains p then false else s.connected p) =
      (decide (p < s.count) && !(s.gone p || decide (p < s.count)))
    rw [h.contains_slots, h.connected_eq]
    cases decide (p < s.count) <;> simp
  · rcases Bool.or_eq_true_iff.mp hp with hp | hp
    · exact h.gone_lt p hp
    · exact of_decide_eq_true hp

theorem emit (h : s.Good) :
    Good { s with emissions := { started := s.live, left := s.slots } :: s.emissions } := by
  refine { h with emissions := List.forall_mem_cons.mpr ⟨⟨?_, fun p hp => ?_⟩, h.emissions⟩ }
  · exact
      { ordered := List.Pairwise.filter _ List.pairwise_lt_range
        once := h.slots_eq
        called := List.forall_mem_nil _ }
  · exact (mem_live.mp hp).1

/-- The turn of a slot calls it unless it has been taken away. -/
theorem turn_exact (h : s.Good) {e : Emission κ} {emissions : List (Emission κ)}
    (hem : s.emissions = e :: emissions) {p : Nat} {left : List Nat} (hleft : e.left = p :: left) :
    (s.turn e p left).Exact s.cb ∧ ∀ q ∈ (s.turn e p left).started, q < s.count := by
  have hmem : e ∈ s.emissions ++ s.finished := List.mem_append_left _ (hem ▸ List.mem_cons_self)
  obtain ⟨hexact, hlt⟩ := h.emissions e hmem
  refine ⟨⟨hexact.ordered, ?_, fun t ht => ?_⟩, hlt⟩
  · show (e.turns ++ [_]).map Turn.slot ++ left = e.started
    rw [← hexact.once, hleft, List.map_append, List.append_assoc]
    rfl
  · rcases List.mem_append.mp ht with ht | ht
    · exact hexact.called t ht
    · have hp : p < s.count := hlt p (hexact.mem_left (hleft ▸ List.mem_cons_self))
      obtain rfl := List.mem_singleton.mp ht
      dsimp only
      rw [h.connected_eq, decide_eq_true hp, Bool.true_and]
      cases s.gone p <;> rfl

theorem of_head (h : s.Good) {e e' : Emission κ} {emissions : List (Emission κ)} {calls : List Nat}
    (hem : s.emissions = e :: emissions)
    (he' : e'.Exact s.cb ∧ ∀ p ∈ e'.started, p < s.count) :
    Good { s with emissions := e' :: emissions, calls } := by
  refine { h with emissions := List.forall_mem_cons.mpr ⟨he', fun e he => h.emissions e ?_⟩ }
  rw [hem]
  exact List.mem_cons_of_mem _ he

theorem finish (h : s.Good) {e : Emission κ} {emissions : List (Emission κ)}
    (hem : s.emissions = e :: emissions) (hleft : e.left = []) :
    Good { s.clearDisconnectedSlots with emissions, finished := s.finished ++ [e] } := by
  rw [h.clear]
  refine { h with emissions := fun e' he' => h.emissions e' ?_, complete := ?_ }
  · rw [hem, List.cons_append]
    rcases List.mem_append.mp he' with he' | he'
    · exact List.mem_cons_of_mem _ (List.mem_append_left _ he')
    · rcases List.mem_append.mp he' with he' | he'
      · exact List.mem_cons_of_mem _ (List.mem_append_right _ he')
      · exact List.mem_singleton.mp he' ▸ List.mem_cons_self
  · exact List.forall_mem_append.mpr ⟨h.complete, List.forall_mem_singleton.mpr hleft⟩

theorem step (h : s.Good) (ev : SignalEvent κ) : (s.step ev).Good := by
  cases ev with
  | connect cb =>
      rw [Emitter.step]
      split
      · exact h.connect cb
      · exact h
  | disconnect conn =>
      rw [Emitter.step]
      split
      · exact h.disconnect conn
      · exact h
  | disconnectAllSlots =>
      rw [Emitter.step]
      split
      · exact h.disconnectAllSlots
      · exact h
  | emit =>
      rw [Emitter.step]
      split
      · exact h.emit
      · exact h
  | turn =>
      rw [Emitter.step]
      split
      case h_1 => exact h
      case h_2 e emissions hem =>
        split
        case h_1 p left _ hleft => exact h.of_head hem (h.turn_exact hem hleft)
        case h_2 => exact h
  | ret =>
      rw [Emitter.step]
      split
      case h_1 => exact h
      case h_2 e emissions hem =>
        obtain ⟨hexact, hlt⟩ :=
          h.emissions e (List.mem_append_left _ (hem ▸ List.mem_cons_self))
        exact h.of_head hem ⟨⟨hexact.ordered, hexact.once, hexact.called⟩, hlt⟩
  | finish =>
      rw [Emitter.step]
      split
      case h_1 => exact h
      case h_2 e emissions hem =>
        split
        case h_1 _ hleft => exact h.finish hem hleft
        case h_2 => exact h

theorem exec (h : s.Good) (es : List (SignalEvent κ)) : (Run.exec Emitter.step s es).Good :=
  Run.invariant_always (I := Good) (fun _ ev h => h.step ev) h _ (Run.exec_mem_states ..)

end Good

/-! ## Slots that have been taken away -/

/-- The slots that are left to an emission get their turns, and it ends.  `body` is what a
callback does with the signal, by the state in which it is called. -/
def rest (body : Emitter κ → List (SignalEvent κ)) : Nat → Emitter κ → List (SignalEvent κ)
  | 0, _ => [.finish]
  | left + 1, s =>
      let es := .turn :: if (s.step .turn).free then body (s.step .turn) ++ [.ret] else []
      es ++ rest body left (Run.exec step s es)

theorem step_ret {e : Emission κ} {emissions : List (Emission κ)}
    (hem : s.emissions = e :: emissions) :
    s.step .ret = { s with emissions := { e with inCallback := false } :: emissions } := by
  simp only [step, hem]

/-- An emission that has returned is not forgotten. -/
theorem finished_step (s : Emitter κ) (ev : SignalEvent κ) :
    ∃ new, (s.step ev).finished = s.finished ++ new := by
  have hsame : ∃ new, s.finished = s.finished ++ new := ⟨[], (List.append_nil _).symm⟩
  cases ev with
  | connect | disconnectAllSlots | emit =>
      rw [step]
      split <;> exact hsame
  | disconnect conn =>
      rw [step, Emitter.disconnect]
      split
      · split <;> exact hsame
      · exact hsame
  | turn =>
      rw [step]
      split
      · exact hsame
      · split <;> exact hsame
  | ret =>
      rw [step]
      split <;> exact hsame
  | finish =>
      rw [step]
      split
      · exact hsame
      case h_2 e _ _ =>
        split
        · exact ⟨[e], rfl⟩
        · exact hsame

theorem finished_exec (s : Emitter κ) (es : List (SignalEvent κ)) :
    ∃ new, (Run.exec step s es).finished = s.finished ++ new := by
  induction es generalizing s with
  | nil => exact ⟨[], (List.append_nil _).symm⟩
  | cons ev es ih =>
      obtain ⟨now, hnow⟩ := finished_step s ev
      obtain ⟨later, hlater⟩ := ih (s.step ev)
      exact ⟨now ++ later, by rw [Run.exec_cons, hlater, hnow, List.append_assoc]⟩

/-- The innermost emission waits for its loop to go on. -/
structure Looping (s : Emitter κ) (started left : List Nat) (emissions : List (Emission κ)) :
    Prop where
  innermost : ∃ e, s.emissions = e :: emissions ∧ e.started = started ∧ e.left = left ∧
    e.inCallback = false

section Return

variable {body : Emitter κ → List (SignalEvent κ)} {started : List Nat}
  {emissions : List (Emission κ)}

/-- A turn, with the callback that it calls. -/
theorem Looping.turn (hbody : ∀ t, t.free = true →
      (Run.exec step t (body t)).emissions = t.emissions) {p : Nat} {left : List Nat}
    (h : s.Looping started (p :: left) emissions) :
    (Run.exec step s (.turn :: if (s.step .turn).free then body (s.step .turn) ++ [.ret]
      else [])).Looping started left emissions := by
  obtain ⟨e, hem, hstarted, hleft, hrun⟩ := h.innermost
  have hturn : (s.step .turn).emissions = s.turn e p left :: emissions := by
    simp only [step, hem, hrun, hleft]
  have hfree : (s.step .turn).free = (s.turn e p left).inCallback := by
    rw [free, hturn]
  rw [Run.exec_cons]
  split
  case isTrue hcalled =>
      have hback := (hbody _ hcalled).trans hturn
      rw [Run.exec_append, Run.exec_cons, Run.exec_nil]
      refine ⟨{ s.turn e p left with inCallback := false }, ?_, hstarted, rfl, rfl⟩
      simp only [step_ret hback]
  case isFalse hnot =>
      rw [hfree, Bool.not_eq_true] at hnot
      exact ⟨s.turn e p left, hturn, hstarted, rfl, hnot⟩

theorem Looping.rest (hbody : ∀ t, t.free = true →
      (Run.exec step t (body t)).emissions = t.emissions) {left : List Nat}
    (h : s.Looping started left emissions) :
    let t := Run.exec step s (rest body left.length s)
    t.emissions = emissions ∧
      ∃ nested e, t.finished = s.finished ++ nested ++ [e] ∧ e.started = started := by
  induction left generalizing s with
  | nil =>
      obtain ⟨e, hem, hstarted, hleft, hrun⟩ := h.innermost
      have hfinish : s.step .finish =
          { s.clearDisconnectedSlots with emissions, finished := s.finished ++ [e] } := by
        simp only [step, hem, hrun, hleft]
      intro t
      have ht : t = s.step .finish := rfl
      rw [ht, hfinish]
      exact ⟨rfl, [], e, by rw [List.append_nil], hstarted⟩
  | cons p left ih =>
      intro t
      have ht : t = Run.exec step _ (Emitter.rest body left.length _) := Run.exec_append ..
      obtain ⟨hback, nested, e, hfinished, hstarted⟩ := ih (h.turn hbody)
      obtain ⟨new, hnew⟩ := finished_exec s
        (.turn :: if (s.step .turn).free then body (s.step .turn) ++ [.ret] else [])
      rw [ht]
      refine ⟨hback, new ++ nested, e, ?_, hstarted⟩
      rw [hfinished, hnew, List.append_assoc s.finished]

/-- Whatever its callbacks do with the signal: where each of them returns, the emission comes to
its end, behind those that it has nested, and every slot that was connected when it started has
had its turn. -/
theorem emission_finishes (h : s.Good) (hfree : s.free = true) (hbody : ∀ t, t.free = true →
      (Run.exec step t (body t)).emissions = t.emissions) :
    let t := Run.exec step s (.emit :: rest body s.slots.length (s.step .emit))
    t.emissions = s.emissions ∧ ∃ nested e, t.finished = s.finished ++ nested ++ [e] ∧
      e.turns.map Turn.slot = s.live := by
  intro t
  have hemit : s.step .emit =
      { s with emissions := { started := s.live, left := s.slots } :: s.emissions } := by
    rw [step, hfree, if_pos rfl]
  have hlooping : (s.step .emit).Looping s.live s.slots s.emissions :=
    ⟨_, congrArg Emitter.emissions hemit, rfl, rfl, rfl⟩
  obtain ⟨hback, nested, e, hfinished, hstarted⟩ := hlooping.rest hbody
  have hsame : (s.step .emit).finished = s.finished := by rw [hemit]
  rw [hsame] at hfinished
  refine ⟨hback, nested, e, hfinished, ?_⟩
  have hgood : t.Good := h.exec _
  have he : e ∈ t.finished := by
    show e ∈ (Run.exec step (s.step .emit) _).finished
    rw [hfinished]
    exact List.mem_append_right _ List.mem_cons_self
  have honce := (hgood.emissions e (List.mem_append_right _ he)).1.once
  rwa [hgood.complete e he, List.append_nil, hstarted] at honce

end Return

/-! ## Emissions that are left alone -/

/-- The signal without its emissions. -/
def signal (s : Emitter κ) : Signal (Option κ) :=
  { slots := s.slots.map fun p => { ptr := p, cb := s.cb p, connected := s.connected p }
    count := s.count }

theorem signal_connect (h : s.Good) (cb : Option κ) :
    (s.connect cb).signal = (s.signal.connect cb).2 := by
  have hold : ∀ p ∈ s.slots, p ≠ s.count := by
    intro p hp
    rw [h.slots_eq, mem_live] at hp
    exact Nat.ne_of_lt hp.1
  rw [signal, signal, connect, Signal.connect]
  dsimp only
  rw [List.map_append, List.map_singleton, if_pos rfl, if_pos rfl,
    List.map_congr_left fun p hp => ?_]
  rw [if_neg (hold p hp), if_neg (hold p hp)]

theorem signal_disconnect (h : s.Good) (conn : Connection) :
    (s.disconnect conn).signal = s.signal.disconnect conn := by
  have hconnected : ∀ slot ∈ s.signal.slots, slot.connected = true := by
    intro slot hslot
    obtain ⟨p, hp, rfl⟩ := List.mem_map.mp hslot
    exact (h.mem_slots p).mp hp
  have hslots : (s.disconnect conn).signal.slots = (s.signal.disconnect conn).slots := by
    rw [Signal.slots_disconnect hconnected, h.disconnect_eq, signal, signal]
    dsimp only
    rw [List.filter_map]
    refine List.map_congr_left fun p hp => ?_
    rw [if_neg (bne_iff_ne.mp (List.mem_filter.mp hp).2)]
  have hcount : (s.disconnect conn).signal.count = (s.signal.disconnect conn).count := by
    rw [Signal.count_disconnect, h.disconnect_eq]
    rfl
  calc (s.disconnect conn).signal
      = ⟨(s.disconnect conn).signal.slots, (s.disconnect conn).signal.count⟩ := rfl
    _ = s.signal.disconnect conn := by rw [hslots, hcount]

/-- The turns of an emission whose callbacks return without using the signal. -/
def loop (slots : List Nat) : List (SignalEvent κ) := slots.flatMap fun _ => [.turn, .ret]

/-- The turn of `p` as the emission records it. -/
def turnOf (s : Emitter κ) (p : Nat) : Turn κ :=
  { slot := p, gone := s.gone p, called := if s.connected p then s.cb p else none }

theorem exec_turn {e : Emission κ} {emissions : List (Emission κ)}
    (hem : s.emissions = e :: emissions) (hrun : e.inCallback = false) {p : Nat} {left : List Nat}
    (hleft : e.left = p :: left) :
    ∃ calls, Run.exec step s [.turn, .ret] =
      { s with
        emissions := { e with left, turns := e.turns ++ [s.turnOf p] } :: emissions
        calls } := by
  have hturn : s.step .turn =
      { s with
        emissions := s.turn e p left :: emissions
        calls := if (s.turn e p left).inCallback then s.calls ++ [p] else s.calls } := by
    simp only [step, hem, hrun, hleft]
  refine ⟨if (s.turn e p left).inCallback then s.calls ++ [p] else s.calls, ?_⟩
  rw [Run.exec_cons, hturn, Run.exec_cons, Run.exec_nil, step]
  simp only [turn, turnOf, hrun]

theorem exec_loop {e : Emission κ} {emissions : List (Emission κ)}
    (hem : s.emissions = e :: emissions) (hrun : e.inCallback = false) :
    ∃ calls, Run.exec step s (loop e.left) =
      { s with
        emissions :=
          { e with left := [], turns := e.turns ++ e.left.map s.turnOf } :: emissions
        calls } := by
  generalize hleft : e.left = left
  induction left generalizing s e with
  | nil =>
      refine ⟨s.calls, ?_⟩
      rw [List.map_nil, List.append_nil]
      have he : { e with left := [] } = e := by rw [← hleft]
      rw [he, ← hem]
      rfl
  | cons p left ih =>
      obtain ⟨calls, hturn⟩ := exec_turn hem hrun hleft
      obtain ⟨calls', hrest⟩ := ih (s := { s with
        emissions := { e with left, turns := e.turns ++ [s.turnOf p] } :: emissions, calls })
        rfl hrun rfl
      refine ⟨calls', ?_⟩
      rw [loop, List.flatMap_cons, Run.exec_append, hturn, ← loop, hrest, List.append_assoc]
      rfl

/-- An emission that is left alone calls what `Signal.call` calls. -/
theorem called_emit (h : s.Good) (hfree : s.free = true) :
    ∃ e, (Run.exec step s (.emit :: (loop s.slots ++ [.finish]))).finished = s.finished ++ [e] ∧
      e.turns.map Turn.called = s.signal.call.1 ∧
      (Run.exec step s (.emit :: (loop s.slots ++ [.finish]))).signal = s.signal.call.2 := by
  have hconnected : ∀ p ∈ s.slots, s.connected p = true := fun p hp => (h.mem_slots p).mp hp
  have hsignal : s.signal.slots.filter (fun slot => slot.connected) = s.signal.slots := by
    rw [signal, List.filter_map]
    exact congrArg _ (List.filter_eq_self.mpr hconnected)
  have hemit : s.step .emit =
      { s with emissions := { started := s.live, left := s.slots } :: s.emissions } := by
    rw [step, hfree, if_pos rfl]
  obtain ⟨calls, hloop⟩ := exec_loop (s := s.step .emit) (congrArg emissions hemit) rfl
  have hend : Run.exec step s (.emit :: (loop s.slots ++ [.finish])) =
      { s.clearDisconnectedSlots with
        finished := s.finished ++
          [{ started := s.live, left := [], turns := s.slots.map s.turnOf }]
        calls } := by
    rw [Run.exec_cons, Run.exec_append, hloop, hemit]
    rfl
  rw [hend]
  refine ⟨_, rfl, ?_, ?_⟩
  · show (s.slots.map s.turnOf).map Turn.called =
      (s.signal.slots.filter fun slot => slot.connected).map fun slot => slot.cb
    rw [hsignal, signal, List.map_map, List.map_map]
    exact List.map_congr_left fun p hp => if_pos (hconnected p hp)
  · rw [h.clear, Signal.call, Signal.clearDisconnectedSlots]
    dsimp only
    rw [hsignal]
    rfl

end Emitter

end Base
end Cmw
