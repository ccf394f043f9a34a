import Cmw.Scheduler.CRoutine
import Cmw.Data.AllLatest

/-!
# Routines that are driven by messages

croutine/croutine_factory.h, `CreateTask` of scheduler/scheduler.cpp, `Dispatch` of
data/data_dispatcher.h and `Notify` of data/data_notifier.h.  A dispatcher fills the buffers
of a channel, and then calls the callbacks of the visitors that are notified of it; the
callback of a visitor is registered after its routine has been put into a run queue.

The visitor is a parameter: of one channel, or of two or three, of which it is notified
of the first one only.
-/

namespace Cmw
namespace Scheduler

open Library
open Library.Thread

/-- A visitor.  `unfetched` are the places in the buffer that it reads from, whose messages
it has not fetched, and `stores` is the place where a message is stored, if it is. -/
structure Visitor (σ ε μ : Type) where
  start : σ
  fill : σ → ε → σ
  tryFetch : σ → Option μ × σ
  /-- the message is on the channel that the visitor is notified of -/
  notified : ε → Bool
  stores : σ → ε → Option Nat
  unfetched : σ → Nat → Prop
  Valid : σ → Prop
  notified_of_stores : ∀ {s m k}, stores s m = some k → notified m = true
  valid_start : Valid start
  valid_fill : ∀ {s m}, Valid s → Valid (fill s m)
  valid_tryFetch : ∀ {s}, Valid s → Valid (tryFetch s).2
  unfetched_start : ∀ k, ¬ unfetched start k
  unfetched_fill : ∀ {s m k}, unfetched (fill s m) k → unfetched s k ∨ stores s m = some k
  unfetched_tryFetch : ∀ {s k}, Valid s → (tryFetch s).1 = none → ¬ unfetched (tryFetch s).2 k

namespace Visitor

open Data

/-- The places of a buffer from the index of a reader on, up to `Tail()`.  There are none any more
once the 64 bits of the tail have wrapped behind the index. -/
def Unfetched {τ : Type} (b : CacheBuffer τ) (index k : Nat) : Prop := 1 ≤ k ∧ index ≤ k ∧ k ≤ b.tail

theorem tail_fill {τ : Type} (b : CacheBuffer τ) (m : τ) : (b.fill m).tail = inc b.tail := by
  rw [CacheBuffer.fill]
  split <;> rfl

theorem unfetched_of_fill {τ : Type} {b : CacheBuffer τ} {m : τ} {index k : Nat}
    (h : Unfetched (b.fill m) index k) : Unfetched b index k ∨ some (inc b.tail) = some k := by
  obtain ⟨hpos, hindex, hle⟩ := h
  rw [tail_fill] at hle
  rcases Nat.lt_or_ge b.tail k with hlt | hge
  · have hinc : inc b.tail ≤ b.tail + 1 := Nat.mod_le _ _
    exact .inr (congrArg some (by omega))
  · exact .inl ⟨hpos, hindex, hge⟩

/-- A `Fetch` that fails has nothing to fetch. -/
theorem not_unfetched {τ : Type} {b : CacheBuffer τ} {index k : Nat} (hlt : b.tail < 2 ^ 64)
    (h : b.fetch index = none) : ¬ Unfetched b index k := by
  intro hk
  obtain ⟨hpos, hindex, hle⟩ := hk
  rw [CacheBuffer.fetch] at h
  split at h
  case isTrue hempty =>
    rw [CacheBuffer.empty, beq_iff_eq] at hempty
    omega
  split at h
  · cases h
  split at h
  case isTrue hzero hnew =>
    rw [CacheBuffer.tailPos, inc] at hnew
    omega
  split at h <;> cases h

section One

variable (τ : Type) [Inhabited τ]

/-- `DataVisitor<M0>` -/
def one (queueSize : BitVec 32) : Visitor (DataVisitor τ) τ (Nat × τ) where
  start := .new queueSize
  fill := DataVisitor.fill
  tryFetch := DataVisitor.tryFetch
  notified _ := true
  stores v _ := some (inc v.buffer.tail)
  unfetched v := Unfetched v.buffer v.nextMsgIndex
  Valid v := v.buffer.tail < 2 ^ 64
  notified_of_stores _ := rfl
  valid_start := Nat.two_pow_pos 64
  valid_fill {v m} _ := by
    show (v.buffer.fill m).tail < _
    rw [tail_fill]
    exact Nat.mod_lt _ (Nat.two_pow_pos 64)
  valid_tryFetch {v} h := by
    rw [DataVisitor.tryFetch_buffer]
    exact h
  unfetched_start k h := Nat.not_lt_zero 0 (Nat.lt_of_lt_of_le h.1 h.2.2)
  unfetched_fill h := unfetched_of_fill h
  unfetched_tryFetch {v k} hlt h := by
    rw [DataVisitor.tryFetch] at h ⊢
    cases hfetch : v.buffer.fetch v.nextMsgIndex with
    | none => exact not_unfetched hlt hfetch
    | some e =>
        rw [hfetch] at h
        cases h

end One

section Fused

variable {α σ ε ρ : Type} [Inhabited α] [Inhabited ρ]

/-- A message of the first channel, or of another one. -/
def fillFused (o : Others σ ε ρ) (v : FusedVisitor α σ ρ) : α ⊕ ε → FusedVisitor α σ ρ
  | .inl m0 => { v with dataFusion := v.dataFusion.fill0 o m0 }
  | .inr m => { v with dataFusion := v.dataFusion.fillOther o m }

/-- The visitor reads tuples, and one is stored where every other channel has a message. -/
def fused (o : Others σ ε ρ) (queueSize0 : BitVec 32) (others : σ) :
    Visitor (FusedVisitor α σ ρ) (α ⊕ ε) (α × ρ) where
  start := { dataFusion := .new queueSize0 others }
  fill := fillFused o
  tryFetch := FusedVisitor.tryFetch
  notified m := m.isLeft
  stores v m :=
    match m with
    | .inl _ => (o.latest v.dataFusion.others).map fun _ => inc v.dataFusion.bufferFusion.tail
    | .inr _ => none
  unfetched v := Unfetched v.dataFusion.bufferFusion v.nextMsgIndex
  Valid v := v.dataFusion.bufferFusion.tail < 2 ^ 64
  notified_of_stores {v m k} h := by
    cases m with
    | inl m0 => rfl
    | inr m => cases h
  valid_start := Nat.two_pow_pos 64
  valid_fill {v m} h := by
    cases m with
    | inl m0 =>
        rw [fillFused, AllLatest.fill0]
        cases o.latest v.dataFusion.others with
        | none => exact h
        | some m =>
            show (v.dataFusion.bufferFusion.fill (m0, m)).tail < _
            rw [tail_fill]
            exact Nat.mod_lt _ (Nat.two_pow_pos 64)
    | inr m => exact h
  valid_tryFetch {v} h := by
    rw [FusedVisitor.tryFetch]
    cases v.dataFusion.fusion v.nextMsgIndex <;> exact h
  unfetched_start k h := Nat.not_lt_zero 0 (Nat.lt_of_lt_of_le h.1 h.2.2)
  unfetched_fill {v m k} h := by
    cases m with
    | inl m0 =>
        simp only [fillFused, AllLatest.fill0] at h
        cases hlatest : o.latest v.dataFusion.others with
        | none =>
            rw [hlatest] at h
            exact .inl h
        | some m =>
            rw [hlatest] at h
            exact unfetched_of_fill h
    | inr m => exact .inl h
  unfetched_tryFetch {v k} hlt h := by
    rw [FusedVisitor.tryFetch] at h ⊢
    cases hfetch : v.dataFusion.fusion v.nextMsgIndex with
    | none => exact not_unfetched hlt hfetch
    | some e =>
        rw [hfetch] at h
        cases h

end Fused

/-- `DataVisitor<M0, M1>` -/
def two (α β : Type) [Inhabited α] [Inhabited β] (queueSize0 queueSize1 : BitVec 32) :
    Visitor (DataVisitor2 α β) (α ⊕ β) (α × β) :=
  fused Others.one queueSize0 (.new queueSize1.toNat)

/-- `DataVisitor<M0, M1, M2>` -/
def three (α β γ : Type) [Inhabited α] [Inhabited β] [Inhabited γ]
    (queueSize0 queueSize1 queueSize2 : BitVec 32) :
    Visitor (DataVisitor3 α β γ) (α ⊕ (β ⊕ γ)) (α × β × γ) :=
  fused Others.two queueSize0 (.new queueSize1.toNat, .new queueSize2.toNat)

end Visitor

/-! ## The code -/

inductive DataOp (ε μ : Type)
  /-- `Fill` on the buffer of the message's channel -/
  | fill (m : ε)
  /-- whether the notifier of the visitor has a callback -/
  | callback
  | registerCallback
  | tryFetch
  /-- `f(msg)`, which leaves the state of the routine as it is -/
  | run (m : μ)

@[reducible] def DataOp.Ans {ε μ : Type} : DataOp ε μ → Type
  | .callback => Bool
  | .tryFetch => Option μ
  | _ => Unit

@[reducible] def dataSig (ε μ : Type) : Sig :=
  (Scheduler.sig Unit).sum { Op := DataOp ε μ, Ans := DataOp.Ans }

abbrev DataCode (ε μ α : Type) := Code (dataSig ε μ) Unit α

open Code (ask deref)

def DataOp.get {ε μ : Type} (o : DataOp ε μ) : DataCode ε μ o.Ans := ask (S := dataSig ε μ) (.inr o)

section Code

variable {σ ε μ : Type}

/-- `Dispatch`: the visitor is the only one of its channels. -/
def dispatch (V : Visitor σ ε μ) (m : ε) : DataCode ε μ Bool := do
  (DataOp.fill m).get
  if V.notified m then do
    let registered ← DataOp.callback.get
    if registered then do
      let _ ← (notifyProcessor ()).lift
      pure true
    else pure true
  else pure false

def createTask : DataCode ε μ Bool := do
  let dispatched ← (dispatchTask ()).lift
  if dispatched then do
    DataOp.registerCallback.get
    pure true
  else pure false

/-- A round of the loop of `CreateRoutineFactory`, up to its `Yield`. -/
def fetchRound : DataCode ε μ Unit := do
  (Op.setState () .dataWait).get.lift
  let m ← DataOp.tryFetch.get
  if m.isSome then do
    let m ← deref m
    (DataOp.run m).get
    (Op.setState () .ready).get.lift
  else pure ()

end Code

inductive DataCall (ε : Type)
  | createTask
  | dispatch (m : ε)
  /-- a processor comes to the routine -/
  | turn

inductive DataAnswer
  | idle
  | created (result : Bool)
  | dispatched (result : Bool)
  | turned

def DataCall.body {σ ε μ : Type} (V : Visitor σ ε μ) : DataCall ε → DataCode ε μ DataAnswer
  | .createTask => do
      let result ← Scheduler.createTask
      pure (.created result)
  | .dispatch m => do
      let result ← Scheduler.dispatch V m
      pure (.dispatched result)
  | .turn => do
      Scheduler.turn () fetchRound
      pure .turned

/-! ## What is kept of a run -/

/-- When a call was made: `CreateTask` was not yet called, had not yet registered the
callback of the visitor, with which it returns, or had returned. -/
inductive When
  | before
  | during
  | after
  deriving DecidableEq

/-- What is kept of one thread. -/
structure Own where
  /-- when it was called -/
  since : When := .before
  /-- the number of the message that it has stored, until it has found no callback, has seen
  that the routine is not waiting, or has cleared the update flag -/
  message : Option Nat := none

/-- The memory, the messages that were stored by their number, and what the threads do. -/
structure Shared (ι σ : Type) where
  tasks : Memory ι Unit := ({}, {})
  visitor : σ
  callback : Bool := false
  creating : Bool := false
  messages : Nat := 0
  since : Nat → When := fun _ => .before
  /-- the message that was stored last at a place of the buffer -/
  storedAt : Nat → Option Nat := fun _ => none
  own : ι → Own := fun _ => {}

section Exec

variable {ι σ ε μ : Type} [DecidableEq ι]

/-- A thread has nothing more to do for the message that it has stored. -/
def Shared.finish (s : Shared ι σ) (i : ι) : Shared ι σ :=
  { s with own := Function.update s.own i { s.own i with message := none } }

/-- A thread has stored a message. -/
def Shared.store (s : Shared ι σ) (i : ι) (k : Nat) : Shared ι σ :=
  { s with
    messages := s.messages + 1
    since := Function.update s.since s.messages (s.own i).since
    storedAt := Function.update s.storedAt k (some s.messages)
    own := Function.update s.own i { s.own i with message := some s.messages } }

/-- The thread has seen that the routine is not waiting, or has cleared its flag. -/
def finishes : (o : Op Unit) → Ans o → Bool
  | .state _, state => state != .dataWait
  | .setUpdateFlag _, _ => true
  | _, _ => false

def dataExec (V : Visitor σ ε μ) (i : ι) : (o : (dataSig ε μ).Op) → Bool → Shared ι σ →
    (dataSig ε μ).Ans o × Shared ι σ
  | .inl o, x, s =>
      let r := noted i o x s.tasks
      let t := { s with tasks := r.2 }
      (r.1, if finishes o r.1 then t.finish i else t)
  | .inr (.fill m), _, s =>
      let t := { s with visitor := V.fill s.visitor m }
      ((), (V.stores s.visitor m).elim t fun k => t.store i k)
  | .inr .callback, _, s => (s.callback, if s.callback then s else s.finish i)
  | .inr .registerCallback, _, s => ((), { s with callback := true })
  | .inr .tryFetch, _, s =>
      let r := V.tryFetch s.visitor
      let t := { s with visitor := r.2 }
      (r.1, if r.1.isSome then t
        else { t with tasks := (t.tasks.1, { t.tasks.2 with due := fun _ => false }) })
  | .inr (.run _), _, s => ((), s)

def Shared.now (s : Shared ι σ) : When :=
  if s.callback then .after else if s.creating then .during else .before

def dataEnter (i : ι) (c : DataCall ε) (s : Shared ι σ) : Shared ι σ :=
  { s with
    creating := match c with
      | .createTask => true
      | _ => s.creating
    own := Function.update s.own i { since := s.now } }

abbrev DataState (ι σ ε μ : Type) := Config (dataSig ε μ) ι Unit DataAnswer (Shared ι σ)

abbrev DataStep (ι ε : Type) := Event ι (DataCall ε) Bool

def dataStep (V : Visitor σ ε μ) : DataState ι σ ε μ → DataStep ι ε → DataState ι σ ε μ :=
  Thread.step (dataExec V) dataEnter (DataCall.body V)

omit [DecidableEq ι] in
/-- The visitor has been made, and no task has been created. -/
def dataStart (ι : Type) (V : Visitor σ ε μ) : DataState ι σ ε μ :=
  Config.start (fun _ => ()) .idle { visitor := V.start }

end Exec
end Scheduler
end Cmw
