import Cmw.Library.Thread
import Cmw.Library.Atomic
import Cmw.Library.Ring

/-!
# The bounded queue

base/bounded_queue.h.  An element is enqueued in three steps: its number is reserved at
`tail_`, it is written to the slot of the number, and the number is committed at
`commit_`.  A consumer copies the element after the last one that was dequeued, and
claims it at `head_`.  The exchanges are weak: one may fail for no reason.

The history keeps the elements in the order in which their numbers were reserved, and
what was claimed in the order in which it was claimed.
-/

namespace Cmw
namespace Base
namespace Queue

open Library
open Library.Thread

/-- `pool_size_`, which `Init` sets. -/
def poolSize (size : BitVec 64) : Nat := (size + 2).toNat

/-- `GetIndex`, which divides by `pool_size_`. -/
def getIndex (poolSize num : Nat) : Option Nat :=
  if poolSize = 0 then none else some (num - num / poolSize * poolSize)

structure BoundedQueue (T : Type) where
  head : Nat := 0
  tail : Nat := 1
  commit : Nat := 1
  pool : Nat → T

inductive Op (T : Type)
  | loadHead
  | loadTail
  | loadCommit
  | casHead (expected desired : Nat)
  | casTail (expected desired : Nat)
  | casCommit (expected desired : Nat)
  | write (idx : Nat) (element : T)
  | read (idx : Nat)
  /-- `wait_strategy_->NotifyOne()` -/
  | notifyOne

@[reducible] def Ans {T : Type} : Op T → Type
  | .loadHead | .loadTail | .loadCommit => Nat
  | .casHead _ _ | .casTail _ _ | .casCommit _ _ => Exchange Nat
  | .read _ => T
  | .write _ _ | .notifyOne => Unit

@[reducible] def sig (T : Type) : Sig := { Op := Op T, Ans }

def exec {T : Type} : (o : Op T) → Bool → BoundedQueue T → Ans o × BoundedQueue T
  | .loadHead, _, q => (q.head, q)
  | .loadTail, _, q => (q.tail, q)
  | .loadCommit, _, q => (q.commit, q)
  | .casHead expected desired, x, q =>
      ((exchange q.head expected desired x).1,
        { q with head := (exchange q.head expected desired x).2 })
  | .casTail expected desired, x, q =>
      ((exchange q.tail expected desired x).1,
        { q with tail := (exchange q.tail expected desired x).2 })
  | .casCommit expected desired, x, q =>
      ((exchange q.commit expected desired x).1,
        { q with commit := (exchange q.commit expected desired x).2 })
  | .write idx element, _, q => ((), { q with pool := Function.update q.pool idx element })
  | .read idx, _, q => (q.pool idx, q)
  | .notifyOne, _, q => ((), q)

structure Locals where
  /-- `old_tail`, as long as `Enqueue` looks for a number -/
  oldTail : Option Nat := none

abbrev QueueCode (T : Type) := Code (sig T) Locals

open Code (ask deref hang)

def Op.get {T : Type} (o : Op T) : QueueCode T (Ans o) := ask (S := sig T) o

section Code

variable {T : Type} (poolSize : Nat)

/-- The first loop of `Enqueue`, from the tail that it has seen: the number that it
reserves, or none where the queue looks full. -/
def reserve : Nat → Nat → QueueCode T (Option Nat)
  | 0, _ => hang
  | left + 1, oldTail => do
      modify fun x => { x with oldTail := some oldTail }
      let newTail := plusOne oldTail
      let i ← deref (getIndex poolSize newTail)
      let head ← Op.loadHead.get
      let j ← deref (getIndex poolSize head)
      if i = j then pure none
      else do
        let r ← (Op.casTail oldTail newTail).get
        if r.swapped then pure (some oldTail) else reserve left r.seen

/-- The second loop. -/
def publish : Nat → Nat → Nat → QueueCode T Unit
  | 0, _, _ => hang
  | left + 1, oldTail, newTail => do
      let r ← (Op.casCommit oldTail newTail).get
      if r.swapped then pure () else publish left oldTail newTail

/-- `Enqueue`, by copy or by move: the element leaves the caller in one step. -/
def enqueue (left : Nat) (element : T) : QueueCode T Bool := do
  let oldTail ← Op.loadTail.get
  let reserved ← reserve poolSize left oldTail
  modify fun x => { x with oldTail := none }
  if reserved.isNone then pure false
  else do
    let oldTail ← deref reserved
    let newTail := plusOne oldTail
    let idx ← deref (getIndex poolSize oldTail)
    (Op.write idx element).get
    publish left oldTail newTail
    Op.notifyOne.get
    pure true

/-- The loop of `Dequeue`, from the head that it has seen. -/
def claim : Nat → Nat → QueueCode T (Option T)
  | 0, _ => hang
  | left + 1, oldHead => do
      let newHead := plusOne oldHead
      let commit ← Op.loadCommit.get
      if newHead = commit then pure none
      else do
        let idx ← deref (getIndex poolSize newHead)
        let element ← (Op.read idx).get
        let r ← (Op.casHead oldHead newHead).get
        if r.swapped then pure (some element) else claim left r.seen

/-- `Dequeue`: what it leaves in `*element` where it returns true. -/
def dequeue (left : Nat) : QueueCode T (Option T) := do
  let oldHead ← Op.loadHead.get
  claim poolSize left oldHead

end Code

/-- A call, with a bound on the rounds of its loops. -/
inductive Call (T : Type)
  | enqueue (left : Nat) (element : T)
  | dequeue (left : Nat)

inductive Answer (T : Type)
  | initialised
  | enqueued (result : Bool)
  | dequeued (element : Option T)

def Call.body {T : Type} (poolSize : Nat) : Call T → QueueCode T (Answer T)
  | enqueue left element => do
      let result ← Queue.enqueue poolSize left element
      pure (.enqueued result)
  | dequeue left => do
      let element ← Queue.dequeue poolSize left
      pure (.dequeued element)

/-! ### What is kept of a run -/

/-- What the history keeps of one thread. -/
structure Own (T : Type) where
  /-- the element that it was last called to enqueue -/
  element : Option T := none
  /-- the number that it has reserved, and not yet committed -/
  ticket : Option Nat := none
  /-- the element that it has copied last -/
  copy : Option T := none
  /-- the place, from zero, of what it has reserved in this call -/
  reserved : Option Nat := none
  /-- the place of what it has claimed in this call -/
  claimed : Option Nat := none

structure History (ι T : Type) where
  own : ι → Own T := fun _ => {}
  /-- the elements, in the order in which their numbers were reserved -/
  reserved : List T := []
  /-- what the claims returned, in their order -/
  dequeued : List T := []

variable {ι T : Type} [DecidableEq ι]

def History.setOwn (h : History ι T) (i : ι) (o : Own T) : History ι T :=
  { h with own := Function.update h.own i o }

def note (i : ι) : (o : Op T) → Ans o → History ι T → History ι T
  | .casTail _ _, r, h =>
      if r.swapped then
        { h.setOwn i { h.own i with
            ticket := some (h.reserved.length + 1), reserved := some h.reserved.length } with
          reserved := h.reserved ++ (h.own i).element.toList }
      else h
  | .casCommit _ _, r, h => if r.swapped then h.setOwn i { h.own i with ticket := none } else h
  | .read _, element, h => h.setOwn i { h.own i with copy := some element }
  | .casHead _ _, r, h =>
      if r.swapped then
        { h.setOwn i { h.own i with claimed := some h.dequeued.length } with
          dequeued := h.dequeued ++ (h.own i).copy.toList }
      else h
  | _, _, h => h

abbrev Shared (ι T : Type) := BoundedQueue T × History ι T

def noted (i : ι) (o : Op T) (x : Bool) (k : Shared ι T) : Ans o × Shared ι T :=
  noting (S := sig T) exec note i o x k

def enter (i : ι) (call : Call T) (k : Shared ι T) : Shared ι T :=
  match call with
  | .enqueue _ element => (k.1, k.2.setOwn i { element := some element })
  | .dequeue _ => (k.1, k.2.setOwn i {})

abbrev State (ι T : Type) := Config (sig T) ι Locals (Answer T) (Shared ι T)

abbrev Step (ι T : Type) := Event ι (Call T) Bool

def step (size : BitVec 64) : State ι T → Step ι T → State ι T :=
  Thread.step noted enter (Call.body (poolSize size))

omit [DecidableEq ι] in
/-- A queue that has been initialised: its slots hold `T()`. -/
def start (ι : Type) {T : Type} (fresh : T) : State ι T :=
  Config.start (fun _ => {}) .initialised ({ pool := fun _ => fresh }, {})

/-! ### The operations -/

theorem getIndex_eq {p n i : Nat} (h : getIndex p n = some i) : i = n % p := by
  unfold getIndex at h
  split at h
  · cases h
  · rw [← Option.some.inj h, Nat.mod_eq_sub, Nat.mul_comm]

/-- An exchange of `tail_` reserves the number that it expects, or changes nothing. -/
theorem casTail_cases (i : ι) (expected desired : Nat) (x : Bool) (k : Shared ι T) :
    k.1.tail = expected ∧ noted i (.casTail expected desired) x k =
        (⟨true, expected⟩, { k.1 with tail := desired },
          { k.2.setOwn i { k.2.own i with
              ticket := some (k.2.reserved.length + 1)
              reserved := some k.2.reserved.length } with
            reserved := k.2.reserved ++ (k.2.own i).element.toList }) ∨
      noted i (.casTail expected desired) x k = (⟨false, k.1.tail⟩, k) := by
  rcases exchange_cases k.1.tail expected desired x with ⟨heq, h⟩ | h
  · exact .inl ⟨heq, by simp [noted, noting, exec, note, h]⟩
  · exact .inr (by simp [noted, noting, exec, note, h])

theorem casCommit_cases (i : ι) (expected desired : Nat) (x : Bool) (k : Shared ι T) :
    k.1.commit = expected ∧ noted i (.casCommit expected desired) x k =
        (⟨true, expected⟩, { k.1 with commit := desired },
          k.2.setOwn i { k.2.own i with ticket := none }) ∨
      noted i (.casCommit expected desired) x k = (⟨false, k.1.commit⟩, k) := by
  rcases exchange_cases k.1.commit expected desired x with ⟨heq, h⟩ | h
  · exact .inl ⟨heq, by simp [noted, noting, exec, note, h]⟩
  · exact .inr (by simp [noted, noting, exec, note, h])

theorem casHead_cases (i : ι) (expected desired : Nat) (x : Bool) (k : Shared ι T) :
    k.1.head = expected ∧ noted i (.casHead expected desired) x k =
        (⟨true, expected⟩, { k.1 with head := desired },
          { k.2.setOwn i { k.2.own i with claimed := some k.2.dequeued.length } with
            dequeued := k.2.dequeued ++ (k.2.own i).copy.toList }) ∨
      noted i (.casHead expected desired) x k = (⟨false, k.1.head⟩, k) := by
  rcases exchange_cases k.1.head expected desired x with ⟨heq, h⟩ | h
  · exact .inl ⟨heq, by simp [noted, noting, exec, note, h]⟩
  · exact .inr (by simp [noted, noting, exec, note, h])

/-! ### A thread alone -/

section Alone

variable {i : ι} {k : Shared ι T} {r : Locals}

/-- An operation of a thread that is alone: no exchange fails for no reason. -/
def alone (i : ι) (o : Op T) (k : Shared ι T) : Ans o × Shared ι T := noted i o false k

@[simp] theorem ends_loadHead {Q : Locals → Nat → Shared ι T → Prop} :
    Prog.Ends (alone i) Q (Op.loadHead.get r) k ↔ Q r k.1.head k := Iff.rfl

@[simp] theorem ends_loadTail {Q : Locals → Nat → Shared ι T → Prop} :
    Prog.Ends (alone i) Q (Op.loadTail.get r) k ↔ Q r k.1.tail k := Iff.rfl

@[simp] theorem ends_loadCommit {Q : Locals → Nat → Shared ι T → Prop} :
    Prog.Ends (alone i) Q (Op.loadCommit.get r) k ↔ Q r k.1.commit k := Iff.rfl

@[simp] theorem ends_casHead {old new : Nat} {Q : Locals → Exchange Nat → Shared ι T → Prop} :
    Prog.Ends (alone i) Q ((Op.casHead old new).get r) k ↔
      Q r (alone i (.casHead old new) k).1 (alone i (.casHead old new) k).2 := Iff.rfl

@[simp] theorem ends_casTail {old new : Nat} {Q : Locals → Exchange Nat → Shared ι T → Prop} :
    Prog.Ends (alone i) Q ((Op.casTail old new).get r) k ↔
      Q r (alone i (.casTail old new) k).1 (alone i (.casTail old new) k).2 := Iff.rfl

@[simp] theorem ends_casCommit {old new : Nat} {Q : Locals → Exchange Nat → Shared ι T → Prop} :
    Prog.Ends (alone i) Q ((Op.casCommit old new).get r) k ↔
      Q r (alone i (.casCommit old new) k).1 (alone i (.casCommit old new) k).2 := Iff.rfl

@[simp] theorem ends_write {idx : Nat} {e : T} {Q : Locals → Unit → Shared ι T → Prop} :
    Prog.Ends (alone i) Q ((Op.write idx e).get r) k ↔
      Q r () ({ k.1 with pool := Function.update k.1.pool idx e }, k.2) := Iff.rfl

@[simp] theorem ends_read {idx : Nat} {Q : Locals → T → Shared ι T → Prop} :
    Prog.Ends (alone i) Q ((Op.read idx).get r) k ↔
      Q r (k.1.pool idx)
        (k.1, k.2.setOwn i { k.2.own i with copy := some (k.1.pool idx) }) := Iff.rfl

@[simp] theorem ends_notifyOne {Q : Locals → Unit → Shared ι T → Prop} :
    Prog.Ends (alone i) Q (Op.notifyOne.get r) k ↔ Q r () k := Iff.rfl

end Alone

end Queue
end Base
end Cmw
