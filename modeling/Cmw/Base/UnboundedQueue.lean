import Cmw.Library.Heap
import Cmw.Library.Thread
import Mathlib.Data.Finset.Card

/-!
# The unbounded queue, as many threads use it

base/unbounded_queue.h, in its atomic steps and its accesses to the fields of a node.  Nodes are in
memory that is allocated and freed, and may be used again; who touches what is free dies.

The history numbers the nodes in the order in which they become `tail_`: node 0 is that of `Reset`,
and node `k + 1` has the element of the `k`-th call of `Enqueue`.  It keeps what the calls of
`Dequeue` have copied, and how far each thread is.
-/

namespace Cmw
namespace Base
namespace UnboundedQueue

open Library
open Library.Thread

structure Node (T : Type) where
  data : T
  refCount : BitVec 32 := 2
  next : Option Nat := none

structure Memory (T : Type) where
  nodes : Heap (Node T)
  head : Nat
  tail : Nat
  size : BitVec 64 := 0

inductive Op (T : Type)
  | newNode
  | storeData (node : Nat) (element : T)
  | loadTail
  | casTail (expected desired : Nat)
  | storeNext (node next : Nat)
  | fetchSubRefCount (node : Nat)
  | loadRefCount (node : Nat)
  | deleteNode (node : Nat)
  | fetchAddSize
  | fetchSubSize
  | loadSize
  | loadHead
  | loadNext (node : Nat)
  | casHead (expected desired : Nat)
  | loadData (node : Nat)

/-- What an operation yields, on memory that is not free.  An exchange yields whether it has
been done, and what `expected` is afterwards. -/
@[reducible] def Yield {T : Type} : Op T → Type
  | .newNode => Nat
  | .storeData _ _ => Unit
  | .loadTail => Nat
  | .casTail _ _ => Bool × Nat
  | .storeNext _ _ => Unit
  | .fetchSubRefCount _ => Unit
  | .loadRefCount _ => BitVec 32
  | .deleteNode _ => Unit
  | .fetchAddSize => Unit
  | .fetchSubSize => Unit
  | .loadSize => BitVec 64
  | .loadHead => Nat
  | .loadNext _ => Option Nat
  | .casHead _ _ => Bool × Nat
  | .loadData _ => T

@[reducible] def sig (T : Type) : Sig := { Op := Op T, Ans := fun o => Option (Yield o) }

section Exec

variable {T : Type}

def Memory.read {α : Type} (s : Memory T) (p : Nat) (field : Node T → α) : Option α × Memory T :=
  ((s.nodes.cell p).map field, s)

def Memory.write (s : Memory T) (p : Nat) (put : Node T → Node T) : Option Unit × Memory T :=
  ((s.nodes.cell p).map fun _ => (), { s with nodes := s.nodes.modify p put })

variable [Inhabited T]

/-- The allocator takes the free cell `x`, or another one where it is not free. -/
def exec : (o : Op T) → Nat → Memory T → Option (Yield o) × Memory T
  | .newNode, x, s =>
      (some (s.nodes.place x), { s with nodes := s.nodes.alloc x { data := default } })
  | .storeData p element, _, s => s.write p fun node => { node with data := element }
  | .loadTail, _, s => (some s.tail, s)
  | .casTail expected desired, _, s =>
      if s.tail = expected then (some (true, expected), { s with tail := desired })
      else (some (false, s.tail), s)
  | .storeNext p next, _, s => s.write p fun node => { node with next := some next }
  | .fetchSubRefCount p, _, s => s.write p fun node => { node with refCount := node.refCount - 1 }
  | .loadRefCount p, _, s => s.read p Node.refCount
  | .deleteNode p, _, s =>
      ((s.nodes.cell p).map fun _ => (), { s with nodes := s.nodes.delete p })
  | .fetchAddSize, _, s => (some (), { s with size := s.size + 1 })
  | .fetchSubSize, _, s => (some (), { s with size := s.size - 1 })
  | .loadSize, _, s => (some s.size, s)
  | .loadHead, _, s => (some s.head, s)
  | .loadNext p, _, s => s.read p Node.next
  | .casHead expected desired, _, s =>
      if s.head = expected then (some (true, expected), { s with head := desired })
      else (some (false, s.head), s)
  | .loadData p, _, s => s.read p Node.data

/-- `Reset()` of the constructor. -/
def reset (T : Type) [Inhabited T] : Memory T :=
  { nodes := Heap.empty.alloc 0 { data := default }, head := 0, tail := 0 }

end Exec

/-! ### The functions -/

section Functions

variable {T : Type}

abbrev QueueCode (T : Type) := Code (sig T) Unit

open Code (ask deref hang)

def Op.get (o : Op T) : QueueCode T (Yield o) := do
  let x ← ask (S := sig T) o
  deref x

def release (p : Nat) : QueueCode T Unit := do
  (Op.fetchSubRefCount p).get
  let refCount ← (Op.loadRefCount p).get
  if refCount = 0 then (Op.deleteNode p).get else pure ()

/-- The loop of `Enqueue`. -/
def enqueueFrom (node : Nat) : Nat → Nat → QueueCode T Unit
  | 0, _ => hang
  | left + 1, oldTail => do
      let (swapped, oldTail) ← (Op.casTail oldTail node).get
      if swapped then do
        (Op.storeNext oldTail node).get
        release oldTail
        Op.fetchAddSize.get
      else enqueueFrom node left oldTail

def enqueue (left : Nat) (element : T) : QueueCode T Unit := do
  let node ← Op.newNode.get
  (Op.storeData node element).get
  let oldTail ← Op.loadTail.get
  enqueueFrom node left oldTail

/-- The loop of `Dequeue`: `*element`, where it returns true. -/
def dequeueFrom : Nat → Nat → QueueCode T (Option T)
  | 0, _ => hang
  | left + 1, oldHead => do
      let headNext ← (Op.loadNext oldHead).get
      match headNext with
      | none => pure none
      | some headNext => do
          let (swapped, found) ← (Op.casHead oldHead headNext).get
          if swapped then do
            let element ← (Op.loadData headNext).get
            Op.fetchSubSize.get
            release oldHead
            pure (some element)
          else dequeueFrom left found

def dequeue (left : Nat) : QueueCode T (Option T) := do
  let oldHead ← Op.loadHead.get
  dequeueFrom left oldHead

def size : QueueCode T (BitVec 64) := Op.loadSize.get

def empty : QueueCode T Bool := do
  let size ← Op.loadSize.get
  pure (size == 0)

inductive Request (T : Type)
  | enqueue (element : T)
  | dequeue
  | size
  | empty

inductive Answer (T : Type)
  | constructed
  | enqueued
  | dequeued (element : Option T)
  | size (size : BitVec 64)
  | empty (empty : Bool)

/-- A call, with a bound on the rounds of its loop. -/
structure Call (T : Type) where
  left : Nat
  request : Request T

def Call.body (c : Call T) : QueueCode T (Answer T) :=
  match c.request with
  | .enqueue element => do
      enqueue c.left element
      pure .enqueued
  | .dequeue => do
      let element ← dequeue c.left
      pure (.dequeued element)
  | .size => do
      let size ← UnboundedQueue.size
      pure (.size size)
  | .empty => do
      let empty ← UnboundedQueue.empty
      pure (.empty empty)

end Functions

/-! ### What is kept of a run -/

/-- A node is released twice: by the call that moves `tail_` from it, and by the one that moves
`head_` from it. -/
inductive Side
  | tail
  | head
  deriving DecidableEq, Repr

/-- How far a release is. -/
inductive Stage
  | before
  | subtracted
  | deleting
  | after
  deriving DecidableEq, Repr

/-- How far a thread is, with the numbers of the nodes and the nodes. -/
inductive Phase (T : Type)
  /-- between calls, or with a call that has nothing yet; the last call has taken an element -/
  | rest (taken : Option Nat)
  | made (p : Nat)
  | filled (p : Nat) (element : T)
  /-- `tail_` has been moved from node `k` -/
  | linking (k p next : Nat)
  | release (side : Side) (k p : Nat) (stage : Stage)
  /-- node `k` has been released, and `size_` has still to be increased -/
  | adding
  /-- node `k` was `head_`, and its `next` is read next -/
  | loaded (k p : Nat)
  /-- `next` has been read -/
  | read
  /-- `head_` has been moved from node `k`, and the data of the node behind it is read next -/
  | taking (k p next : Nat)
  | subtracting (k p : Nat)

structure History (ι T : Type) where
  /-- the elements, in the order in which `tail_` has been moved -/
  enqueued : List T := []
  /-- how often `head_` has been moved -/
  taken : Nat := 0
  /-- what has been copied by the call that has moved `head_` from a node -/
  dequeued : Nat → Option T := fun _ => none
  /-- what has been added to `size_`, less what has been subtracted -/
  count : Int := 0
  own : ι → Phase T := fun _ => .rest none
  /-- where the nodes are -/
  chain : Nat → Nat := fun _ => 0
  stage : Side × Nat → Stage := fun _ => .before
  gone : Nat → Bool := fun _ => false
  /-- who has moved `tail_`, and not added to `size_` -/
  toAdd : Finset ι := ∅
  /-- who has moved `head_`, and not subtracted from `size_` -/
  toSubtract : Finset ι := ∅

/-- How far a thread is when its release is at a stage. -/
def Phase.during {T : Type} (side : Side) (k p : Nat) : Stage → Phase T
  | .after =>
      match side with
      | .tail => .adding
      | .head => .rest (some k)
  | stage => .release side k p stage

section History

variable {ι T : Type} [DecidableEq ι]

def History.become (h : History ι T) (i : ι) (phase : Phase T) : History ι T :=
  { h with own := Function.update h.own i phase }

/-- Thread `i` has moved `tail_`. -/
def History.push (h : History ι T) (i : ι) (p next : Nat) (element : T) : History ι T :=
  { h.become i (.linking h.enqueued.length p next) with
    enqueued := h.enqueued ++ [element]
    chain := Function.update h.chain (h.enqueued.length + 1) next
    toAdd := insert i h.toAdd }

/-- Thread `i` has moved `head_`. -/
def History.pop (h : History ι T) (i : ι) (p next : Nat) : History ι T :=
  { h.become i (.taking h.taken p next) with
    taken := h.taken + 1
    toSubtract := insert i h.toSubtract }

/-- The release of node `k` by thread `i` has come to a stage. -/
def History.advance (h : History ι T) (i : ι) (side : Side) (k p : Nat) (stage : Stage) :
    History ι T :=
  { h.become i (.during side k p stage) with stage := Function.update h.stage (side, k) stage }

/-- What an operation adds to the history; `s` is the memory before it. -/
def note (i : ι) (s : Memory T) : (o : Op T) → Option (Yield o) → History ι T → History ι T
  | .newNode, some p, h => h.become i (.made p)
  | .storeData p element, some _, h => h.become i (.filled p element)
  | .casTail _ desired, some (true, found), h =>
      match s.nodes.cell desired with
      | some node => h.push i found desired node.data
      | none => h
  | .storeNext _ _, some _, h =>
      match h.own i with
      | .linking k p _ => h.become i (.release .tail k p .before)
      | _ => h
  | .fetchSubRefCount _, some _, h =>
      match h.own i with
      | .release side k p _ => h.advance i side k p .subtracted
      | _ => h
  | .loadRefCount _, some refCount, h =>
      match h.own i with
      | .release side k p _ => h.advance i side k p (if refCount = 0 then .deleting else .after)
      | _ => h
  | .deleteNode _, some _, h =>
      match h.own i with
      | .release side k p _ =>
          { h.advance i side k p .after with gone := Function.update h.gone k true }
      | _ => h
  | .fetchAddSize, _, h =>
      { h.become i (.rest none) with count := h.count + 1, toAdd := h.toAdd.erase i }
  | .loadHead, some p, h => h.become i (.loaded h.taken p)
  | .loadNext _, some none, h => h.become i (.rest none)
  | .loadNext _, some (some _), h => h.become i .read
  | .casHead _ desired, some (true, found), h => h.pop i found desired
  | .casHead _ _, some (false, found), h => h.become i (.loaded h.taken found)
  | .loadData _, some element, h =>
      match h.own i with
      | .taking k p _ =>
          { h.become i (.subtracting k p) with
            dequeued := Function.update h.dequeued k (some element) }
      | _ => h
  | .fetchSubSize, _, h =>
      match h.own i with
      | .subtracting k p =>
          { h.become i (.release .head k p .before) with
            count := h.count - 1, toSubtract := h.toSubtract.erase i }
      | _ => { h with count := h.count - 1 }
  | _, _, h => h

/-- An operation changes the phase of its own thread only. -/
theorem own_note {o : Op T} {a : Option (Yield o)} {m : Memory T} {h : History ι T} {i j : ι}
    (hj : j ≠ i) : (note i m o a h).own j = h.own j := by
  have hother : ∀ phase, Function.update h.own i phase j = h.own j := fun phase =>
    Function.update_of_ne hj _ _
  unfold note
  split <;> first | exact hother _ | rfl | (split <;> first | exact hother _ | rfl)

abbrev Shared (ι T : Type) := Memory T × History ι T

variable [Inhabited T]

def noted (i : ι) (o : Op T) (x : Nat) (s : Shared ι T) : Option (Yield o) × Shared ι T :=
  ((exec o x s.1).1, (exec o x s.1).2, note i s.1 o (exec o x s.1).1 s.2)

abbrev State (ι T : Type) := Config (sig T) ι Unit (Answer T) (Shared ι T)

abbrev Step (ι T : Type) := Event ι (Call T) Nat

def step : State ι T → Step ι T → State ι T :=
  Thread.step noted (fun _ _ s => s) Call.body

omit [DecidableEq ι] in
def start (ι T : Type) [Inhabited T] : State ι T :=
  Config.start (fun _ => ()) .constructed (reset T, {})

end History
end UnboundedQueue
end Base
end Cmw
