import Cmw.Library.Thread
import Cmw.Library.Atomic
import Cmw.Library.Linked
import Mathlib.Data.List.Basic

/-!
# The pool of objects

base/concurrent_object_pool.h.  The nodes of an arena are linked to a stack of free
ones.  The head of the stack carries a count of its updates, so that an exchange that
expects an old head fails although the same node is on top again.

The history keeps the stack as a list, who holds what, and the nodes that a
`ReleaseObject` has been given and has not yet put on the stack.
-/

namespace Cmw
namespace Base
namespace Pool

open Library
open Library.Thread

/-- The head of the stack; a node is its place in the arena. -/
structure Head where
  count : Nat
  node : Option Nat
deriving DecidableEq

structure CCObjectPool where
  freeHead : Head
  next : Nat → Option Nat

/-- The loop of the constructor, and the null pointer after it. -/
def link (capacity : Nat) : Nat → Option Nat :=
  Function.update
    ((List.range (capacity - 1)).foldl (fun next i => Function.update next i (some (i + 1)))
      fun _ => none)
    (capacity - 1) none

def CCObjectPool.new (capacity : Nat) : CCObjectPool :=
  { freeHead := { count := 0, node := some 0 }, next := link capacity }

inductive Op
  | loadHead
  | readNext (node : Nat)
  | writeNext (node : Nat) (next : Option Nat)
  | casHead (expected desired : Head)

@[reducible] def Ans : Op → Type
  | .loadHead => Head
  | .readNext _ => Option Nat
  | .writeNext _ _ => Unit
  | .casHead _ _ => Exchange Head

@[reducible] def sig : Sig := { Op, Ans }

def exec : (o : Op) → Bool → CCObjectPool → Ans o × CCObjectPool
  | .loadHead, _, p => (p.freeHead, p)
  | .readNext node, _, p => (p.next node, p)
  | .writeNext node next, _, p => ((), { p with next := Function.update p.next node next })
  | .casHead expected desired, x, p =>
      ((exchange p.freeHead expected desired x).1,
        { p with freeHead := (exchange p.freeHead expected desired x).2 })

abbrev PoolCode := Code sig Unit

open Code (ask deref hang)

def Op.get (o : Op) : PoolCode (Ans o) := ask (S := sig) o

/-- The loop of `FindFreeHead`: the node that it leaves in `*head`, or false. -/
def findFreeHead : Nat → Head → PoolCode (Option Nat)
  | 0, _ => hang
  | left + 1, oldHead =>
      if oldHead.node.isNone then pure none
      else do
        let node ← deref oldHead.node
        let next ← (Op.readNext node).get
        let r ← (Op.casHead oldHead { count := plusOne oldHead.count, node := next }).get
        if r.swapped then pure oldHead.node else findFreeHead left r.seen

def getObject (left : Nat) : PoolCode (Option Nat) := do
  let oldHead ← Op.loadHead.get
  findFreeHead left oldHead

/-- The loop of `ReleaseObject`. -/
def putBack (node : Nat) : Nat → Head → PoolCode Unit
  | 0, _ => hang
  | left + 1, oldHead => do
      (Op.writeNext node oldHead.node).get
      let r ← (Op.casHead oldHead { count := plusOne oldHead.count, node := some node }).get
      if r.swapped then pure () else putBack node left r.seen

def releaseObject (left node : Nat) : PoolCode Unit := do
  let oldHead ← Op.loadHead.get
  putBack node left oldHead

/-- A call, with a bound on the rounds of its loop. -/
inductive Call
  | getObject (left : Nat)
  | releaseObject (left node : Nat)

inductive Answer
  | constructed
  | got (object : Option Nat)
  | released

def Call.body : Call → PoolCode Answer
  | getObject left => do
      let object ← Pool.getObject left
      pure (.got object)
  | releaseObject left node => do
      Pool.releaseObject left node
      pure .released

/-! ### What is kept of a run -/

/-- What the history keeps of one thread. -/
structure Own where
  /-- the node that it was called to release, and has not yet put back -/
  releasing : Option Nat := none
  /-- the node that it has taken in this call -/
  taken : Option Nat := none
  /-- the stack was empty at a step of this call -/
  sawEmpty : Bool := false

structure History (ι : Type) where
  own : ι → Own := fun _ => {}
  updates : Nat := 0
  /-- the stack, its top first -/
  free : List Nat
  held : List (ι × Nat) := []
  transit : List (ι × Nat) := []

variable {ι : Type} [DecidableEq ι]

def History.setOwn (h : History ι) (i : ι) (o : Own) : History ι :=
  { h with own := Function.update h.own i o }

/-- Thread `i` looks at the stack. -/
def History.look (i : ι) (h : History ι) : History ι :=
  h.setOwn i { h.own i with sawEmpty := (h.own i).sawEmpty || h.free.isEmpty }

def History.take (i : ι) (node : Nat) (h : History ι) : History ι :=
  { h.setOwn i { h.own i with taken := some node } with
    updates := h.updates + 1, free := h.free.tail, held := (i, node) :: h.held }

def History.put (i : ι) (node : Nat) (h : History ι) : History ι :=
  { h.setOwn i { h.own i with releasing := none } with
    updates := h.updates + 1, free := node :: h.free, transit := h.transit.erase (i, node) }

/-- Thread `i` has swapped the head: it puts back what it releases, or takes the top. -/
def History.swap (i : ι) (old : Head) (h : History ι) : History ι :=
  match (h.own i).releasing, old.node with
  | some node, _ => h.put i node
  | none, some node => h.take i node
  | none, none => h

def note (i : ι) : (o : Op) → Ans o → History ι → History ι
  | .casHead old _, r, h => if r.swapped then (h.look i).swap i old else h.look i
  | _, _, h => h.look i

abbrev Shared (ι : Type) := CCObjectPool × History ι

def noted (i : ι) (o : Op) (x : Bool) (k : Shared ι) : Ans o × Shared ι :=
  noting (S := sig) exec note i o x k

/-- Who calls `ReleaseObject` is given the node by its holder. -/
def enter (i : ι) (call : Call) (k : Shared ι) : Shared ι :=
  match call with
  | .getObject _ => (k.1, k.2.setOwn i {})
  | .releaseObject _ node =>
      (k.1, { k.2.setOwn i { releasing := some node } with
        held := k.2.held.eraseP (·.2 == node), transit := (i, node) :: k.2.transit })

abbrev State (ι : Type) := Config sig ι Unit Answer (Shared ι)

abbrev Step (ι : Type) := Event ι Call Bool

def step : State ι → Step ι → State ι := Thread.step noted enter Call.body

omit [DecidableEq ι] in
def start (ι : Type) (capacity : Nat) : State ι :=
  Config.start (fun _ => ()) .constructed
    (CCObjectPool.new capacity, { free := List.range capacity })

@[simp] theorem own_look (i : ι) (h : History ι) : (h.look i).own i =
    { h.own i with sawEmpty := (h.own i).sawEmpty || h.free.isEmpty } :=
  Function.update_self ..

/-! ### The constructor -/

theorem foldl_link (m i : Nat) :
    (List.range m).foldl (fun next i => Function.update next i (some (i + 1)))
      (fun _ => none) i = if i < m then some (i + 1) else none := by
  induction m with
  | zero => rfl
  | succ m ih =>
      rw [List.range_succ, List.foldl_append, List.foldl_cons, List.foldl_nil]
      by_cases hi : i = m
      · rw [hi, Function.update_self, if_pos (Nat.lt_succ_self m)]
      · rw [Function.update_of_ne hi, ih]
        exact if_congr (by omega) rfl rfl

theorem link_eq {capacity i : Nat} (hi : i < capacity) :
    link capacity i = if i + 1 < capacity then some (i + 1) else none := by
  by_cases hlast : i = capacity - 1
  · rw [link, hlast, Function.update_self, if_neg (by omega)]
  · rw [link, Function.update_of_ne hlast, foldl_link]
    exact if_congr (by omega) rfl rfl

theorem linked_range' {capacity s m : Nat} (h : s + m = capacity) :
    Linked (link capacity) (if s < capacity then some s else none) (List.range' s m) := by
  induction m generalizing s with
  | zero =>
      rw [if_neg (by omega)]
      rfl
  | succ m ih =>
      rw [if_pos (by omega), List.range'_succ]
      refine ⟨rfl, ?_⟩
      rw [link_eq (by omega)]
      exact ih (by omega)

/-- The constructor links all nodes of the arena. -/
theorem linked_new {capacity : Nat} (h : 0 < capacity) :
    Linked (CCObjectPool.new capacity).next (CCObjectPool.new capacity).freeHead.node
      (List.range capacity) := by
  have hlinked := linked_range' (Nat.zero_add capacity)
  rwa [if_pos h, ← List.range_eq_range'] at hlinked

end Pool
end Base
end Cmw
