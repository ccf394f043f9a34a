import Cmw.Base.ConcurrentObjectPool

/-!
# How the pool is built

The constructor of base/concurrent_object_pool.h, with its `uint32_t` capacity, and the
size that the constructor in croutine/croutine.cpp gives it.  A write behind the arena is
an error of its own.  The end of the loop and the last node are `capacity_ - 1`, which is
the largest `uint32_t` where the capacity is 0.
-/

namespace Cmw
namespace Base
namespace Pool

open Library

inductive Failure
  | badAlloc
  | outOfBounds
  | endlessLoop
deriving DecidableEq

abbrev Arena := Nat → Option Nat

/-- `node_arena_[i].next = next` -/
def setNext (capacity : BitVec 32) (i : Nat) (next : Option Nat) (arena : Arena) :
    Except Failure Arena :=
  if i < capacity.toNat then .ok (Function.update arena i next) else .error .outOfBounds

/-- `FOR_EACH(i, 0, capacity_ - 1)`, with a bound on its turns.  A number has no member
`operator<`, so it goes on while `i` is not the end. -/
def linkNodes (capacity : BitVec 32) : Nat → BitVec 32 → Arena → Except Failure Arena
  | 0, _, _ => .error .endlessLoop
  | turns + 1, i, arena =>
      if i = capacity - 1 then .ok arena
      else do
        let arena ← setNext capacity i.toNat (some (1 + i.toNat)) arena
        linkNodes capacity turns (i + 1) arena

/-- `CCObjectPool(size)`.  Whether there is memory of no bytes is up to the platform. -/
def construct (emptyIsNull : Bool) (turns : Nat) (size : BitVec 32) :
    Except Failure CCObjectPool :=
  if size = 0 ∧ emptyIsNull = true then .error .badAlloc
  else do
    let arena ← linkNodes size turns 0 fun _ => none
    let arena ← setNext size (size - 1).toNat none arena
    .ok { freeHead := { count := 0, node := some 0 }, next := arena }

end Pool
end Base
end Cmw
