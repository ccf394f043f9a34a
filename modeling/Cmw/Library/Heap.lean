import Mathlib.Logic.Function.Basic

/-!
# A heap

Cells that are allocated and freed, and that may be used again: where a cell is allocated is
up to whoever calls, as long as it is a free one.
-/

namespace Library

structure Heap (α : Type) where
  cell : Nat → Option α
  top : Nat
  free_of_le : ∀ p, top ≤ p → cell p = none

namespace Heap

variable {α : Type} (h : Heap α)

def empty : Heap α := { cell := fun _ => none, top := 0, free_of_le := fun _ _ => rfl }

/-- Cell `x` if it is free, and else one that is. -/
def place (x : Nat) : Nat := if (h.cell x).isNone then x else h.top

theorem cell_place (x : Nat) : h.cell (h.place x) = none := by
  unfold place
  split
  case isTrue hx => exact Option.isNone_iff_eq_none.mp hx
  case isFalse => exact h.free_of_le _ (Nat.le_refl _)

def alloc (x : Nat) (a : α) : Heap α where
  cell := Function.update h.cell (h.place x) (some a)
  top := max h.top (h.place x + 1)
  free_of_le p hp := by
    rw [Function.update_of_ne (by omega)]
    exact h.free_of_le p (by omega)

/-- Nothing is changed where the cell is free. -/
def modify (p : Nat) (f : α → α) : Heap α where
  cell := Function.update h.cell p ((h.cell p).map f)
  top := h.top
  free_of_le q hq := by
    have hfree := h.free_of_le q hq
    rw [Function.update_apply]
    split
    case isTrue hqp => rw [← hqp, hfree, Option.map_none]
    case isFalse => exact hfree

def delete (p : Nat) : Heap α where
  cell := Function.update h.cell p none
  top := h.top
  free_of_le q hq := by
    rw [Function.update_apply]
    split
    · rfl
    · exact h.free_of_le q hq

variable {h} {p q x : Nat} {a b : α}

theorem alloc_self : (h.alloc x a).cell (h.place x) = some a := Function.update_self ..

/-- What is allocated already is somewhere else. -/
theorem ne_place (hq : h.cell q = some b) : q ≠ h.place x := by
  rintro rfl
  rw [cell_place] at hq
  cases hq

theorem alloc_of_some (hq : h.cell q = some b) : (h.alloc x a).cell q = some b :=
  (Function.update_of_ne (ne_place hq) _ _).trans hq

theorem modify_self {f : α → α} (hp : h.cell p = some b) :
    (h.modify p f).cell p = some (f b) := by
  show Function.update h.cell p ((h.cell p).map f) p = some (f b)
  rw [Function.update_self, hp, Option.map_some]

theorem modify_of_ne {f : α → α} (hqp : q ≠ p) : (h.modify p f).cell q = h.cell q :=
  Function.update_of_ne hqp _ _

/-- What `f` leaves as it is. -/
theorem map_modify {β : Type} {f : α → α} {g : α → β} (hg : ∀ a, g (f a) = g a) :
    ((h.modify p f).cell q).map g = (h.cell q).map g := by
  by_cases hqp : q = p
  · subst hqp
    show (Function.update h.cell q ((h.cell q).map f) q).map g = _
    rw [Function.update_self, Option.map_map]
    exact congrArg (fun k => (h.cell q).map k) (funext hg)
  · rw [modify_of_ne hqp]

theorem delete_of_ne (hqp : q ≠ p) : (h.delete p).cell q = h.cell q := Function.update_of_ne hqp _ _

end Heap
end Library
