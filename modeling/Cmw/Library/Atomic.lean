import Mathlib.Algebra.Group.Nat.Defs

/-!
# Atomic words

Counters of 64 bits, and `compare_exchange_weak`, which swaps where the word is the expected
one, and may fail for no reason; where it fails it returns the word that it has found.
-/

namespace Library

/-- `+ 1` on a word of 64 bits -/
def plusOne (n : Nat) : Nat := (n + 1) % 2 ^ 64

theorem plusOne_of_lt {n : Nat} (h : n + 1 < 2 ^ 64) : plusOne n = n + 1 := Nat.mod_eq_of_lt h

/-- Whether an exchange has swapped, and what it has found. -/
structure Exchange (α : Type) where
  swapped : Bool
  seen : α

/-- What an exchange returns, and the word that it leaves. -/
def exchange {α : Type} [DecidableEq α] (word expected desired : α) (spurious : Bool) :
    Exchange α × α :=
  if word = expected ∧ spurious = false then (⟨true, expected⟩, desired) else (⟨false, word⟩, word)

theorem exchange_cases {α : Type} [DecidableEq α] (word expected desired : α) (x : Bool) :
    word = expected ∧ exchange word expected desired x = (⟨true, expected⟩, desired) ∨
      exchange word expected desired x = (⟨false, word⟩, word) := by
  unfold exchange
  split
  case isTrue h => exact .inl ⟨h.1, rfl⟩
  case isFalse => exact .inr rfl

end Library
