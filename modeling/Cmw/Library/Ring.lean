import Mathlib.Data.List.Basic
import Mathlib.Logic.Function.Basic

/-!
# Rings

A ring of `c` slots holds the last `c` items of a list that only grows: item `k`,
counted from one, is in slot `k % c`.
-/

namespace Library
namespace Ring

variable {τ : Type*}

theorem getElem?_of_prefix {xs ys : List τ} (h : xs <+: ys) {n : Nat} {a : τ}
    (ha : xs[n]? = some a) : ys[n]? = some a := by
  obtain ⟨zs, rfl⟩ := h
  exact (List.getElem?_append_left (List.getElem?_eq_some_iff.mp ha).1).trans ha

theorem concat_prefix {xs ys : List τ} {a : τ} (h : xs <+: ys) (ha : ys[xs.length]? = some a) :
    xs ++ [a] <+: ys := by
  obtain ⟨zs, rfl⟩ := h
  rw [List.getElem?_append_right (Nat.le_refl _), Nat.sub_self] at ha
  cases zs with
  | nil => cases ha
  | cons b zs =>
      rw [List.getElem?_cons_zero] at ha
      rw [Option.some.inj ha]
      exact ⟨zs, by simp⟩

/-- Items that are less than `c` apart have slots of their own. -/
theorem slot_ne {c j k : Nat} (hjk : j < k) (hc : k < j + c) : j % c ≠ k % c := by
  intro h
  have hdvd : c ∣ k - j := Nat.dvd_of_mod_eq_zero (Nat.sub_mod_eq_zero_of_mod_eq h.symm)
  have hle : c ≤ k - j := Nat.le_of_dvd (by omega) hdvd
  omega

/-- The item `c` before another one has its slot. -/
theorem slot_eq {c j k : Nat} (h : k = j + c) : k % c = j % c := by
  rw [h, Nat.add_mod_right]

def Holds (c : Nat) (slots : Nat → τ) (items : List τ) : Prop :=
  ∀ k, 0 < k → k ≤ items.length → items.length < k + c → items[k - 1]? = some (slots (k % c))

theorem holds_nil (c : Nat) (slots : Nat → τ) : Holds c slots [] := by
  intro k hpos hle
  exact absurd hle (Nat.not_le.mpr hpos)

/-- A new item goes to its slot, and no item that is still held was there. -/
theorem Holds.push {c : Nat} {slots : Nat → τ} {items : List τ} (h : Holds c slots items) (a : τ) :
    Holds c (Function.update slots ((items.length + 1) % c) a) (items ++ [a]) := by
  intro k hpos hle hlast
  rw [List.length_append, List.length_singleton] at hle hlast
  by_cases hk : k = items.length + 1
  · rw [hk, Function.update_self, Nat.add_sub_cancel, List.getElem?_concat_length]
  · have hne : k % c ≠ (items.length + 1) % c := slot_ne (by omega) hlast
    rw [Function.update_of_ne hne, List.getElem?_append_left (by omega)]
    exact h k hpos (by omega) (by omega)

end Ring
end Library
