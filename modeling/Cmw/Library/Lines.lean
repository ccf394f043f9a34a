import Mathlib.Data.List.Basic

/-!
# Lines

What a loop of `getline` reads: the parts between the delimiters, of which the last one
counts only if there is something in it.
-/

namespace Library

variable {α : Type*} [DecidableEq α]

def lines (delim : α) (s : List α) : List (List α) :=
  if (s.splitOn delim).getLast? = some [] then (s.splitOn delim).dropLast else s.splitOn delim

/-- Lines that are joined by their delimiter are read back. -/
theorem lines_intercalate {delim : α} {ls : List (List α)} (h : ∀ l ∈ ls, delim ∉ l)
    (hlast : ls.getLast? ≠ some []) : lines delim ([delim].intercalate ls) = ls := by
  rcases eq_or_ne ls [] with rfl | hne
  · rfl
  · rw [lines, List.splitOn_intercalate delim h hne, if_neg hlast]

theorem lines_singleton {delim : α} {l : List α} (h : delim ∉ l) (hne : l ≠ []) :
    lines delim l = [l] := by
  rw [lines, List.splitOn_eq_singleton h, if_neg]
  exact fun hl => hne (Option.some.inj hl)

end Library
