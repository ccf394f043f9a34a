import Cmw.Library.ByteImage
import Mathlib.Data.List.TakeWhile

/-!
# Decimal text

An integer as `to_string` writes it and `stoi` reads it: an optional sign and
decimal digits, behind any white space, up to the first byte that is none.
-/

namespace Library
namespace Decimal

open ByteImage

def isDigit (b : Byte) : Bool := 0x30 ≤ b && b ≤ 0x39

def isSpace (b : Byte) : Bool := b == 0x20 || 0x09 ≤ b && b ≤ 0x0D

def digits (n : Nat) : List Byte := (Nat.toDigits 10 n).map fun c => BitVec.ofNat 8 c.toNat

def toString (i : Int) : List Byte := if i < 0 then 0x2D :: digits i.natAbs else digits i.natAbs

def number (ds : List Byte) : Nat := ds.foldl (fun n d => 10 * n + (d.toNat - 0x30)) 0

def sign : List Byte → Int × List Byte
  | [] => (1, [])
  | b :: s => if b = 0x2D then (-1, s) else if b = 0x2B then (1, s) else (1, b :: s)

/-- `stoi`: none where it throws. -/
def stoi (s : List Byte) : Option Int :=
  let (factor, s) := sign (s.dropWhile isSpace)
  let ds := s.takeWhile isDigit
  if ds.isEmpty then none
  else
    let i := factor * number ds
    if -2 ^ 31 ≤ i ∧ i < 2 ^ 31 then some i else none

theorem toNat_digit {c : Char} (h : c.isDigit = true) :
    (BitVec.ofNat 8 c.toNat).toNat = c.toNat := by
  have hrange : 48 ≤ c.toNat ∧ c.toNat ≤ 57 := Char.isDigit_iff_toNat.mp h
  rw [BitVec.toNat_ofNat]
  omega

theorem isDigit_digits {n : Nat} {b : Byte} (h : b ∈ digits n) : isDigit b = true := by
  obtain ⟨c, hc, rfl⟩ := List.mem_map.mp h
  have hdigit := Nat.isDigit_of_mem_toDigits (by decide) (by decide) hc
  have hrange : 48 ≤ c.toNat ∧ c.toNat ≤ 57 := Char.isDigit_iff_toNat.mp hdigit
  simp only [isDigit, Bool.and_eq_true, decide_eq_true_iff, BitVec.le_def, toNat_digit hdigit]
  exact hrange

theorem digits_ne_nil (n : Nat) : digits n ≠ [] := by
  rw [digits, Ne, List.map_eq_nil_iff]
  exact Nat.toDigits_ne_nil

theorem number_digits (n : Nat) : number (digits n) = n := by
  have hsame : ∀ (cs : List Char) (acc : Nat), (∀ c ∈ cs, c.isDigit = true) →
      (cs.map fun c => BitVec.ofNat 8 c.toNat).foldl
          (fun n (d : Byte) => 10 * n + (d.toNat - 0x30)) acc = Nat.ofDigitChars 10 cs acc := by
    intro cs
    induction cs with
    | nil => intro acc _; rfl
    | cons c cs ih =>
        intro acc h
        rw [List.forall_mem_cons] at h
        rw [List.map_cons, List.foldl_cons, ih _ h.2, Nat.ofDigitChars_cons, toNat_digit h.1]
        rfl
  rw [number, digits, hsame _ _ fun c hc => Nat.isDigit_of_mem_toDigits (by decide) (by decide) hc]
  exact Nat.ofDigitChars_ten_toDigits

theorem takeWhile_digits {s : List Byte} (h : ∀ b ∈ s, isDigit b = true) :
    s.takeWhile isDigit = s :=
  List.takeWhile_eq_self_iff.mpr h

theorem sign_digits {s : List Byte} (h : ∀ b ∈ s, isDigit b = true) :
    sign (s.dropWhile isSpace) = (1, s) := by
  cases s with
  | nil => rfl
  | cons b ds =>
      have hall : ∀ b : Byte, isDigit b = true → isSpace b = false ∧ b ≠ 0x2D ∧ b ≠ 0x2B := by
        decide
      obtain ⟨hspace, hminus, hplus⟩ := hall b (h b List.mem_cons_self)
      rw [List.dropWhile_cons, hspace, if_neg Bool.false_ne_true, sign, if_neg hminus, if_neg hplus]

/-- Digits are read as their number, whatever zeros they begin with. -/
theorem stoi_digits {s : List Byte} (h : ∀ b ∈ s, isDigit b = true) (hne : s ≠ [])
    (hint : number s < 2 ^ 31) : stoi s = some (number s : Int) := by
  have hi : 1 * (number s : Int) = number s := one_mul _
  rw [stoi, sign_digits h]
  dsimp only
  rw [takeWhile_digits h, List.isEmpty_eq_false_iff.mpr hne, if_neg Bool.false_ne_true, hi,
    if_pos (by omega)]

theorem stoi_toString {i : Int} (hlow : -2 ^ 31 ≤ i) (hhigh : i < 2 ^ 31) :
    stoi (toString i) = some i := by
  have hdigits : ∀ b ∈ digits i.natAbs, isDigit b = true := fun _ hb => isDigit_digits hb
  rw [toString]
  split
  case isTrue hneg =>
    have hsign : sign ((0x2D :: digits i.natAbs).dropWhile isSpace) = (-1, digits i.natAbs) := rfl
    have hi : -1 * (i.natAbs : Int) = i := by omega
    rw [stoi, hsign]
    dsimp only
    rw [takeWhile_digits hdigits, List.isEmpty_eq_false_iff.mpr (digits_ne_nil _),
      if_neg Bool.false_ne_true, number_digits, hi, if_pos ⟨hlow, hhigh⟩]
  case isFalse hpos =>
    have hi : (i.natAbs : Int) = i := by omega
    have hint : number (digits i.natAbs) < 2 ^ 31 := by
      rw [number_digits]
      omega
    rw [stoi_digits hdigits (digits_ne_nil _) hint, number_digits, hi]

end Decimal
end Library
