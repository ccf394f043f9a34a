import Cmw.Library.Ring
import Mathlib.Algebra.Group.Nat.Defs

/-!
# The buffer of a channel

data/cache_buffer.h and data/channel_buffer.h.  A `CacheBuffer` is a ring with one slot
more than the queue has places.  Its counters are words of 64 bits; what is said of it
below is said of a buffer that has been filled fewer than 2^64 times.
-/

namespace Cmw
namespace Data

open Library

/-- `++` on a `uint64_t` -/
def inc (n : Nat) : Nat := (n + 1) % 2 ^ 64

structure CacheBuffer (τ : Type) where
  head : Nat
  tail : Nat
  capacity : Nat
  buffer : Nat → τ

namespace CacheBuffer

variable {τ : Type}

def new [Inhabited τ] (size : Nat) : CacheBuffer τ :=
  { head := 0, tail := 0, capacity := inc size, buffer := fun _ => default }

def getIndex (b : CacheBuffer τ) (pos : Nat) : Nat := pos % b.capacity

def atPos (b : CacheBuffer τ) (pos : Nat) : τ := b.buffer (b.getIndex pos)

/-- `Head()` -/
def headPos (b : CacheBuffer τ) : Nat := inc b.head

/-- `Tail()` -/
def tailPos (b : CacheBuffer τ) : Nat := b.tail

def back (b : CacheBuffer τ) : τ := b.atPos b.tail

def empty (b : CacheBuffer τ) : Bool := b.tail == 0

def full (b : CacheBuffer τ) : Bool := b.capacity - 1 == (b.tail + 2 ^ 64 - b.head) % 2 ^ 64

/-- `Fill` of a buffer without a fusion callback -/
def fill (b : CacheBuffer τ) (value : τ) : CacheBuffer τ :=
  if b.full then
    { b with
      buffer := Function.update b.buffer (b.getIndex b.head) value
      head := inc b.head
      tail := inc b.tail }
  else
    { b with
      buffer := Function.update b.buffer (b.getIndex (inc b.tail)) value
      tail := inc b.tail }

/-- `ChannelBuffer::Fetch`: the index that it leaves and the message, or false. -/
def fetch (b : CacheBuffer τ) (index : Nat) : Option (Nat × τ) :=
  if b.empty then none
  else if index = 0 then some (b.tailPos, b.atPos b.tailPos)
  else if index = inc b.tailPos then none
  else if index < b.headPos then some (b.tailPos, b.atPos b.tailPos)
  else some (index, b.atPos index)

/-- `ChannelBuffer::Latest` -/
def latest (b : CacheBuffer τ) : Option τ := if b.empty then none else some b.back

/-! ### What a buffer holds -/

/-- The buffer of a queue of `size`, filled with `items` one after another. -/
structure Holds (size : Nat) (b : CacheBuffer τ) (items : List τ) : Prop where
  capacity : b.capacity = size + 1
  head : b.head = items.length - size
  tail : b.tail = items.length
  slots : Ring.Holds (size + 1) b.buffer items

theorem holds_new [Inhabited τ] {size : Nat} (h : size + 1 < 2 ^ 64) :
    (new size : CacheBuffer τ).Holds size [] :=
  { capacity := Nat.mod_eq_of_lt h
    head := (Nat.zero_sub size).symm
    tail := rfl
    slots := Ring.holds_nil _ _ }

theorem inc_of_lt {n : Nat} (h : n + 1 < 2 ^ 64) : inc n = n + 1 := Nat.mod_eq_of_lt h

variable {size : Nat} {b : CacheBuffer τ} {items : List τ}

theorem Holds.full_iff (h : b.Holds size items) (hlt : items.length < 2 ^ 64) :
    b.full = true ↔ size ≤ items.length := by
  rw [full, h.capacity, h.head, h.tail, beq_iff_eq]
  omega

/-- Either branch writes the slot of the new message. -/
theorem Holds.fill (h : b.Holds size items) (value : τ) (hlt : items.length + 1 < 2 ^ 64) :
    (b.fill value).Holds size (items ++ [value]) := by
  have htail : inc b.tail = items.length + 1 := by rw [h.tail, inc_of_lt hlt]
  have hslots := h.slots.push value
  rw [CacheBuffer.fill]
  by_cases hfull : b.full = true
  · have hsize : size ≤ items.length := (h.full_iff (by omega)).mp hfull
    have hslot : (items.length + 1) % (size + 1) = b.head % (size + 1) :=
      Ring.slot_eq (by rw [h.head]; omega)
    rw [if_pos hfull, getIndex, h.capacity, ← hslot]
    exact
      { capacity := rfl
        head := by
          show inc b.head = _
          rw [h.head, inc_of_lt (by omega), List.length_append, List.length_singleton]
          omega
        tail := by
          show inc b.tail = _
          rw [htail, List.length_append, List.length_singleton]
        slots := hslots }
  · have hsize : ¬size ≤ items.length := fun hle => hfull ((h.full_iff (by omega)).mpr hle)
    rw [if_neg hfull, getIndex, h.capacity, htail]
    exact
      { capacity := rfl
        head := by
          show b.head = _
          rw [h.head, List.length_append, List.length_singleton]
          omega
        tail := by rw [List.length_append, List.length_singleton]
        slots := hslots }

theorem Holds.atPos (h : b.Holds size items) {k : Nat} (hpos : 0 < k) (hle : k ≤ items.length)
    (hlast : items.length ≤ k + size) : items[k - 1]? = some (b.atPos k) := by
  rw [CacheBuffer.atPos, getIndex, h.capacity]
  exact h.slots k hpos hle (by omega)

theorem Holds.latest (h : b.Holds size items) : b.latest = items.getLast? := by
  rw [CacheBuffer.latest, empty, h.tail]
  cases hitems : items.length with
  | zero =>
      obtain rfl := List.eq_nil_of_length_eq_zero hitems
      rfl
  | succ n =>
      have hlast := h.atPos (k := items.length) (by omega) (Nat.le_refl _) (Nat.le_add_right _ _)
      rw [if_neg (by simp), back, h.tail, ← hlast, List.getLast?_eq_getElem?]

/-- `Fetch`, told by the messages that the buffer was filled with. -/
theorem Holds.fetch (h : b.Holds size items) (hlt : items.length + 1 < 2 ^ 64) (index : Nat) :
    b.fetch index =
      if items.length = 0 ∨ index = items.length + 1 then none
      else if index = 0 ∨ index + size ≤ items.length then
        some (items.length, b.atPos items.length)
      else some (index, b.atPos index) := by
  rw [CacheBuffer.fetch, headPos, tailPos, h.tail, h.head, inc_of_lt hlt, inc_of_lt (by omega)]
  by_cases hempty : items.length = 0
  · rw [if_pos (by rw [empty, h.tail, hempty]; rfl), if_pos (Or.inl hempty)]
  · have hne : ¬b.empty = true := by
      rw [empty, h.tail, beq_iff_eq]
      exact hempty
    rw [if_neg hne]
    by_cases hzero : index = 0
    · have hfound : ¬(items.length = 0 ∨ index = items.length + 1) := by omega
      rw [if_pos hzero, if_neg hfound, if_pos (Or.inl hzero)]
    · rw [if_neg hzero]
      by_cases hnew : index = items.length + 1
      · rw [if_pos hnew, if_pos (Or.inr hnew)]
      · have hfound : ¬(items.length = 0 ∨ index = items.length + 1) := by omega
        rw [if_neg hnew, if_neg hfound]
        by_cases hold : index < items.length - size + 1
        · have hlost : index = 0 ∨ index + size ≤ items.length := by omega
          rw [if_pos hold, if_pos hlost]
        · have hkept : ¬(index = 0 ∨ index + size ≤ items.length) := by omega
          rw [if_neg hold, if_neg hkept]

end CacheBuffer
end Data
end Cmw
