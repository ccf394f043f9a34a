import Cmw.Library.ByteImage

/-!
# A memory of bytes

Addresses are words of 64 bits, and what is past the last one is the first one again.
A place is told by its distance from the start of a block, so that no bound on
addresses is needed: `Within a n` are the `n` bytes from `a` on.
-/

namespace Library

open ByteImage

abbrev Word := BitVec 64

abbrev Memory := Word → Byte

namespace Memory

def Within (a : Word) (n : Nat) (x : Word) : Prop := (x - a).toNat < n

instance decidableWithin (a : Word) (n : Nat) (x : Word) : Decidable (Within a n x) :=
  inferInstanceAs (Decidable (_ < _))

/-- The bytes `bs`, from the address `a` on. -/
def write (m : Memory) (a : Word) (bs : List Byte) : Memory :=
  fun x => (bs[(x - a).toNat]?).getD (m x)

def read (m : Memory) (a : Word) (n : Nat) : List Byte :=
  (List.range n).map fun i => m (a + BitVec.ofNat 64 i)

def store (m : Memory) (a v : Word) : Memory := m.write a (image (k := 8) .littleEndian v)

def load (m : Memory) (a : Word) : Word := ofImage 8 .littleEndian (m.read a 8)

variable {m m' : Memory} {a b v x : Word} {bs : List Byte}

theorem toNat_add_sub (a : Word) {i : Nat} (h : i < 2 ^ 64) :
    (a + BitVec.ofNat 64 i - a).toNat = i := by
  rw [BitVec.add_comm, BitVec.add_sub_cancel, BitVec.toNat_ofNat]
  exact Nat.mod_eq_of_lt h

theorem within_add {n i : Nat} (h : i < n) (hn : n ≤ 2 ^ 64) : Within a n (a + BitVec.ofNat 64 i) := by
  rw [Within, toNat_add_sub a (Nat.lt_of_lt_of_le h hn)]
  exact h

theorem write_of_not_within (h : ¬ Within a bs.length x) : m.write a bs x = m x := by
  rw [write, List.getElem?_eq_none (Nat.le_of_not_lt h)]
  rfl

theorem write_add {i : Nat} (h : i < bs.length) (hn : bs.length ≤ 2 ^ 64) :
    m.write a bs (a + BitVec.ofNat 64 i) = bs[i] := by
  rw [write, toNat_add_sub a (Nat.lt_of_lt_of_le h hn), List.getElem?_eq_getElem h]
  rfl

theorem read_write (hn : bs.length ≤ 2 ^ 64) : (m.write a bs).read a bs.length = bs := by
  refine List.ext_getElem (by rw [read, List.length_map, List.length_range]) fun i hi hi' => ?_
  simp only [read, List.getElem_map, List.getElem_range]
  exact write_add hi' hn

theorem read_congr {n : Nat} (hn : n ≤ 2 ^ 64) (h : ∀ x, Within a n x → m x = m' x) :
    m.read a n = m'.read a n :=
  List.map_congr_left fun _ hi => h _ (within_add (List.mem_range.mp hi) hn)

theorem load_store (m : Memory) (a v : Word) : (m.store a v).load a = v := by
  have hn : (image (k := 8) .littleEndian v).length ≤ 2 ^ 64 := by
    rw [image_length]
    decide
  have h : (m.write a (image (k := 8) .littleEndian v)).read a _ = _ := read_write hn
  rw [image_length] at h
  rw [load, store, h]
  exact ofImage_image (k := 8) .littleEndian v

theorem load_congr (h : ∀ x, Within a 8 x → m x = m' x) : m.load a = m'.load a := by
  rw [load, load, read_congr (by decide) h]

theorem store_of_not_within (h : ¬ Within a 8 x) : m.store a v x = m x := by
  refine write_of_not_within ?_
  rwa [image_length]

theorem within_of_within {n k : Nat} (h : Within b k x) (hb : (b - a).toNat + k ≤ n)
    (hn : n ≤ 2 ^ 64) : Within a n x ∧ (x - a).toNat = (b - a).toNat + (x - b).toNat := by
  have hx : (x - b).toNat < k := h
  have hsum : (x - a).toNat = (b - a).toNat + (x - b).toNat := by bv_omega
  refine ⟨?_, hsum⟩
  rw [Within, hsum]
  omega

/-! ## Words one after another -/

/-- The words `ws` are in the memory, from the address `a` on. -/
def Words (m : Memory) (a : Word) (ws : List Word) : Prop :=
  ∀ i (h : i < ws.length), m.load (a + BitVec.ofNat 64 (8 * i)) = ws[i]

variable {w : Word} {ws : List Word}

theorem words_nil : Words m a [] := fun _ h => absurd h (Nat.not_lt_zero _)

theorem words_cons : Words m a (w :: ws) ↔ m.load a = w ∧ Words m (a + 8) ws := by
  have hnext : ∀ i, a + BitVec.ofNat 64 (8 * (i + 1)) = a + 8 + BitVec.ofNat 64 (8 * i) := by
    intro i
    rw [BitVec.add_assoc, Nat.mul_add, Nat.add_comm, BitVec.ofNat_add]
    rfl
  constructor
  · intro h
    refine ⟨?_, fun i hi => ?_⟩
    · have h := h 0 (Nat.zero_lt_succ _)
      rwa [Nat.mul_zero, BitVec.add_zero] at h
    · rw [← hnext]
      exact h (i + 1) (Nat.succ_lt_succ hi)
  · intro h i hi
    cases i with
    | zero =>
        rw [Nat.mul_zero, BitVec.add_zero]
        exact h.1
    | succ i =>
        rw [hnext]
        exact h.2 i (Nat.lt_of_succ_lt_succ hi)

theorem Words.congr (h : Words m a ws) (hn : 8 * ws.length ≤ 2 ^ 64)
    (hm : ∀ x, Within a (8 * ws.length) x → m' x = m x) : Words m' a ws := by
  intro i hi
  rw [← h i hi]
  refine load_congr fun x hx => hm x (within_of_within hx ?_ hn).1
  rw [toNat_add_sub a (by omega)]
  omega

/-- A word below. -/
theorem Words.store (h : Words m a ws) (hn : 8 * (ws.length + 1) ≤ 2 ^ 64) (w : Word) :
    Words (m.store (a - 8) w) (a - 8) (w :: ws) := by
  refine words_cons.mpr ⟨load_store m (a - 8) w, ?_⟩
  rw [BitVec.sub_add_cancel]
  refine h.congr (by omega) fun x hx => store_of_not_within fun hx' => ?_
  have hx : (x - a).toNat < 8 * ws.length := hx
  have hx' : (x - (a - 8)).toNat < 8 := hx'
  bv_omega

end Memory
end Library
