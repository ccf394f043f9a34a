import Mathlib.Data.BitVec
import Mathlib.Tactic.Ring

/-!
# Byte images of machine words

The bytes a word of `k` bytes occupies in memory, in either byte order, and the
word read back from them.  `littleEndian` and `value` are the two directions in
the fixed order, `image` and `ofImage` the same in the order of a host.
-/

namespace Library
namespace ByteImage

abbrev Byte := BitVec 8

inductive ByteOrder
  | bigEndian
  | littleEndian
  deriving DecidableEq, Repr

/-- The low `k` bytes of `n`, the least significant first. -/
def littleEndian : Nat → Nat → List Byte
  | 0, _ => []
  | k + 1, n => BitVec.ofNat 8 n :: littleEndian k (n / 256)

/-- The number whose bytes these are, the least significant first. -/
def value : List Byte → Nat
  | [] => 0
  | b :: bs => b.toNat + 256 * value bs

@[simp] theorem littleEndian_length (k n : Nat) : (littleEndian k n).length = k := by
  induction k generalizing n with
  | zero => rfl
  | succ k ih => simp [littleEndian, ih]

theorem value_littleEndian (k n : Nat) : value (littleEndian k n) = n % 256 ^ k := by
  induction k generalizing n with
  | zero => simp [littleEndian, value, Nat.mod_one]
  | succ k ih =>
      rw [littleEndian, value, ih, BitVec.toNat_ofNat]
      show n % 256 + 256 * (n / 256 % 256 ^ k) = n % 256 ^ (k + 1)
      rw [Nat.pow_succ, Nat.mul_comm (256 ^ k) 256, Nat.mod_mul]

theorem value_lt (bs : List Byte) : value bs < 256 ^ bs.length := by
  induction bs with
  | nil => simp [value]
  | cons b bs ih =>
      have hb := b.isLt
      rw [value, List.length_cons, Nat.pow_succ]
      omega

theorem littleEndian_value (bs : List Byte) : littleEndian bs.length (value bs) = bs := by
  induction bs with
  | nil => rfl
  | cons b bs ih =>
      have hb := b.isLt
      have hhead : BitVec.ofNat 8 (b.toNat + 256 * value bs) = b := by
        apply BitVec.eq_of_toNat_eq
        rw [BitVec.toNat_ofNat]
        omega
      have htail : (b.toNat + 256 * value bs) / 256 = value bs := by omega
      rw [value, List.length_cons, littleEndian, hhead, htail, ih]

theorem littleEndian_mod (k n : Nat) : littleEndian k (n % 256 ^ k) = littleEndian k n := by
  have hlen := littleEndian_length k n
  have h := littleEndian_value (littleEndian k n)
  rwa [hlen, value_littleEndian] at h

/-- The bytes a word occupies in the memory of a host. -/
def image {k : Nat} (order : ByteOrder) (v : BitVec (8 * k)) : List Byte :=
  match order with
  | .littleEndian => littleEndian k v.toNat
  | .bigEndian => (littleEndian k v.toNat).reverse

/-- The word a host reads from `k` bytes of its memory. -/
def ofImage (k : Nat) (order : ByteOrder) (bs : List Byte) : BitVec (8 * k) :=
  match order with
  | .littleEndian => BitVec.ofNat (8 * k) (value bs)
  | .bigEndian => BitVec.ofNat (8 * k) (value bs.reverse)

@[simp] theorem image_length {k : Nat} (order : ByteOrder) (v : BitVec (8 * k)) :
    (image order v).length = k := by
  cases order <;> simp [image]

theorem pow_256 (k : Nat) : 256 ^ k = 2 ^ (8 * k) := by
  rw [Nat.pow_mul]

theorem ofNat_value_littleEndian {k : Nat} (v : BitVec (8 * k)) :
    BitVec.ofNat (8 * k) (value (littleEndian k v.toNat)) = v := by
  apply BitVec.eq_of_toNat_eq
  have hv := v.isLt
  rw [value_littleEndian, BitVec.toNat_ofNat, pow_256, Nat.mod_mod, Nat.mod_eq_of_lt hv]

@[simp] theorem ofImage_image {k : Nat} (order : ByteOrder) (v : BitVec (8 * k)) :
    ofImage k order (image order v) = v := by
  cases order with
  | littleEndian => exact ofNat_value_littleEndian v
  | bigEndian =>
      show BitVec.ofNat (8 * k) (value (littleEndian k v.toNat).reverse.reverse) = v
      rw [List.reverse_reverse]
      exact ofNat_value_littleEndian v

theorem littleEndian_ofNat_value {k : Nat} {bs : List Byte} (h : bs.length = k) :
    littleEndian k (BitVec.ofNat (8 * k) (value bs)).toNat = bs := by
  subst h
  have hlt := value_lt bs
  rw [pow_256] at hlt
  rw [BitVec.toNat_ofNat, Nat.mod_eq_of_lt hlt, littleEndian_value]

theorem image_ofImage {k : Nat} (order : ByteOrder) {bs : List Byte} (h : bs.length = k) :
    image order (ofImage k order bs) = bs := by
  cases order with
  | littleEndian => exact littleEndian_ofNat_value h
  | bigEndian =>
      have hr : bs.reverse.length = k := by rw [List.length_reverse, h]
      show (littleEndian k (BitVec.ofNat (8 * k) (value bs.reverse)).toNat).reverse = bs
      rw [littleEndian_ofNat_value hr, List.reverse_reverse]

/-- The word whose bytes are stored the other way round. -/
def byteSwap {k : Nat} (order : ByteOrder) (v : BitVec (8 * k)) : BitVec (8 * k) :=
  ofImage k order (image order v).reverse

theorem image_byteSwap {k : Nat} (order : ByteOrder) (v : BitVec (8 * k)) :
    image order (byteSwap order v) = (image order v).reverse := by
  rw [byteSwap, image_ofImage]
  rw [List.length_reverse, image_length]

theorem image_bigEndian_byteSwap {k : Nat} (v : BitVec (8 * k)) :
    image .bigEndian (byteSwap .bigEndian v) = image .littleEndian v := by
  rw [image_byteSwap, image, image, List.reverse_reverse]

end ByteImage
end Library
