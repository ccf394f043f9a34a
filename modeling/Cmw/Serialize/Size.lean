import Cmw.Serialize.Image

/-!
# How many bytes a value takes

`encodedSize` counts them without writing any.  A string or a vector has as many bytes as
its length says that is written in front of it, a word of 32 bits.
-/

namespace Cmw
namespace Serialize

open Library.ByteImage
open DataStream

variable {host : ByteOrder}

mutual

def STy.encodedSize {α : Type} : STy α → α → Nat
  | .bool, _ => 2
  | .char, _ => 2
  | .scalar σ, _ => 1 + σ.size
  | .enum _ _, _ => 5
  | .string, value => 6 + value.length % 2 ^ 32
  | .vector _, value => 6 + value.length % 2 ^ 32
  | .list elem, value => 6 + (value.map elem.encodedSize).sum
  | .map _ key val, value =>
      6 + (value.1.map fun e => key.encodedSize e.1 + val.encodedSize e.2).sum
  | .set _ elem, value => 6 + (value.1.map elem.encodedSize).sum
  | .custom _ args, value => 1 + args.encodedSize value

def Args.encodedSize {α : Type} : Args α → α → Nat
  | .nil, _ => 0
  | .cons member _ head args, value => head.encodedSize (member value) + args.encodedSize value

end

/-- Where it returns, the stream is longer by `n` bytes. -/
def Grows (w : DataStream host → Outcome (DataStream host)) (n : Nat) : Prop :=
  ∀ s t, w s = .ok t → t.mBuf.length = s.mBuf.length + n

theorem Grows.seq {v w : DataStream host → Outcome (DataStream host)} {m n : Nat}
    (hv : Grows v m) (hw : Grows w n) : Grows (fun s => v s >>= w) (m + n) := by
  intro s t h
  obtain ⟨u, hu, ht⟩ := of_bind_ok h
  rw [hw u t ht, hv s u hu, Nat.add_assoc]

theorem grows_write (data : List Byte) (len : Int) :
    Grows (fun s : DataStream host => s.write data len) len.toNat := by
  intro s t h
  simp only [DataStream.write] at h
  split at h
  · cases h
  split at h
  · cases h
  case isFalse hlen =>
    rw [(append_eq h).1, List.length_append, List.length_take, Nat.min_eq_left (by omega)]

theorem grows_writeType (type : DataType) :
    Grows (fun s : DataStream host => writeType type s) 1 :=
  grows_write _ 1

theorem grows_writeScalar (σ : Scalar) (value : σ.Word) :
    Grows (fun s : DataStream host => writeScalar σ value s) (1 + σ.size) := by
  refine (grows_writeType σ.type).seq fun s t h => ?_
  exact grows_write _ σ.size s t h

/-- A tag and a length in front of a body. -/
theorem grows_header (type : DataType) (len : Nat) {body : DataStream host → Outcome (DataStream host)}
    {n : Nat} (hbody : Grows body n) :
    Grows (fun s => writeType type s >>= fun s => writeLen len s >>= body) (6 + n) := by
  have hlen : Grows (fun s : DataStream host => writeLen len s) 5 := grows_writeScalar .int32 _
  have h := (grows_writeType type).seq (hlen.seq hbody)
  rwa [← Nat.add_assoc] at h

theorem grows_writeBytes (data : List Byte) (n : Nat) :
    Grows (fun s : DataStream host => s.write data (BitVec.ofNat 32 n).toInt) (n % 2 ^ 32) := by
  intro s t h
  have hgrows := grows_write data (BitVec.ofNat 32 n).toInt s t h
  by_cases hneg : (BitVec.ofNat 32 n).toInt < 0
  · simp only [DataStream.write, if_pos hneg] at h
    cases h
  · have hnat : (BitVec.ofNat 32 n).toInt.toNat = n % 2 ^ 32 := by
      have hlt : 2 * (BitVec.ofNat 32 n).toNat < 2 ^ 32 := by
        simpa [BitVec.toInt_neg_iff] using hneg
      rw [BitVec.toInt_eq_toNat_of_lt hlt, Int.toNat_natCast, BitVec.toNat_ofNat]
    rwa [hnat] at hgrows

theorem grows_writeEach {α : Type} {elem : Writer host α} {size : α → Nat}
    (h : ∀ v, Grows (elem v) (size v)) (vs : List α) :
    Grows (writeEach elem vs) (vs.map size).sum := by
  induction vs with
  | nil =>
      intro s t ht
      cases ht
      rfl
  | cons v vs ih =>
      rw [List.map_cons, List.sum_cons]
      exact (h v).seq ih

theorem grows_writeContainer {α : Type} (type : DataType) {elem : Writer host α} {size : α → Nat}
    (h : ∀ v, Grows (elem v) (size v)) (value : List α) :
    Grows (writeContainer type elem value) (6 + (value.map size).sum) :=
  grows_header type value.length (grows_writeEach h value)

mutual

theorem STy.grows_write {α : Type} : (type : STy α) → (value : α) →
    Grows (type.write host value) (type.encodedSize value)
  | .bool, value => (grows_writeType .bool).seq (Serialize.grows_write _ 1)
  | .char, value => (grows_writeType .char).seq (Serialize.grows_write _ 1)
  | .scalar σ, value => grows_writeScalar σ value
  | .enum signed size, value => grows_writeScalar .int32 (toInt32 signed value)
  | .string, value => grows_header .string value.length (grows_writeBytes value value.length)
  | .vector elem, value => grows_header .vector value.length (grows_writeBytes _ value.length)
  | .list elem, value => grows_writeContainer .list (fun v => elem.grows_write v) value
  | .map _ key val, value => by
      refine grows_writeContainer .map (fun e => ?_) value.1
      exact (key.grows_write e.1).seq (val.grows_write e.2)
  | .set _ elem, value => grows_writeContainer .set (fun v => elem.grows_write v) value.1
  | .custom _ args, value => (grows_writeType .custom).seq (args.grows_write value)

theorem Args.grows_write {α : Type} : (args : Args α) → (value : α) →
    Grows (args.write host value) (args.encodedSize value)
  | .nil, _ => by
      intro s t h
      cases h
      rfl
  | .cons member _ head args, value => (head.grows_write (member value)).seq (args.grows_write value)

end

end Serialize
end Cmw
