import Cmw.Serialize.Types

/-!
# The image of a value

`STy.image` is the byte string a value stands for in a stream, and `chunks` the
pieces it is appended in.  Writing a value is appending its chunks
(`write_eq_appendAll`), so whether a write returns and what it leaves are
questions about `append` alone.
-/

namespace Cmw
namespace Serialize

open Library.ByteImage
open DataStream

variable {host : ByteOrder}

/-! ## Appending -/

namespace DataStream

def appendAll : List (List Byte) → DataStream host → Outcome (DataStream host)
  | [], s => .ok s
  | c :: cs, s => do
      let s ← s.append c
      appendAll cs s

theorem appendAll_append (cs ds : List (List Byte)) (s : DataStream host) :
    appendAll (cs ++ ds) s = appendAll cs s >>= appendAll ds := by
  induction cs generalizing s with
  | nil => rfl
  | cons c cs ih =>
      rw [List.cons_append, appendAll, appendAll]
      cases s.append c with
      | error e => rfl
      | ok t => exact ih t

/-- Two powers of two below `2 ^ 31` are enough room for `2 ^ 30` bytes. -/
theorem grown_ok {need : Nat} (hneed : need ≤ 2 ^ 30) (k : Nat) {fuel cap : Nat}
    (hcap : cap ≤ maxInt) (hpos : 0 < cap) (hk : need ≤ cap * 2 ^ k) (hfuel : k < fuel) :
    ∃ c, grown need fuel cap hcap = .ok c := by
  induction k generalizing fuel cap with
  | zero =>
      obtain ⟨fuel, rfl⟩ : ∃ n, fuel = n + 1 := ⟨fuel - 1, by omega⟩
      rw [Nat.pow_zero, Nat.mul_one] at hk
      rw [grown, dif_pos hk]
      exact ⟨_, rfl⟩
  | succ k ih =>
      obtain ⟨fuel, rfl⟩ : ∃ n, fuel = n + 1 := ⟨fuel - 1, by omega⟩
      rw [grown]
      by_cases hfit : need ≤ cap
      · rw [dif_pos hfit]
        exact ⟨_, rfl⟩
      · have hdouble : cap * 2 ≤ maxInt := by
          unfold maxInt
          omega
        rw [dif_neg hfit, if_neg (by omega), dif_pos hdouble]
        refine ih hdouble (by omega) ?_ (by omega)
        rw [Nat.mul_assoc, ← Nat.pow_succ']
        exact hk

theorem reserve_ok (s : DataStream host) {len : Nat} (h : s.mBuf.length + len ≤ 2 ^ 30) :
    ∃ c, s.reserve len = .ok c := by
  have hint : s.mBuf.length + len ≤ maxInt := by
    unfold maxInt
    omega
  rw [reserve, if_pos hint]
  by_cases hcap : s.mCap = 0
  · rw [grown]
    split
    · exact ⟨_, rfl⟩
    · exact grown_ok h 30 _ (by decide) (by omega) (by decide)
  · refine grown_ok h 30 _ (by omega) ?_ (by decide)
    exact Nat.le_trans h (Nat.le_mul_of_pos_left _ (by omega))

theorem append_ok {data : List Byte} {s : DataStream host}
    (h : s.mBuf.length + data.length ≤ 2 ^ 30) :
    ∃ t, s.append data = .ok t ∧ t.mBuf = s.mBuf ++ data ∧ t.mPos = s.mPos := by
  obtain ⟨c, hc⟩ := s.reserve_ok h
  rw [append, hc]
  exact ⟨_, rfl, rfl, rfl⟩

theorem appendAll_ok {cs : List (List Byte)} {s : DataStream host}
    (h : s.mBuf.length + cs.flatten.length ≤ 2 ^ 30) :
    ∃ t, appendAll cs s = .ok t ∧ t.mBuf = s.mBuf ++ cs.flatten ∧ t.mPos = s.mPos := by
  induction cs generalizing s with
  | nil => exact ⟨s, rfl, by rw [List.flatten_nil, List.append_nil], rfl⟩
  | cons c cs ih =>
      rw [List.flatten_cons, List.length_append] at h
      have hfirst : s.mBuf.length + c.length ≤ 2 ^ 30 := by omega
      obtain ⟨t, ht, hbuf, hpos⟩ := append_ok hfirst
      have hrest : t.mBuf.length + cs.flatten.length ≤ 2 ^ 30 := by
        rw [hbuf, List.length_append]
        omega
      obtain ⟨u, hu, hbuf', hpos'⟩ := ih hrest
      refine ⟨u, ?_, ?_, ?_⟩
      · rw [appendAll, ht]
        exact hu
      · rw [hbuf', hbuf, List.flatten_cons, List.append_assoc]
      · rw [hpos', hpos]

/-- A capacity that only `reserve` has set. -/
def Doubled (s : DataStream host) : Prop := s.mCap = 0 ∨ ∃ j, s.mCap = 2 ^ j

theorem doubled_new : (new host).Doubled := Or.inl rfl

theorem length_le_of_doubled {s : DataStream host} (h : s.Doubled) : s.mBuf.length ≤ 2 ^ 30 := by
  have hfits := s.fits
  have hint := s.capInt
  rcases h with h | ⟨j, h⟩
  · omega
  · have hj : j < 31 := by
      rw [← Nat.pow_lt_pow_iff_right (a := 2) (by decide), ← h]
      unfold maxInt at hint
      omega
    have hle : 2 ^ j ≤ 2 ^ 30 := Nat.pow_le_pow_right (by decide) (by omega)
    omega

theorem grown_doubled {need fuel cap : Nat} {hcap : cap ≤ maxInt}
    {c : {c : Nat // need ≤ c ∧ c ≤ maxInt}} (h : cap = 0 ∨ ∃ j, cap = 2 ^ j)
    (hc : grown need fuel cap hcap = .ok c) : c.1 = 0 ∨ ∃ j, c.1 = 2 ^ j := by
  induction fuel generalizing cap with
  | zero => cases hc
  | succ fuel ih =>
      rw [grown] at hc
      split at hc
      · cases hc
        exact h
      · split at hc
        · exact ih (Or.inr ⟨0, rfl⟩) hc
        · split at hc
          · refine ih (Or.inr ?_) hc
            rcases h with h | ⟨j, h⟩
            · exact absurd h (by assumption)
            · exact ⟨j + 1, by rw [h, Nat.pow_succ]⟩
          · cases hc

theorem append_eq {data : List Byte} {s t : DataStream host} (h : s.append data = .ok t) :
    t.mBuf = s.mBuf ++ data ∧ t.mPos = s.mPos ∧ (s.Doubled → t.Doubled) := by
  rw [append] at h
  obtain ⟨c, hc, h⟩ := of_bind_ok h
  cases h
  refine ⟨rfl, rfl, fun hs => ?_⟩
  rw [reserve] at hc
  split at hc
  · exact grown_doubled hs hc
  · cases hc

theorem appendAll_eq {cs : List (List Byte)} {s t : DataStream host}
    (h : appendAll cs s = .ok t) :
    t.mBuf = s.mBuf ++ cs.flatten ∧ t.mPos = s.mPos ∧ (s.Doubled → t.Doubled) := by
  induction cs generalizing s with
  | nil =>
      cases h
      exact ⟨by rw [List.flatten_nil, List.append_nil], rfl, id⟩
  | cons c cs ih =>
      obtain ⟨u, hc, h⟩ := of_bind_ok h
      obtain ⟨hbuf, hpos, hcap⟩ := append_eq hc
      obtain ⟨hbuf', hpos', hcap'⟩ := ih h
      refine ⟨?_, hpos'.trans hpos, fun hs => hcap' (hcap hs)⟩
      rw [hbuf', hbuf, List.flatten_cons, List.append_assoc]

end DataStream

/-! ## Chunks -/

/-- A length, as `write(len)` stores it. -/
def lenChunks (n : Nat) : List (List Byte) := [[DataType.int32.code], littleEndian 4 n]

/-- The chunks of a container: a tag, a length and the chunks of its elements. -/
def containerChunks {α : Type} (type : DataType) (elem : α → List (List Byte)) (value : List α) :
    List (List Byte) :=
  [type.code] :: (lenChunks value.length ++ value.flatMap elem)

mutual

def STy.chunks {α : Type} (host : ByteOrder) : STy α → α → List (List Byte)
  | .bool, value => [[DataType.bool.code], [if value then 1 else 0]]
  | .char, value => [[DataType.char.code], [value]]
  | .scalar σ, value => [[σ.type.code], littleEndian σ.size value.toNat]
  | .enum signed _, value => [[DataType.int32.code], littleEndian 4 (toInt32 signed value).toNat]
  | .string, value => [DataType.string.code] :: (lenChunks value.length ++ [value])
  | .vector elem, value => [DataType.vector.code] ::
      (lenChunks value.length ++ [(value.flatMap (elem.storage host)).take value.length])
  | .list elem, value => containerChunks .list (elem.chunks host) value
  | .map _ key val, value => containerChunks .map
      (fun e => key.chunks host e.1 ++ val.chunks host e.2) value.1
  | .set _ elem, value => containerChunks .set (elem.chunks host) value.1
  | .custom _ args, value => [DataType.custom.code] :: args.chunks host value

def Args.chunks {α : Type} (host : ByteOrder) : Args α → α → List (List Byte)
  | .nil, _ => []
  | .cons member _ head args, value => head.chunks host (member value) ++ args.chunks host value

end

/-- The bytes a value stands for. -/
def STy.image {α : Type} (host : ByteOrder) (type : STy α) (value : α) : List Byte :=
  (type.chunks host value).flatten

def Args.image {α : Type} (host : ByteOrder) (args : Args α) (value : α) : List Byte :=
  (args.chunks host value).flatten

/-! ## Writing -/

theorem write_eq_append {data : List Byte} {len : Int} {s : DataStream host}
    (h : len = data.length) : s.write data len = s.append data := by
  subst h
  rw [DataStream.write, if_neg (by omega), if_neg (by omega), Int.toNat_natCast, List.take_length]

theorem write_byte (b : Byte) (s : DataStream host) : s.write [b] 1 = s.append [b] :=
  write_eq_append rfl

theorem toInt_ofNat_32 {n : Nat} (h : n ≤ maxInt) : (BitVec.ofNat 32 n).toInt = n := by
  unfold maxInt at h
  rw [BitVec.toInt_eq_toNat_of_lt] <;> rw [BitVec.toNat_ofNat] <;> omega

theorem image_ordered {k : Nat} (s : DataStream host) (value : BitVec (8 * k)) :
    image host (ordered s value) = littleEndian k value.toNat := by
  rw [ordered, s.mByteorder_eq]
  cases host with
  | bigEndian => rw [if_pos rfl, image_bigEndian_byteSwap, image]
  | littleEndian => rw [if_neg (by decide), image]

theorem appendAll_cons (c : List Byte) (cs : List (List Byte)) (s : DataStream host) :
    appendAll (c :: cs) s = s.append c >>= appendAll cs := rfl

theorem appendAll_singleton (c : List Byte) (s : DataStream host) :
    appendAll [c] s = s.append c := by
  rw [appendAll_cons]
  cases s.append c <;> rfl

theorem bind_congr_ok {α β : Type} {x : Outcome α} {f g : α → Outcome β}
    (h : ∀ a, x = .ok a → f a = g a) : x >>= f = x >>= g := by
  cases x with
  | error e => rfl
  | ok a => exact h a rfl

theorem writeType_eq (type : DataType) (s : DataStream host) :
    writeType type s = s.append [type.code] := write_byte type.code s

theorem writeScalar_eq (σ : Scalar) (value : σ.Word) (s : DataStream host) :
    writeScalar σ value s = appendAll [[σ.type.code], littleEndian σ.size value.toNat] s := by
  rw [appendAll_cons, writeScalar, writeType_eq]
  refine bind_congr_ok fun t _ => ?_
  rw [image_ordered, write_eq_append (by rw [littleEndian_length]), appendAll_singleton]

theorem writeLen_eq (n : Nat) (s : DataStream host) :
    writeLen n s = appendAll (lenChunks n) s := by
  rw [writeLen, writeInt32]
  refine (writeScalar_eq .int32 _ s).trans ?_
  have hword : littleEndian 4 (BitVec.ofNat 32 n).toNat = littleEndian 4 n := by
    rw [BitVec.toNat_ofNat]
    exact littleEndian_mod 4 n
  rw [lenChunks, ← hword]
  rfl

theorem writeHeader_eq (type : DataType) (n : Nat) (rest : List (List Byte)) (s : DataStream host)
    (body : DataStream host → Outcome (DataStream host))
    (hbody : ∀ t, body t = appendAll rest t) :
    (writeType type s >>= fun s => writeLen n s >>= body) =
      appendAll ([type.code] :: (lenChunks n ++ rest)) s := by
  rw [appendAll_cons, writeType_eq]
  refine bind_congr_ok fun t _ => ?_
  rw [appendAll_append, writeLen_eq]
  exact bind_congr_ok fun u _ => hbody u

theorem writeEach_eq {α : Type} {elem : Writer host α} {chunks : α → List (List Byte)}
    (vs : List α) (h : ∀ v ∈ vs, ∀ s, elem v s = appendAll (chunks v) s) (s : DataStream host) :
    writeEach elem vs s = appendAll (vs.flatMap chunks) s := by
  induction vs generalizing s with
  | nil => rfl
  | cons v vs ih =>
      rw [writeEach, List.flatMap_cons, appendAll_append, h v List.mem_cons_self]
      exact bind_congr_ok fun t _ => ih (fun w hw => h w (List.mem_cons_of_mem v hw)) t

def Elem.size {α : Type} : Elem α → Nat
  | .word size _ => size
  | .object size _ _ _ => size

theorem Elem.size_pos {α : Type} (elem : Elem α) : 0 < elem.size := by
  cases elem with
  | word size pos => exact pos
  | object size pos store hstore => exact pos

theorem Elem.storage_length {α : Type} (elem : Elem α) (v : α) :
    (elem.storage host v).length = elem.size := by
  cases elem with
  | word size pos => exact image_length host v
  | object size pos store hstore => exact hstore v

theorem Elem.length_flatMap_storage {α : Type} (elem : Elem α) (vs : List α) :
    (vs.flatMap (elem.storage host)).length = vs.length * elem.size := by
  induction vs with
  | nil => rw [List.flatMap_nil, List.length_nil, List.length_nil, Nat.zero_mul]
  | cons v vs ih =>
      rw [List.flatMap_cons, List.length_append, elem.storage_length, ih, List.length_cons,
        Nat.succ_mul, Nat.add_comm]

def Short (chunks : List (List Byte)) : Prop := ∀ c ∈ chunks, c.length ≤ maxInt

@[simp] theorem short_nil : Short [] := List.forall_mem_nil _

@[simp] theorem short_cons {c : List Byte} {cs : List (List Byte)} :
    Short (c :: cs) ↔ c.length ≤ maxInt ∧ Short cs := List.forall_mem_cons

@[simp] theorem short_append {cs ds : List (List Byte)} :
    Short (cs ++ ds) ↔ Short cs ∧ Short ds := List.forall_mem_append

theorem Short.each {α : Type} {chunks : α → List (List Byte)} {vs : List α}
    (h : Short (vs.flatMap chunks)) {v : α} (hv : v ∈ vs) : Short (chunks v) :=
  fun _ hc => h _ (List.mem_flatMap.mpr ⟨v, hv, hc⟩)

theorem Short.elements {α : Type} {type : DataType} {chunks : α → List (List Byte)} {vs : List α}
    (h : Short (containerChunks type chunks vs)) {v : α} (hv : v ∈ vs) : Short (chunks v) :=
  (short_append.mp (short_cons.mp h).2).2.each hv

theorem short_of_flatten {cs : List (List Byte)} (h : cs.flatten.length ≤ maxInt) : Short cs :=
  fun _ hc => Nat.le_trans (List.sublist_flatten_of_mem hc).length_le h

theorem writeString_eq (value : List Byte) (h : value.length ≤ maxInt) (s : DataStream host) :
    writeString value s =
      appendAll ([DataType.string.code] :: (lenChunks value.length ++ [value])) s := by
  refine writeHeader_eq .string value.length [value] s _ fun t => ?_
  rw [write_eq_append (toInt_ofNat_32 h), appendAll_singleton]

theorem Elem.length_le_storage {α : Type} (elem : Elem α) (vs : List α) :
    vs.length ≤ (vs.flatMap (elem.storage host)).length := by
  rw [elem.length_flatMap_storage]
  exact Nat.le_mul_of_pos_right _ elem.size_pos

theorem writeVector_eq {α : Type} (elem : Elem α) (value : List α) (h : value.length ≤ maxInt)
    (s : DataStream host) :
    writeVector elem value s = appendAll ((STy.vector elem).chunks host value) s := by
  refine writeHeader_eq .vector value.length _ s _ fun t => ?_
  have hlen : value.length ≤ (value.flatMap (elem.storage host)).length :=
    elem.length_le_storage value
  rw [appendAll_singleton, DataStream.write, toInt_ofNat_32 h, if_neg (by omega),
    Int.toNat_natCast, if_neg (by omega)]

theorem writeContainer_eq {α : Type} (type : DataType) {elem : Writer host α}
    {chunks : α → List (List Byte)} (value : List α)
    (h : ∀ v ∈ value, ∀ s, elem v s = appendAll (chunks v) s) (s : DataStream host) :
    writeContainer type elem value s = appendAll (containerChunks type chunks value) s :=
  writeHeader_eq type value.length _ s _ fun t => writeEach_eq value h t

theorem flatten_flatMap {α : Type} (chunks : α → List (List Byte)) (vs : List α) :
    (vs.flatMap chunks).flatten = vs.flatMap fun v => (chunks v).flatten := by
  induction vs with
  | nil => rfl
  | cons v vs ih =>
      rw [List.flatMap_cons, List.flatten_append, ih, List.flatMap_cons]

mutual

theorem STy.write_eq {α : Type} : (type : STy α) → (value : α) →
    Short (type.chunks host value) → (s : DataStream host) →
    type.write host value s = appendAll (type.chunks host value) s
  | .bool, value, _, s => by
      rw [STy.write, writeBool, STy.chunks, appendAll_cons, writeType_eq]
      exact bind_congr_ok fun t _ => by rw [write_byte, appendAll_singleton]
  | .char, value, _, s => by
      rw [STy.write, writeChar, STy.chunks, appendAll_cons, writeType_eq]
      exact bind_congr_ok fun t _ => by rw [write_byte, appendAll_singleton]
  | .scalar σ, value, _, s => writeScalar_eq σ value s
  | .enum signed size, value, _, s => writeScalar_eq .int32 (toInt32 signed value) s
  | .string, value, h, s => by
      refine writeString_eq value (h value ?_) s
      simp [STy.chunks]
  | .vector elem, value, h, s => by
      have hcopy : ((value.flatMap (elem.storage host)).take value.length).length ≤ maxInt := by
        refine h _ ?_
        simp [STy.chunks]
      rw [List.length_take, Nat.min_eq_left (elem.length_le_storage value)] at hcopy
      exact writeVector_eq elem value hcopy s
  | .list elem, value, h, s =>
      writeContainer_eq .list value (fun v hv t => elem.write_eq v (Short.elements h hv) t) s
  | .map cmp key val, value, h, s => by
      refine writeContainer_eq .map value.1 (fun e he t => ?_) s
      have hentry : Short (key.chunks host e.1 ++ val.chunks host e.2) := Short.elements h he
      rw [appendAll_append]
      show (key.write host e.1 t >>= fun t => val.write host e.2 t) = _
      rw [key.write_eq e.1 (short_append.mp hentry).1]
      exact bind_congr_ok fun u _ => val.write_eq e.2 (short_append.mp hentry).2 u
  | .set cmp elem, value, h, s =>
      writeContainer_eq .set value.1 (fun v hv t => elem.write_eq v (Short.elements h hv) t) s
  | .custom _ args, value, h, s => by
      show (writeType .custom s >>= fun t => args.write host value t) = _
      rw [STy.chunks, appendAll_cons, writeType_eq]
      exact bind_congr_ok fun t _ => args.write_eq value (short_cons.mp h).2 t

theorem Args.write_eq {α : Type} : (args : Args α) → (value : α) →
    Short (args.chunks host value) → (s : DataStream host) →
    args.write host value s = appendAll (args.chunks host value) s
  | .nil, _, _, _ => rfl
  | .cons member assign head args, value, h, s => by
      show (head.write host (member value) s >>= fun t => args.write host value t) = _
      rw [Args.chunks, appendAll_append, head.write_eq _ (short_append.mp h).1]
      exact bind_congr_ok fun t _ => args.write_eq value (short_append.mp h).2 t

end

theorem STy.write_ok {α : Type} (type : STy α) (value : α) (s : DataStream host)
    (h : s.mBuf.length + (type.image host value).length ≤ 2 ^ 30) :
    ∃ t, type.write host value s = .ok t ∧ t.mBuf = s.mBuf ++ type.image host value ∧
      t.mPos = s.mPos := by
  have hshort : (type.chunks host value).flatten.length ≤ maxInt := by
    rw [← STy.image]
    unfold maxInt
    omega
  rw [type.write_eq value (short_of_flatten hshort)]
  exact appendAll_ok h

/-- What a stream holds after a value with short chunks has been written to it from
the start: its image, of at most `2 ^ 30` bytes. -/
theorem STy.image_of_write {α : Type} {type : STy α} {value : α} {t : DataStream host}
    (hshort : Short (type.chunks host value)) (h : type.write host value (new host) = .ok t) :
    t.mBuf = type.image host value ∧ (type.image host value).length ≤ 2 ^ 30 := by
  rw [type.write_eq value hshort] at h
  obtain ⟨hbuf, _, hdoubled⟩ := appendAll_eq h
  have himage : t.mBuf = type.image host value := hbuf
  exact ⟨himage, himage ▸ length_le_of_doubled (hdoubled doubled_new)⟩

end Serialize
end Cmw
