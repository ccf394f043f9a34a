import Cmw.Config.RoleAttributes
import Cmw.Serialize.Image

/-!
# Reading back what was written

A stream with the image of a value ahead of its read position gives the value
back.  What a struct gives back is what its `SERIALIZE` names: `restored` copies
the named members into the object that is read into, and a type is `Whole` when
that is everything.
-/

namespace Cmw
namespace Serialize

open Library.ByteImage
open Library.Ordered
open DataStream

variable {host : ByteOrder}

/-! ## Bytes ahead of the read position -/

namespace DataStream

/-- `data` is what the stream reads next. -/
def Ahead (s : DataStream host) (data : List Byte) : Prop :=
  ∃ before after, s.mBuf = before ++ data ++ after ∧ s.mPos = before.length

theorem Ahead.left {s : DataStream host} {data rest : List Byte} (h : s.Ahead (data ++ rest)) :
    s.Ahead data := by
  obtain ⟨before, after, hbuf, hpos⟩ := h
  refine ⟨before, rest ++ after, ?_, hpos⟩
  rw [hbuf]
  simp only [List.append_assoc]

theorem Ahead.right {s : DataStream host} {data rest : List Byte} (h : s.Ahead (data ++ rest)) :
    (s.advance data.length).Ahead rest := by
  obtain ⟨before, after, hbuf, hpos⟩ := h
  refine ⟨before ++ data, after, ?_, ?_⟩
  · rw [advance_mBuf, hbuf]
    simp only [List.append_assoc]
  · rw [advance_mPos, hpos, List.length_append]

theorem Ahead.tail {s : DataStream host} {b : Byte} {rest : List Byte} (h : s.Ahead (b :: rest)) :
    (s.advance 1).Ahead rest := by
  have hsplit : s.Ahead ([b] ++ rest) := h
  exact hsplit.right

theorem Ahead.length_le {s : DataStream host} {data : List Byte} (h : s.Ahead data) :
    data.length ≤ maxInt := by
  obtain ⟨before, after, hbuf, hpos⟩ := h
  have hfits := s.fits
  have hint := s.capInt
  rw [hbuf, List.length_append, List.length_append] at hfits
  omega

theorem Ahead.bytesAt {s : DataStream host} {data : List Byte} (h : s.Ahead data) :
    s.bytesAt s.mPos data.length = .ok data := by
  obtain ⟨before, after, hbuf, hpos⟩ := h
  have hlen : s.mPos + data.length ≤ s.mBuf.length := by
    rw [hbuf, List.length_append, List.length_append]
    omega
  rw [DataStream.bytesAt, if_pos hlen, hbuf, hpos, List.append_assoc, List.drop_left,
    List.take_left]

theorem Ahead.get {s : DataStream host} {b : Byte} {rest : List Byte} (h : s.Ahead (b :: rest)) :
    s.get s.mPos = .ok b := by
  obtain ⟨before, after, hbuf, hpos⟩ := h
  have hlt : s.mPos < s.mBuf.length := by
    rw [hbuf, List.length_append, List.length_append, List.length_cons]
    omega
  have hb : s.mBuf[s.mPos] = b := by
    simp [hbuf, hpos]
  rw [DataStream.get, dif_pos hlt, hb]

theorem Ahead.read {s : DataStream host} {data : List Byte} (h : s.Ahead data) :
    s.read data.length = .ok (data, s.advance data.length) := by
  rw [DataStream.read, if_neg (by omega), Int.toNat_natCast, h.bytesAt]
  rfl

end DataStream

/-! ## Scalars -/

theorem readTagged_ahead {α : Type} {type : DataType} {body : Reader host α} {value : α}
    {s : DataStream host} {rest : List Byte} (h : s.Ahead (type.code :: rest)) :
    readTagged type body value s = body value (s.advance 1) := by
  rw [readTagged, h.get, ok_bind, if_neg (by simp)]

theorem ordered_ofImage {k : Nat} (s : DataStream host) (value : BitVec (8 * k)) :
    ordered s (ofImage k host (littleEndian k value.toNat)) = value := by
  rw [ordered, s.mByteorder_eq]
  cases host with
  | littleEndian =>
      rw [if_neg (by decide)]
      exact ofImage_image .littleEndian value
  | bigEndian =>
      rw [if_pos rfl, byteSwap, image_ofImage _ (littleEndian_length k _)]
      exact ofImage_image .bigEndian value

/-- On a stream with `data` ahead, `read` returns true with `value` and takes the
data. -/
def Reads {α : Type} (read : Reader host α) (old : α) (data : List Byte) (value : α) : Prop :=
  ∀ s, s.Ahead data → read old s = .ok (true, value, s.advance data.length)

theorem readBool_reads (value old : Bool) :
    Reads (readBool : Reader host Bool) old [DataType.bool.code, if value then 1 else 0] value := by
  intro s h
  rw [readBool, readTagged_ahead h, h.tail.get]
  cases value <;> rfl

theorem readChar_reads (value old : Byte) :
    Reads (readChar : Reader host Byte) old [DataType.char.code, value] value := by
  intro s h
  rw [readChar, readTagged_ahead h, h.tail.get]
  rfl

theorem readScalar_reads (σ : Scalar) (value old : σ.Word) :
    Reads (readScalar σ : Reader host σ.Word) old (σ.type.code :: littleEndian σ.size value.toNat)
      value := by
  intro s h
  have hbytes := h.tail.bytesAt
  rw [littleEndian_length] at hbytes
  rw [readScalar, readTagged_ahead h, hbytes, ok_bind, ordered_ofImage, advance_advance,
    List.length_cons, littleEndian_length, Nat.add_comm]

theorem readInt32_reads (value old : BitVec 32) :
    Reads (readInt32 : Reader host (BitVec 32)) old
      (DataType.int32.code :: littleEndian 4 value.toNat) value :=
  readScalar_reads .int32 value old

def lenBytes (n : Nat) : List Byte := DataType.int32.code :: littleEndian 4 n

theorem readLen_ahead {n : Nat} (hn : n ≤ maxInt) (junk : BitVec 32) {s : DataStream host}
    (h : s.Ahead (lenBytes n)) : readLen junk s = .ok ((n : Int), s.advance (lenBytes n).length) := by
  have hword : littleEndian 4 (BitVec.ofNat 32 n).toNat = littleEndian 4 n := by
    rw [BitVec.toNat_ofNat]
    exact littleEndian_mod 4 n
  have hread := readInt32_reads (BitVec.ofNat 32 n) junk s
  rw [hword] at hread
  rw [readLen, hread h, ok_bind]
  show Except.ok ((BitVec.ofNat 32 n).toInt, _) = _
  rw [toInt_ofNat_32 hn]
  rfl

theorem readString_reads (value old : List Byte) (junk : BitVec 32) :
    Reads (readString junk : Reader host (List Byte)) old
      (DataType.string.code :: (lenBytes value.length ++ value)) value := by
  intro s h
  have hlen : value.length ≤ maxInt := h.tail.right.length_le
  rw [readString, readTagged_ahead h, readLen_ahead hlen junk h.tail.left, ok_bind]
  show (if (value.length : Int) < 0 then _ else _) = _
  rw [if_neg (by omega), h.tail.right.read, ok_bind, advance_advance, advance_advance,
    List.length_cons, List.length_append]
  rw [Nat.add_comm 1]

/-! ## Containers -/

theorem readEach_ahead {α β : Type} {elem : DataStream host → Outcome (α × DataStream host)}
    {put : β → α → β} {enc : α → List Byte} (vs : List α) (acc : β)
    (helem : ∀ v ∈ vs, ∀ s, s.Ahead (enc v) → elem s = .ok (v, s.advance (enc v).length))
    {s : DataStream host} (h : s.Ahead (vs.flatMap enc)) :
    readEach elem put vs.length acc s =
      .ok (vs.foldl put acc, s.advance (vs.flatMap enc).length) := by
  induction vs generalizing acc s with
  | nil => rfl
  | cons v vs ih =>
      rw [List.flatMap_cons] at h
      rw [List.length_cons, readEach, helem v List.mem_cons_self s h.left, ok_bind]
      show readEach elem put vs.length (put acc v) _ = _
      rw [ih (put acc v) (fun w hw => helem w (List.mem_cons_of_mem v hw)) h.right,
        advance_advance, List.flatMap_cons, List.length_append, List.foldl_cons]

theorem length_le_flatMap {α : Type} {enc : α → List Byte} (henc : ∀ v, 0 < (enc v).length)
    (vs : List α) : vs.length ≤ (vs.flatMap enc).length := by
  induction vs with
  | nil => exact Nat.le_refl 0
  | cons v vs ih =>
      have hv := henc v
      rw [List.flatMap_cons, List.length_append, List.length_cons]
      omega

theorem readContainer_reads {α β : Type} (type : DataType) (empty : β)
    {elem : DataStream host → Outcome (α × DataStream host)} (put : β → α → β)
    {enc : α → List Byte} (junk : Stack) (vs : List α) (old : β)
    (henc : ∀ v, 0 < (enc v).length)
    (helem : ∀ v ∈ vs, ∀ s, s.Ahead (enc v) → elem s = .ok (v, s.advance (enc v).length)) :
    Reads (readContainer type empty elem put junk) old
      (type.code :: (lenBytes vs.length ++ vs.flatMap enc)) (vs.foldl put empty) := by
  intro s h
  have hlen : vs.length ≤ maxInt :=
    Nat.le_trans (length_le_flatMap henc vs) h.tail.right.length_le
  rw [readContainer, readTagged_ahead h, readLen_ahead hlen _ h.tail.left, ok_bind]
  show (readEach elem put (vs.length : Int).toNat empty _ >>= _) = _
  rw [Int.toNat_natCast, readEach_ahead vs empty helem h.tail.right, ok_bind]
  simp only [advance_advance, List.length_cons, List.length_append]
  rw [Nat.add_comm 1, Nat.add_right_comm]

theorem foldl_append_singleton {α : Type} (vs acc : List α) :
    vs.foldl (fun value v => value ++ [v]) acc = acc ++ vs := by
  induction vs generalizing acc with
  | nil => rw [List.foldl_nil, List.append_nil]
  | cons v vs ih => rw [List.foldl_cons, ih, ← List.append_cons]

/-! ## What is restored -/

mutual

/-- The object `old` after `value` has been read into it. -/
def STy.restored {α : Type} : STy α → (value old : α) → α
  | .custom _ args, value, old => args.restored value old
  | _, value, _ => value

def Args.restored {α : Type} : Args α → (value old : α) → α
  | .nil, _, old => old
  | .cons member assign head args, value, old =>
      args.restored value (assign (head.restored (member value) (member old)) old)

end

/-- Nothing of a value is left out of its encoding: every member of a struct is an
argument of its `SERIALIZE`. -/
def STy.Whole {α : Type} (type : STy α) : Prop := ∀ value old, type.restored value old = value

mutual

/-- The types whose encoding keeps what it is given: an enumeration is the four
bytes it is stored in, no storage is copied raw, and the elements of a container
are whole. -/
def STy.Readable {α : Type} : STy α → Prop
  | .bool | .char | .scalar _ | .string => True
  | .enum _ size => size = 4
  | .vector _ => False
  | .list elem => elem.Readable ∧ elem.Whole
  | .map _ key val => (key.Readable ∧ key.Whole) ∧ (val.Readable ∧ val.Whole)
  | .set _ elem => elem.Readable ∧ elem.Whole
  | .custom _ args => args.Readable

def Args.Readable {α : Type} : Args α → Prop
  | .nil => True
  | .cons _ _ head args => head.Readable ∧ args.Readable

end

/-! ## Reading -/

theorem STy.image_pos {α : Type} (type : STy α) (value : α) :
    0 < (type.image host value).length := by
  cases type <;> simp [STy.image, STy.chunks, containerChunks]

theorem flatten_containerChunks {α : Type} (type : DataType) (chunks : α → List (List Byte))
    (value : List α) : (containerChunks type chunks value).flatten =
      type.code :: (lenBytes value.length ++ value.flatMap fun v => (chunks v).flatten) := by
  rw [containerChunks, List.flatten_cons, List.flatten_append, flatten_flatMap]
  simp [lenChunks, lenBytes]

theorem toInt32_four (signed : Bool) (value : BitVec (8 * 4)) : toInt32 signed value = value := by
  cases signed with
  | false => exact BitVec.setWidth_eq value
  | true => exact BitVec.signExtend_eq value

theorem overlay_four (old word : BitVec (8 * 4)) : overlay host old (image host word) = word := by
  rw [overlay, image_length, List.drop_of_length_le (by rw [image_length]), List.append_nil,
    ofImage_image]

theorem readEnum_reads (value old : BitVec (8 * 4)) :
    Reads (readEnum 4 : Reader host (BitVec (8 * 4))) old
      (DataType.int32.code :: littleEndian 4 value.toNat)
      value := by
  intro s h
  rw [readEnum, readInt32_reads value 0 s h]
  show Except.ok (true, overlay host old (image host value), _) = _
  rw [overlay_four]

variable {r : ByteOrder} {junk : Stack}

theorem readLocal_ahead {α : Type} {type : STy α}
    (hread : ∀ value old, Reads (type.read r junk) old (type.image host value)
      (type.restored value old))
    (hwhole : type.Whole) (v : α) (s : DataStream r) (h : s.Ahead (type.image host v)) :
    readLocal type.init (type.read r junk) junk s =
      .ok (v, s.advance (type.image host v).length) := by
  rw [readLocal, hread v _ s h, hwhole]
  rfl

theorem readPair_ahead {α β : Type} {fst : DataStream r → Outcome (α × DataStream r)}
    {snd : DataStream r → Outcome (β × DataStream r)} {a : α} {b : β} {da db : List Byte}
    (hfst : ∀ s, s.Ahead da → fst s = .ok (a, s.advance da.length))
    (hsnd : ∀ s, s.Ahead db → snd s = .ok (b, s.advance db.length))
    (s : DataStream r) (h : s.Ahead (da ++ db)) :
    readPair fst snd s = .ok ((a, b), s.advance (da ++ db).length) := by
  rw [readPair, hfst s h.left, ok_bind]
  show (snd (s.advance da.length) >>= _) = _
  rw [hsnd _ h.right, ok_bind, advance_advance, List.length_append]

section
variable {α β : Type}

theorem image_scalar (σ : Scalar) (value : σ.Word) :
    (STy.scalar σ).image host value = σ.type.code :: littleEndian σ.size value.toNat := by
  simp [STy.image, STy.chunks]

theorem image_enum (signed : Bool) (value : BitVec (8 * 4)) :
    (STy.enum signed 4).image host value =
      DataType.int32.code :: littleEndian 4 value.toNat := by
  rw [STy.image, STy.chunks, toInt32_four]
  rfl

theorem image_string (value : List Byte) : STy.string.image host value =
    DataType.string.code :: (lenBytes value.length ++ value) := by
  simp [STy.image, STy.chunks, lenChunks, lenBytes]

theorem image_map {cmp : Compare α} (key : STy α) (val : STy β) (value : OrdMap cmp β) :
    (STy.map cmp key val).image host value =
      DataType.map.code :: (lenBytes value.1.length ++
        value.1.flatMap fun e => key.image host e.1 ++ val.image host e.2) := by
  rw [STy.image, STy.chunks, flatten_containerChunks]
  simp only [List.flatten_append, STy.image]

theorem image_custom (init : Junk → α) (args : Args α) (value : α) :
    (STy.custom init args).image host value = DataType.custom.code :: args.image host value := by
  rw [STy.image, STy.chunks, List.flatten_cons]
  rfl

theorem image_args_cons (member : α → β) (assign : β → α → α) (head : STy β) (args : Args α)
    (value : α) : (Args.cons member assign head args).image host value =
      head.image host (member value) ++ args.image host value := by
  rw [Args.image, Args.chunks, List.flatten_append]
  rfl

/-- What the loops over a container need of an element type. -/
def ReadsLocal (host r : ByteOrder) (junk : Stack) (type : STy α) : Prop :=
  ∀ v s, s.Ahead (type.image host v) →
    readLocal type.init (type.read r junk) junk s = .ok (v, s.advance (type.image host v).length)

theorem list_reads {elem : STy α} (helem : ReadsLocal host r junk elem) (value old : List α) :
    Reads ((STy.list elem).read r junk) old ((STy.list elem).image host value) value := by
  have hread := readContainer_reads .list [] (fun value v => value ++ [v]) junk value old
    elem.image_pos fun v _ => helem v
  rw [foldl_append_singleton, List.nil_append] at hread
  rw [STy.image, STy.chunks, flatten_containerChunks]
  exact hread

theorem set_reads {cmp : Compare α} {elem : STy α} (helem : ReadsLocal host r junk elem)
    (value old : OrdSet cmp) :
    Reads ((STy.set cmp elem).read r junk) old ((STy.set cmp elem).image host value) value := by
  have hread := readContainer_reads .set (OrdSet.empty cmp) OrdSet.insert junk value.1 old
    elem.image_pos fun v _ => helem v
  rw [OrdSet.foldl_insert] at hread
  rw [STy.image, STy.chunks, flatten_containerChunks]
  exact hread

theorem map_reads {cmp : Compare α} {key : STy α} {val : STy β}
    (hkey : ReadsLocal host r junk key) (hval : ReadsLocal host r junk val)
    (value old : OrdMap cmp β) :
    Reads ((STy.map cmp key val).read r junk) old ((STy.map cmp key val).image host value)
      value := by
  have hpos : ∀ e : α × β, 0 < (key.image host e.1 ++ val.image host e.2).length := by
    intro e
    have hkey : 0 < (key.image host e.1).length := key.image_pos e.1
    rw [List.length_append]
    omega
  have hread := readContainer_reads .map (OrdMap.empty cmp β) OrdMap.assign junk value.1 old hpos
    fun e _ => readPair_ahead (hkey e.1) (hval e.2)
  rw [OrdMap.foldl_assign] at hread
  rw [image_map]
  exact hread

theorem custom_reads {init : Junk → α} {args : Args α} {value old new : α}
    (hargs : Reads (args.read r junk) old (args.image host value) new) :
    Reads ((STy.custom init args).read r junk) old ((STy.custom init args).image host value)
      new := by
  intro s h
  rw [image_custom] at h ⊢
  have hhead : s.Ahead ([DataType.custom.code] ++ args.image host value) := h
  have htype : s.read 1 = .ok ([DataType.custom.code], s.advance 1) := hhead.left.read
  show (s.read 1 >>= _) = _
  rw [htype, ok_bind]
  show (args.read r junk old (s.advance 1) >>= _) = _
  rw [hargs _ h.tail, ok_bind, List.length_cons, advance_advance, Nat.add_comm]

theorem args_reads {member : α → β} {assign : β → α → α} {head : STy β} {args : Args α}
    {value old new : α} {b : β}
    (hhead : Reads (head.read r junk) (member old) (head.image host (member value)) b)
    (hargs : Reads (args.read r junk) (assign b old) (args.image host value) new) :
    Reads ((Args.cons member assign head args).read r junk) old
      ((Args.cons member assign head args).image host value) new := by
  intro s h
  rw [image_args_cons] at h ⊢
  show (head.read r junk (member old) s >>= _) = _
  rw [hhead s h.left, ok_bind]
  show args.read r junk (assign b old) _ = _
  rw [hargs _ h.right, advance_advance, List.length_append]

end

mutual

/-- On a stream with the image of a value ahead, whatever host wrote it, `read`
restores the value and takes its image. -/
theorem STy.read_reads {α : Type} : (type : STy α) → type.Readable → (value old : α) →
    Reads (type.read r junk) old (type.image host value) (type.restored value old)
  | .bool, _, value, old => readBool_reads value old
  | .char, _, value, old => readChar_reads value old
  | .scalar σ, _, value, old => by
      rw [image_scalar]
      exact readScalar_reads σ value old
  | .enum signed size, h, value, old => by
      obtain rfl : size = 4 := h
      rw [image_enum]
      exact readEnum_reads value old
  | .string, _, value, old => by
      intro s h
      rw [image_string] at h ⊢
      exact readString_reads value old (junk s.mPos 0 4) s h
  | .vector _, h, _, _ => h.elim
  | .list elem, h, value, old => list_reads (readLocal_ahead (elem.read_reads h.1) h.2) value old
  | .map _ key val, h, value, old =>
      map_reads (readLocal_ahead (key.read_reads h.1.1) h.1.2)
        (readLocal_ahead (val.read_reads h.2.1) h.2.2) value old
  | .set _ elem, h, value, old => set_reads (readLocal_ahead (elem.read_reads h.1) h.2) value old
  | .custom _ args, h, value, old => custom_reads (args.read_reads h value old)

theorem Args.read_reads {α : Type} : (args : Args α) → args.Readable → (value old : α) →
    Reads (args.read r junk) old (args.image host value) (args.restored value old)
  | .nil, _, _, _ => fun _ _ => rfl
  | .cons member _ head args, h, value, old =>
      args_reads (head.read_reads h.1 (member value) (member old)) (args.read_reads h.2 value _)

end

/-! ## Reading into an object -/

/-- Reading any of the members of an object keeps `P` of it. -/
def Args.Keeps (r : ByteOrder) (junk : Stack) {α : Type} (P : α → Prop) : Args α → Prop
  | .nil => True
  | .cons member assign head args =>
      (∀ {old v s u found}, P old → head.read r junk (member old) s = .ok (found, v, u) →
        P (assign v old)) ∧ args.Keeps r junk P

theorem Args.Keeps.read {α : Type} {P : α → Prop} : {args : Args α} → args.Keeps r junk P →
    {old new : α} → {s u : DataStream r} → {found : Bool} → P old →
    args.read r junk old s = .ok (found, new, u) → P new
  | .nil, _, _, _, _, _, _, hold, hread => by
      cases hread
      exact hold
  | .cons _ _ _ _, hkeeps, _, _, _, _, _, hold, hread => by
      obtain ⟨_, hhead, hrest⟩ := of_bind_ok hread
      exact Args.Keeps.read hkeeps.2 (hkeeps.1 hold hhead) hrest

theorem Args.Keeps.readCustom {α : Type} {init : Junk → α} {args : Args α} {P : α → Prop}
    (hkeeps : args.Keeps r junk P) {old new : α} {s u : DataStream r} {found : Bool} (hold : P old)
    (hread : (STy.custom init args).read r junk old s = .ok (found, new, u)) : P new := by
  obtain ⟨⟨type, t⟩, _, hread⟩ := of_bind_ok hread
  dsimp only at hread
  split at hread
  · cases hread
    exact hold
  · obtain ⟨_, hargs, hread⟩ := of_bind_ok hread
    cases hread
    exact hkeeps.read hold hargs

theorem length_le_of_read {s u : DataStream r} {len : Int} {data : List Byte}
    (h : s.read len = .ok (data, u)) : data.length ≤ maxInt := by
  have hfits := s.fits
  have hint := s.capInt
  rw [DataStream.read] at h
  split at h
  · cases h
  · obtain ⟨bytes, hbytes, h⟩ := of_bind_ok h
    cases h
    rw [DataStream.bytesAt] at hbytes
    split at hbytes
    · cases hbytes
      rw [List.length_take, List.length_drop]
      omega
    · cases hbytes

theorem length_le_of_readString {old v : List Byte} {s u : DataStream r} {len : BitVec 32}
    {found : Bool} (hold : old.length ≤ maxInt)
    (hread : readString len old s = .ok (found, v, u)) : v.length ≤ maxInt := by
  obtain ⟨tag, _, hread⟩ := of_bind_ok hread
  split at hread
  · cases hread
    exact hold
  · obtain ⟨⟨n, t⟩, _, hread⟩ := of_bind_ok hread
    dsimp only at hread
    split at hread
    · cases hread
      exact hold
    · obtain ⟨⟨data, t'⟩, hdata, hread⟩ := of_bind_ok hread
      cases hread
      exact length_le_of_read hdata

/-! ## Writing and reading -/

/-- A stream that holds what `t` holds, followed by anything, reads `value` back from
where `s` ends. -/
def ReadsBack {w : ByteOrder} (r : ByteOrder) {α : Type} (type : STy α) (value : α)
    (s t : DataStream w) : Prop :=
  ∃ data, t.mBuf = s.mBuf ++ data ∧
    ∀ (junk : Stack) (old : α) (trailing : List Byte) (u : DataStream r),
      u.mBuf = t.mBuf ++ trailing → u.mPos = s.mBuf.length →
      type.read r junk old u = .ok (true, value, u.advance data.length)

/-- Writing `value` at the end of `s` returns, and it is read back from there. -/
def RoundTrips {w : ByteOrder} (r : ByteOrder) {α : Type} (type : STy α) (value : α)
    (s : DataStream w) : Prop :=
  ∃ t, type.write w value s = .ok t ∧ ReadsBack r type value s t

/-- What one host makes of its own stream. -/
def echo {w : ByteOrder} {α : Type} (type : STy α) (junk : Stack) (value old : α)
    (s : DataStream w) : Outcome (Bool × α) := do
  let t ← type.write w value s
  let (found, v, _) ← type.read w junk old { t with mPos := s.mBuf.length }
  .ok (found, v)

theorem echo_of_roundTrips {w : ByteOrder} {α : Type} {type : STy α} {value : α}
    {s : DataStream w} (h : RoundTrips w type value s) (junk : Stack) (old : α) :
    echo type junk value old s = .ok (true, value) := by
  obtain ⟨t, hwrite, data, _, hread⟩ := h
  rw [echo, hwrite, ok_bind,
    hread junk old [] { t with mPos := s.mBuf.length } (List.append_nil _).symm rfl]
  rfl

/-- Everything the stream keeps comes back, and writing it returns as long as the
stream stays within `2 ^ 30` bytes. -/
theorem readsBack_of_readable {w r : ByteOrder} {α : Type} {type : STy α} (hread : type.Readable)
    (hwhole : type.Whole) (value : α) (s : DataStream w)
    (hlen : (type.image w value).length < 2 ^ 31) :
    (∀ t, type.write w value s = .ok t → ReadsBack r type value s t) ∧
      (s.mBuf.length + (type.image w value).length ≤ 2 ^ 30 → RoundTrips r type value s) := by
  have hback : ∀ t, type.write w value s = .ok t → ReadsBack r type value s t := by
    intro t ht
    have hshort : Short (type.chunks w value) := short_of_flatten (Nat.le_of_lt_succ hlen)
    rw [type.write_eq value hshort] at ht
    obtain ⟨hbuf, -, -⟩ := appendAll_eq ht
    refine ⟨type.image w value, hbuf, fun junk old trailing u hu hpos => ?_⟩
    have hahead : u.Ahead (type.image w value) := ⟨s.mBuf, trailing, by rw [hu, hbuf]; rfl, hpos⟩
    have hreads : Reads (type.read r junk) old (type.image w value) (type.restored value old) :=
      type.read_reads hread value old
    rw [hreads u hahead, hwhole]
  refine ⟨hback, fun hfits => ?_⟩
  obtain ⟨t, ht, -, -⟩ := type.write_ok value s hfits
  exact ⟨t, ht, hback t ht⟩

/-- A list of two default profiles, sent from a big-endian host to a little-endian
one. -/
theorem roundTrips_qosProfile : RoundTrips .littleEndian (.list Config.QosProfile.type) [{}, {}]
    (new .bigEndian) := by
  have hread : (STy.list Config.QosProfile.type).Readable :=
    ⟨⟨rfl, trivial, trivial, trivial, rfl, rfl, trivial⟩, fun _ _ => rfl⟩
  have hlen : ((STy.list Config.QosProfile.type).image ByteOrder.bigEndian [{}, {}]).length = 68 := by
    decide +kernel
  have hint : ((STy.list Config.QosProfile.type).image ByteOrder.bigEndian [{}, {}]).length <
      2 ^ 31 := by
    rw [hlen]
    omega
  have hfits : (new .bigEndian).mBuf.length +
      ((STy.list Config.QosProfile.type).image ByteOrder.bigEndian [{}, {}]).length ≤ 2 ^ 30 := by
    rw [hlen]
    show 0 + 68 ≤ 2 ^ 30
    omega
  exact (readsBack_of_readable hread (fun _ _ => rfl) [{}, {}] (new .bigEndian) hint).2 hfits

/-- A pair whose `SERIALIZE` names the first member alone. -/
def firstOnly : STy (BitVec 32 × Bool) :=
  .custom (fun junk => (junk 0 4, false)) <|
    .cons Prod.fst (fun b p => (b, p.2)) (.scalar .int32) .nil

/-- An enumeration of eight bytes loses its upper half, one of a single byte is
read through a reference of four, and a member that `SERIALIZE` does not name
keeps what it held. -/
theorem not_roundTrips :
    ¬ RoundTrips .littleEndian (.enum true 8) (BitVec.ofNat 64 (2 ^ 32)) (new .littleEndian) ∧
      ¬ RoundTrips .littleEndian (.enum false 1) (BitVec.ofNat 8 3) (new .littleEndian) ∧
      ¬ RoundTrips .littleEndian firstOnly (5, true) (new .littleEndian) := by
  refine ⟨fun h => ?_, fun h => ?_, fun h => ?_⟩
  · have := echo_of_roundTrips h (fun _ _ => 0) 0
    revert this
    decide +kernel
  · have := echo_of_roundTrips h (fun _ _ => 0) 0
    revert this
    decide +kernel
  · have := echo_of_roundTrips h (fun _ _ => 0) (0, false)
    revert this
    decide +kernel

end Serialize
end Cmw
