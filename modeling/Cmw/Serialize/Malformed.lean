import Cmw.Serialize.RoundTrip

/-!
# Reading any bytes

What a read does with a buffer that nobody has written with this class.  `Layout` is
the format of a type, told without a reader: its tag, the lengths that are stored and
the bytes they count.  A read looks at a tag, and never at how much of the buffer is
left, so it is safe where the buffer holds the format, or another tag.
-/

namespace Cmw
namespace Serialize

open Library.ByteImage
open Library.Ordered
open DataStream

variable {host : ByteOrder}

/-! ## The format -/

/-- What `n` raw bytes may be copied over. -/
def Elem.Raw {α : Type} (n : Nat) : Elem α → Prop
  | .word _ _ => True
  | .object _ _ _ _ => n = 0

mutual

/-- `data` is laid out as a value of the type is. -/
def STy.Layout {α : Type} : STy α → List Byte → Prop
  | .bool, data => ∃ b, data = [DataType.bool.code, b]
  | .char, data => ∃ b, data = [DataType.char.code, b]
  | .scalar σ, data => ∃ word, word.length = σ.size ∧ data = σ.type.code :: word
  | .enum _ size, data => 4 ≤ size ∧ ∃ word, word.length = 4 ∧ data = DataType.int32.code :: word
  | .string, data => ∃ bytes, data = DataType.string.code :: (lenBytes bytes.length ++ bytes)
  | .vector elem, data => ∃ bytes, elem.Raw bytes.length ∧
      data = DataType.vector.code :: (lenBytes bytes.length ++ bytes)
  | .list elem, data => ∃ elems : List (List Byte), (∀ d ∈ elems, elem.Layout d) ∧
      data = DataType.list.code :: (lenBytes elems.length ++ elems.flatten)
  | .map _ key val, data => ∃ entries : List (List Byte × List Byte),
      (∀ d ∈ entries, key.Layout d.1 ∧ val.Layout d.2) ∧
      data = DataType.map.code :: (lenBytes entries.length ++ entries.flatMap fun d => d.1 ++ d.2)
  | .set _ elem, data => ∃ elems : List (List Byte), (∀ d ∈ elems, elem.Layout d) ∧
      data = DataType.set.code :: (lenBytes elems.length ++ elems.flatten)
  | .custom _ args, data => ∃ members, args.Layout members ∧ data = DataType.custom.code :: members

def Args.Layout {α : Type} : Args α → List Byte → Prop
  | .nil, data => data = []
  | .cons _ _ head args, data => ∃ d e, head.Layout d ∧ args.Layout e ∧ data = d ++ e

end

mutual

/-- `data` is an encoding of `value`, read into the object `old`: the format, with what its bytes
stand for.  Any byte but 0 is a true, the elements of a container are read into new objects, and
what a map or a set holds is put into it in the order that is stored. -/
def STy.Encodes (host : ByteOrder) {α : Type} : STy α → (old : α) → List Byte → (value : α) → Prop
  | .bool, _, data, value => ∃ b, data = [DataType.bool.code, b] ∧ value = (b != 0)
  | .char, _, data, value => data = [DataType.char.code, value]
  | .scalar σ, _, data, value => data = σ.type.code :: littleEndian σ.size value.toNat
  | .enum _ size, old, data, value => 4 ≤ size ∧ ∃ word : BitVec 32,
      data = DataType.int32.code :: littleEndian 4 word.toNat ∧
        value = overlay host old (image host (k := 4) word)
  | .string, _, data, value => data = DataType.string.code :: (lenBytes value.length ++ value)
  | .vector elem, _, data, value => ∃ bytes, elem.load host bytes.length bytes = .ok value ∧
      data = DataType.vector.code :: (lenBytes bytes.length ++ bytes)
  | .list elem, _, data, value => ∃ elems : List (List Byte),
      elems.Forall₂ (fun d v => ∃ junk, elem.Encodes host (elem.init junk) d v) value ∧
        data = DataType.list.code :: (lenBytes elems.length ++ elems.flatten)
  | .map cmp key val, _, data, value => ∃ (entries : List (List Byte × List Byte)) (vs : List _),
      entries.Forall₂ (fun d v => (∃ junk, key.Encodes host (key.init junk) d.1 v.1) ∧
          ∃ junk, val.Encodes host (val.init junk) d.2 v.2) vs ∧
        value = vs.foldl OrdMap.assign (OrdMap.empty cmp _) ∧
          data = DataType.map.code :: (lenBytes entries.length ++ entries.flatMap fun d => d.1 ++ d.2)
  | .set cmp elem, _, data, value => ∃ (elems : List (List Byte)) (vs : List _),
      elems.Forall₂ (fun d v => ∃ junk, elem.Encodes host (elem.init junk) d v) vs ∧
        value = vs.foldl OrdSet.insert (OrdSet.empty cmp) ∧
          data = DataType.set.code :: (lenBytes elems.length ++ elems.flatten)
  | .custom _ args, old, data, value => ∃ members, args.Encodes host old members value ∧
      data = DataType.custom.code :: members

def Args.Encodes (host : ByteOrder) {α : Type} : Args α → (old : α) → List Byte → (value : α) → Prop
  | .nil, old, data, value => data = [] ∧ value = old
  | .cons member assign head args, old, data, value => ∃ d e v,
      head.Encodes host (member old) d v ∧ args.Encodes host (assign v old) e value ∧ data = d ++ e

end

/-- The tag that a read expects first. -/
def STy.tag {α : Type} : STy α → DataType
  | .bool => .bool
  | .char => .char
  | .scalar σ => σ.type
  | .enum _ _ => .int32
  | .string => .string
  | .vector _ => .vector
  | .list _ => .list
  | .map _ _ _ => .map
  | .set _ _ => .set
  | .custom _ _ => .custom

/-- The buffer holds a value of the type at the read position. -/
def STy.WellFormed {α : Type} (type : STy α) (s : DataStream host) : Prop :=
  ∃ data, s.Ahead data ∧ type.Layout data

/-- A string whose length is below zero. -/
def NegativeString (s : DataStream host) : Prop :=
  ∃ len : BitVec 32, len.toInt < 0 ∧
    s.Ahead (DataType.string.code :: DataType.int32.code :: littleEndian 4 len.toNat)

/-- What a read of the type turns down: another tag at the read position, or a string
whose length is below zero. -/
def STy.Refuses {α : Type} : STy α → DataStream host → Prop
  | .string, s => (∃ b, s.Ahead [b] ∧ b ≠ DataType.string.code) ∨ NegativeString s
  | type, s => ∃ b, s.Ahead [b] ∧ b ≠ type.tag.code

/-- A read that returns, having looked at nothing outside of the buffer: true if there
is a value to be read, and false if not. -/
def Reports {α : Type} (result : Outcome (Bool × α × DataStream host)) (there : Prop) : Prop :=
  ∃ found value t, result = .ok (found, value, t) ∧ (found = true ↔ there)

/-! ## What is well formed is read -/

/-- On a stream with `data` ahead, `read` returns true with a value that the data stands for, and
takes the data. -/
def Takes {α : Type} (read : Reader host α) (data : List Byte) (encodes : α → α → Prop) : Prop :=
  ∀ old s, s.Ahead data → ∃ v, encodes old v ∧ read old s = .ok (true, v, s.advance data.length)

theorem exists_littleEndian {k : Nat} {word : List Byte} (hword : word.length = k) :
    ∃ v : BitVec (8 * k), word = littleEndian k v.toNat :=
  ⟨ofImage k .littleEndian word, (image_ofImage .littleEndian hword).symm⟩

theorem takes_readEnum {size : Nat} (hsize : 4 ≤ size) (word : BitVec 32) :
    Takes (readEnum size : Reader host (BitVec (8 * size)))
      (DataType.int32.code :: littleEndian 4 word.toNat)
      fun old v => v = overlay host old (image host (k := 4) word) := by
  intro old s h
  refine ⟨_, rfl, ?_⟩
  rw [readEnum, readInt32_reads word 0 s h, ok_bind]
  dsimp only
  rw [if_neg (by decide), if_neg (by omega)]

theorem Elem.load_ok {α : Type} {elem : Elem α} {data : List Byte} (h : elem.Raw data.length) :
    ∃ value, elem.load host data.length data = .ok value := by
  cases elem with
  | word size pos => exact ⟨_, rfl⟩
  | object size pos store hstore =>
      have hlen : data.length = 0 := h
      rw [Elem.load, if_pos hlen]
      exact ⟨_, rfl⟩

theorem takes_readVector {α : Type} (elem : Elem α) (junk : Stack) {bytes : List Byte}
    {v : List α} (hv : elem.load host bytes.length bytes = .ok v) :
    Takes (readVector elem junk : Reader host (List α))
      (DataType.vector.code :: (lenBytes bytes.length ++ bytes)) fun _ value => value = v := by
  intro old s h
  have hlen : bytes.length ≤ maxInt := h.tail.right.length_le
  refine ⟨v, rfl, ?_⟩
  rw [readVector, readTagged_ahead h, readLen_ahead hlen _ h.tail.left, ok_bind]
  dsimp only
  rw [h.tail.right.read, ok_bind]
  dsimp only
  rw [Int.toNat_natCast, hv, ok_bind]
  simp only [advance_advance, List.length_cons, List.length_append]
  rw [Nat.add_comm 1, Nat.add_right_comm]

/-- One element after another. -/
theorem readEach_takes {α β δ : Type} {elem : DataStream host → Outcome (α × DataStream host)}
    (put : β → α → β) {bytes : δ → List Byte} {encodes : δ → α → Prop} (elems : List δ)
    (helem : ∀ d ∈ elems, ∀ s, s.Ahead (bytes d) →
      ∃ v, encodes d v ∧ elem s = .ok (v, s.advance (bytes d).length)) (acc : β)
    {s : DataStream host} (h : s.Ahead (elems.flatMap bytes)) :
    ∃ vs, elems.Forall₂ encodes vs ∧ readEach elem put elems.length acc s =
      .ok (vs.foldl put acc, s.advance (elems.flatMap bytes).length) := by
  induction elems generalizing acc s with
  | nil => exact ⟨[], List.Forall₂.nil, rfl⟩
  | cons d elems ih =>
      rw [List.forall_mem_cons] at helem
      rw [List.flatMap_cons] at h
      obtain ⟨v, hencodes, hv⟩ := helem.1 s h.left
      obtain ⟨vs, hvs, hvalue⟩ := ih helem.2 (put acc v) h.right
      refine ⟨v :: vs, List.Forall₂.cons hencodes hvs, ?_⟩
      rw [List.length_cons, readEach, hv, ok_bind]
      dsimp only
      rw [hvalue, advance_advance, List.flatMap_cons, List.length_append, List.foldl_cons]

theorem length_le_flatMap_of_mem {δ : Type} {bytes : δ → List Byte} {elems : List δ}
    (hpos : ∀ d ∈ elems, 0 < (bytes d).length) : elems.length ≤ (elems.flatMap bytes).length := by
  induction elems with
  | nil => exact Nat.le_refl 0
  | cons d elems ih =>
      rw [List.forall_mem_cons] at hpos
      have hrest := ih hpos.2
      have hd := hpos.1
      rw [List.flatMap_cons, List.length_append, List.length_cons]
      omega

theorem takes_readContainer {α β δ : Type} (type : DataType) (empty : β)
    {elem : DataStream host → Outcome (α × DataStream host)} (put : β → α → β) (junk : Stack)
    (bytes : δ → List Byte) {encodes : δ → α → Prop} (elems : List δ)
    (hpos : ∀ d ∈ elems, 0 < (bytes d).length)
    (helem : ∀ d ∈ elems, ∀ s, s.Ahead (bytes d) →
      ∃ v, encodes d v ∧ elem s = .ok (v, s.advance (bytes d).length)) :
    Takes (readContainer type empty elem put junk)
      (type.code :: (lenBytes elems.length ++ elems.flatMap bytes))
      fun _ value => ∃ vs, elems.Forall₂ encodes vs ∧ value = vs.foldl put empty := by
  intro old s h
  have hlen : elems.length ≤ maxInt :=
    Nat.le_trans (length_le_flatMap_of_mem hpos) h.tail.right.length_le
  obtain ⟨vs, hvs, hvalue⟩ := readEach_takes put elems helem empty h.tail.right
  refine ⟨_, ⟨vs, hvs, rfl⟩, ?_⟩
  rw [readContainer, readTagged_ahead h, readLen_ahead hlen _ h.tail.left, ok_bind]
  dsimp only
  rw [Int.toNat_natCast, hvalue, ok_bind]
  simp only [advance_advance, List.length_cons, List.length_append]
  rw [Nat.add_comm 1, Nat.add_right_comm]

theorem readLocal_takes {α : Type} {init : Junk → α} {read : Reader host α} (junk : Stack)
    {data : List Byte} {encodes : α → α → Prop} (h : Takes read data encodes) (s : DataStream host)
    (hs : s.Ahead data) : ∃ v, (∃ junk, encodes (init junk) v) ∧
      readLocal init read junk s = .ok (v, s.advance data.length) := by
  obtain ⟨v, hencodes, hv⟩ := h (init (junk s.mPos)) s hs
  refine ⟨v, ⟨_, hencodes⟩, ?_⟩
  rw [readLocal, hv]
  rfl

theorem readPair_takes {α β : Type} {fst : DataStream host → Outcome (α × DataStream host)}
    {snd : DataStream host → Outcome (β × DataStream host)} {d e : List Byte} {P : α → Prop}
    {Q : β → Prop} (hfst : ∀ s, s.Ahead d → ∃ a, P a ∧ fst s = .ok (a, s.advance d.length))
    (hsnd : ∀ s, s.Ahead e → ∃ b, Q b ∧ snd s = .ok (b, s.advance e.length))
    (s : DataStream host) (h : s.Ahead (d ++ e)) :
    ∃ v, (P v.1 ∧ Q v.2) ∧ readPair fst snd s = .ok (v, s.advance (d ++ e).length) := by
  obtain ⟨a, hP, ha⟩ := hfst s h.left
  obtain ⟨b, hQ, hb⟩ := hsnd _ h.right
  refine ⟨(a, b), ⟨hP, hQ⟩, ?_⟩
  rw [readPair, ha, ok_bind]
  dsimp only
  rw [hb, ok_bind, advance_advance, List.length_append]

/-- A value starts with the tag of its type. -/
theorem STy.Layout.exists_cons {α : Type} {type : STy α} {data : List Byte}
    (h : type.Layout data) : ∃ rest, data = type.tag.code :: rest := by
  cases type with
  | bool =>
      obtain ⟨b, hdata⟩ := h
      exact ⟨_, hdata⟩
  | char =>
      obtain ⟨b, hdata⟩ := h
      exact ⟨_, hdata⟩
  | scalar σ =>
      obtain ⟨word, -, hdata⟩ := h
      exact ⟨_, hdata⟩
  | enum signed size =>
      obtain ⟨-, word, -, hdata⟩ := h
      exact ⟨_, hdata⟩
  | string =>
      obtain ⟨bytes, hdata⟩ := h
      exact ⟨_, hdata⟩
  | vector elem =>
      obtain ⟨bytes, -, hdata⟩ := h
      exact ⟨_, hdata⟩
  | list elem =>
      obtain ⟨elems, -, hdata⟩ := h
      exact ⟨_, hdata⟩
  | map cmp key val =>
      obtain ⟨entries, -, hdata⟩ := h
      exact ⟨_, hdata⟩
  | set cmp elem =>
      obtain ⟨elems, -, hdata⟩ := h
      exact ⟨_, hdata⟩
  | custom init args =>
      obtain ⟨members, -, hdata⟩ := h
      exact ⟨_, hdata⟩

theorem STy.Layout.length_pos {α : Type} {type : STy α} {data : List Byte}
    (h : type.Layout data) : 0 < data.length := by
  obtain ⟨rest, rfl⟩ := h.exists_cons
  exact Nat.succ_pos _

mutual

/-- A value of the type is read, whatever else there is. -/
theorem STy.takes {α : Type} (junk : Stack) : (type : STy α) → (data : List Byte) →
    type.Layout data → Takes (type.read host junk) data fun old v => type.Encodes host old data v
  | .bool, data, h => by
      obtain ⟨b, rfl⟩ := h
      intro old s hs
      refine ⟨b != 0, ⟨b, rfl, rfl⟩, ?_⟩
      rw [STy.read, readBool, readTagged_ahead hs, hs.tail.get]
      rfl
  | .char, data, h => by
      obtain ⟨b, rfl⟩ := h
      exact fun old s hs => ⟨b, rfl, readChar_reads b old s hs⟩
  | .scalar σ, data, h => by
      obtain ⟨word, hword, rfl⟩ := h
      obtain ⟨v, rfl⟩ := exists_littleEndian hword
      exact fun old s hs => ⟨v, rfl, readScalar_reads σ v old s hs⟩
  | .enum signed size, data, h => by
      obtain ⟨hsize, word, hword, rfl⟩ := h
      obtain ⟨w, rfl⟩ := exists_littleEndian hword
      intro old s hs
      obtain ⟨v, hv, hread⟩ := takes_readEnum hsize w old s hs
      exact ⟨v, ⟨hsize, w, rfl, hv⟩, hread⟩
  | .string, data, h => by
      obtain ⟨bytes, rfl⟩ := h
      exact fun old s hs => ⟨bytes, rfl, readString_reads bytes old _ s hs⟩
  | .vector elem, data, h => by
      obtain ⟨bytes, hraw, rfl⟩ := h
      obtain ⟨v, hv⟩ : ∃ v, elem.load host bytes.length bytes = .ok v := Elem.load_ok hraw
      intro old s hs
      obtain ⟨value, rfl, hread⟩ := takes_readVector elem junk hv old s hs
      exact ⟨value, ⟨bytes, hv, rfl⟩, hread⟩
  | .list elem, data, h => by
      obtain ⟨elems, helems, rfl⟩ := h
      intro old s hs
      obtain ⟨value, ⟨vs, hvs, hvalue⟩, hread⟩ := takes_readContainer .list []
        (fun value v => value ++ [v]) junk id elems (fun d hd => (helems d hd).length_pos)
        (fun d hd => readLocal_takes junk (elem.takes junk d (helems d hd))) old s
        (by rwa [List.flatMap_id])
      rw [foldl_append_singleton, List.nil_append] at hvalue
      rw [List.flatMap_id] at hread
      exact ⟨value, ⟨elems, hvalue ▸ hvs, rfl⟩, hread⟩
  | .map cmp key val, data, h => by
      obtain ⟨entries, hentries, rfl⟩ := h
      intro old s hs
      have hpos : ∀ d ∈ entries, 0 < (d.1 ++ d.2).length := by
        intro d hd
        rw [List.length_append]
        exact Nat.add_pos_left (hentries d hd).1.length_pos _
      obtain ⟨value, ⟨vs, hvs, hvalue⟩, hread⟩ := takes_readContainer .map (OrdMap.empty cmp _)
        OrdMap.assign junk (fun d => d.1 ++ d.2) entries hpos (fun d hd => readPair_takes
          (readLocal_takes junk (key.takes junk _ (hentries d hd).1))
          (readLocal_takes junk (val.takes junk _ (hentries d hd).2))) old s hs
      exact ⟨value, ⟨entries, vs, hvs, hvalue, rfl⟩, hread⟩
  | .set cmp elem, data, h => by
      obtain ⟨elems, helems, rfl⟩ := h
      intro old s hs
      obtain ⟨value, ⟨vs, hvs, hvalue⟩, hread⟩ := takes_readContainer .set (OrdSet.empty cmp)
        OrdSet.insert junk id elems (fun d hd => (helems d hd).length_pos)
        (fun d hd => readLocal_takes junk (elem.takes junk d (helems d hd))) old s
        (by rwa [List.flatMap_id])
      rw [List.flatMap_id] at hread
      exact ⟨value, ⟨elems, vs, hvs, hvalue, rfl⟩, hread⟩
  | .custom init args, data, h => by
      obtain ⟨members, hmembers, rfl⟩ := h
      intro old s hs
      have hhead : s.Ahead [DataType.custom.code] := hs.left
      have htag : s.read 1 = .ok ([DataType.custom.code], s.advance 1) := hhead.read
      obtain ⟨v, hencodes, hv⟩ := args.takes junk members hmembers old _ hs.tail
      refine ⟨v, ⟨members, hencodes, rfl⟩, ?_⟩
      rw [STy.read]
      dsimp only
      rw [htag, ok_bind]
      dsimp only
      rw [if_neg (by simp), hv, ok_bind]
      dsimp only
      rw [advance_advance, List.length_cons, Nat.add_comm]

theorem Args.takes {α : Type} (junk : Stack) : (args : Args α) → (data : List Byte) →
    args.Layout data → Takes (args.read host junk) data fun old v => args.Encodes host old data v
  | .nil, data, h => by
      obtain rfl : data = [] := h
      exact fun old s _ => ⟨old, ⟨rfl, rfl⟩, rfl⟩
  | .cons member assign head args, data, h => by
      obtain ⟨d, e, hd, he, rfl⟩ := h
      intro old s hs
      obtain ⟨v, hhead, hv⟩ := head.takes junk d hd (member old) s hs.left
      obtain ⟨w, hargs, hw⟩ := args.takes junk e he (assign v old) _ hs.right
      refine ⟨w, ⟨d, e, v, hhead, hargs, rfl⟩, ?_⟩
      rw [Args.read]
      dsimp only
      rw [hv, ok_bind]
      dsimp only
      rw [hw, advance_advance, List.length_append]

end

/-! ## What is refused -/

/-- Where the first byte is not the tag, nothing more is read. -/
theorem readTagged_refused {α : Type} {type : DataType} {body : Reader host α} {value : α}
    {s : DataStream host} {b : Byte} (h : s.Ahead [b]) (hb : b ≠ type.code) :
    readTagged type body value s = .ok (false, value, s) := by
  rw [readTagged, h.get, ok_bind, if_pos hb]

namespace DataStream

theorem ahead_of_get {s : DataStream host} {b : Byte} (h : s.get s.mPos = .ok b) : s.Ahead [b] := by
  rw [get] at h
  split at h
  case isTrue hlt =>
    cases h
    refine ⟨s.mBuf.take s.mPos, s.mBuf.drop (s.mPos + 1), ?_, ?_⟩
    · rw [List.append_assoc, List.singleton_append, ← List.drop_eq_getElem_cons hlt,
        List.take_append_drop]
    · rw [List.length_take, Nat.min_eq_left (Nat.le_of_lt hlt)]
  case isFalse => cases h

theorem ahead_of_bytesAt {s : DataStream host} {len : Nat} {data : List Byte}
    (h : s.bytesAt s.mPos len = .ok data) : s.Ahead data ∧ data.length = len := by
  rw [bytesAt] at h
  split at h
  case isTrue hle =>
    cases h
    refine ⟨⟨s.mBuf.take s.mPos, (s.mBuf.drop s.mPos).drop len, ?_, ?_⟩, ?_⟩
    · rw [List.append_assoc, List.take_append_drop, List.take_append_drop]
    · rw [List.length_take, Nat.min_eq_left (by omega)]
    · rw [List.length_take, List.length_drop, Nat.min_eq_left (by omega)]
  case isFalse => cases h

theorem Ahead.append {s : DataStream host} {d e : List Byte} (hd : s.Ahead d)
    (he : (s.advance d.length).Ahead e) : s.Ahead (d ++ e) := by
  obtain ⟨before, after, hbuf, hpos⟩ := hd
  obtain ⟨before', after', hbuf', hpos'⟩ := he
  rw [advance_mBuf] at hbuf'
  rw [advance_mPos, hpos] at hpos'
  have hsplit : before ++ d = before' ∧ after = e ++ after' := by
    refine List.append_inj ?_ ?_
    · rw [← hbuf, hbuf', List.append_assoc]
    · rw [List.length_append, hpos']
  refine ⟨before, after', ?_, hpos⟩
  rw [hbuf', ← hsplit.1]
  simp only [List.append_assoc]

end DataStream

/-- How a tagged read comes to return false. -/
theorem of_readTagged_false {α : Type} {type : DataType} {body : Reader host α} {value v : α}
    {s t : DataStream host} (h : readTagged type body value s = .ok (false, v, t)) :
    (∃ b, s.Ahead [b] ∧ b ≠ type.code) ∨
      s.Ahead [type.code] ∧ body value (s.advance 1) = .ok (false, v, t) := by
  rw [readTagged] at h
  obtain ⟨b, hb, h⟩ := of_bind_ok h
  have hahead := ahead_of_get hb
  by_cases htag : b = type.code
  · rw [if_neg (by simp [htag])] at h
    exact Or.inr ⟨htag ▸ hahead, h⟩
  · exact Or.inl ⟨b, hahead, htag⟩

theorem ahead_of_readInt32 {junk w : BitVec 32} {s t : DataStream host}
    (h : readInt32 junk s = .ok (true, w, t)) :
    s.Ahead (DataType.int32.code :: littleEndian 4 w.toNat) := by
  have h : readTagged DataType.int32 (fun _ s => do
      let data ← s.bytesAt s.mPos 4
      .ok (true, ordered s (ofImage 4 host data), s.advance 4)) junk s = .ok (true, w, t) := h
  rw [readTagged] at h
  obtain ⟨b, hb, h⟩ := of_bind_ok h
  split at h
  · cases h
  case isFalse htag =>
    obtain ⟨data, hdata, h⟩ := of_bind_ok h
    cases h
    obtain ⟨hahead, hlen⟩ := ahead_of_bytesAt hdata
    obtain ⟨v, rfl⟩ := exists_littleEndian hlen
    have hb : s.Ahead [b] := ahead_of_get hb
    obtain rfl : b = DataType.int32.code := not_not.mp htag
    rw [ordered_ofImage]
    exact hb.append hahead

/-- A word that is not there leaves the variable as it was. -/
theorem eq_of_readInt32_false {junk w : BitVec 32} {s t : DataStream host}
    (h : readInt32 junk s = .ok (false, w, t)) : w = junk := by
  have h : readTagged DataType.int32 (fun _ s => do
      let data ← s.bytesAt s.mPos 4
      .ok (true, ordered s (ofImage 4 host data), s.advance 4)) junk s = .ok (false, w, t) := h
  rw [readTagged] at h
  obtain ⟨b, -, h⟩ := of_bind_ok h
  split at h
  · cases h
    rfl
  · obtain ⟨data, -, h⟩ := of_bind_ok h
    cases h

/-- A string length that is below zero is one that the buffer holds. -/
theorem negative_of_false {value v : List Byte} {s t : DataStream host}
    (hs : s.Ahead [DataType.string.code]) (h : (do
      let (len, s) ← readLen 0 (s.advance 1)
      if len < 0 then .ok (false, value, s)
      else do
        let (data, s) ← s.read len
        .ok (true, data, s) : Outcome (Bool × List Byte × DataStream host)) = .ok (false, v, t)) :
    NegativeString s := by
  obtain ⟨⟨len, u⟩, hlen, h⟩ := of_bind_ok h
  dsimp only at h
  split at h
  case isTrue hneg =>
    rw [readLen] at hlen
    obtain ⟨⟨found, w, u'⟩, hread, hlen⟩ := of_bind_ok hlen
    cases hlen
    cases found with
    | true => exact ⟨w, hneg, hs.append (ahead_of_readInt32 hread)⟩
    | false =>
        obtain rfl := eq_of_readInt32_false hread
        exact absurd hneg (by decide)
  case isFalse =>
    obtain ⟨⟨data, u'⟩, -, h⟩ := of_bind_ok h
    cases h

/-- A tagged read whose body returns true refuses another tag only. -/
theorem other_tag_of_false {α : Type} {type : DataType} {body : Reader host α} {value v : α}
    {s t : DataStream host} (hbody : ∀ w u v t, body w u ≠ .ok (false, v, t))
    (h : readTagged type body value s = .ok (false, v, t)) :
    ∃ b, s.Ahead [b] ∧ b ≠ type.code := by
  rcases of_readTagged_false h with hb | ⟨-, hfalse⟩
  · exact hb
  · exact absurd hfalse (hbody _ _ _ _)

theorem readBool_false {value v : Bool} {s t : DataStream host}
    (h : readBool value s = .ok (false, v, t)) : ∃ b, s.Ahead [b] ∧ b ≠ DataType.bool.code := by
  refine other_tag_of_false (fun w u v t hfalse => ?_) h
  obtain ⟨c, -, hfalse⟩ := of_bind_ok hfalse
  cases hfalse

theorem readChar_false {value v : Byte} {s t : DataStream host}
    (h : readChar value s = .ok (false, v, t)) : ∃ b, s.Ahead [b] ∧ b ≠ DataType.char.code := by
  refine other_tag_of_false (fun w u v t hfalse => ?_) h
  obtain ⟨c, -, hfalse⟩ := of_bind_ok hfalse
  cases hfalse

theorem readScalar_false {σ : Scalar} {value v : σ.Word} {s t : DataStream host}
    (h : readScalar σ value s = .ok (false, v, t)) : ∃ b, s.Ahead [b] ∧ b ≠ σ.type.code := by
  refine other_tag_of_false (fun w u v t hfalse => ?_) h
  obtain ⟨data, -, hfalse⟩ := of_bind_ok hfalse
  cases hfalse

theorem readEnum_false {size : Nat} {value v : BitVec (8 * size)} {s t : DataStream host}
    (h : readEnum size value s = .ok (false, v, t)) :
    ∃ b, s.Ahead [b] ∧ b ≠ DataType.int32.code := by
  obtain ⟨⟨found, word, u⟩, hread, h⟩ := of_bind_ok h
  cases found with
  | false => exact readScalar_false (σ := .int32) hread
  | true =>
      dsimp only at h
      rw [if_neg (by decide)] at h
      split at h
      · cases h
      · cases h

theorem readString_false {value v : List Byte} {s t : DataStream host}
    (h : readString 0 value s = .ok (false, v, t)) :
    (∃ b, s.Ahead [b] ∧ b ≠ DataType.string.code) ∨ NegativeString s := by
  rcases of_readTagged_false h with hb | ⟨htag, hfalse⟩
  · exact Or.inl hb
  · exact Or.inr (negative_of_false htag hfalse)

theorem readVector_false {α : Type} {elem : Elem α} {junk : Stack} {value v : List α}
    {s t : DataStream host} (h : readVector elem junk value s = .ok (false, v, t)) :
    ∃ b, s.Ahead [b] ∧ b ≠ DataType.vector.code := by
  refine other_tag_of_false (fun w u v t hfalse => ?_) h
  obtain ⟨⟨len, u'⟩, -, hfalse⟩ := of_bind_ok hfalse
  obtain ⟨⟨data, u''⟩, -, hfalse⟩ := of_bind_ok hfalse
  obtain ⟨w', -, hfalse⟩ := of_bind_ok hfalse
  cases hfalse

theorem readContainer_false {α β : Type} {type : DataType} {empty : β}
    {elem : DataStream host → Outcome (α × DataStream host)} {put : β → α → β} {junk : Stack}
    {value v : β} {s t : DataStream host}
    (h : readContainer type empty elem put junk value s = .ok (false, v, t)) :
    ∃ b, s.Ahead [b] ∧ b ≠ type.code := by
  refine other_tag_of_false (fun w u v t hfalse => ?_) h
  obtain ⟨⟨len, u'⟩, -, hfalse⟩ := of_bind_ok hfalse
  obtain ⟨⟨w', u''⟩, -, hfalse⟩ := of_bind_ok hfalse
  cases hfalse

/-- The tag of a structure is read without a look at the position first. -/
theorem read_one {s u : DataStream host} {data : List Byte} (h : s.read 1 = .ok (data, u)) :
    ∃ b, s.Ahead [b] ∧ data = [b] := by
  rw [DataStream.read, if_neg (by decide)] at h
  obtain ⟨bytes, hbytes, h⟩ := of_bind_ok h
  cases h
  obtain ⟨hahead, hlen⟩ := ahead_of_bytesAt hbytes
  obtain ⟨b, rfl⟩ := List.length_eq_one_iff.mp hlen
  exact ⟨b, hahead, rfl⟩

/-- What a read returns false for. -/
theorem STy.refuses_of_false {α : Type} {type : STy α} {value v : α} {s t : DataStream host}
    (h : type.read host (fun _ _ _ => 0) value s = .ok (false, v, t)) : type.Refuses s := by
  cases type with
  | bool => exact readBool_false h
  | char => exact readChar_false h
  | scalar σ => exact readScalar_false h
  | enum signed size => exact readEnum_false h
  | string => exact readString_false h
  | vector elem => exact readVector_false h
  | list elem => exact readContainer_false h
  | map cmp key val => exact readContainer_false h
  | set cmp elem => exact readContainer_false h
  | custom init args =>
      obtain ⟨⟨data, u⟩, hdata, h⟩ := of_bind_ok h
      obtain ⟨b, hb, rfl⟩ := read_one hdata
      refine ⟨b, hb, fun htag => ?_⟩
      dsimp only at h
      rw [if_neg (by simp [htag, STy.tag])] at h
      obtain ⟨⟨found, w, u'⟩, -, h⟩ := of_bind_ok h
      cases h

theorem readString_negative {s : DataStream host} (h : NegativeString s) (junk : BitVec 32)
    (value : List Byte) : ∃ v t, readString junk value s = .ok (false, v, t) := by
  obtain ⟨len, hneg, hahead⟩ := h
  have hlen : readLen junk (s.advance 1) = .ok (len.toInt, (s.advance 1).advance 5) := by
    rw [readLen, readInt32_reads len junk _ hahead.tail]
    rfl
  refine ⟨value, (s.advance 1).advance 5, ?_⟩
  rw [readString, readTagged_ahead hahead, hlen, ok_bind]
  dsimp only
  rw [if_pos hneg]

theorem readEnum_refused {size : Nat} {value : BitVec (8 * size)} {s : DataStream host} {b : Byte}
    (hb : s.Ahead [b]) (htag : b ≠ DataType.int32.code) :
    readEnum size value s = .ok (false, value, s) := by
  have hread : readInt32 0 s = .ok (false, 0, s) := by
    rw [readInt32]
    exact readTagged_refused hb htag
  rw [readEnum, hread]
  rfl

/-- The first byte is another tag, and the read leaves it there. -/
def STy.TurnsDown {α : Type} : STy α → DataStream host → Prop
  | .custom _ _, _ => False
  | type, s => ∃ b, s.Ahead [b] ∧ b ≠ type.tag.code

theorem STy.read_turnedDown {α : Type} {type : STy α} {s : DataStream host} (h : type.TurnsDown s)
    (junk : Stack) (value : α) : ∃ v, type.read host junk value s = .ok (false, v, s) := by
  cases type with
  | bool =>
      obtain ⟨b, hb, htag⟩ := h
      rw [STy.read, readBool]
      exact ⟨_, readTagged_refused hb htag⟩
  | char =>
      obtain ⟨b, hb, htag⟩ := h
      rw [STy.read, readChar]
      exact ⟨_, readTagged_refused hb htag⟩
  | scalar σ =>
      obtain ⟨b, hb, htag⟩ := h
      rw [STy.read, readScalar]
      exact ⟨_, readTagged_refused hb htag⟩
  | enum signed size =>
      obtain ⟨b, hb, htag⟩ := h
      exact ⟨value, readEnum_refused hb htag⟩
  | string =>
      obtain ⟨b, hb, htag⟩ := h
      rw [STy.read]
      dsimp only
      rw [readString]
      exact ⟨_, readTagged_refused hb htag⟩
  | vector elem =>
      obtain ⟨b, hb, htag⟩ := h
      rw [STy.read, readVector]
      exact ⟨_, readTagged_refused hb htag⟩
  | list elem =>
      obtain ⟨b, hb, htag⟩ := h
      rw [STy.read, readContainer]
      exact ⟨_, readTagged_refused hb htag⟩
  | map cmp key val =>
      obtain ⟨b, hb, htag⟩ := h
      rw [STy.read, readContainer]
      exact ⟨_, readTagged_refused hb htag⟩
  | set cmp elem =>
      obtain ⟨b, hb, htag⟩ := h
      rw [STy.read, readContainer]
      exact ⟨_, readTagged_refused hb htag⟩
  | custom init args => exact absurd h id

/-- What a read refuses it returns false for. -/
theorem STy.read_refused {α : Type} {type : STy α} {s : DataStream host} (h : type.Refuses s)
    (junk : Stack) (value : α) :
    ∃ v t, type.read host junk value s = .ok (false, v, t) := by
  have hdown : type.TurnsDown s → ∃ v t, type.read host junk value s = .ok (false, v, t) := by
    intro hdown
    obtain ⟨v, hv⟩ := type.read_turnedDown hdown junk value
    exact ⟨v, s, hv⟩
  cases type with
  | string =>
      rcases h with hother | hneg
      · exact hdown hother
      · exact readString_negative hneg _ value
  | custom init args =>
      obtain ⟨b, hb, htag⟩ := h
      refine ⟨value, s.advance 1, ?_⟩
      have hread : s.read 1 = .ok ([b], s.advance 1) := hb.read
      have hother : [b] ≠ [DataType.custom.code] := fun heq => htag (List.cons.inj heq).1
      rw [STy.read]
      dsimp only
      rw [hread, ok_bind]
      dsimp only
      rw [if_pos hother]
  | _ => exact hdown h

/-! ## The whole read -/

/-- Whatever the storage holds, a read stays inside the buffer and tells whether there
is a value, if and only if there is one, or the read refuses what comes first: a tag
that matches is followed without a look at the end of the buffer, and what the reads
inside return is dropped. -/
theorem STy.reports_iff {α : Type} (type : STy α) (s : DataStream host) :
    (∀ junk value, Reports (type.read host junk value s) (type.WellFormed s)) ↔
      type.WellFormed s ∨ type.Refuses s := by
  have hread : type.WellFormed s → ∀ junk value,
      ∃ v t, type.read host junk value s = .ok (true, v, t) := by
    intro hwell junk value
    obtain ⟨data, hahead, hlayout⟩ := hwell
    obtain ⟨v, -, hv⟩ := type.takes junk data hlayout value s hahead
    exact ⟨v, _, hv⟩
  constructor
  · intro h
    obtain ⟨found, v, t, hresult, hfound⟩ := h (fun _ _ _ => 0) (type.init fun _ _ => 0)
    cases found with
    | true => exact Or.inl (hfound.mp rfl)
    | false => exact Or.inr (type.refuses_of_false hresult)
  · intro h junk value
    rcases h with hwell | hrefuses
    · obtain ⟨v, t, hv⟩ := hread hwell junk value
      exact ⟨true, v, t, hv, iff_of_true rfl hwell⟩
    · obtain ⟨v, t, hv⟩ := type.read_refused hrefuses junk value
      refine ⟨false, v, t, hv, iff_of_false Bool.false_ne_true fun hwell => ?_⟩
      obtain ⟨v', t', hv'⟩ := hread hwell junk value
      cases hv.symm.trans hv'

/-- Six bytes that promise a string of 2147483647: the read looks behind the buffer. -/
theorem truncated_not_reports :
    ∃ s, ofString .littleEndian [9, 2, 255, 255, 255, 127] = .ok s ∧
      ¬∀ junk value, Reports (STy.string.read .littleEndian junk value s)
        (STy.string.WellFormed s) := by
  refine ⟨{ new .littleEndian with
    mBuf := [9, 2, 255, 255, 255, 127], mCap := 8, fits := by decide, capInt := by decide }, ?_, ?_⟩
  · rfl
  · intro h
    obtain ⟨found, v, t, hresult, -⟩ := h (fun _ _ _ => 0) []
    cases hresult

end Serialize
end Cmw
