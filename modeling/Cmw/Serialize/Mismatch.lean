import Cmw.Serialize.Malformed

/-!
# What a read makes of a mismatch

A read that finds another tag than that of its type gives it back: it returns false, and the read
position is where it was.  What is inside a container, a string or a structure is read without a
look at the answer, so a mismatch there is not reported, and a structure has taken the byte that it
turns down.
-/

namespace Cmw
namespace Serialize

open Library.ByteImage
open Library.Ordered
open DataStream

variable {host : ByteOrder}

/-! ## Encodings are laid out as their type is -/

theorem forall_of_forall₂ {α β : Type} {R : α → β → Prop} {P : α → Prop} {as : List α} {bs : List β}
    (h : as.Forall₂ R bs) (hR : ∀ a b, R a b → P a) : ∀ a ∈ as, P a :=
  ((List.forall₂_and_left as bs).mp (h.imp fun a b hab => ⟨hR a b hab, hab⟩)).1

theorem Elem.raw_of_load {α : Type} {elem : Elem α} {n : Nat} {data : List Byte} {value : List α}
    (h : elem.load host n data = .ok value) : elem.Raw n := by
  cases elem with
  | word size pos => trivial
  | object size pos store hstore =>
      rw [Elem.load] at h
      split at h
      case isTrue hn => exact hn
      case isFalse => cases h

mutual

theorem STy.layout_of_encodes {α : Type} : (type : STy α) → {old value : α} → {data : List Byte} →
    type.Encodes host old data value → type.Layout data
  | .bool, _, _, _, h => by
      obtain ⟨b, hdata, -⟩ := h
      exact ⟨b, hdata⟩
  | .char, _, value, _, h => ⟨value, h⟩
  | .scalar σ, _, value, _, h => ⟨littleEndian σ.size value.toNat, littleEndian_length _ _, h⟩
  | .enum _ _, _, _, _, h => by
      obtain ⟨hsize, word, hdata, -⟩ := h
      exact ⟨hsize, _, littleEndian_length _ _, hdata⟩
  | .string, _, value, _, h => ⟨value, h⟩
  | .vector elem, _, _, _, h => by
      obtain ⟨bytes, hload, hdata⟩ := h
      exact ⟨bytes, Elem.raw_of_load hload, hdata⟩
  | .list elem, _, _, _, h => by
      obtain ⟨elems, helems, hdata⟩ := h
      refine ⟨elems, forall_of_forall₂ helems fun d v hd => ?_, hdata⟩
      obtain ⟨junk, hd⟩ := hd
      exact elem.layout_of_encodes hd
  | .map cmp key val, _, _, _, h => by
      obtain ⟨entries, vs, hentries, -, hdata⟩ := h
      refine ⟨entries, forall_of_forall₂ hentries fun d v hd => ?_, hdata⟩
      obtain ⟨⟨junk, hkey⟩, junk', hval⟩ := hd
      exact ⟨key.layout_of_encodes hkey, val.layout_of_encodes hval⟩
  | .set cmp elem, _, _, _, h => by
      obtain ⟨elems, vs, helems, -, hdata⟩ := h
      refine ⟨elems, forall_of_forall₂ helems fun d v hd => ?_, hdata⟩
      obtain ⟨junk, hd⟩ := hd
      exact elem.layout_of_encodes hd
  | .custom init args, _, _, _, h => by
      obtain ⟨members, hmembers, hdata⟩ := h
      exact ⟨members, args.layout_of_encodes hmembers, hdata⟩

theorem Args.layout_of_encodes {α : Type} : (args : Args α) → {old value : α} →
    {data : List Byte} → args.Encodes host old data value → args.Layout data
  | .nil, _, _, _, h => h.1
  | .cons member assign head args, _, _, _, h => by
      obtain ⟨d, e, v, hd, he, hdata⟩ := h
      exact ⟨d, e, head.layout_of_encodes hd, args.layout_of_encodes he, hdata⟩

end

/-! ## What is written is an encoding -/

variable {r : ByteOrder}

theorem forall₂_image {α : Type} {bytes : α → List Byte} {R : List Byte → α → Prop} {vs : List α}
    (h : ∀ v ∈ vs, R (bytes v) v) : (vs.map bytes).Forall₂ R vs :=
  List.forall₂_map_left_iff.mpr (List.forall₂_same.mpr h)

theorem STy.Whole.encodes {α : Type} {type : STy α} (h : type.Whole) {value old : α}
    {data : List Byte} (hdata : type.Encodes r old data (type.restored value old)) :
    type.Encodes r old data value := by
  rwa [h value old] at hdata

mutual

/-- What one host writes of a value, another one may take as an encoding of it. -/
theorem STy.encodes_image {α : Type} : (type : STy α) → type.Readable → (value old : α) →
    type.Encodes r old (type.image host value) (type.restored value old)
  | .bool, _, value, _ => ⟨if value then 1 else 0, rfl, by cases value <;> rfl⟩
  | .char, _, _, _ => rfl
  | .scalar σ, _, value, _ => image_scalar σ value
  | .enum signed size, h, value, old => by
      obtain rfl : size = 4 := h
      exact ⟨Nat.le_refl 4, value, image_enum signed value, (overlay_four old value).symm⟩
  | .string, _, value, _ => image_string value
  | .vector _, h, _, _ => h.elim
  | .list elem, h, value, old => by
      have helem : ∀ v ∈ value, ∃ junk, elem.Encodes r (elem.init junk) (elem.image host v) v :=
        fun v _ => ⟨fun _ _ => 0, h.2.encodes (elem.encodes_image h.1 v _)⟩
      refine ⟨value.map (elem.image host), forall₂_image helem, ?_⟩
      rw [List.length_map, ← List.flatMap_def]
      exact flatten_containerChunks .list (elem.chunks host) value
  | .map cmp key val, h, value, old => by
      have hentry : ∀ v ∈ value.1,
          (∃ junk, key.Encodes r (key.init junk) (key.image host v.1) v.1) ∧
            ∃ junk, val.Encodes r (val.init junk) (val.image host v.2) v.2 := fun v _ =>
        ⟨⟨fun _ _ => 0, h.1.2.encodes (key.encodes_image h.1.1 v.1 _)⟩,
          fun _ _ => 0, h.2.2.encodes (val.encodes_image h.2.1 v.2 _)⟩
      refine ⟨value.1.map fun e => (key.image host e.1, val.image host e.2), value.1,
        List.forall₂_map_left_iff.mpr (List.forall₂_same.mpr hentry), value.foldl_assign.symm, ?_⟩
      rw [List.length_map, List.flatMap_map]
      exact image_map key val value
  | .set cmp elem, h, value, old => by
      have helem : ∀ v ∈ value.1, ∃ junk, elem.Encodes r (elem.init junk) (elem.image host v) v :=
        fun v _ => ⟨fun _ _ => 0, h.2.encodes (elem.encodes_image h.1 v _)⟩
      refine ⟨value.1.map (elem.image host), value.1, forall₂_image helem, value.foldl_insert.symm, ?_⟩
      rw [List.length_map, ← List.flatMap_def]
      exact flatten_containerChunks .set (elem.chunks host) value.1
  | .custom init args, h, value, old =>
      ⟨_, args.encodes_image h value old, image_custom init args value⟩

theorem Args.encodes_image {α : Type} : (args : Args α) → args.Readable → (value old : α) →
    args.Encodes r old (args.image host value) (args.restored value old)
  | .nil, _, _, _ => ⟨rfl, rfl⟩
  | .cons member assign head args, h, value, old =>
      ⟨_, _, _, head.encodes_image h.1 (member value) (member old), args.encodes_image h.2 value _,
        image_args_cons member assign head args value⟩

end

/-! ## Where a read that returns false leaves the position -/

theorem mPos_le_of_readLen {junk : BitVec 32} {len : Int} {s t : DataStream host}
    (h : readLen junk s = .ok (len, t)) : s.mPos ≤ t.mPos := by
  rw [readLen] at h
  obtain ⟨⟨found, w, u⟩, hread, h⟩ := of_bind_ok h
  cases h
  have hread : readTagged DataType.int32 (fun _ s => do
      let data ← s.bytesAt s.mPos 4
      .ok (true, ordered s (ofImage 4 host data), s.advance 4)) junk s = .ok (found, w, t) := hread
  rw [readTagged] at hread
  obtain ⟨b, -, hread⟩ := of_bind_ok hread
  split at hread
  · cases hread
    exact Nat.le_refl _
  · obtain ⟨data, -, hread⟩ := of_bind_ok hread
    cases hread
    show s.mPos ≤ s.mPos + 1 + 4
    omega

/-- A string whose tag is there has moved the position, also where its length is below zero. -/
theorem readString_false_pos {junk : BitVec 32} {value v : List Byte} {s t : DataStream host}
    (h : readString junk value s = .ok (false, v, t)) (hpos : t.mPos = s.mPos) :
    ∃ b, s.Ahead [b] ∧ b ≠ DataType.string.code := by
  rcases of_readTagged_false h with hb | ⟨-, hfalse⟩
  · exact hb
  · obtain ⟨⟨len, u⟩, hlen, hfalse⟩ := of_bind_ok hfalse
    have hle := mPos_le_of_readLen hlen
    dsimp only at hfalse
    split at hfalse
    case isTrue =>
      cases hfalse
      rw [advance_mPos] at hle
      omega
    case isFalse =>
      obtain ⟨⟨data, u'⟩, -, hfalse⟩ := of_bind_ok hfalse
      cases hfalse

theorem STy.turnsDown_of_false {α : Type} {type : STy α} {junk : Stack} {value v : α}
    {s t : DataStream host} (h : type.read host junk value s = .ok (false, v, t))
    (hpos : t.mPos = s.mPos) : type.TurnsDown s := by
  cases type with
  | bool => exact readBool_false h
  | char => exact readChar_false h
  | scalar σ => exact readScalar_false h
  | enum signed size => exact readEnum_false h
  | string => exact readString_false_pos h hpos
  | vector elem => exact readVector_false h
  | list elem => exact readContainer_false h
  | map cmp key val => exact readContainer_false h
  | set cmp elem => exact readContainer_false h
  | custom init args =>
      obtain ⟨⟨data, u⟩, hdata, h⟩ := of_bind_ok h
      rw [DataStream.read, if_neg (by decide)] at hdata
      obtain ⟨bytes, -, hdata⟩ := of_bind_ok hdata
      cases hdata
      dsimp only at h
      split at h
      case isTrue =>
        cases h
        rw [advance_mPos] at hpos
        exact absurd hpos (Nat.succ_ne_self _)
      case isFalse =>
        obtain ⟨⟨found, w, u'⟩, -, h⟩ := of_bind_ok h
        cases h

/-! ## What an answer says -/

/-- True: the bytes that the read has taken are an encoding of the value.  False: the read position
is where it was. -/
structure Truthful {α : Type} (type : STy α) (s : DataStream host) (old : α) (found : Bool)
    (value : α) (t : DataStream host) : Prop where
  taken : found = true → ∃ data, s.Ahead data ∧ t = s.advance data.length ∧
    type.Encodes host old data value
  left : found = false → t.mPos = s.mPos

/-- A read that returns tells the truth exactly where a value of the type is there, or another tag
in the place of one that is not a structure's. -/
theorem STy.truthful_iff {α : Type} {type : STy α} {junk : Stack} {old value : α} {found : Bool}
    {s t : DataStream host} (hread : type.read host junk old s = .ok (found, value, t)) :
    Truthful type s old found value t ↔ type.WellFormed s ∨ type.TurnsDown s := by
  constructor
  · intro h
    cases found with
    | true =>
        obtain ⟨data, hahead, -, hencodes⟩ := h.taken rfl
        exact .inl ⟨data, hahead, type.layout_of_encodes hencodes⟩
    | false => exact .inr (type.turnsDown_of_false hread (h.left rfl))
  · intro h
    rcases h with ⟨data, hahead, hlayout⟩ | hdown
    · obtain ⟨v, hencodes, hv⟩ := type.takes junk data hlayout old s hahead
      cases hread.symm.trans hv
      exact ⟨fun _ => ⟨data, hahead, rfl, hencodes⟩, fun hfalse => absurd hfalse (by decide)⟩
    · obtain ⟨v, hv⟩ := type.read_turnedDown hdown junk old
      cases hread.symm.trans hv
      exact ⟨fun htrue => absurd htrue (by decide), fun _ => rfl⟩

/-- A structure with a list of bools. -/
def flags : STy (List Bool) := .custom (fun _ => []) (.cons id (fun l _ => l) (.list .bool) .nil)

/-- It is read from the bytes of a list of a true and a false. -/
theorem truthful_iff_flags :
    ∃ s t, ofString .littleEndian [14, 11, 2, 2, 0, 0, 0, 0, 1, 0, 0] = .ok s ∧
      flags.read .littleEndian (fun _ _ _ => 0) [] s = .ok (true, [true, false], t) ∧
        (Truthful flags s [] true [true, false] t ↔ flags.WellFormed s ∨ flags.TurnsDown s) := by
  refine ⟨{ new .littleEndian with
    mBuf := [14, 11, 2, 2, 0, 0, 0, 0, 1, 0, 0], mCap := 16, fits := by decide,
    capInt := by decide }, _, rfl, rfl, ?_⟩
  have hread : ∀ s t value, flags.read .littleEndian (fun _ _ _ => 0) [] s = .ok (true, value, t) →
      (Truthful flags s [] true value t ↔ flags.WellFormed s ∨ flags.TurnsDown s) :=
    fun s t value h => STy.truthful_iff h
  exact hread _ _ _ rfl

/-- A structure with one member. -/
def boolOnly : STy Bool :=
  .custom (fun junk => junk 0 1 != 0) (.cons id (fun b _ => b) .bool .nil)

/-- Where the member is a char, the structure is read all the same and the char is left; where the
structure is another value, its tag is gone. -/
theorem not_truthful :
    (∃ s value t, ofString .littleEndian [14, 1, 65] = .ok s ∧
      boolOnly.read .littleEndian (fun _ _ _ => 0) false s = .ok (true, value, t) ∧
        ¬ Truthful boolOnly s false true value t) ∧
    ∃ s value t, ofString .littleEndian [1, 65] = .ok s ∧
      boolOnly.read .littleEndian (fun _ _ _ => 0) false s = .ok (false, value, t) ∧
        ¬ Truthful boolOnly s false false value t := by
  constructor
  · refine ⟨{ new .littleEndian with
      mBuf := [14, 1, 65], mCap := 4, fits := by decide, capInt := by decide }, _, _, rfl, rfl, ?_⟩
    intro h
    obtain ⟨data, -, ht, members, hmembers, rfl⟩ := h.taken rfl
    obtain ⟨d, e, v, ⟨b, rfl, -⟩, -, rfl⟩ := hmembers
    have hpos : 0 + 1 = 0 + (e.length + 2 + 1) := congrArg DataStream.mPos ht
    omega
  · refine ⟨{ new .littleEndian with
      mBuf := [1, 65], mCap := 2, fits := by decide, capInt := by decide }, _, _, rfl, rfl, ?_⟩
    intro h
    exact absurd (h.left rfl) (by decide)

end Serialize
end Cmw
