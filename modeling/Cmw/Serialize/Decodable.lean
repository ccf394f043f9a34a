import Cmw.Serialize.RoundTrip

/-!
# One way to cut a stream

A value is encoded with no length before it and nothing after it, so what tells where it ends is
the encoding itself: no encoding begins another, and bytes are the values of one list only.
The values may come from hosts of either byte order.
-/

namespace Cmw
namespace Serialize

open Library.ByteImage
open DataStream

variable {α : Type} {type : STy α} {w w' : ByteOrder}

/-- A stream that holds these bytes and nothing else. -/
def holding (host : ByteOrder) (data : List Byte) (h : data.length ≤ maxInt) : DataStream host :=
  { new host with
    mBuf := data
    mCap := data.length
    fits := Nat.le_refl _
    capInt := h }

/-- Where one encoding begins with another, the values are read back as the same one, and nothing
is left of the longer. -/
theorem image_prefix_free (hread : type.Readable) {value value' : α} {rest rest' : List Byte}
    (hlen : (type.image w value ++ rest).length ≤ maxInt)
    (h : type.image w value ++ rest = type.image w' value' ++ rest') :
    (∀ old, type.restored value old = type.restored value' old) ∧ rest = rest' := by
  let s := holding .littleEndian (type.image w value ++ rest) hlen
  have hfirst : s.Ahead (type.image w value) := ⟨[], rest, rfl, rfl⟩
  have hsecond : s.Ahead (type.image w' value') := ⟨[], rest', h, rfl⟩
  have hboth : ∀ old,
      (true, type.restored value old, s.advance (type.image w value).length) =
        (true, type.restored value' old, s.advance (type.image w' value').length) := fun old => by
    have hreads : Reads (type.read .littleEndian fun _ _ _ => 0) old (type.image w value)
        (type.restored value old) := type.read_reads hread value old
    have hreads' : Reads (type.read .littleEndian fun _ _ _ => 0) old (type.image w' value')
        (type.restored value' old) := type.read_reads hread value' old
    exact Except.ok.inj ((hreads s hfirst).symm.trans (hreads' s hsecond))
  have hpos : (type.image w value).length = (type.image w' value').length := by
    have hstream := (Prod.mk.inj (Prod.mk.inj (hboth value)).2).2
    have hmPos := congrArg DataStream.mPos hstream
    rw [advance_mPos, advance_mPos] at hmPos
    exact Nat.add_left_cancel hmPos
  exact ⟨fun old => (Prod.mk.inj (Prod.mk.inj (hboth old)).2).1, (List.append_inj h hpos).2⟩

/-- Bytes of at most a stream's length are the encodings, one after the other, of one list of
values only, whatever hosts have written them. -/
theorem stream_unique (hread : type.Readable) (hwhole : type.Whole) {values values' : List α}
    (hlen : (values.flatMap (type.image w)).length ≤ maxInt)
    (h : values.flatMap (type.image w) = values'.flatMap (type.image w')) : values = values' := by
  induction values generalizing values' with
  | nil =>
      cases values' with
      | nil => rfl
      | cons value' values' =>
          have hpos : 0 < (type.image w' value').length := type.image_pos value'
          have hzero := congrArg List.length h
          rw [List.flatMap_cons, List.length_append, List.flatMap_nil, List.length_nil] at hzero
          omega
  | cons value values ih =>
      cases values' with
      | nil =>
          have hpos : 0 < (type.image w value).length := type.image_pos value
          have hzero := congrArg List.length h
          rw [List.flatMap_cons, List.length_append, List.flatMap_nil, List.length_nil] at hzero
          omega
      | cons value' values' =>
          rw [List.flatMap_cons] at hlen h
          rw [List.flatMap_cons] at h
          obtain ⟨hvalue, hrest⟩ := image_prefix_free hread hlen h
          have heq := hvalue value
          rw [hwhole, hwhole] at heq
          rw [List.length_append] at hlen
          rw [heq, ih (by omega) hrest]

/-- Two strings, and the empty one between them, from hosts of either byte order. -/
theorem stream_unique_strings :
    let bytes : List Byte := [9, 2, 1, 0, 0, 0, 0x61, 9, 2, 0, 0, 0, 0, 9, 2, 1, 0, 0, 0, 0x62]
    let values : List (List Byte) := [[0x61], [], [0x62]]
    let values' : List (List Byte) := [[0x61], []] ++ [[0x62]]
    values.flatMap (STy.string.image .littleEndian) = bytes ∧
      values'.flatMap (STy.string.image .bigEndian) = bytes ∧ values = values' := by
  intro bytes values values'
  have hread : STy.string.Readable := trivial
  have hbytes : values.flatMap (STy.string.image .littleEndian) = bytes := by decide +kernel
  have hbytes' : values'.flatMap (STy.string.image .bigEndian) = bytes := by decide +kernel
  exact ⟨hbytes, hbytes',
    stream_unique hread (fun _ _ => rfl) (by decide +kernel) (hbytes.trans hbytes'.symm)⟩

end Serialize
end Cmw
