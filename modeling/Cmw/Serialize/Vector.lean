import Cmw.Serialize.RoundTrip

/-!
# Vectors

`write` copies `size()` bytes of a vector's storage and `read` copies as many
back into storage that `resize` has cleared, whatever the size of an element.
`Survives` says when that is enough: the bytes that are not copied are zero on
the reading host.
-/

namespace Cmw
namespace Serialize

open Library.ByteImage
open Library.Ordered
open DataStream

variable {w r : ByteOrder} {junk : Stack}

/-! ## The copied storage -/

/-- What the storage of a resized vector holds after the copy. -/
def copied (w : ByteOrder) {α : Type} (elem : Elem α) (value : List α) : List Byte :=
  (value.flatMap (elem.storage w)).take value.length ++
    List.replicate (value.length * elem.size - value.length) 0

theorem copied_length {α : Type} (elem : Elem α) (value : List α) :
    (copied w elem value).length = value.length * elem.size := by
  have hle : value.length ≤ value.length * elem.size :=
    Nat.le_mul_of_pos_right _ elem.size_pos
  rw [copied, List.length_append, List.length_take, List.length_replicate,
    elem.length_flatMap_storage]
  omega

/-- The storage of the vector comes out on the reading host as it went in on the
writing one.  Objects of a class do not survive at all. -/
def Elem.Survives (w r : ByteOrder) {α : Type} : Elem α → List α → Prop
  | .word size pos, value => copied w (.word size pos) value = value.flatMap (image r)
  | .object _ _ _ _, value => value = []

theorem loadWords_flatMap {size : Nat} (value : List (BitVec (8 * size))) :
    loadWords r size value.length (value.flatMap (image r)) = value := by
  induction value with
  | nil => rfl
  | cons v vs ih =>
      rw [List.length_cons, loadWords, List.flatMap_cons, List.take_left' (image_length r v),
        List.drop_left' (image_length r v), ih, ofImage_image]

theorem flatMap_loadWords {size n : Nat} {data : List Byte} (h : data.length = n * size) :
    (loadWords r size n data).flatMap (image r) = data := by
  induction n generalizing data with
  | zero =>
      rw [Nat.zero_mul, List.length_eq_zero_iff] at h
      rw [h]
      rfl
  | succ n ih =>
      rw [Nat.succ_mul] at h
      have htake : (data.take size).length = size := by
        rw [List.length_take]
        omega
      have hdrop : (data.drop size).length = n * size := by
        rw [List.length_drop]
        omega
      rw [loadWords, List.flatMap_cons, image_ofImage _ htake, ih hdrop, List.take_append_drop]

theorem Elem.load_word {size : Nat} (pos : 0 < size) (value : List (BitVec (8 * size))) :
    (Elem.word size pos).load r value.length ((value.flatMap (image w)).take value.length) =
      .ok (loadWords r size value.length (copied w (.word size pos) value)) := by
  have hle : value.length ≤ (value.flatMap (image w)).length :=
    Elem.length_le_storage (Elem.word size pos) value
  have htake : ((value.flatMap (image w)).take value.length).length = value.length := by
    rw [List.length_take]
    omega
  rw [Elem.load, htake]
  rfl

theorem Elem.load_iff {α : Type} (elem : Elem α) (value : List α) :
    elem.load r value.length ((value.flatMap (elem.storage w)).take value.length) = .ok value ↔
      elem.Survives w r value := by
  cases elem with
  | word size pos =>
      have hlen := copied_length (w := w) (Elem.word size pos) value
      refine Iff.trans (Eq.congr_left (Elem.load_word pos value)) ⟨fun h => ?_, fun h => ?_⟩
      · injection h with h
        show copied w (Elem.word size pos) value = value.flatMap (image r)
        rw [← flatMap_loadWords hlen]
        exact congrArg (List.flatMap (image r)) h
      · rw [show copied w (Elem.word size pos) value = value.flatMap (image r) from h,
          loadWords_flatMap]
  | object size pos store hstore =>
      rw [Elem.load, Elem.Survives]
      cases value <;> simp

theorem readVector_ahead {α : Type} (elem : Elem α) (value old : List α) {s : DataStream r}
    (h : s.Ahead ((STy.vector elem).image w value)) :
    readVector elem junk old s =
      (elem.load r value.length ((value.flatMap (elem.storage w)).take value.length) >>= fun v =>
        .ok (true, v, s.advance ((STy.vector elem).image w value).length)) := by
  have himage : (STy.vector elem).image w value = DataType.vector.code ::
      (lenBytes value.length ++ (value.flatMap (elem.storage w)).take value.length) := by
    simp [STy.image, STy.chunks, lenChunks, lenBytes]
  have htake : ((value.flatMap (elem.storage w)).take value.length).length = value.length := by
    have hlen : value.length ≤ (value.flatMap (elem.storage w)).length :=
      elem.length_le_storage value
    rw [List.length_take]
    omega
  rw [himage] at h
  have hint : value.length ≤ maxInt := htake ▸ h.tail.right.length_le
  have hread := h.tail.right.read
  rw [htake] at hread
  rw [readVector, readTagged_ahead h, readLen_ahead hint _ h.tail.left, ok_bind]
  show ((DataStream.read _ _) >>= _) = _
  rw [hread, ok_bind]
  have hadvance : 1 + ((lenBytes value.length).length + value.length) =
      ((STy.vector elem).image w value).length := by
    rw [himage, List.length_cons, List.length_append, htake, Nat.add_comm]
  rw [Int.toNat_natCast, advance_advance, advance_advance, hadvance]

/-! ## Structures with vectors -/

/-- Assigning the arguments leaves a member as it is. -/
def Args.Leave {α β : Type} (member : α → β) : Args α → Prop
  | .nil => True
  | .cons _ assign _ args => (∀ b old, member (assign b old) = member old) ∧ args.Leave member

mutual

/-- The types with vectors in them: a vector, a structure of such members, each in
its own place, and every type without one. -/
def STy.Structured {α : Type} : STy α → Prop
  | .vector _ => True
  | .custom _ args => args.Structured
  | type => type.Readable

def Args.Structured {α : Type} : Args α → Prop
  | .nil => True
  | .cons member assign head args =>
      head.Structured ∧ (∀ b old, member (assign b old) = b) ∧ args.Leave member ∧
        args.Structured

end

mutual

/-- Every vector in the value survives. -/
def STy.Survives (w r : ByteOrder) {α : Type} : STy α → α → Prop
  | .vector elem, value => elem.Survives w r value
  | .custom _ args, value => args.Survives w r value
  | _, _ => True

def Args.Survives (w r : ByteOrder) {α : Type} : Args α → α → Prop
  | .nil, _ => True
  | .cons member _ head args, value => head.Survives w r (member value) ∧ args.Survives w r value

end

theorem Args.Leave.read {α β : Type} {member : α → β} : {args : Args α} → args.Leave member →
    {old new : α} → {s u : DataStream r} → {found : Bool} →
    args.read r junk old s = .ok (found, new, u) → member new = member old
  | .nil, _, old, new, s, u, found, hread => by
      cases hread
      rfl
  | .cons _ assign head args, h, old, new, s, u, found, hread => by
      obtain ⟨⟨_, b, t⟩, _, hrest⟩ := of_bind_ok hread
      rw [h.2.read hrest, h.1]

/-- The types without vectors, as one case of the two theorems below. -/
theorem STy.read_of_readable {α : Type} {type : STy α} (h : type.Readable) {value old new : α}
    {s u : DataStream r} {found : Bool} (hs : s.Ahead (type.image w value))
    (hread : type.read r junk old s = .ok (found, new, u)) :
    u = s.advance (type.image w value).length := by
  have hreads : Reads (type.read r junk) old (type.image w value) (type.restored value old) :=
    type.read_reads h value old
  rw [hreads s hs] at hread
  cases hread
  rfl

mutual

/-- When the vectors survive, `read` restores the value. -/
theorem STy.read_survives {α : Type} : (type : STy α) → type.Structured → (value old : α) →
    type.Survives w r value →
    Reads (type.read r junk) old (type.image w value) (type.restored value old)
  | .vector elem, _, value, old, h => by
      intro s hs
      show readVector elem junk old s = _
      rw [readVector_ahead elem value old hs, (elem.load_iff value).mpr h]
      rfl
  | .custom _ args, hst, value, old, h => custom_reads (args.read_survives hst value old h)
  | .bool, hst, value, old, _ => STy.read_reads .bool hst value old
  | .char, hst, value, old, _ => STy.read_reads .char hst value old
  | .scalar σ, hst, value, old, _ => STy.read_reads (.scalar σ) hst value old
  | .enum signed size, hst, value, old, _ => STy.read_reads (.enum signed size) hst value old
  | .string, hst, value, old, _ => STy.read_reads .string hst value old
  | .list elem, hst, value, old, _ => STy.read_reads (.list elem) hst value old
  | .map cmp key val, hst, value, old, _ => STy.read_reads (.map cmp key val) hst value old
  | .set cmp elem, hst, value, old, _ => STy.read_reads (.set cmp elem) hst value old

theorem Args.read_survives {α : Type} : (args : Args α) → args.Structured → (value old : α) →
    args.Survives w r value →
    Reads (args.read r junk) old (args.image w value) (args.restored value old)
  | .nil, _, _, _, _ => fun _ _ => rfl
  | .cons member _ head args, hst, value, old, h =>
      args_reads (head.read_survives hst.1 (member value) (member old) h.1)
        (args.read_survives hst.2.2.2 value _ h.2)

end

mutual

/-- A read that returns has taken the whole image, and the vectors have survived
if it restored the value. -/
theorem STy.survives_of_read {α : Type} : (type : STy α) → type.Structured →
    {value old new : α} → {s u : DataStream r} → {found : Bool} →
    s.Ahead (type.image w value) → type.read r junk old s = .ok (found, new, u) →
    u = s.advance (type.image w value).length ∧ (new = value → type.Survives w r value)
  | .vector elem, _, value, old, new, s, u, found, hs, hread => by
      rw [STy.read, readVector_ahead elem value old hs] at hread
      obtain ⟨v, hload, hread⟩ := of_bind_ok hread
      cases hread
      exact ⟨rfl, fun hv => (elem.load_iff value).mp (hv ▸ hload)⟩
  | .custom init args, hst, value, old, new, s, u, found, hs, hread => by
      rw [image_custom] at hs ⊢
      have hhead : s.Ahead ([DataType.custom.code] ++ args.image w value) := hs
      have htype : s.read 1 = .ok ([DataType.custom.code], s.advance 1) := hhead.left.read
      replace hread : (s.read 1 >>= _) = _ := hread
      rw [htype, ok_bind] at hread
      obtain ⟨⟨found', v, t⟩, hargs, hread⟩ := of_bind_ok hread
      cases hread
      obtain ⟨hu, hsurv⟩ := args.survives_of_read hst hs.tail hargs
      refine ⟨?_, hsurv⟩
      rw [hu, advance_advance, List.length_cons, Nat.add_comm]
  | .bool, hst, _, _, _, _, _, _, hs, hread => ⟨STy.read_of_readable hst hs hread, fun _ => trivial⟩
  | .char, hst, _, _, _, _, _, _, hs, hread => ⟨STy.read_of_readable hst hs hread, fun _ => trivial⟩
  | .scalar _, hst, _, _, _, _, _, _, hs, hread =>
      ⟨STy.read_of_readable hst hs hread, fun _ => trivial⟩
  | .enum _ _, hst, _, _, _, _, _, _, hs, hread =>
      ⟨STy.read_of_readable hst hs hread, fun _ => trivial⟩
  | .string, hst, _, _, _, _, _, _, hs, hread =>
      ⟨STy.read_of_readable hst hs hread, fun _ => trivial⟩
  | .list _, hst, _, _, _, _, _, _, hs, hread =>
      ⟨STy.read_of_readable hst hs hread, fun _ => trivial⟩
  | .map _ _ _, hst, _, _, _, _, _, _, hs, hread =>
      ⟨STy.read_of_readable hst hs hread, fun _ => trivial⟩
  | .set _ _, hst, _, _, _, _, _, _, hs, hread =>
      ⟨STy.read_of_readable hst hs hread, fun _ => trivial⟩

theorem Args.survives_of_read {α : Type} : (args : Args α) → args.Structured →
    {value old new : α} → {s u : DataStream r} → {found : Bool} →
    s.Ahead (args.image w value) → args.read r junk old s = .ok (found, new, u) →
    u = s.advance (args.image w value).length ∧ (new = value → args.Survives w r value)
  | .nil, _, value, old, new, s, u, found, _, hread => by
      cases hread
      exact ⟨rfl, fun _ => trivial⟩
  | .cons member assign head args, hst, value, old, new, s, u, found, hs, hread => by
      rw [image_args_cons] at hs ⊢
      obtain ⟨⟨found', b, t⟩, hhead, hrest⟩ := of_bind_ok hread
      obtain ⟨ht, hb⟩ := head.survives_of_read hst.1 hs.left hhead
      have hahead : t.Ahead (args.image w value) := ht ▸ hs.right
      obtain ⟨hu, hargs⟩ := args.survives_of_read hst.2.2.2 hahead hrest
      refine ⟨?_, fun hnew => ⟨hb ?_, hargs hnew⟩⟩
      · rw [hu, ht, advance_advance, List.length_append]
      · -- the later arguments leave the member as the head has set it
        have hkeep := hst.2.2.1.read hrest
        rw [hst.2.1, hnew] at hkeep
        exact hkeep.symm

end

/-- The bytes of a stream in a stream of another host, to be read from the start. -/
def received (r : ByteOrder) (t : DataStream w) : DataStream r :=
  { new r with mBuf := t.mBuf, mCap := t.mCap, fits := t.fits, capInt := t.capInt }

/-- On a new stream a type with vectors comes back if and only if the stream stays
within `2 ^ 30` bytes and every vector survives. -/
theorem vector_roundTrips_iff {α : Type} {type : STy α} (hst : type.Structured)
    (hwhole : type.Whole) (value : α) (hint : (type.image w value).length < 2 ^ 31) :
    RoundTrips r type value (new w) ↔
      (type.image w value).length ≤ 2 ^ 30 ∧ type.Survives w r value := by
  have hshort : Short (type.chunks w value) := short_of_flatten (by
    rw [← STy.image]
    unfold maxInt
    omega)
  constructor
  · intro h
    obtain ⟨t, ht, data, hbuf, hread⟩ := h
    obtain ⟨himage, hlen⟩ := STy.image_of_write hshort ht
    have hahead : (received r t).Ahead (type.image w value) :=
      ⟨[], [], by rw [List.append_nil]; exact himage, rfl⟩
    have hback := hread (fun _ _ _ => 0) value [] (received r t) (List.append_nil _).symm rfl
    exact ⟨hlen, (type.survives_of_read hst hahead hback).2 rfl⟩
  · intro h
    obtain ⟨hlen, hsurv⟩ := h
    obtain ⟨t, ht, hbuf, _⟩ := type.write_ok value (new w) (by
      rw [show (new w).mBuf.length = 0 from rfl, Nat.zero_add]
      exact hlen)
    refine ⟨t, ht, type.image w value, hbuf, fun junk old trailing u hu hpos => ?_⟩
    have hahead : u.Ahead (type.image w value) := ⟨[], trailing, by rw [hu, hbuf]; rfl, hpos⟩
    rw [type.read_survives hst value old hsurv u hahead, hwhole]

/-- `Data_test` of example/test_serialize.cpp. -/
structure DataTest where
  a : Config.Str
  b : BitVec 32
  role : BitVec 32
  policy : BitVec 32 := 0
  image : List (BitVec (8 * 4))
  c : BitVec 32

def DataTest.args : Args DataTest :=
  .cons (fun d => d.a) (fun b d => { d with a := b }) .string <|
  .cons (fun d => d.b) (fun b d => { d with b := b }) (.scalar .uint32) <|
  .cons (fun d => d.role) (fun b d => { d with role := b }) (.enum false 4) <|
  .cons (fun d => d.c) (fun b d => { d with c := b }) (.scalar .int32) <|
  .cons (fun d => d.policy) (fun b d => { d with policy := b }) (.enum false 4) <|
  .cons (fun d => d.image) (fun b d => { d with image := b }) (.vector (.word 4 (by decide))) .nil

def DataTest.type : STy DataTest :=
  .custom (fun junk => { a := [], b := junk 0 4, role := junk 1 4, image := [], c := junk 2 4 })
    DataTest.args

def dataTest (image : List (BitVec 32)) : DataTest := { a := [], b := 5, role := 5, image, c := 500 }

/-- An image of one small pixel survives between two little-endian hosts. -/
theorem dataTest_roundTrips : RoundTrips .littleEndian DataTest.type (dataTest [7])
    (new .littleEndian) := by
  have hlen : (DataTest.type.image .littleEndian (dataTest [7])).length = 34 := by decide
  have hst : DataTest.type.Structured := by
    simp [DataTest.type, DataTest.args, STy.Structured, Args.Structured, Args.Leave, STy.Readable]
  have hsurv : DataTest.type.Survives .littleEndian .littleEndian (dataTest [7]) := by
    refine ⟨trivial, trivial, trivial, trivial, trivial, ?_, trivial⟩
    show copied _ _ _ = _
    decide
  have hint : (DataTest.type.image .littleEndian (dataTest [7])).length < 2 ^ 31 := by omega
  have hfits : (DataTest.type.image .littleEndian (dataTest [7])).length ≤ 2 ^ 30 := by omega
  exact (vector_roundTrips_iff hst (fun _ _ => rfl) (dataTest [7]) hint).mpr ⟨hfits, hsurv⟩

/-- Of the four bytes of the one element, one is copied. -/
theorem vector_int_not_roundTrips :
    ¬ RoundTrips .littleEndian (.vector (.word 4 (by decide))) [BitVec.ofNat 32 256]
      (new .littleEndian) := by
  intro h
  have := echo_of_roundTrips h (fun _ _ _ => 0) []
  revert this
  decide +kernel

end Serialize
end Cmw
