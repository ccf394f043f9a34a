import Cmw.Library.Run
import Cmw.Serialize.RoundTrip

/-!
# A stream as a queue

One `DataStream` that is written to and read from in any order.  Reads take the values in the
order of the writes, as long as the read position counts from where the content starts.  It does
not any more where `clear()` or `load()` replaces the content of a stream that has been read from:
the constructors set `m_pos` to 0, and these two leave it where it is.

`Streaming` has beside the stream what has been put into it and how many values of that have been
read; `returns_of_rewound` is about every run that does not read from such a position.
-/

namespace Cmw
namespace Serialize

open Library
open Library.ByteImage
open DataStream

variable {host : ByteOrder}

namespace DataStream

def clear (s : DataStream host) : DataStream host := { s with mBuf := [], fits := Nat.zero_le _ }

def reset (s : DataStream host) : DataStream host := { s with mPos := 0 }

/-- The file that `save(filename)` writes. -/
def save (s : DataStream host) : List Byte := s.mBuf

/-- `load(filename)` of a file with the content `str` -/
def load (str : List Byte) (s : DataStream host) : Outcome (DataStream host) :=
  let len := (BitVec.ofNat 32 str.length).toInt
  if len < 0 then .error .badLength
  else do
    let s ← s.clear.reserved len.toNat
    write str len s

/-- A stream that is made of a string has loaded it. -/
theorem load_new (str : List Byte) : (new host).load str = ofString host str := rfl

end DataStream

/-- A value with its type, and the byte order of the host that has written it. -/
structure Item where
  writer : ByteOrder
  Carrier : Type
  type : STy Carrier
  value : Carrier

def Item.image (item : Item) : List Byte := item.type.image item.writer item.value

/-- The value is one that the stream keeps: of a type whose enumerations are stored in four bytes
and whose `SERIALIZE` names every member, and shorter than an `int` can say. -/
structure Item.Kept (item : Item) : Prop where
  readable : item.type.Readable
  whole : item.type.Whole
  short : item.image.length < 2 ^ 31

/-- What the program does with the stream.  A file has the values of the stream that was saved to
it, and a value is read with the type it was written with, into an object `old`. -/
inductive StreamEvent : Type 1
  | write {α : Type} (type : STy α) (value : α)
  | read (junk : Stack) (old : (α : Type) → STy α → α)
  | clear
  | reset
  | load (file : List Item)

/-- A stream, the values that its content is to consist of, and how many of them have been read
since it was last rewound.  `rewound` says that the position has been at the start of this
content. -/
structure Streaming (host : ByteOrder) where
  stream : DataStream host
  content : List Item := []
  taken : Nat := 0
  rewound : Bool := true

namespace Streaming

def start (host : ByteOrder) : Streaming host := { stream := new host }

def unread (s : Streaming host) : List Item := s.content.drop s.taken

/-- The content is replaced by `items`. -/
def replace (s : Streaming host) (stream : DataStream host) (items : List Item) : Streaming host :=
  { stream, content := items, taken := 0, rewound := decide (s.stream.mPos = 0) }

/-- The read of an item: whether it is found, and the object. -/
def readItem (s : Streaming host) (item : Item) (junk : Stack)
    (old : (α : Type) → STy α → α) : Outcome (Bool × item.Carrier × DataStream host) :=
  item.type.read host junk (old item.Carrier item.type) s.stream

/-- The state after an event, where its call returns. -/
def next (s : Streaming host) : StreamEvent → Option (Streaming host)
  | .write (α := α) type value =>
      match type.write host value s.stream with
      | .error _ => none
      | .ok stream => some { s with stream, content := s.content ++ [⟨host, α, type, value⟩] }
  | .read junk old =>
      match s.unread with
      | [] => some s
      | item :: _ =>
          match s.readItem item junk old with
          | .error _ => none
          | .ok (_, _, stream) => some { s with stream, taken := s.taken + 1 }
  | .clear => some (s.replace s.stream.clear [])
  | .reset => some { s with stream := s.stream.reset, taken := 0, rewound := true }
  | .load file =>
      match s.stream.load (file.flatMap Item.image) with
      | .error _ => none
      | .ok stream => some (s.replace stream file)

/-- A call that does not return ends the run. -/
def step (s : Option (Streaming host)) (e : StreamEvent) : Option (Streaming host) :=
  s.bind fun s => s.next e

/-- A read returns the oldest value that has not been read. -/
def Returns (s : Option (Streaming host)) : StreamEvent → Prop
  | .read junk old => ∀ t, s = some t → ∀ item rest, t.unread = item :: rest →
      ∃ stream, t.readItem item junk old = .ok (true, item.value, stream)
  | _ => True

/-- What is written and loaded are values that the stream keeps, and no read is made where the
content has been replaced and the position has not been set back. -/
def Rewound (s : Option (Streaming host)) : StreamEvent → Prop
  | .write (α := α) type value => Item.Kept ⟨host, α, type, value⟩
  | .read _ _ => ∀ t, s = some t → t.rewound = true
  | .load file => (∀ item ∈ file, item.Kept) ∧ (file.flatMap Item.image).length < 2 ^ 31
  | _ => True

end Streaming

/-! ## The operations -/

theorem DataStream.load_eq {str : List Byte} {s t : DataStream host} (hlen : str.length < 2 ^ 31)
    (h : s.load str = .ok t) : t.mBuf = str ∧ t.mPos = s.mPos := by
  have hint : (BitVec.ofNat 32 str.length).toInt = str.length :=
    toInt_ofNat_32 (Nat.le_of_lt_succ hlen)
  rw [load, hint, if_neg (by omega)] at h
  obtain ⟨u, hu, h⟩ := of_bind_ok h
  obtain ⟨cap, -, hu⟩ := of_bind_ok hu
  cases hu
  rw [write_eq_append rfl] at h
  obtain ⟨hbuf, hpos, -⟩ := append_eq h
  exact ⟨hbuf, hpos⟩

theorem STy.write_of_short {α : Type} {type : STy α} {value : α} {s t : DataStream host}
    (hlen : (type.image host value).length < 2 ^ 31) (h : type.write host value s = .ok t) :
    t.mBuf = s.mBuf ++ type.image host value ∧ t.mPos = s.mPos := by
  have hshort : Short (type.chunks host value) := short_of_flatten (Nat.le_of_lt_succ hlen)
  rw [type.write_eq value hshort] at h
  obtain ⟨hbuf, hpos, -⟩ := appendAll_eq h
  exact ⟨hbuf, hpos⟩

namespace Streaming

/-- The buffer has the content, and the position is behind the values that have been read. -/
structure Tracks (s : Streaming host) : Prop where
  buffer : s.stream.mBuf = s.content.flatMap Item.image
  readable : ∀ item ∈ s.content, item.type.Readable ∧ item.type.Whole
  taken_le : s.taken ≤ s.content.length
  position : s.rewound = true →
    s.stream.mPos = ((s.content.take s.taken).flatMap Item.image).length

namespace Tracks

variable {s t : Streaming host}

theorem start : (Streaming.start host).Tracks where
  buffer := rfl
  readable := List.forall_mem_nil _
  taken_le := Nat.zero_le _
  position := fun _ => rfl

/-- Content that replaces the old one is read from its start where the position is there. -/
theorem replace {stream : DataStream host} {items : List Item}
    (hbuf : stream.mBuf = items.flatMap Item.image) (hpos : stream.mPos = s.stream.mPos)
    (hitems : ∀ item ∈ items, item.type.Readable ∧ item.type.Whole) :
    (s.replace stream items).Tracks where
  buffer := hbuf
  readable := hitems
  taken_le := Nat.zero_le _
  position := fun hrewound => hpos.trans (of_decide_eq_true hrewound)

/-- A file that the stream is saved to has the values of its content. -/
theorem save (h : s.Tracks) : s.stream.save = s.content.flatMap Item.image := h.buffer

theorem content_eq {item : Item} {rest : List Item} (h : s.unread = item :: rest) :
    s.content = s.content.take s.taken ++ item :: rest := by
  rw [← h, unread, List.take_append_drop]

theorem ahead (h : s.Tracks) (hrewound : s.rewound = true) {item : Item} {rest : List Item}
    (hunread : s.unread = item :: rest) : s.stream.Ahead item.image := by
  refine ⟨(s.content.take s.taken).flatMap Item.image, rest.flatMap Item.image, ?_,
    h.position hrewound⟩
  have hsplit := congrArg (List.flatMap Item.image) (content_eq hunread)
  rw [h.buffer, hsplit, List.flatMap_append, List.flatMap_cons, List.append_assoc]

/-- The oldest value that has not been read is what comes next. -/
theorem readItem (h : s.Tracks) (hrewound : s.rewound = true) {item : Item} {rest : List Item}
    (hunread : s.unread = item :: rest) (junk : Stack) (old : (α : Type) → STy α → α) :
    s.readItem item junk old =
      .ok (true, item.value, s.stream.advance item.image.length) := by
  have hmem : item ∈ s.content := by
    rw [content_eq hunread]
    exact List.mem_append_right _ List.mem_cons_self
  obtain ⟨hreadable, hwhole⟩ := h.readable item hmem
  have hreads : Reads (item.type.read host junk) (old item.Carrier item.type) item.image
      (item.type.restored item.value (old item.Carrier item.type)) :=
    item.type.read_reads hreadable item.value _
  rw [hwhole] at hreads
  exact hreads s.stream (h.ahead hrewound hunread)

theorem write (h : s.Tracks) {α : Type} {type : STy α} {value : α}
    (hkept : Item.Kept ⟨host, α, type, value⟩) {stream : DataStream host}
    (hwrite : type.write host value s.stream = .ok stream) :
    Tracks { s with stream, content := s.content ++ [⟨host, α, type, value⟩] } := by
  obtain ⟨hbuf, hpos⟩ := STy.write_of_short hkept.short hwrite
  refine ⟨?_, ?_, ?_, fun hrewound => ?_⟩
  · dsimp only
    rw [hbuf, h.buffer, List.flatMap_append, List.flatMap_singleton]
    rfl
  · exact List.forall_mem_append.mpr
      ⟨h.readable, List.forall_mem_singleton.mpr ⟨hkept.readable, hkept.whole⟩⟩
  · rw [List.length_append]
    exact Nat.le_add_right_of_le h.taken_le
  · dsimp only
    rw [hpos, h.position hrewound, List.take_append_of_le_length h.taken_le]

theorem read (h : s.Tracks) {item : Item} {rest : List Item} (hunread : s.unread = item :: rest) :
    Tracks { s with stream := s.stream.advance item.image.length, taken := s.taken + 1 } := by
  have hget : s.content[s.taken]? = some item := by
    rw [← List.head?_drop, ← unread, hunread, List.head?_cons]
  refine ⟨h.buffer, h.readable, (List.getElem?_eq_some_iff.mp hget).1, fun hrewound => ?_⟩
  dsimp only
  rw [advance_mPos, h.position hrewound, List.take_add_one, hget, List.flatMap_append,
    List.length_append]
  simp

theorem next (h : s.Tracks) {e : StreamEvent} (he : Rewound (some s) e)
    (hnext : s.next e = some t) : t.Tracks := by
  cases e with
  | write type value =>
      rw [Streaming.next] at hnext
      split at hnext
      case h_1 => cases hnext
      case h_2 stream hwrite =>
        obtain rfl := Option.some.inj hnext
        exact h.write he hwrite
  | read junk old =>
      rw [Streaming.next] at hnext
      split at hnext
      case h_1 => exact Option.some.inj hnext ▸ h
      case h_2 item rest hunread =>
        rw [h.readItem (he s rfl) hunread junk old] at hnext
        obtain rfl := Option.some.inj hnext
        exact h.read hunread
  | clear =>
      obtain rfl := Option.some.inj hnext
      exact replace rfl rfl (List.forall_mem_nil _)
  | reset =>
      obtain rfl := Option.some.inj hnext
      exact ⟨h.buffer, h.readable, Nat.zero_le _, fun _ => rfl⟩
  | load file =>
      rw [Streaming.next] at hnext
      split at hnext
      case h_1 => cases hnext
      case h_2 stream hload =>
        obtain ⟨hkept, hlen⟩ := he
        obtain ⟨hbuf, hpos⟩ := DataStream.load_eq hlen hload
        obtain rfl := Option.some.inj hnext
        exact replace hbuf hpos fun item hitem =>
          ⟨(hkept item hitem).readable, (hkept item hitem).whole⟩

end Tracks

/-- In every run whose reads are made where the position has been set back since the content was
replaced, a read returns the oldest value that has not been read. -/
theorem returns_of_rewound {es : List StreamEvent}
    (h : Run.Along step Rewound (some (start host)) es) :
    Run.Along step Returns (some (start host)) es := by
  have hstep : ∀ (s : Option (Streaming host)) e, (∀ t, s = some t → t.Tracks) → Rewound s e →
      ∀ t, step s e = some t → t.Tracks := by
    intro s e hs he t ht
    obtain ⟨u, rfl, hu⟩ := Option.bind_eq_some_iff.mp ht
    exact (hs u rfl).next he hu
  refine Run.along_of_invariant hstep (fun s e hs he => ?_) (fun t ht => ?_) h
  · cases e with
    | read junk old =>
        intro t ht item rest hunread
        exact ⟨_, (hs t ht).readItem (he t ht) hunread junk old⟩
    | write => trivial
    | clear => trivial
    | reset => trivial
    | load => trivial
  · exact Option.some.inj ht ▸ Tracks.start

def zeros : Stack := fun _ _ _ => 0

def fresh (α : Type) (type : STy α) : α := type.init fun _ _ => 0

theorem rewound_of_all {s : Option (Streaming host)} {junk : Stack}
    {old : (α : Type) → STy α → α} (h : s.all Streaming.rewound = true) :
    Rewound s (.read junk old) := by
  intro t ht
  rw [ht] at h
  exact h

/-- Two values are read, and after `reset()` the first of them once more. -/
theorem returns_of_rewound_twoValues :
    Run.Along step Returns (some (start .bigEndian))
      [.clear, .write (.scalar .int32) (7 : BitVec 32), .write .bool true, .read zeros fresh,
        .read zeros fresh, .reset, .read zeros fresh] := by
  have hword : Item.Kept ⟨.bigEndian, BitVec 32, .scalar .int32, 7⟩ :=
    ⟨trivial, fun _ _ => rfl, by decide +kernel⟩
  have hbool : Item.Kept ⟨.bigEndian, Bool, .bool, true⟩ :=
    ⟨trivial, fun _ _ => rfl, by decide +kernel⟩
  exact returns_of_rewound ⟨trivial, hword, hbool, rewound_of_all (by decide +kernel),
    rewound_of_all (by decide +kernel), trivial, rewound_of_all (by decide +kernel), trivial⟩

/-- A read that returns a value returns. -/
theorem isSome_of_returns {s : Option (Streaming host)} {junk : Stack}
    {old : (α : Type) → STy α → α} (hs : s.isSome = true) (h : Returns s (.read junk old)) :
    (step s (.read junk old)).isSome = true := by
  obtain ⟨t, rfl⟩ := Option.isSome_iff_exists.mp hs
  show (t.next (.read junk old)).isSome = true
  rw [next]
  split
  case h_1 => rfl
  case h_2 item rest hunread =>
    obtain ⟨stream, hread⟩ := h t rfl item rest hunread
    rw [hread]
    rfl

/-- A value is written and read, the stream is cleared, and another value is written: its read
is behind the end of the buffer. -/
theorem cleared_not_returns :
    ¬Run.Along step Returns (some (start .littleEndian))
      [.write (.scalar .int32) (7 : BitVec 32), .read zeros fresh, .clear,
        .write (.scalar .int32) (9 : BitVec 32), .read zeros fresh] := by
  intro h
  have hlast := isSome_of_returns (by decide +kernel) h.2.2.2.2.1
  revert hlast
  decide +kernel

end Streaming

end Serialize
end Cmw
