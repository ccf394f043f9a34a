import Cmw.Library.ByteImage

/-!
# The data stream

A `DataStream` is a growing byte buffer with a read position.  This file has the
buffer, its raw reads and writes, and the scalar overloads; the containers and
the structs are in `Cmw.Serialize.Types`.

A host stores its words in its own byte order.  The stream detects that order
when it is built and, on a big-endian host, turns every word round on its way
in and out.
-/

namespace Cmw
namespace Serialize

open Library.ByteImage

/-- How a call ends when it does not return. -/
inductive Fault
  | intOverflow
  | endlessLoop
  | badLength
  | outOfBounds
  | objectOverrun
  | classStorage
  deriving DecidableEq, Repr

abbrev Outcome := Except Fault

@[simp] theorem ok_bind {α β : Type} (a : α) (f : α → Outcome β) :
    ((Except.ok a : Outcome α) >>= f) = f a := rfl

/-- A computation that returns got past its first step. -/
theorem of_bind_ok {α β : Type} {x : Outcome α} {f : α → Outcome β} {b : β}
    (h : x >>= f = .ok b) : ∃ a, x = .ok a ∧ f a = .ok b := by
  cases x with
  | error e => cases h
  | ok a => exact ⟨a, rfl, h⟩

inductive DataType
  | bool | char | int32 | int64 | uint32 | uint64 | float | double
  | enum | string | vector | list | map | set | custom
  deriving DecidableEq, Repr

def DataType.code (type : DataType) : Byte := BitVec.ofNat 8 type.ctorIdx

def maxInt : Nat := 2147483647

/-- The order the first byte of `0x12345678` gives away. -/
def byteorder (host : ByteOrder) : ByteOrder :=
  if (image host (0x12345678 : BitVec (8 * 4))).head? = some 0x12 then .bigEndian
  else .littleEndian

theorem byteorder_eq (host : ByteOrder) : byteorder host = host := by
  cases host <;> rfl

structure DataStream (host : ByteOrder) where
  mBuf : List Byte
  mCap : Nat
  mPos : Nat
  mByteorder : ByteOrder
  detected : mByteorder = byteorder host
  fits : mBuf.length ≤ mCap
  capInt : mCap ≤ maxInt

namespace DataStream

variable {host : ByteOrder}

def new (host : ByteOrder) : DataStream host :=
  { mBuf := [], mCap := 0, mPos := 0, mByteorder := byteorder host, detected := rfl,
    fits := Nat.le_refl 0, capInt := Nat.zero_le _ }

theorem mByteorder_eq (s : DataStream host) : s.mByteorder = host := by
  rw [s.detected, byteorder_eq]

/-- The loop of `reserve`.  `fuel` bounds its turns; thirty-three are enough for
every `int`. -/
def grown (need : Nat) : Nat → (cap : Nat) → cap ≤ maxInt →
    Outcome {c : Nat // need ≤ c ∧ c ≤ maxInt}
  | 0, _, _ => .error .endlessLoop
  | fuel + 1, cap, hcap =>
      if hneed : need ≤ cap then .ok ⟨cap, hneed, hcap⟩
      else if cap = 0 then grown need fuel 1 (by decide)
      else if hdouble : cap * 2 ≤ maxInt then grown need fuel (cap * 2) hdouble
      else .error .intOverflow

/-- `reserve(len)`: the capacity it leaves. -/
def reserve (s : DataStream host) (len : Nat) :
    Outcome {c : Nat // s.mBuf.length + len ≤ c ∧ c ≤ maxInt} :=
  if s.mBuf.length + len ≤ maxInt then grown (s.mBuf.length + len) 33 s.mCap s.capInt
  else .error .intOverflow

/-- The stream after `reserve(len)`. -/
def reserved (s : DataStream host) (len : Nat) : Outcome (DataStream host) := do
  let cap ← s.reserve len
  .ok { s with
    mCap := cap.1
    fits := Nat.le_trans (Nat.le_add_right _ _) cap.2.1
    capInt := cap.2.2 }

def append (data : List Byte) (s : DataStream host) : Outcome (DataStream host) := do
  let cap ← s.reserve data.length
  .ok { s with
    mBuf := s.mBuf ++ data
    mCap := cap.1
    fits := by rw [List.length_append]; exact cap.2.1
    capInt := cap.2.2 }

def write (data : List Byte) (len : Int) (s : DataStream host) : Outcome (DataStream host) :=
  if len < 0 then .error .badLength
  else if data.length < len.toNat then .error .outOfBounds
  else s.append (data.take len.toNat)

/-- `DataStream(const string& str)` -/
def ofString (host : ByteOrder) (str : List Byte) : Outcome (DataStream host) :=
  let len := (BitVec.ofNat 32 str.length).toInt
  if len < 0 then .error .badLength
  else do
    let s ← (new host).reserved len.toNat
    write str len s

/-- `m_buf[i]` -/
def get (s : DataStream host) (i : Nat) : Outcome Byte :=
  if h : i < s.mBuf.length then .ok s.mBuf[i] else .error .outOfBounds

/-- The `len` bytes behind `&m_buf[i]`. -/
def bytesAt (s : DataStream host) (i len : Nat) : Outcome (List Byte) :=
  if i + len ≤ s.mBuf.length then .ok ((s.mBuf.drop i).take len) else .error .outOfBounds

def advance (s : DataStream host) (n : Nat) : DataStream host := { s with mPos := s.mPos + n }

def read (len : Int) (s : DataStream host) : Outcome (List Byte × DataStream host) :=
  if len < 0 then .error .badLength
  else do
    let data ← s.bytesAt s.mPos len.toNat
    .ok (data, s.advance len.toNat)

@[simp] theorem advance_mBuf (s : DataStream host) (n : Nat) : (s.advance n).mBuf = s.mBuf := rfl

@[simp] theorem advance_mPos (s : DataStream host) (n : Nat) :
    (s.advance n).mPos = s.mPos + n := rfl

@[simp] theorem advance_advance (s : DataStream host) (m n : Nat) :
    (s.advance m).advance n = s.advance (m + n) := by
  simp only [advance, Nat.add_assoc]

end DataStream

open DataStream

variable {host : ByteOrder}

/-- The overloads that store a word of several bytes behind its tag. -/
inductive Scalar
  | int32 | uint32 | int64 | uint64 | float | double
  deriving DecidableEq, Repr

def Scalar.type : Scalar → DataType
  | .int32 => .int32
  | .uint32 => .uint32
  | .int64 => .int64
  | .uint64 => .uint64
  | .float => .float
  | .double => .double

def Scalar.size : Scalar → Nat
  | .int32 | .uint32 | .float => 4
  | .int64 | .uint64 | .double => 8

/-- The words of a scalar type; a `float` or a `double` is its bit pattern. -/
abbrev Scalar.Word (σ : Scalar) : Type := BitVec (8 * σ.size)

abbrev Writer (host : ByteOrder) (α : Type) := α → DataStream host → Outcome (DataStream host)

/-- A reader is given the object it reads into and returns its result, that
object and the stream. -/
abbrev Reader (host : ByteOrder) (α : Type) :=
  α → DataStream host → Outcome (Bool × α × DataStream host)

def writeType (type : DataType) (s : DataStream host) : Outcome (DataStream host) :=
  s.write [type.code] 1

def writeBool : Writer host Bool := fun value s => do
  let s ← writeType .bool s
  s.write [if value then 1 else 0] 1

def writeChar : Writer host Byte := fun value s => do
  let s ← writeType .char s
  s.write [value] 1

/-- The word a stream stores for `value`: turned round on a big-endian host. -/
def ordered {k : Nat} (s : DataStream host) (value : BitVec (8 * k)) : BitVec (8 * k) :=
  if s.mByteorder = .bigEndian then byteSwap host value else value

def writeScalar (σ : Scalar) : Writer host σ.Word := fun value s => do
  let s ← writeType σ.type s
  s.write (image host (ordered s value)) σ.size

def writeInt32 : Writer host (BitVec 32) := writeScalar .int32
def writeUint32 : Writer host (BitVec 32) := writeScalar .uint32
def writeInt64 : Writer host (BitVec 64) := writeScalar .int64
def writeUint64 : Writer host (BitVec 64) := writeScalar .uint64
def writeFloat : Writer host (BitVec 32) := writeScalar .float
def writeDouble : Writer host (BitVec 64) := writeScalar .double

/-- `int len = value.size(); write(len);` -/
def writeLen (n : Nat) (s : DataStream host) : Outcome (DataStream host) :=
  writeInt32 (BitVec.ofNat 32 n) s

def writeString : Writer host (List Byte) := fun value s => do
  let s ← writeType .string s
  let s ← writeLen value.length s
  s.write value (BitVec.ofNat 32 value.length).toInt

/-- The test every `read` starts with.  A mismatch returns false and leaves the
position where it is. -/
def readTagged {α : Type} (type : DataType) (body : Reader host α) : Reader host α :=
  fun value s => do
    let tag ← s.get s.mPos
    if tag ≠ type.code then .ok (false, value, s) else body value (s.advance 1)

def readBool : Reader host Bool := readTagged .bool fun _ s => do
  let c ← s.get s.mPos
  .ok (true, c != 0, s.advance 1)

def readChar : Reader host Byte := readTagged .char fun _ s => do
  let c ← s.get s.mPos
  .ok (true, c, s.advance 1)

def readScalar (σ : Scalar) : Reader host σ.Word := readTagged σ.type fun _ s => do
  let data ← s.bytesAt s.mPos σ.size
  .ok (true, ordered s (ofImage σ.size host data), s.advance σ.size)

def readInt32 : Reader host (BitVec 32) := readScalar .int32
def readUint32 : Reader host (BitVec 32) := readScalar .uint32
def readInt64 : Reader host (BitVec 64) := readScalar .int64
def readUint64 : Reader host (BitVec 64) := readScalar .uint64
def readFloat : Reader host (BitVec 32) := readScalar .float
def readDouble : Reader host (BitVec 64) := readScalar .double

/-- `int len; read(len);`, where `len` starts out as whatever the stack holds and
the result of the read is dropped. -/
def readLen (len : BitVec 32) (s : DataStream host) : Outcome (Int × DataStream host) := do
  let (_, len, s) ← readInt32 len s
  .ok (len.toInt, s)

def readString (len : BitVec 32) : Reader host (List Byte) := readTagged .string fun value s => do
  let (len, s) ← readLen len s
  if len < 0 then .ok (false, value, s)
  else do
    let (data, s) ← s.read len
    .ok (true, data, s)

end Serialize
end Cmw
