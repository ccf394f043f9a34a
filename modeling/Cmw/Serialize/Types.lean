import Cmw.Library.Ordered
import Cmw.Serialize.DataStream

/-!
# The serialisable types

`STy α` says how the stream handles the values of `α`: which overload of `write`
and `read` the compiler picks.  The overloads are generic, so the types are
nested to any depth, and `custom` takes any structure with the argument list of
its `SERIALIZE`.
-/

namespace Cmw
namespace Serialize

open Library.ByteImage
open Library.Ordered

/-- The element types of a `std::vector`: its `data()` is copied as raw storage. -/
inductive Elem : Type → Type 1
  /-- A word of `size` bytes: a character, a number or an enumeration. -/
  | word (size : Nat) (pos : 0 < size) : Elem (BitVec (8 * size))
  /-- An object of a class, whose storage only its own members may change. -/
  | object {α : Type} (size : Nat) (pos : 0 < size) (store : α → List Byte)
      (store_length : ∀ v, (store v).length = size) : Elem α

mutual

inductive STy : Type → Type 1
  | bool : STy Bool
  | char : STy Byte
  | scalar (σ : Scalar) : STy σ.Word
  | enum (signed : Bool) (size : Nat) : STy (BitVec (8 * size))
  | string : STy (List Byte)
  | vector {α : Type} (elem : Elem α) : STy (List α)
  | list {α : Type} (elem : STy α) : STy (List α)
  | map {κ ν : Type} (cmp : Compare κ) (key : STy κ) (val : STy ν) : STy (OrdMap cmp ν)
  | set {κ : Type} (cmp : Compare κ) (elem : STy κ) : STy (OrdSet cmp)
  | custom {α : Type} (init : ((slot size : Nat) → BitVec (8 * size)) → α) (args : Args α) : STy α

/-- The arguments of `SERIALIZE`, each a member of the structure. -/
inductive Args : Type → Type 1
  | nil {α : Type} : Args α
  | cons {α β : Type} (member : α → β) (assign : β → α → α) (head : STy β) (args : Args α) : Args α

end

/-- What the storage of an object holds before anything is written to it, by slot
and size. -/
abbrev Junk := (slot size : Nat) → BitVec (8 * size)

/-- The junk a local variable starts with, by the read position it is declared at. -/
abbrev Stack := Nat → Junk

def STy.init {α : Type} : STy α → Junk → α
  | .bool, junk => junk 0 1 != 0
  | .char, junk => junk 0 1
  | .scalar σ, junk => junk 0 σ.size
  | .enum _ size, junk => junk 0 size
  | .string, _ => []
  | .vector _, _ => []
  | .list _, _ => []
  | .map cmp _ _, _ => OrdMap.empty cmp _
  | .set cmp _, _ => OrdSet.empty cmp
  | .custom init _, junk => init junk

variable {host : ByteOrder}

def toInt32 {size : Nat} (signed : Bool) (value : BitVec (8 * size)) : BitVec 32 :=
  if signed then value.signExtend 32 else value.setWidth 32

def writeEnum (signed : Bool) (size : Nat) : Writer host (BitVec (8 * size)) := fun value s =>
  writeInt32 (toInt32 signed value) s

/-- The bytes of an element in the memory of a host. -/
def Elem.storage {α : Type} (host : ByteOrder) : Elem α → α → List Byte
  | .word _ _, value => image host value
  | .object _ _ store _, value => store value

def writeVector {α : Type} (elem : Elem α) : Writer host (List α) := fun value s => do
  let s ← writeType .vector s
  let s ← writeLen value.length s
  s.write (value.flatMap (elem.storage host)) (BitVec.ofNat 32 value.length).toInt

/-- The loop `for (auto it = value.begin(); it != value.end(); it++)`. -/
def writeEach {α : Type} (elem : Writer host α) : List α → DataStream host → Outcome (DataStream host)
  | [], s => .ok s
  | v :: vs, s => do
      let s ← elem v s
      writeEach elem vs s

/-- The containers that are a tag, a length and their elements. -/
def writeContainer {α : Type} (type : DataType) (elem : Writer host α) : Writer host (List α) :=
  fun value s => do
    let s ← writeType type s
    let s ← writeLen value.length s
    writeEach elem value s

mutual

def STy.write {α : Type} (host : ByteOrder) : STy α → Writer host α
  | .bool => writeBool
  | .char => writeChar
  | .scalar σ => writeScalar σ
  | .enum signed size => writeEnum signed size
  | .string => writeString
  | .vector elem => writeVector elem
  | .list elem => writeContainer .list (elem.write host)
  | .map _ key val => fun value => writeContainer .map (fun e s => do
      let s ← key.write host e.1 s
      val.write host e.2 s) value.1
  | .set _ elem => fun value => writeContainer .set (elem.write host) value.1
  | .custom _ args => fun value s => do
      let s ← writeType .custom s
      args.write host value s

def Args.write {α : Type} (host : ByteOrder) : Args α → Writer host α
  | .nil => fun _ s => .ok s
  | .cons member _ head args => fun value s => do
      let s ← head.write host (member value) s
      args.write host value s

end

/-- The object representation of `value` with its first bytes replaced. -/
def overlay (host : ByteOrder) {size : Nat} (value : BitVec (8 * size)) (data : List Byte) :
    BitVec (8 * size) :=
  ofImage size host (data ++ (image host value).drop data.length)

/-- `read` through a reference of four bytes to an object of `size` bytes. -/
def readEnum (size : Nat) : Reader host (BitVec (8 * size)) := fun value s => do
  let (found, word, s) ← readInt32 0 s
  if !found then .ok (false, value, s)
  else if size < 4 then .error .objectOverrun
  else .ok (true, overlay host value (image host (k := 4) word), s)

/-- The words in an array of `n` elements of `size` bytes. -/
def loadWords (host : ByteOrder) (size : Nat) : Nat → List Byte → List (BitVec (8 * size))
  | 0, _ => []
  | n + 1, data => ofImage size host (data.take size) :: loadWords host size n (data.drop size)

/-- `value.resize(len)` followed by the copy of `data` over its storage.  The
storage of objects of a class cannot be written so. -/
def Elem.load {α : Type} (host : ByteOrder) (elem : Elem α) (len : Nat) (data : List Byte) :
    Outcome (List α) :=
  match elem with
  | .word size _ => .ok (loadWords host size len (data ++ List.replicate (len * size - data.length) 0))
  | .object _ _ _ _ => if len = 0 then .ok [] else .error .classStorage

def readVector {α : Type} (elem : Elem α) (junk : Stack) : Reader host (List α) := fun _ s =>
  readTagged .vector (fun _ s => do
    let (len, s) ← readLen (junk s.mPos 0 4) s
    let (data, s) ← s.read len
    let value ← elem.load host len.toNat data
    .ok (true, value, s)) [] s

/-- The loop `for (int i = 0; i < len; i++)`, which reads one element a turn and
puts it into the container. -/
def readEach {α β : Type} (elem : DataStream host → Outcome (α × DataStream host))
    (put : β → α → β) : Nat → β → DataStream host → Outcome (β × DataStream host)
  | 0, value, s => .ok (value, s)
  | n + 1, value, s => do
      let (v, s) ← elem s
      readEach elem put n (put value v) s

/-- The containers that are a tag, a length and their elements. -/
def readContainer {α β : Type} (type : DataType) (empty : β)
    (elem : DataStream host → Outcome (α × DataStream host)) (put : β → α → β) (junk : Stack) :
    Reader host β := fun _ s =>
  readTagged type (fun value s => do
    let (len, s) ← readLen (junk s.mPos 0 4) s
    let (value, s) ← readEach elem put len.toNat value s
    .ok (true, value, s)) empty s

/-- `T v; read(v);` -/
def readLocal {α : Type} (init : Junk → α) (read : Reader host α) (junk : Stack)
    (s : DataStream host) : Outcome (α × DataStream host) := do
  let (_, v, s) ← read (init (junk s.mPos)) s
  .ok (v, s)

/-- `K k; read(k); V v; read(v);` -/
def readPair {α β : Type} (fst : DataStream host → Outcome (α × DataStream host))
    (snd : DataStream host → Outcome (β × DataStream host)) (s : DataStream host) :
    Outcome ((α × β) × DataStream host) := do
  let (k, s) ← fst s
  let (v, s) ← snd s
  .ok ((k, v), s)

mutual

def STy.read {α : Type} (host : ByteOrder) (junk : Stack) : STy α → Reader host α
  | .bool => readBool
  | .char => readChar
  | .scalar σ => readScalar σ
  | .enum _ size => readEnum size
  | .string => fun value s => readString (junk s.mPos 0 4) value s
  | .vector elem => readVector elem junk
  | .list elem => readContainer .list [] (readLocal elem.init (elem.read host junk) junk)
      (fun value v => value ++ [v]) junk
  | .map cmp key val => readContainer .map (OrdMap.empty cmp _)
      (readPair (readLocal key.init (key.read host junk) junk)
        (readLocal val.init (val.read host junk) junk)) OrdMap.assign junk
  | .set cmp elem => readContainer .set (OrdSet.empty cmp)
      (readLocal elem.init (elem.read host junk) junk) OrdSet.insert junk
  | .custom _ args => fun value s => do
      let (type, s) ← s.read 1
      if type ≠ [DataType.custom.code] then .ok (false, value, s)
      else do
        let (_, value, s) ← args.read host junk value s
        .ok (true, value, s)

/-- `read_args`, which drops the result of every `read`. -/
def Args.read {α : Type} (host : ByteOrder) (junk : Stack) : Args α → Reader host α
  | .nil => fun value s => .ok (true, value, s)
  | .cons member assign head args => fun value s => do
      let (_, v, s) ← head.read host junk (member value) s
      args.read host junk (assign v value) s

end

end Serialize
end Cmw
