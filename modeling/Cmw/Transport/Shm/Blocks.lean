import Cmw.Transport.Shm.Message
import Mathlib.Data.Nat.ModEq

/-!
# What a block holds

The bytes of a segment, block by block: a write into the buffer of one block changes
no other, and after the writes of `Transmit` a block holds the message and its
information.
-/

namespace Cmw
namespace Transport
namespace Shm

open Library.ByteImage

namespace ManagedShm

theorem read_congr {m n : ManagedShm} {o len : Nat}
    (h : ∀ i, o ≤ i → i < o + len → n.bytes i = m.bytes i) : n.read o len = m.read o len := by
  refine List.map_congr_left fun i hi => ?_
  have hi : i < len := List.mem_range.mp hi
  exact h (o + i) (by omega) (by omega)

theorem write_bytes_outside {m : ManagedShm} {o i : Nat} {bs : List Byte}
    (h : i < o ∨ o + bs.length ≤ i) : (m.write o bs).bytes i = m.bytes i :=
  if_neg (by omega)

theorem read_write_same {m : ManagedShm} {o len : Nat} {bs : List Byte} (h : bs.length = len) :
    (m.write o bs).read o len = bs := by
  subst h
  refine List.ext_getElem (by simp [read]) fun i _ hi => ?_
  simp [read, write, hi]

theorem read_write_disjoint {m : ManagedShm} {o o' len : Nat} {bs : List Byte}
    (h : o' + len ≤ o ∨ o + bs.length ≤ o') : (m.write o bs).read o' len = m.read o' len :=
  read_congr fun _ _ _ => write_bytes_outside (by omega)

end ManagedShm

/-! ### The blocks of a segment -/

def InBlock (c : ShmConf) (b i : Nat) : Prop :=
  c.bufOffset b ≤ i ∧ i < c.bufOffset b + c.blockBufSize

theorem bufOffset_le {c : ShmConf} {b b' : Nat} (h : b < b') :
    c.bufOffset b + c.blockBufSize ≤ c.bufOffset b' := by
  have hmul : (b + 1) * c.blockBufSize ≤ b' * c.blockBufSize := Nat.mul_le_mul_right _ h
  simp only [ShmConf.bufOffset]
  rw [Nat.succ_mul] at hmul
  omega

theorem InBlock.unique {c : ShmConf} {b b' i : Nat} (h : InBlock c b i) (h' : InBlock c b' i) :
    b = b' := by
  obtain ⟨hle, hlt⟩ := h
  obtain ⟨hle', hlt'⟩ := h'
  rcases Nat.lt_trichotomy b b' with hbb | hbb | hbb
  · have := bufOffset_le (c := c) hbb
    omega
  · exact hbb
  · have := bufOffset_le (c := c) hbb
    omega

/-- A write of so many bytes stays in the buffer of the block. -/
def Fits (c : ShmConf) (b o len : Nat) : Prop :=
  c.bufOffset b ≤ o ∧ o + len ≤ c.bufOffset b + c.blockBufSize

/-- Block `b` is the same in both. -/
structure SameBlock (c : ShmConf) (b : Nat) (m n : ManagedShm) : Prop where
  msgSize : n.msgSize b = m.msgSize b
  msgInfoSize : n.msgInfoSize b = m.msgInfoSize b
  bytes : ∀ i, InBlock c b i → n.bytes i = m.bytes i

namespace SameBlock

variable {c : ShmConf} {b : Nat} {m n p : ManagedShm}

theorem refl : SameBlock c b m m := ⟨rfl, rfl, fun _ _ => rfl⟩

theorem trans (h : SameBlock c b m n) (h' : SameBlock c b n p) : SameBlock c b m p :=
  ⟨h'.msgSize.trans h.msgSize, h'.msgInfoSize.trans h.msgInfoSize,
    fun i hi => (h'.bytes i hi).trans (h.bytes i hi)⟩

theorem read (h : SameBlock c b m n) {o len : Nat} (ho : Fits c b o len) :
    n.read o len = m.read o len := by
  refine ManagedShm.read_congr fun i hi hi' => h.bytes i ⟨?_, ?_⟩
  · exact Nat.le_trans ho.1 hi
  · exact Nat.lt_of_lt_of_le hi' ho.2

theorem write (h : SameBlock c b m n) (o : Nat) (bs : List Byte) :
    SameBlock c b (m.write o bs) (n.write o bs) := by
  refine ⟨h.msgSize, h.msgInfoSize, fun i hi => ?_⟩
  simp only [ManagedShm.write, h.bytes i hi]

theorem setMsgSize (h : SameBlock c b m n) (size : Nat) :
    SameBlock c b { m with msgSize := Function.update m.msgSize b size }
      { n with msgSize := Function.update n.msgSize b size } :=
  ⟨by simp, h.msgInfoSize, h.bytes⟩

theorem setMsgInfoSize (h : SameBlock c b m n) (size : Nat) :
    SameBlock c b { m with msgInfoSize := Function.update m.msgInfoSize b size }
      { n with msgInfoSize := Function.update n.msgInfoSize b size } :=
  ⟨h.msgSize, by simp, h.bytes⟩

/-- A write into another block. -/
theorem of_write {b' o : Nat} {bs : List Byte} (hb : b' ≠ b) (ho : Fits c b o bs.length) :
    SameBlock c b' m (m.write o bs) := by
  refine ⟨rfl, rfl, fun i hi => ManagedShm.write_bytes_outside ?_⟩
  by_contra hin
  exact hb (hi.unique ⟨by have := ho.1; omega, by have := ho.2; omega⟩)

end SameBlock

/-! ### A message in a block -/

/-- What a transmitter is called with. -/
structure Sending where
  msg : List Byte := []
  info : MessageInfo := {}

/-- So many listeners are given the message, and its information. -/
structure Delivery.Carries (d : Delivery) (s : Sending) (listeners : Nat) : Prop where
  senderId : d.msgInfo.senderId.data = s.info.senderId.data
  spareId : d.msgInfo.spareId.data = s.info.spareId.data
  seqNum : d.msgInfo.seqNum = s.info.seqNum
  payloads : d.payloads = List.replicate listeners s.msg

/-- The block holds the message and its information. -/
structure Stored (order : ByteOrder) (c : ShmConf) (b : Nat) (s : Sending) (m : ManagedShm) :
    Prop where
  msgSize : m.msgSize b = s.msg.length
  msgInfoSize : m.msgInfoSize b = idSize * 2 + 8
  msg : m.read (c.bufOffset b) s.msg.length = s.msg
  senderId : m.read (c.bufOffset b + s.msg.length) idSize = s.info.senderId.data.toList
  spareId : m.read (c.bufOffset b + s.msg.length + idSize) idSize = s.info.spareId.data.toList
  seqNum : m.read (c.bufOffset b + s.msg.length + idSize * 2) 8 = image order (k := 8) s.info.seqNum

theorem fits_msgInfo {c : ShmConf} {b n o len : Nat} (hn : n ≤ c.ceilingMsgSize)
    (ho : o + len ≤ idSize * 2 + 8) : Fits c b (c.bufOffset b + n + o) len := by
  refine ⟨by omega, ?_⟩
  simp only [ShmConf.blockBufSize, ShmConf.getBlockBufSize, ShmConf.messageInfoSize]
  simp only [idSize] at ho
  omega

theorem fits_msg {c : ShmConf} {b n : Nat} (hn : n ≤ c.ceilingMsgSize) :
    Fits c b (c.bufOffset b) n := by
  refine ⟨Nat.le_refl _, ?_⟩
  simp only [ShmConf.blockBufSize, ShmConf.getBlockBufSize]
  omega

theorem Stored.of_same {order : ByteOrder} {c : ShmConf} {b : Nat} {s : Sending}
    {m n : ManagedShm} (h : Stored order c b s m) (hs : s.msg.length ≤ c.ceilingMsgSize)
    (hmn : SameBlock c b m n) : Stored order c b s n where
  msgSize := hmn.msgSize.trans h.msgSize
  msgInfoSize := hmn.msgInfoSize.trans h.msgInfoSize
  msg := (hmn.read (fits_msg hs)).trans h.msg
  senderId := (hmn.read (fits_msgInfo (o := 0) hs (by decide))).trans h.senderId
  spareId := (hmn.read (fits_msgInfo hs (by decide))).trans h.spareId
  seqNum := (hmn.read (fits_msgInfo hs (by decide))).trans h.seqNum

/-- The segment after the writes of `Transmit` into block `b`. -/
def transmitted (order : ByteOrder) (c : ShmConf) (b : Nat) (s : Sending) (m : ManagedShm) :
    ManagedShm :=
  let m := m.write (c.bufOffset b) s.msg
  let m := { m with msgSize := Function.update m.msgSize b s.msg.length }
  let m := m.write (c.bufOffset b + s.msg.length) s.info.senderId.data.toList
  let m := m.write (c.bufOffset b + s.msg.length + idSize) s.info.spareId.data.toList
  let m := m.write (c.bufOffset b + s.msg.length + idSize * 2) (image order (k := 8) s.info.seqNum)
  { m with msgInfoSize := Function.update m.msgInfoSize b (idSize * 2 + 8) }

theorem transmitted_read (order : ByteOrder) (c : ShmConf) (b : Nat) (s : Sending) (m : ManagedShm)
    (o len : Nat) : (transmitted order c b s m).read o len =
      ((((m.write (c.bufOffset b) s.msg).write (c.bufOffset b + s.msg.length)
        s.info.senderId.data.toList).write (c.bufOffset b + s.msg.length + idSize)
        s.info.spareId.data.toList).write (c.bufOffset b + s.msg.length + idSize * 2)
        (image order (k := 8) s.info.seqNum)).read o len :=
  ManagedShm.read_congr fun _ _ _ => rfl

/-- The four writes follow each other, so each is read back. -/
theorem stored_transmitted (order : ByteOrder) (c : ShmConf) (b : Nat) (s : Sending)
    (m : ManagedShm) : Stored order c b s (transmitted order c b s m) := by
  have hsender : s.info.senderId.data.toList.length = idSize := Vector.length_toList
  have hspare : s.info.spareId.data.toList.length = idSize := Vector.length_toList
  have hseq : (image order (k := 8) s.info.seqNum).length = 8 := image_length order _
  refine ⟨by simp [transmitted, ManagedShm.write], by simp [transmitted], ?_, ?_, ?_, ?_⟩
  · rw [transmitted_read, ManagedShm.read_write_disjoint (.inl (by omega)),
      ManagedShm.read_write_disjoint (.inl (by omega)),
      ManagedShm.read_write_disjoint (.inl (by omega)), ManagedShm.read_write_same rfl]
  · rw [transmitted_read, ManagedShm.read_write_disjoint (.inl (by omega)),
      ManagedShm.read_write_disjoint (.inl (by omega)), ManagedShm.read_write_same hsender]
  · rw [transmitted_read, ManagedShm.read_write_disjoint (.inl (by omega))]
    exact ManagedShm.read_write_same hspare
  · exact ManagedShm.read_write_same hseq

end Shm
end Transport
end Cmw
