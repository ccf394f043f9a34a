import Cmw.Library.ByteImage
import Cmw.Library.Thread
import Cmw.Transport.Shm.ShmConf

/-!
# The shared memory of a channel

What the processes of a host share under the key of one channel: the System V
segments with what transport/shm/state.h and transport/shm/block.h keep in them, and
the notifications.  An `Op` is one atomic step on it.  The system answers as it
likes where the manual lets it fail, and a weak exchange may fail for no reason:
`ok` is false then.
-/

namespace Cmw
namespace Transport
namespace Shm

open Library.ByteImage
open Library.Thread

/-- The code that a call of the system stands in. -/
inductive Site
  | opening
  | remapToWrite (msgSize : Nat)
  | remapToRead (index : Nat)
  | recreate (msgSize : Nat)
  | creation
  | removal
  deriving DecidableEq, Repr

inductive Errno
  | EINVAL | EEXIST | other
  deriving DecidableEq, Repr

/-- A place in a segment. -/
structure Addr where
  segment : Nat
  offset : Nat
  deriving DecidableEq, Repr

def Addr.plus (a : Addr) (n : Nat) : Addr := { a with offset := a.offset + n }

structure ReadableInfo where
  hostId : BitVec 64 := 0
  blockIndex : Nat := 0
  channelId : BitVec 64 := 0
  deriving DecidableEq, Repr

inductive Op
  /-- `shmget(key_, conf_.managed_shm_size(), 0644 | IPC_CREAT | IPC_EXCL)` -/
  | create (conf : ShmConf)
  /-- `shmget(key_, 0, 0644)` -/
  | lookup (site : Site)
  | shmat (id : Nat) (site : Site)
  | shmdt (id : Nat)
  /-- `shmctl(shmid, IPC_RMID, 0)` -/
  | rmid (id : Nat)
  | newState (s : Nat) (ceilingMsgSize : Nat)
  | newBlocks (s : Nat) (blockNum : Nat)
  | ceilingMsgSize (s : Nat) (site : Site)
  | increaseReferenceCounts (s : Nat)
  /-- the load that `DecreaseReferenceCounts` starts with -/
  | loadReferenceCount (s : Nat)
  | exchangeReferenceCount (s : Nat) (expected : BitVec 32)
  | referenceCounts (s : Nat)
  | needRemap (s : Nat)
  | setNeedRemap (s : Nat) (need : Bool)
  | fetchAddSeq (s : Nat)
  | tryLockForWrite (s index : Nat)
  | loadLockNum (s index : Nat)
  /-- the exchange that adds a reader; `left` counts down the attempts -/
  | exchangeLockNum (s index : Nat) (expected : BitVec 32) (left : Nat)
  | releaseWriteLock (s index : Nat)
  | releaseReadLock (s index : Nat)
  | setMsgSize (s index msgSize : Nat)
  | setMsgInfoSize (s index msgInfoSize : Nat)
  | msgSize (s index : Nat)
  | write (a : Addr) (bytes : List Byte)
  | read (a : Addr) (len : Nat)
  | notify (info : ReadableInfo)
  /-- `Listen`, where it returns notification `n` -/
  | listen (n : Nat)

@[reducible] def Ans : Op → Type
  | .create _ => Except Errno Nat
  | .lookup _ => Option Nat
  | .shmat _ _ => Bool
  | .rmid _ => Bool
  | .ceilingMsgSize _ _ => Nat
  | .loadReferenceCount _ => BitVec 32
  | .exchangeReferenceCount _ _ => Bool × BitVec 32
  | .referenceCounts _ => BitVec 32
  | .needRemap _ => Bool
  | .fetchAddSeq _ => BitVec 32
  | .tryLockForWrite _ _ => Bool
  | .loadLockNum _ _ => BitVec 32
  | .exchangeLockNum _ _ _ _ => Bool
  | .msgSize _ _ => Nat
  | .read _ _ => List Byte
  | .notify _ => Bool
  | .listen _ => Option ReadableInfo
  | _ => Unit

@[reducible] def sig : Sig := { Op, Ans }

/-- A segment.  The system fills a new one with zeros. -/
structure ManagedShm where
  /-- what it was created for: its size is `conf.managedShmSize` -/
  conf : ShmConf := .default
  needRemap : Bool := false
  seq : BitVec 32 := 0
  referenceCount : BitVec 32 := 0
  ceilingMsgSize : Nat := 0
  lockNum : Nat → BitVec 32 := fun _ => 0
  msgSize : Nat → Nat := fun _ => 0
  msgInfoSize : Nat → Nat := fun _ => 0
  bytes : Nat → Byte := fun _ => 0

namespace ManagedShm

def kRWLockFree : BitVec 32 := 0

def kWriteExclusive : BitVec 32 := -1

def write (m : ManagedShm) (offset : Nat) (bs : List Byte) : ManagedShm :=
  { m with
    bytes := fun i =>
      if offset ≤ i ∧ i < offset + bs.length then bs.getD (i - offset) 0 else m.bytes i }

def read (m : ManagedShm) (offset len : Nat) : List Byte :=
  (List.range len).map fun i => m.bytes (offset + i)

end ManagedShm

structure Kernel where
  /-- the segment under the key of the channel -/
  key : Option Nat := none
  segments : Nat → ManagedShm := fun _ => {}
  /-- how many segments there have been -/
  count : Nat := 0
  shmmax : Nat := 2 ^ 64 - 2 ^ 24
  notices : List ReadableInfo := []

namespace Kernel

def update (k : Kernel) (s : Nat) (f : ManagedShm → ManagedShm) : Kernel :=
  { k with segments := Function.update k.segments s (f (k.segments s)) }

@[simp] theorem update_same (k : Kernel) (s : Nat) (f : ManagedShm → ManagedShm) :
    (k.update s f).segments s = f (k.segments s) := by
  simp [update]

theorem update_other (k : Kernel) {s t : Nat} (f : ManagedShm → ManagedShm) (h : t ≠ s) :
    (k.update s f).segments t = k.segments t := by
  simp [update, h]

theorem segments_update (k : Kernel) (s t : Nat) (f : ManagedShm → ManagedShm) :
    (k.update s f).segments t = if t = s then f (k.segments s) else k.segments t := by
  by_cases h : t = s
  · rw [if_pos h, h, update_same]
  · rw [if_neg h, update_other k f h]

/-- One step. -/
def exec (ok : Bool) (k : Kernel) : (o : Op) → Ans o × Kernel
  | .create conf =>
      match k.key with
      | some _ => (.error .EEXIST, k)
      | none =>
          if conf.managedShmSize > k.shmmax then (.error .EINVAL, k)
          else if ok then
            (.ok k.count,
              { k with
                key := some k.count
                segments := Function.update k.segments k.count { conf }
                count := k.count + 1 })
          else (.error .other, k)
  | .lookup _ => (if ok then k.key else none, k)
  | .shmat _ _ => (ok, k)
  | .shmdt _ => ((), k)
  | .rmid id => (ok, if ok ∧ k.key = some id then { k with key := none } else k)
  | .newState s ceilingMsgSize =>
      ((), k.update s fun m =>
        { m with needRemap := false, seq := 0, referenceCount := 0, ceilingMsgSize })
  | .newBlocks s blockNum =>
      ((), k.update s fun m =>
        { m with
          lockNum := fun i => if i < blockNum then 0 else m.lockNum i
          msgSize := fun i => if i < blockNum then 0 else m.msgSize i
          msgInfoSize := fun i => if i < blockNum then 0 else m.msgInfoSize i })
  | .ceilingMsgSize s _ => ((k.segments s).ceilingMsgSize, k)
  | .increaseReferenceCounts s =>
      ((), k.update s fun m => { m with referenceCount := m.referenceCount + 1 })
  | .loadReferenceCount s => ((k.segments s).referenceCount, k)
  | .exchangeReferenceCount s expected =>
      if (k.segments s).referenceCount = expected then
        ((true, expected), k.update s fun m => { m with referenceCount := expected - 1 })
      else ((false, (k.segments s).referenceCount), k)
  | .referenceCounts s => ((k.segments s).referenceCount, k)
  | .needRemap s => ((k.segments s).needRemap, k)
  | .setNeedRemap s need => ((), k.update s fun m => { m with needRemap := need })
  | .fetchAddSeq s => ((k.segments s).seq, k.update s fun m => { m with seq := m.seq + 1 })
  | .tryLockForWrite s index =>
      if (k.segments s).lockNum index = ManagedShm.kRWLockFree ∧ ok then
        (true, k.update s fun m =>
          { m with lockNum := Function.update m.lockNum index ManagedShm.kWriteExclusive })
      else (false, k)
  | .loadLockNum s index => ((k.segments s).lockNum index, k)
  | .exchangeLockNum s index expected _ =>
      if (k.segments s).lockNum index = expected ∧ ok then
        (true, k.update s fun m =>
          { m with lockNum := Function.update m.lockNum index (expected + 1) })
      else (false, k)
  | .releaseWriteLock s index =>
      ((), k.update s fun m =>
        { m with lockNum := Function.update m.lockNum index (m.lockNum index + 1) })
  | .releaseReadLock s index =>
      ((), k.update s fun m =>
        { m with lockNum := Function.update m.lockNum index (m.lockNum index - 1) })
  | .setMsgSize s index msgSize =>
      ((), k.update s fun m => { m with msgSize := Function.update m.msgSize index msgSize })
  | .setMsgInfoSize s index msgInfoSize =>
      ((), k.update s fun m =>
        { m with msgInfoSize := Function.update m.msgInfoSize index msgInfoSize })
  | .msgSize s index => ((k.segments s).msgSize index, k)
  | .write a bytes => ((), k.update a.segment fun m => m.write a.offset bytes)
  | .read a len => ((k.segments a.segment).read a.offset len, k)
  | .notify info => (true, { k with notices := k.notices ++ [info] })
  | .listen n => (k.notices[n]?, k)

end Kernel
end Shm
end Transport
end Cmw
