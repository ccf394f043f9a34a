import Cmw.Transport.Shm.Kernel

/-!
# The segment of a channel

transport/shm/segment.cpp and transport/shm/xsi_segment.cpp, with the loops of
transport/shm/block.cpp and transport/shm/state.h.  Checks of a `new` in place for null
are left out, as it never is.  `fuel` bounds the loops that have no bound in the source.
-/

namespace Cmw
namespace Transport
namespace Shm

open Library.Thread

/-- `managed_shm_`, with the `(void*)-1` that a failed `shmat` leaves there. -/
inductive Mapping
  | null | failed | mapped (segment : Nat)
  deriving DecidableEq, Repr

/-- One process's view of the segment. -/
structure XsiSegment where
  init : Bool := false
  conf : ShmConf := .default
  state : Option Nat := none
  blocks : Option Nat := none
  managedShm : Mapping := .null
  blockBufAddrs : Nat → Option Addr := fun _ => none

structure WritableBlock where
  index : Nat := 0
  /-- the segment of the block that is pointed to, and its place in `blocks_` -/
  block : Option (Nat × Nat) := none
  buf : Option Addr := none
  deriving DecidableEq, Repr

abbrev ReadableBlock := WritableBlock

def sizeofState : Nat := 32
def sizeofBlock : Nat := 32

/-- Where the buffer of block `i` lies. -/
def ShmConf.bufOffset (c : ShmConf) (i : Nat) : Nat :=
  sizeofState + c.blockNum * sizeofBlock + i * c.blockBufSize

abbrev ShmCode := Code sig XsiSegment

open Code (ask deref crash hang)

def Op.get (o : Op) : ShmCode (Ans o) := ask (S := sig) o

namespace State

def decreaseFrom (s : Nat) : Nat → BitVec 32 → ShmCode Unit
  | 0, _ => hang
  | fuel + 1, current =>
      if current = 0 then pure ()
      else do
        let (exchanged, found) ← (Op.exchangeReferenceCount s current).get
        if exchanged then pure () else decreaseFrom s fuel found

def decreaseReferenceCounts (fuel s : Nat) : ShmCode Unit := do
  let current ← (Op.loadReferenceCount s).get
  decreaseFrom s fuel current

end State

namespace Block

def kMaxTryLockTimes : Nat := 5

def tryReadFrom (s index : Nat) : Nat → BitVec 32 → ShmCode Bool
  | 0, _ => pure false
  | left + 1, lockNum => do
      let exchanged ← (Op.exchangeLockNum s index lockNum left).get
      if exchanged then pure true
      else if left = 0 then pure false
      else do
        let lockNum ← (Op.loadLockNum s index).get
        if lockNum.slt ManagedShm.kRWLockFree then pure false
        else tryReadFrom s index left lockNum

def tryLockForRead (s index : Nat) : ShmCode Bool := do
  let lockNum ← (Op.loadLockNum s index).get
  if lockNum.slt ManagedShm.kRWLockFree then pure false
  else tryReadFrom s index kMaxTryLockTimes lockNum

end Block

namespace XsiSegment

/-! ### transport/shm/xsi_segment.cpp -/

def reset : ShmCode Unit := do
  modify fun x => { x with state := none, blocks := none, blockBufAddrs := fun _ => none }
  let x ← get
  match x.managedShm with
  | .null => pure ()
  -- `shmdt` refuses the address
  | .failed => modify fun x => { x with managedShm := .null }
  | .mapped s => do
      (Op.shmdt s).get
      modify fun x => { x with managedShm := .null }

def remove : ShmCode Bool := do
  let shmid ← (Op.lookup .removal).get
  match shmid with
  | none => pure false
  | some shmid => (Op.rmid shmid).get

/-- The layout of segment `s` by `conf`: `blocks_` and `block_buf_addrs_`. -/
def layOut (s : Nat) (conf : ShmConf) (x : XsiSegment) : XsiSegment :=
  { x with
    conf
    blocks := some s
    blockBufAddrs := fun i =>
      if i < conf.blockNum then some ⟨s, conf.bufOffset i⟩ else x.blockBufAddrs i }

def openOnly (site : Site) : ShmCode Bool := do
  let x ← get
  if x.init then pure true
  else do
    let shmid ← (Op.lookup site).get
    match shmid with
    | none => pure false
    | some shmid => do
        let attached ← (Op.shmat shmid site).get
        if attached then do
          modify fun x => { x with managedShm := .mapped shmid, state := some shmid }
          let ceiling ← (Op.ceilingMsgSize shmid site).get
          modify (layOut shmid (.update ceiling))
          (Op.increaseReferenceCounts shmid).get
          modify fun x => { x with init := true }
          pure true
        else do
          modify fun x => { x with managedShm := .failed }
          pure false

/-- `OpenOrCreate` from its `shmat` on. -/
def setUp (shmid : Nat) : ShmCode Bool := do
  let attached ← (Op.shmat shmid .creation).get
  if attached then do
    modify fun x => { x with managedShm := .mapped shmid }
    let x ← get
    (Op.newState shmid x.conf.ceilingMsgSize).get
    modify fun x => { x with state := some shmid }
    let ceiling ← (Op.ceilingMsgSize shmid .creation).get
    (Op.newBlocks shmid (ShmConf.update ceiling).blockNum).get
    modify (layOut shmid (.update ceiling))
    (Op.increaseReferenceCounts shmid).get
    modify fun x => { x with init := true }
    pure true
  else do
    modify fun x => { x with managedShm := .failed }
    let _ ← (Op.rmid shmid).get
    pure false

/-- The loop of `OpenOrCreate`; `site` is for its `OpenOnly`. -/
def createFrom (site : Site) : Nat → ShmCode Bool
  | 0 => pure false
  | retry + 1 => do
      let x ← get
      let shmid ← (Op.create x.conf).get
      match shmid with
      | .ok shmid => setUp shmid
      | .error .EINVAL => do
          reset
          let _ ← remove
          createFrom site retry
      | .error .EEXIST => openOnly site
      | .error .other => pure false

def openOrCreate (site : Site) : ShmCode Bool := do
  let x ← get
  if x.init then pure true else createFrom site 2

/-! ### transport/shm/segment.cpp -/

def destroy (fuel : Nat) : ShmCode Bool := do
  let x ← get
  if !x.init then pure true
  else do
    modify fun x => { x with init := false }
    let state ← deref x.state
    State.decreaseReferenceCounts fuel state
    let referenceCounts ← (Op.referenceCounts state).get
    if referenceCounts = 0 then remove else pure true

def remap (site : Site) : ShmCode Bool := do
  modify fun x => { x with init := false }
  reset
  openOnly site

def recreate (msgSize : Nat) : ShmCode Bool := do
  modify fun x => { x with init := false }
  let x ← get
  let state ← deref x.state
  (Op.setNeedRemap state true).get
  reset
  let _ ← remove
  modify fun x => { x with conf := .update msgSize }
  openOrCreate (.recreate msgSize)

def nextWritableFrom (blockNum : Nat) : Nat → ShmCode Nat
  | 0 => hang
  | fuel + 1 => do
      let x ← get
      let state ← deref x.state
      let seq ← (Op.fetchAddSeq state).get
      let tryIdx := seq.toNat % blockNum
      let blocks ← deref x.blocks
      let locked ← (Op.tryLockForWrite blocks tryIdx).get
      if locked then pure tryIdx else nextWritableFrom blockNum fuel

def getNextWritableBlockIndex (fuel : Nat) : ShmCode Nat := do
  let x ← get
  nextWritableFrom x.conf.blockNum fuel

/-- `init_ || Open...()` -/
def ensureOpen (openIt : ShmCode Bool) : ShmCode Bool := do
  let x ← get
  if x.init then pure true else openIt

def remapIfNeeded (site : Site) : ShmCode Bool := do
  let x ← get
  let state ← deref x.state
  let needRemap ← (Op.needRemap state).get
  if needRemap then remap site else pure true

/-- For a message above the ceiling `result`, of `Remap`, is lost. -/
def recreateIfLarger (msgSize : Nat) (result : Bool) : ShmCode Bool := do
  let x ← get
  if msgSize > x.conf.ceilingMsgSize then recreate msgSize else pure result

def takeWritable (fuel : Nat) : ShmCode (Bool × WritableBlock) := do
  let index ← getNextWritableBlockIndex fuel
  let x ← get
  pure (true, { index, block := x.blocks.map fun s => (s, index), buf := x.blockBufAddrs index })

def acquireOpenedToWrite (fuel msgSize : Nat) : ShmCode (Bool × WritableBlock) := do
  let result ← remapIfNeeded (.remapToWrite msgSize)
  let result ← recreateIfLarger msgSize result
  if !result then pure (false, {}) else takeWritable fuel

/-- `AcquireBlockToWrite(msg_size, writable_block)`: what it returns, and the block. -/
def acquireBlockToWrite (fuel msgSize : Nat) : ShmCode (Bool × WritableBlock) := do
  let opened ← ensureOpen (openOrCreate .opening)
  if !opened then pure (false, {}) else acquireOpenedToWrite fuel msgSize

def releaseWrittenBlock (writableBlock : WritableBlock) : ShmCode Unit := do
  let x ← get
  if writableBlock.index ≥ x.conf.blockNum then pure ()
  else do
    let blocks ← deref x.blocks
    (Op.releaseWriteLock blocks writableBlock.index).get

def takeReadable (index : Nat) : ShmCode (Bool × ReadableBlock) := do
  let x ← get
  let blocks ← deref x.blocks
  let locked ← Block.tryLockForRead blocks index
  if !locked then pure (false, { index })
  else pure (true, { index, block := some (blocks, index), buf := x.blockBufAddrs index })

/-- The index is tested before `Remap`. -/
def acquireOpenedToRead (index : Nat) : ShmCode (Bool × ReadableBlock) := do
  let x ← get
  if index ≥ x.conf.blockNum then pure (false, { index })
  else do
    let result ← remapIfNeeded (.remapToRead index)
    if !result then pure (false, { index }) else takeReadable index

/-- `AcquireBlockToRead(readable_block)` for a block of this index. -/
def acquireBlockToRead (index : Nat) : ShmCode (Bool × ReadableBlock) := do
  let opened ← ensureOpen (openOnly .opening)
  if !opened then pure (false, { index }) else acquireOpenedToRead index

def releaseReadBlock (readableBlock : ReadableBlock) : ShmCode Unit := do
  let x ← get
  if readableBlock.index ≥ x.conf.blockNum then pure ()
  else do
    let blocks ← deref x.blocks
    (Op.releaseReadLock blocks readableBlock.index).get

end XsiSegment

/-! ### The public functions -/

/-- What a process may call. -/
inductive SegmentCall
  | acquireBlockToWrite (fuel msgSize : Nat)
  | releaseWrittenBlock (writableBlock : WritableBlock)
  | acquireBlockToRead (index : Nat)
  | releaseReadBlock (readableBlock : ReadableBlock)
  | destroy (fuel : Nat)

inductive SegmentAnswer
  | constructed
  | toWrite (msgSize : Nat) (result : Bool × WritableBlock)
  | toRead (index : Nat) (result : Bool × ReadableBlock)
  | released
  | destroyed (result : Bool)

def SegmentCall.body : SegmentCall → ShmCode SegmentAnswer
  | acquireBlockToWrite fuel msgSize => do
      let result ← XsiSegment.acquireBlockToWrite fuel msgSize
      pure (.toWrite msgSize result)
  | releaseWrittenBlock writableBlock => do
      XsiSegment.releaseWrittenBlock writableBlock
      pure .released
  | acquireBlockToRead index => do
      let result ← XsiSegment.acquireBlockToRead index
      pure (.toRead index result)
  | releaseReadBlock readableBlock => do
      XsiSegment.releaseReadBlock readableBlock
      pure .released
  | destroy fuel => do
      let result ← XsiSegment.destroy fuel
      pure (.destroyed result)

theorem ends_op {κ : Type} {exec : (o : Op) → κ → Ans o × κ} {r : XsiSegment} {s : κ}
    {o : Op} {Q : XsiSegment → Ans o → κ → Prop} :
    Prog.Ends (S := sig) exec Q (o.get r) s ↔ Q r (exec o s).1 (exec o s).2 := Iff.rfl

end Shm
end Transport
end Cmw
