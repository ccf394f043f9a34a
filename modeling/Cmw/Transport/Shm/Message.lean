import Cmw.Transport.Endpoint
import Cmw.Transport.Shm.Segment

/-!
# Messages in shared memory

`ShmTransmitter::Transmit` of transport/transmitter/shm_transmitter.h writes a message
and its information into a block; `ShmDispatcher::ReadMessage` of
transport/dispatcher/shm_dispatcher.cpp reads them.  A message is here what the
serializer has left in `ds`.
-/

namespace Cmw
namespace Transport
namespace Shm

open Library.ByteImage
open Library.Thread
open Code (deref)
open XsiSegment

structure ShmTransmitter where
  hostId : BitVec 64
  channelId : BitVec 64
  enabled : Bool := false
  deriving DecidableEq, Repr

def idSize : Nat := 8

variable (order : ByteOrder)

/-- `Transmit(msg, msg_info)` -/
def ShmTransmitter.transmit (t : ShmTransmitter) (fuel : Nat) (msg : List Byte)
    (info : MessageInfo) : ShmCode Bool :=
  if !t.enabled then pure false
  else do
    let (acquired, wb) ← acquireBlockToWrite fuel msg.length
    if !acquired then pure false
    else do
      let buf ← deref wb.buf
      (Op.write buf msg).get
      let (s, index) ← deref wb.block
      (Op.setMsgSize s index msg.length).get
      let msgInfoAddr := buf.plus msg.length
      (Op.write msgInfoAddr info.senderId.data.toList).get
      (Op.write (msgInfoAddr.plus idSize) info.spareId.data.toList).get
      (Op.write (msgInfoAddr.plus (idSize * 2)) (image order (k := 8) info.seqNum)).get
      (Op.setMsgInfoSize s index (idSize * 2 + 8)).get
      releaseWrittenBlock wb
      (Op.notify { hostId := t.hostId, blockIndex := wb.index, channelId := t.channelId }).get

/-- What the listeners of a message are given. -/
structure Delivery where
  msgInfo : MessageInfo
  payloads : List (List Byte)

/-- `OnMessage`, which runs so many listeners: each reads the message for itself. -/
def onMessage (s index : Nat) (buf : Addr) : Nat → ShmCode (List (List Byte))
  | 0 => pure []
  | listeners + 1 => do
      let msgSize ← (Op.msgSize s index).get
      let payload ← (Op.read buf msgSize).get
      let payloads ← onMessage s index buf listeners
      pure (payload :: payloads)

/-- `ReadMessage` once the block is acquired, or not. -/
def readBlock (listeners : Nat) (rb : ReadableBlock) : ShmCode Delivery := do
  let (s, index) ← deref rb.block
  let msgSize ← (Op.msgSize s index).get
  let buf ← deref rb.buf
  let msgInfoAddr := buf.plus msgSize
  let senderId ← (Op.read msgInfoAddr idSize).get
  let spareId ← (Op.read (msgInfoAddr.plus idSize) idSize).get
  let seqNum ← (Op.read (msgInfoAddr.plus (2 * idSize)) 8).get
  let msgInfo : MessageInfo :=
    { senderId := Identity.zero.copyIn senderId
      spareId := Identity.zero.copyIn spareId
      seqNum := ofImage 8 order seqNum }
  let payloads ← onMessage s index buf listeners
  releaseReadBlock rb
  pure { msgInfo, payloads }

/-- `ReadMessage(channel_id, block_index)`.  A block that was not acquired is logged, and
used all the same. -/
def readMessage (listeners index : Nat) : ShmCode Delivery := do
  let acquired ← acquireBlockToRead index
  readBlock order listeners acquired.2

/-- A dispatcher that has a segment for one channel. -/
structure ShmDispatcher where
  hostId : BitVec 64
  channelId : BitVec 64
  deriving DecidableEq, Repr

/-- A round of `ThreadFunc`, where `Listen` returns notification `n`. -/
def ShmDispatcher.receive (d : ShmDispatcher) (listeners n : Nat) : ShmCode (Option Delivery) := do
  let readableInfo ← (Op.listen n).get
  match readableInfo with
  | none => pure none
  | some readableInfo =>
      if readableInfo.hostId ≠ d.hostId then pure none
      else if readableInfo.channelId ≠ d.channelId then pure none
      else do
        let delivery ← readMessage order listeners readableInfo.blockIndex
        pure (some delivery)

end Shm
end Transport
end Cmw
