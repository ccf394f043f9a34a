import Cmw.Transport.Endpoint

/-!
# Transmitting

transport/transmitter/rtps_transmitter.h, with what it takes from
transport/transmitter/transmitter.h.  The requests of the single readers fall back
on the one switch of the transmitter.
-/

namespace Cmw
namespace Transport

open Config
open Library.ByteImage
open Serialize

/-- What comes of `createRTPSWriter` and `registerWriter`. -/
inductive WriterAnswer
  | null | created | registered
  deriving DecidableEq, Repr

structure RtpsTransmitter where
  id : Identity
  attr : RoleAttributes
  enabled : Bool := false
  seqNum : BitVec 64 := 0
  msgInfo : MessageInfo
  rtpsWriter : Bool := false
  rtpsWriter_of_enabled : enabled = true → rtpsWriter = true
  deriving DecidableEq

structure Sample where
  writerGuid : List Byte
  high : BitVec 32
  low : BitVec 32
  payload : List Byte
  deriving DecidableEq, Repr

structure Transmission where
  transmitter : RtpsTransmitter
  result : Bool
  sample : Option Sample := none
  deriving DecidableEq

namespace RtpsTransmitter

/-- `RtpsTransmitter(attr, participant)`; `id` is the identity generated for it. -/
def new (attr : RoleAttributes) (hostName : Str) (processId : BitVec 32) (id : Identity) :
    RtpsTransmitter :=
  { id
    attr := endpointAttr attr hostName processId id.hashValue
    msgInfo := { senderId := id }
    rtpsWriter_of_enabled := fun h => absurd h Bool.false_ne_true }

def enable (t : RtpsTransmitter) (answer : WriterAnswer) : RtpsTransmitter :=
  if t.enabled then t
  else
    match answer with
    | .null =>
        { t with enabled := false, rtpsWriter := false, rtpsWriter_of_enabled := fun h => h }
    | .created =>
        { t with enabled := false, rtpsWriter := true, rtpsWriter_of_enabled := fun _ => rfl }
    | .registered =>
        { t with enabled := true, rtpsWriter := true, rtpsWriter_of_enabled := fun _ => rfl }

def disable (t : RtpsTransmitter) : RtpsTransmitter :=
  if t.enabled then
    { t with enabled := false, rtpsWriter := false, rtpsWriter_of_enabled := fun h => h }
  else t

/-- `Enable(opposite_attr)` -/
def enableTo (t : RtpsTransmitter) (_ : RoleAttributes) (answer : WriterAnswer) : RtpsTransmitter :=
  t.enable answer

/-- `Disable(opposite_attr)` -/
def disableFrom (t : RtpsTransmitter) (_ : RoleAttributes) : RtpsTransmitter := t.disable

/-- `Transmit(msg)` of a participant that may have been shut down. -/
def transmit {μ : Type} (host : ByteOrder) (t : RtpsTransmitter) (type : STy μ) (msg : μ)
    (isShutdown : Bool) : Outcome Transmission :=
  let seqNum := t.seqNum + 1
  let msgInfo := { t.msgInfo with seqNum }
  let t := { t with seqNum, msgInfo }
  if !t.enabled then .ok { transmitter := t, result := false }
  else do
    let ds ← type.write host msg (DataStream.new host)
    .ok
      { transmitter := t
        result := !isShutdown
        sample := some
          { writerGuid := msgInfo.senderId.data.toList ++ msgInfo.spareId.data.toList
            high := (seqNum >>> 32).setWidth 32
            low := seqNum.setWidth 32
            payload := ds.mBuf } }

/-- No message is refused. -/
def Accepts (t : RtpsTransmitter) : Prop :=
  ∀ {μ : Type} (host : ByteOrder) (type : STy μ) (msg : μ) (isShutdown : Bool)
    (transmission : Transmission), t.transmit host type msg isShutdown = .ok transmission →
      transmission.sample ≠ none

theorem enable_of_enabled {t : RtpsTransmitter} (h : t.enabled = true) (answer : WriterAnswer) :
    t.enable answer = t := if_pos h

theorem enabled_enable (t : RtpsTransmitter) (answer : WriterAnswer) :
    (t.enable answer).enabled = (t.enabled || answer == .registered) := by
  by_cases h : t.enabled = true
  · rw [enable_of_enabled h, h, Bool.true_or]
  · have hoff : t.enabled = false := Bool.not_eq_true _ ▸ h
    rw [enable.eq_def, if_neg h, hoff, Bool.false_or]
    cases answer <;> rfl

theorem enabled_disable (t : RtpsTransmitter) : t.disable.enabled = false := by
  by_cases h : t.enabled = true
  · rw [disable.eq_def, if_pos h]
  · rw [disable.eq_def, if_neg h]
    exact Bool.not_eq_true _ ▸ h

theorem accepts_iff (t : RtpsTransmitter) : t.Accepts ↔ t.enabled = true := by
  constructor
  · intro h
    by_contra hoff
    rw [Bool.not_eq_true] at hoff
    have hrefuses : (!t.enabled) = true := by rw [hoff]; rfl
    exact h .littleEndian .bool true false _ (if_pos hrefuses) rfl
  · intro hon μ host type msg isShutdown transmission hsent
    have hpasses : ¬(!t.enabled) = true := by rw [hon]; decide
    obtain ⟨ds, -, hds⟩ := of_bind_ok ((if_neg hpasses).symm.trans hsent)
    cases hds
    exact Option.some_ne_none _

end RtpsTransmitter

end Transport
end Cmw
