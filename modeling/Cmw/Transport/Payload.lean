import Cmw.Discovery.Replication
import Cmw.Serialize.Size
import Cmw.Transport.Transmitter

/-!
# What fits into a change

A writer's history is configured by transport/rtps/attributes_filler.cpp, and the changes
that it gives out have payloads of `payloadMaxSize` bytes.  `Transmit` and `Write` copy the
whole of a serialized message into one.
-/

namespace Cmw
namespace Transport

open Config
open Discovery
open Library.ByteImage
open Serialize

/-! ### The attributes of a writer -/

inductive TopicKind
  | noKey | withKey
  deriving DecidableEq, Repr

inductive ReliabilityKind
  | bestEffort | reliable
  deriving DecidableEq, Repr

inductive DurabilityKind
  | volatile | transientLocal | transient | persistent
  deriving DecidableEq, Repr

inductive HistoryKind
  | keepLast | keepAll
  deriving DecidableEq, Repr

structure HistoryAttributes where
  payloadMaxSize : BitVec 32
  maximumReservedCaches : BitVec 32
  deriving DecidableEq, Repr

structure WriterAttributes where
  reliabilityKind : ReliabilityKind
  heartbeatSeconds : BitVec 32
  heartbeatNanosec : BitVec 32
  deriving DecidableEq, Repr

structure WriterQos where
  durability : DurabilityKind
  reliability : ReliabilityKind
  deriving DecidableEq, Repr

structure TopicAttributes where
  topicName : Str
  topicDataType : Str
  topicKind : TopicKind
  historyKind : HistoryKind
  historyDepth : BitVec 32
  deriving DecidableEq, Repr

structure RtpsWriterAttributes where
  hatt : HistoryAttributes
  watt : WriterAttributes
  wqos : WriterQos
  tatt : TopicAttributes
  deriving DecidableEq, Repr

namespace AttributesFiller

/-- The durability is compared with a policy of the history first. -/
def durability (qos : QosProfile) (kind : DurabilityKind) : DurabilityKind :=
  if qos.durability = QosHistoryPolicy.historyKeepLast.word then .transientLocal
  else if qos.durability = QosDurabilityPolicy.durabilityVolatile.word then .volatile
  else kind

def reliability (qos : QosProfile) (kind : ReliabilityKind) : ReliabilityKind :=
  if qos.reliability = QosReliabilityPolicy.reliabilityBestEffort.word then .bestEffort
  else if qos.reliability = QosReliabilityPolicy.reliabilityReliable.word then .reliable
  else kind

def historyKind (qos : QosProfile) (kind : HistoryKind) : HistoryKind :=
  if qos.history = QosHistoryPolicy.historyKeepLast.word then .keepLast
  else if qos.history = QosHistoryPolicy.historyKeepAll.word then .keepAll
  else kind

/-- The heartbeat period, where `mps` messages are sent in a second. -/
def heartbeat (qos : QosProfile) (watt : WriterAttributes) : WriterAttributes :=
  if qos.mps = 0 then watt
  else
    let mps := qos.mps.setWidth 64
    let mps : BitVec 64 := if mps > 1024 then 1024 else if mps < 64 then 64 else mps
    let fractions := ((256 : BitVec 64) <<< 32) / mps
    { watt with
      heartbeatSeconds := (fractions >>> 32).setWidth 32
      heartbeatNanosec := fractions.setWidth 32 }

def fillInWriterAttr (channelName : Str) (qos : QosProfile) (attr : RtpsWriterAttributes) :
    Bool × RtpsWriterAttributes :=
  let attr : RtpsWriterAttributes :=
    { hatt := { payloadMaxSize := qos.msgSize + 255, maximumReservedCaches := 50 }
      watt := heartbeat qos { attr.watt with reliabilityKind := .bestEffort }
      wqos :=
        { durability := durability qos attr.wqos.durability
          reliability := reliability qos attr.wqos.reliability }
      tatt :=
        { topicName := channelName
          topicDataType := [0x73, 0x74, 0x72, 0x69, 0x6E, 0x67]
          topicKind := .noKey
          historyKind := historyKind qos attr.tatt.historyKind
          historyDepth := if qos.depth = 0 then attr.tatt.historyDepth else qos.depth } }
  (!decide (attr.tatt.historyDepth.toInt < 0), attr)

end AttributesFiller

/-- `QOS_PROFILE_TOPO_CHANGE` -/
def qosProfileTopoChange : QosProfile :=
  { history := QosHistoryPolicy.historyKeepAll.word
    depth := 10
    mps := 0
    reliability := QosReliabilityPolicy.reliabilityReliable.word
    durability := QosDurabilityPolicy.durabilityTransientLocal.word }

/-! ### The two writers -/

/-- The history that `Enable` makes; `attr` is the local `writer_attr`. -/
def RtpsTransmitter.history (t : RtpsTransmitter) (attr : RtpsWriterAttributes) :
    HistoryAttributes :=
  (AttributesFiller.fillInWriterAttr t.attr.channelName t.attr.qosProfile attr).2.hatt

/-- The history that `CreateWriter` makes; `attr` is the local `writer_attr`. -/
def managerHistory (channelName : Str) (attr : RtpsWriterAttributes) : HistoryAttributes :=
  (AttributesFiller.fillInWriterAttr channelName qosProfileTopoChange attr).2.hatt

/-- The bytes that are copied into the payload of a change of the history fit. -/
def HistoryAttributes.Fits (hatt : HistoryAttributes) (payload : List Byte) : Prop :=
  payload.length ≤ hatt.payloadMaxSize.toNat

variable {host : ByteOrder}

theorem fits_history {t : RtpsTransmitter} {attr : RtpsWriterAttributes} {payload : List Byte} :
    (t.history attr).Fits payload ↔
      payload.length ≤ (t.attr.qosProfile.msgSize + 255).toNat := Iff.rfl

theorem fits_managerHistory {channelName : Str} {attr : RtpsWriterAttributes}
    {payload : List Byte} : (managerHistory channelName attr).Fits payload ↔ payload.length ≤ 255 :=
  Iff.rfl

theorem length_of_write {α : Type} {type : STy α} {value : α} {ds : DataStream host}
    (h : type.write host value (DataStream.new host) = .ok ds) :
    ds.mBuf.length = type.encodedSize value := by
  rw [type.grows_write value _ _ h]
  exact Nat.zero_add _

/-- The strings of a role; their lengths are words of 32 bits. -/
def stringBytes (attr : RoleAttributes) : Nat :=
  ([attr.hostName, attr.hostIp, attr.channelName, attr.nodeName, attr.messageType].map
    fun str => str.length % 2 ^ 32).sum

theorem encodedSize_qosProfile (qos : QosProfile) : QosProfile.type.encodedSize qos = 31 := rfl

theorem encodedSize_roleAttributes (attr : RoleAttributes) :
    RoleAttributes.type.encodedSize attr = 85 + stringBytes attr := by
  simp only [RoleAttributes.type, RoleAttributes.args, STy.encodedSize, Args.encodedSize,
    encodedSize_qosProfile, Scalar.size, stringBytes, List.map_cons, List.map_nil, List.sum_cons,
    List.sum_nil]
  omega

/-- What a message takes beside its strings. -/
theorem encodedSize_changeMsg (msg : ChangeMsg) :
    ChangeMsg.type.encodedSize msg = 110 + stringBytes msg.roleAttr := by
  simp only [ChangeMsg.type, ChangeMsg.args, STy.encodedSize, Args.encodedSize, Scalar.size,
    encodedSize_roleAttributes]
  omega

/-- Where `Transmit` copies a message, it copies all of it. -/
theorem transmit_fits_iff {t : RtpsTransmitter} {attr : RtpsWriterAttributes} {μ : Type}
    {type : STy μ} {msg : μ} {isShutdown : Bool} {transmission : Transmission}
    (h : t.transmit host type msg isShutdown = .ok transmission) :
    (∀ sample, transmission.sample = some sample → (t.history attr).Fits sample.payload) ↔
      (t.enabled = true →
        type.encodedSize msg ≤ (t.attr.qosProfile.msgSize + 255).toNat) := by
  simp only [RtpsTransmitter.transmit] at h
  split at h
  case isTrue hoff =>
    cases h
    have hoff : t.enabled = false := by simpa using hoff
    exact iff_of_true (by simp) fun hon => absurd hon (by simp [hoff])
  case isFalse hon =>
    have hon : t.enabled = true := by simpa using hon
    obtain ⟨ds, hds, h⟩ := of_bind_ok h
    cases h
    simp [hon, fits_history, length_of_write hds]

theorem write_fits_iff {m : Manager} {channelName : Str} {attr : RtpsWriterAttributes}
    {msg : ChangeMsg} {result : Bool} {sent : List (ChangeMsg × List Byte)}
    (h : m.write host msg = .ok (result, sent)) :
    (∀ e ∈ sent, (managerHistory channelName attr).Fits e.2) ↔
      (m.isDiscoveryStarted = true → m.hasWriter = true → stringBytes msg.roleAttr ≤ 145) := by
  rw [Manager.write] at h
  split at h
  case isTrue hoff =>
    cases h
    have hoff : m.isDiscoveryStarted = false := by simpa using hoff
    exact iff_of_true (by simp) fun hon => absurd hon (by simp [hoff])
  case isFalse hon =>
    have hon : m.isDiscoveryStarted = true := by simpa using hon
    obtain ⟨ds, hds, h⟩ := of_bind_ok h
    cases h
    by_cases hwriter : m.hasWriter = true
    · have hfits : (managerHistory channelName attr).Fits ds.mBuf ↔
          stringBytes msg.roleAttr ≤ 145 := by
        rw [fits_managerHistory, length_of_write hds, encodedSize_changeMsg]
        omega
      simp [hwriter, hon, hfits]
    · simp [hwriter]

theorem transmit_ok (host : ByteOrder) (t : RtpsTransmitter) {μ : Type} (type : STy μ) (msg : μ)
    (isShutdown : Bool) (h : (type.image host msg).length ≤ 2 ^ 30) :
    ∃ transmission, t.transmit host type msg isShutdown = .ok transmission := by
  simp only [RtpsTransmitter.transmit]
  split
  · exact ⟨_, rfl⟩
  · obtain ⟨ds, hds, _⟩ := type.write_ok msg (DataStream.new host) ((Nat.zero_add _).trans_le h)
    rw [hds]
    exact ⟨_, rfl⟩

theorem write_ok (host : ByteOrder) (m : Manager) (msg : ChangeMsg)
    (h : (ChangeMsg.type.image host msg).length ≤ 2 ^ 30) :
    ∃ answer, m.write host msg = .ok answer := by
  rw [Manager.write]
  split
  · exact ⟨_, rfl⟩
  · obtain ⟨ds, hds, _⟩ :=
      ChangeMsg.type.write_ok msg (DataStream.new host) ((Nat.zero_add _).trans_le h)
    rw [hds]
    exact ⟨_, rfl⟩

/-- A message fits into its change exactly when it is no longer than the history was
configured for; one of the topology, when its five strings are short. -/
theorem fits_iff (host : ByteOrder) (attr : RtpsWriterAttributes) :
    (∀ (t : RtpsTransmitter) (μ : Type) (type : STy μ) (msg : μ) (isShutdown : Bool)
        (transmission : Transmission),
      t.transmit host type msg isShutdown = .ok transmission →
        ((∀ sample, transmission.sample = some sample → (t.history attr).Fits sample.payload) ↔
          (t.enabled = true →
            type.encodedSize msg ≤ (t.attr.qosProfile.msgSize + 255).toNat))) ∧
      ∀ (m : Manager) (channelName : Str) (msg : ChangeMsg) (result : Bool)
          (sent : List (ChangeMsg × List Byte)),
        m.write host msg = .ok (result, sent) →
          ((∀ e ∈ sent, (managerHistory channelName attr).Fits e.2) ↔
            (m.isDiscoveryStarted = true → m.hasWriter = true →
              stringBytes msg.roleAttr ≤ 145)) :=
  ⟨fun _ _ _ _ _ _ h => transmit_fits_iff h, fun _ _ _ _ _ h => write_fits_iff h⟩

def writerAttr : RtpsWriterAttributes :=
  { hatt := { payloadMaxSize := 0, maximumReservedCaches := 0 }
    watt := { reliabilityKind := .bestEffort, heartbeatSeconds := 0, heartbeatNanosec := 0 }
    wqos := { durability := .volatile, reliability := .bestEffort }
    tatt :=
      { topicName := [], topicDataType := [], topicKind := .noKey, historyKind := .keepLast
        historyDepth := 1 } }

/-- With the default profile, whose `msg_size` is 0. -/
def transmitter : RtpsTransmitter :=
  (RtpsTransmitter.new (RoleAttributes.init fun _ _ => 0) [] 0 .zero).enable .registered

def manager : Manager := Manager.startDiscovery { hostName := [], processId := 0 }

/-- A message of the topology that has a channel name of so many bytes. -/
def channelMsg (n : Nat) : ChangeMsg :=
  { ChangeMsg.init fun _ _ => 0 with
    roleAttr := { RoleAttributes.init fun _ _ => 0 with channelName := List.replicate n 0 } }

theorem fits_iff_short :
    (∃ transmission, transmitter.transmit .littleEndian .string [1] false = .ok transmission ∧
      ∀ sample, transmission.sample = some sample →
        (transmitter.history writerAttr).Fits sample.payload) ∧
    ∃ result sent, manager.write .littleEndian (channelMsg 145) = .ok (result, sent) ∧
      ∀ e ∈ sent, (managerHistory [] writerAttr).Fits e.2 := by
  obtain ⟨transmission, htransmit⟩ := transmit_ok .littleEndian transmitter .string [1] false
    (by decide)
  obtain ⟨answer, hwrite⟩ := write_ok .littleEndian manager (channelMsg 145)
    (by decide +kernel)
  refine ⟨⟨transmission, htransmit, ?_⟩, answer.1, answer.2, hwrite, ?_⟩
  · exact ((fits_iff .littleEndian writerAttr).1 _ _ _ _ _ _ htransmit).mpr fun _ => by decide
  · exact ((fits_iff .littleEndian writerAttr).2 _ _ _ _ _ hwrite).mpr fun _ _ => by
      decide +kernel

/-- A string of 250 bytes and a channel name of 146 are too long. -/
theorem overrun :
    (¬ ∀ (t : RtpsTransmitter) (μ : Type) (type : STy μ) (msg : μ) (isShutdown : Bool)
        (transmission : Transmission),
      t.transmit .littleEndian type msg isShutdown = .ok transmission →
        ∀ sample, transmission.sample = some sample →
          (t.history writerAttr).Fits sample.payload) ∧
    ¬ ∀ (m : Manager) (channelName : Str) (msg : ChangeMsg) (result : Bool)
        (sent : List (ChangeMsg × List Byte)),
      m.write .littleEndian msg = .ok (result, sent) →
        ∀ e ∈ sent, (managerHistory channelName writerAttr).Fits e.2 := by
  refine ⟨fun h => ?_, fun h => ?_⟩
  · obtain ⟨transmission, htransmit⟩ := transmit_ok .littleEndian transmitter .string
      (List.replicate 250 0) false (by decide +kernel)
    have hfits := (transmit_fits_iff htransmit).mp (h _ _ _ _ _ _ htransmit)
    exact absurd (hfits rfl) (by decide +kernel)
  · obtain ⟨answer, hwrite⟩ := write_ok .littleEndian manager (channelMsg 146)
      (by decide +kernel)
    have hfits := (write_fits_iff hwrite).mp (h _ [] _ _ _ hwrite)
    exact absurd (hfits rfl rfl) (by decide +kernel)

end Transport
end Cmw
