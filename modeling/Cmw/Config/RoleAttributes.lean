import Cmw.Serialize.Types

/-!
# The messages of topology discovery

The structures of config/qos_profile.h, config/RoleAttributes.h and
config/topology_change.h, each with the argument list of its `SERIALIZE`.  An
enumerator is a constructor; a member of an enumeration type holds its word, since
a message off the wire may put any word there.
-/

namespace Cmw
namespace Config

open Serialize

abbrev Str := List Library.ByteImage.Byte

inductive QosHistoryPolicy
  | historySystemDefault | historyKeepLast | historyKeepAll
  deriving DecidableEq, Repr

inductive QosReliabilityPolicy
  | reliabilitySystemDefault | reliabilityReliable | reliabilityBestEffort
  deriving DecidableEq, Repr

inductive QosDurabilityPolicy
  | durabilitySystemDefault | durabilityTransientLocal | durabilityVolatile
  deriving DecidableEq, Repr

def QosHistoryPolicy.word (p : QosHistoryPolicy) : BitVec 32 := BitVec.ofNat 32 p.ctorIdx
def QosReliabilityPolicy.word (p : QosReliabilityPolicy) : BitVec 32 := BitVec.ofNat 32 p.ctorIdx
def QosDurabilityPolicy.word (p : QosDurabilityPolicy) : BitVec 32 := BitVec.ofNat 32 p.ctorIdx

structure QosProfile where
  history : BitVec 32 := QosHistoryPolicy.historyKeepLast.word
  depth : BitVec 32 := 2
  mps : BitVec 32 := 3
  msgSize : BitVec 32 := 0
  reliability : BitVec 32 := QosReliabilityPolicy.reliabilityReliable.word
  durability : BitVec 32 := QosDurabilityPolicy.durabilityVolatile.word
  deriving DecidableEq, Repr

def QosProfile.args : Args QosProfile :=
  .cons (fun q => q.history) (fun b q => { q with history := b }) (.enum false 4) <|
  .cons (fun q => q.depth) (fun b q => { q with depth := b }) (.scalar .uint32) <|
  .cons (fun q => q.mps) (fun b q => { q with mps := b }) (.scalar .uint32) <|
  .cons (fun q => q.msgSize) (fun b q => { q with msgSize := b }) (.scalar .uint32) <|
  .cons (fun q => q.reliability) (fun b q => { q with reliability := b }) (.enum false 4) <|
  .cons (fun q => q.durability) (fun b q => { q with durability := b }) (.enum false 4) .nil

def QosProfile.type : STy QosProfile := .custom (fun _ => {}) QosProfile.args

structure RoleAttributes where
  hostName : Str
  hostIp : Str
  processId : BitVec 32
  channelName : Str
  channelId : BitVec 64
  qosProfile : QosProfile
  id : BitVec 64
  nodeName : Str
  nodeId : BitVec 64
  messageType : Str
  deriving DecidableEq, Repr

/-- `RoleAttributes attr;`: the numbers are left as they are. -/
def RoleAttributes.init (junk : Junk) : RoleAttributes :=
  { hostName := [], hostIp := [], processId := junk 0 4, channelName := [], channelId := junk 1 8,
    qosProfile := {}, id := junk 2 8, nodeName := [], nodeId := junk 3 8, messageType := [] }

def RoleAttributes.args : Args RoleAttributes :=
  .cons (fun a => a.hostName) (fun b a => { a with hostName := b }) .string <|
  .cons (fun a => a.hostIp) (fun b a => { a with hostIp := b }) .string <|
  .cons (fun a => a.processId) (fun b a => { a with processId := b }) (.scalar .int32) <|
  .cons (fun a => a.channelName) (fun b a => { a with channelName := b }) .string <|
  .cons (fun a => a.qosProfile) (fun b a => { a with qosProfile := b }) QosProfile.type <|
  .cons (fun a => a.id) (fun b a => { a with id := b }) (.scalar .uint64) <|
  .cons (fun a => a.nodeName) (fun b a => { a with nodeName := b }) .string <|
  .cons (fun a => a.nodeId) (fun b a => { a with nodeId := b }) (.scalar .uint64) <|
  .cons (fun a => a.messageType) (fun b a => { a with messageType := b }) .string .nil

def RoleAttributes.type : STy RoleAttributes := .custom RoleAttributes.init RoleAttributes.args

inductive ChangeType
  | changeNode | changeChannel | changeService | changeParticipant
  deriving DecidableEq, Repr

inductive OperateType
  | optJoin | optLeave
  deriving DecidableEq, Repr

inductive RoleType
  | roleNode | roleWriter | roleReader | roleServer | roleClient | roleParticipant
  deriving DecidableEq, Repr

/- The enumerators of these three count from one. -/
def ChangeType.word (c : ChangeType) : BitVec 32 := BitVec.ofNat 32 (c.ctorIdx + 1)
def OperateType.word (o : OperateType) : BitVec 32 := BitVec.ofNat 32 (o.ctorIdx + 1)
def RoleType.word (r : RoleType) : BitVec 32 := BitVec.ofNat 32 (r.ctorIdx + 1)

structure ChangeMsg where
  timestamp : BitVec 64
  changeType : BitVec 32
  operateType : BitVec 32
  roleType : BitVec 32
  roleAttr : RoleAttributes
  deriving DecidableEq, Repr

/-- `ChangeMsg msg;` -/
def ChangeMsg.init (junk : Junk) : ChangeMsg :=
  { timestamp := junk 4 8, changeType := junk 5 4, operateType := junk 6 4, roleType := junk 7 4,
    roleAttr := RoleAttributes.init junk }

def ChangeMsg.args : Args ChangeMsg :=
  .cons (fun m => m.timestamp) (fun b m => { m with timestamp := b }) (.scalar .uint64) <|
  .cons (fun m => m.changeType) (fun b m => { m with changeType := b }) (.enum false 4) <|
  .cons (fun m => m.operateType) (fun b m => { m with operateType := b }) (.enum false 4) <|
  .cons (fun m => m.roleType) (fun b m => { m with roleType := b }) (.enum false 4) <|
  .cons (fun m => m.roleAttr) (fun b m => { m with roleAttr := b }) RoleAttributes.type .nil

def ChangeMsg.type : STy ChangeMsg := .custom ChangeMsg.init ChangeMsg.args

end Config
end Cmw
