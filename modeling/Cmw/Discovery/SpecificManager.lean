import Cmw.Discovery.Graph
import Cmw.Discovery.Role
import Cmw.Serialize.DataStream

/-!
# The managers

`Manager`, `NodeManager` and `ChannelManager` of discovery/specific_manager.  A
manager keeps the roles it has been told of, by local calls and by messages from
other processes, and notifies its listeners of every message it disposes of.  The
listeners' side of that is the list of messages `dispose` returns.
-/

namespace Cmw
namespace Discovery

open Config
open Library

def roleBit (role : RoleType) : BitVec 32 := (1 : BitVec 32) <<< role.word

structure Manager where
  isShutdown : Bool := false
  isDiscoveryStarted : Bool := false
  allowedRole : BitVec 32 := 0
  changeType : BitVec 32 := ChangeType.changeParticipant.word
  hostName : Str
  processId : BitVec 32
  hasWriter : Bool := false
  deriving DecidableEq, Repr

/-- `Convert`, at time `now`. -/
def Manager.convert (m : Manager) (attr : RoleAttributes) (role : RoleType) (opt : OperateType)
    (now : BitVec 64) : ChangeMsg :=
  { timestamp := now
    changeType := m.changeType
    operateType := opt.word
    roleType := role.word
    roleAttr := { attr with
      hostName := if attr.hostName.isEmpty then m.hostName else attr.hostName
      processId := if attr.processId = 0 then m.processId else attr.processId } }

/-- `StartDiscovery(participant)`, where the writer and the reader are created. -/
def Manager.startDiscovery (m : Manager) : Manager :=
  if m.isDiscoveryStarted then m else { m with isDiscoveryStarted := true, hasWriter := true }

/-- What `Join` and `Leave` do first: their checks, and the message they build. -/
def Manager.prepare (m : Manager) (check : RoleAttributes → Bool) (attr : RoleAttributes)
    (role : RoleType) (opt : OperateType) (now : BitVec 64) : Option ChangeMsg :=
  if m.isShutdown then none
  else if roleBit role &&& m.allowedRole = 0 then none
  else if !check attr then none
  else some (m.convert attr role opt now)

theorem Manager.prepare_eq {m : Manager} {check : RoleAttributes → Bool} {attr : RoleAttributes}
    {role : RoleType} {opt : OperateType} {now : BitVec 64} {msg : ChangeMsg}
    (h : m.prepare check attr role opt now = some msg) :
    check attr = true ∧ msg = m.convert attr role opt now := by
  rw [prepare] at h
  split at h
  · cases h
  split at h
  · cases h
  split at h
  · cases h
  case isFalse hcheck =>
    rw [Bool.not_eq_true', Bool.not_eq_false] at hcheck
    exact ⟨hcheck, (Option.some.inj h).symm⟩

def Manager.isFromSameProcess (m : Manager) (msg : ChangeMsg) : Bool :=
  !(msg.roleAttr.processId ≠ m.processId || msg.roleAttr.hostName ≠ m.hostName)

/-! ## Nodes -/

structure NodeManager extends Manager where
  nodes : SingleValueWarehouse RoleNode := ∅

namespace NodeManager

def new (hostName : Str) (processId : BitVec 32) : NodeManager :=
  { hostName, processId
    allowedRole := roleBit .roleNode
    changeType := ChangeType.changeNode.word }

def startDiscovery (m : NodeManager) : NodeManager :=
  { m with toManager := m.toManager.startDiscovery }

def check (attr : RoleAttributes) : Bool :=
  if attr.nodeName.isEmpty then false
  else if attr.nodeId = 0 then false
  else true

def disposeJoin (m : NodeManager) (msg : ChangeMsg) : NodeManager :=
  let node : RoleNode := { attributes := msg.roleAttr, timestampNs := msg.timestamp }
  let key := node.attributes.nodeId
  let (added, nodes) := m.nodes.add key node false
  if added then { m with nodes }
  else
    match m.nodes.search key with
    | none => { m with nodes := (m.nodes.add key node true).2 }
    | some existing =>
        if node.isEarlierThan existing then { m with nodes := (m.nodes.add key node true).2 } else m

def disposeLeave (m : NodeManager) (msg : ChangeMsg) : NodeManager :=
  { m with nodes := m.nodes.removeKey msg.roleAttr.nodeId }

def dispose (m : NodeManager) (msg : ChangeMsg) : NodeManager × List ChangeMsg :=
  (if msg.operateType = OperateType.optJoin.word then m.disposeJoin msg else m.disposeLeave msg,
    [msg])

/-- `OnTopoModuleLeave(host_name, process_id)`.  `attr` is the local
`RoleAttributes attr;` before its two members are set. -/
def onTopoModuleLeave (m : NodeManager) (attr : RoleAttributes) (hostName : Str)
    (processId : BitVec 32) (now : BitVec 64) : NodeManager × List ChangeMsg :=
  if !m.isDiscoveryStarted then (m, [])
  else
    let attr := { attr with hostName, processId }
    let nodesToRemove := m.nodes.searchAttr attr
    let nodes := nodesToRemove.foldl
      (fun (w : SingleValueWarehouse RoleNode) node => w.removeKey node.attributes.nodeId) m.nodes
    ({ m with nodes },
      nodesToRemove.map fun node => m.convert node.attributes .roleNode .optLeave now)

end NodeManager

/-! ## Channels -/

structure ChannelManager extends Manager where
  nodeGraph : Graph := {}
  nodeWriters : MultiValueWarehouse RoleWriter := []
  nodeReaders : MultiValueWarehouse RoleReader := []
  channelWriters : MultiValueWarehouse RoleWriter := []
  channelReaders : MultiValueWarehouse RoleReader := []

namespace ChannelManager

def new (hostName : Str) (processId : BitVec 32) : ChannelManager :=
  { hostName, processId
    allowedRole := roleBit .roleWriter ||| roleBit .roleReader
    changeType := ChangeType.changeChannel.word }

def startDiscovery (m : ChannelManager) : ChannelManager :=
  { m with toManager := m.toManager.startDiscovery }

def check (attr : RoleAttributes) : Bool :=
  if attr.channelName.isEmpty then false
  else if attr.channelId = 0 then false
  else if attr.id = 0 then false
  else true

/-- `DisposeJoin`, less the warnings that `ScanMessageType` prints. -/
def disposeJoin (m : ChannelManager) (msg : ChangeMsg) : ChannelManager :=
  let v : Vertice := ⟨msg.roleAttr.nodeName⟩
  let role : RoleWriter := { attributes := msg.roleAttr, timestampNs := msg.timestamp }
  if msg.roleType = RoleType.roleWriter.word then
    { m with
      nodeWriters := m.nodeWriters.add role.attributes.nodeId role
      channelWriters := m.channelWriters.add role.attributes.channelId role
      nodeGraph := m.nodeGraph.insert { src := v, value := msg.roleAttr.channelName } }
  else
    { m with
      nodeReaders := m.nodeReaders.add role.attributes.nodeId role
      channelReaders := m.channelReaders.add role.attributes.channelId role
      nodeGraph := m.nodeGraph.insert { dst := v, value := msg.roleAttr.channelName } }

def disposeLeave (m : ChannelManager) (msg : ChangeMsg) : ChannelManager :=
  let v : Vertice := ⟨msg.roleAttr.nodeName⟩
  let role : RoleWriter := { attributes := msg.roleAttr, timestampNs := msg.timestamp }
  if msg.roleType = RoleType.roleWriter.word then
    { m with
      nodeWriters := m.nodeWriters.remove role.attributes.nodeId role
      channelWriters := m.channelWriters.remove role.attributes.channelId role
      nodeGraph := m.nodeGraph.delete { src := v, value := msg.roleAttr.channelName } }
  else
    { m with
      -- the key is that of a channel here, although the roles are under their nodes
      nodeReaders := m.nodeReaders.remove role.attributes.channelId role
      channelReaders := m.channelReaders.remove role.attributes.channelId role
      nodeGraph := m.nodeGraph.delete { dst := v, value := msg.roleAttr.channelName } }

def dispose (m : ChannelManager) (msg : ChangeMsg) : ChannelManager × List ChangeMsg :=
  (if msg.operateType = OperateType.optJoin.word then m.disposeJoin msg else m.disposeLeave msg,
    [msg])

def purge (role : RoleType) (now : BitVec 64) (m : ChannelManager × List ChangeMsg)
    (r : RoleWriter) : ChannelManager × List ChangeMsg :=
  let msg := m.1.convert r.attributes role .optLeave now
  (m.1.disposeLeave msg, m.2 ++ [msg])

/-- `OnTopoModuleLeave(host_name, process_id)`.  `attr` is the local
`RoleAttributes attr;` before its two members are set. -/
def onTopoModuleLeave (m : ChannelManager) (attr : RoleAttributes) (hostName : Str)
    (processId : BitVec 32) (now : BitVec 64) : ChannelManager × List ChangeMsg :=
  if !m.isDiscoveryStarted then (m, [])
  else
    let attr := { attr with hostName, processId }
    let writersToRemove := m.channelWriters.searchAttr attr
    let readersToRemove := m.channelReaders.searchAttr attr
    let m := writersToRemove.foldl (purge .roleWriter now) (m, [])
    readersToRemove.foldl (purge .roleReader now) m

end ChannelManager

end Discovery
end Cmw
