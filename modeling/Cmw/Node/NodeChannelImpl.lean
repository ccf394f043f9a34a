import Cmw.Common.GlobalData

/-!
# Nodes

node/node_channel_impl.h, with what node/node.h keeps of a node.  `FillInAttr` assigns the id of
the node to a string: the string is then one byte, the last of the id.
-/

namespace Cmw
namespace Node

open Common
open Config
open Library.ByteImage
open Serialize

/-- What a process knows of where it runs. -/
structure Place where
  hostName : Str := []
  hostIp : Str := []
  processId : BitVec 32 := 0

structure NodeChannelImpl where
  nodeName : Str
  nodeAttr : RoleAttributes

/-- `operator=(char)` of a string, which is what takes a number. -/
def assignNumber (n : BitVec 64) : Str := [n.setWidth 8]

namespace NodeChannelImpl

variable (hash : Str → BitVec 64)

/-- `NodeChannelImpl(node_name)`, less the join of the node. -/
def new (place : Place) (d : GlobalData) (junk : Junk) (nodeName : Str) :
    Option (NodeChannelImpl × GlobalData) := do
  let (nodeId, d) ← d.registerNode hash nodeName
  let nodeAttr := { RoleAttributes.init junk with
    hostName := place.hostName, hostIp := place.hostIp, processId := place.processId,
    nodeName, nodeId }
  some ({ nodeName, nodeAttr }, d)

def fillInAttr (n : NodeChannelImpl) (d : GlobalData) (attr : RoleAttributes) :
    Option (RoleAttributes × GlobalData) := do
  let (channelId, d) ← d.registerChannel hash attr.channelName
  some ({ attr with
    hostName := n.nodeAttr.hostName
    hostIp := n.nodeAttr.hostIp
    processId := n.nodeAttr.processId
    nodeName := assignNumber n.nodeAttr.nodeId
    nodeId := n.nodeAttr.nodeId
    channelId }, d)

/-- The attributes that `CreatePublisher` and `CreateSubscriber` make a role of: nothing where they
return none. -/
def newAttr (n : NodeChannelImpl) (d : GlobalData) (roleAttr : RoleAttributes) :
    Option (RoleAttributes × GlobalData) :=
  if roleAttr.channelName.isEmpty then none else n.fillInAttr hash d roleAttr

variable {hash} {d d' : GlobalData} {n : NodeChannelImpl} {attr attr' : RoleAttributes}

/-- What the attributes of a role are filled with. -/
structure Filled (n : NodeChannelImpl) (attr attr' : RoleAttributes) : Prop where
  channelName : attr'.channelName = attr.channelName
  nodeName : attr'.nodeName = assignNumber n.nodeAttr.nodeId
  nodeId : attr'.nodeId = n.nodeAttr.nodeId

theorem newAttr_eq (h : n.newAttr hash d attr = some (attr', d')) :
    n.Filled attr attr' ∧ attr.channelName ≠ [] ∧
      d.register hash .channel attr.channelName = some (attr'.channelId, d') := by
  rw [newAttr] at h
  split at h
  case isTrue => cases h
  case isFalse hempty =>
    obtain ⟨⟨channelId, d₁⟩, hregister, h⟩ := Option.bind_eq_some_iff.mp h
    cases h
    exact ⟨⟨rfl, rfl, rfl⟩, fun heq => hempty (List.isEmpty_iff.mpr heq), hregister⟩

theorem new_eq {place : Place} {junk : Junk} {nodeName : Str}
    (h : new hash place d junk nodeName = some (n, d')) :
    n.nodeName = nodeName ∧ d.register hash .node nodeName = some (n.nodeAttr.nodeId, d') := by
  obtain ⟨⟨nodeId, d₁⟩, hregister, h⟩ := Option.bind_eq_some_iff.mp h
  cases h
  exact ⟨rfl, hregister⟩

end NodeChannelImpl

end Node

/-- A node, with the channels it has subscribers of. -/
structure Node where
  nodeChannelImpl : Node.NodeChannelImpl
  subscribers : List Config.Str := []

end Cmw
