import Cmw.Discovery.Direction
import Cmw.Discovery.Replication
import Cmw.Node.NodeChannelImpl
import Cmw.Node.Publisher

/-!
# The names of nodes in the topology

Publishers and subscribers of the nodes of several processes, and what the channel manager of a
process makes of those that it hears of.  The graph and the warehouses have the name that
`FillInAttr` has given a role, and it is asked for by the name of the node.

`Right` is what is wanted of a process, and `right_iff` says that every process has it if and only
if every node that has a publisher or a subscriber is named by the last byte of its id.
-/

namespace Cmw
namespace Node

open Common
open Config
open Discovery
open Library
open Serialize
open Transport

def roleType : Side → RoleType
  | .src => .roleWriter
  | .dst => .roleReader

/-- A publisher or a subscriber that has been created, with the message that it has joined with. -/
structure Role (ι : Type) where
  process : ι
  node : NodeChannelImpl
  side : Side
  roleAttr : RoleAttributes
  message : Option ChangeMsg

/-- A role that a process has heard of, with the attributes that it was told. -/
structure Heard (ι : Type) where
  role : Role ι
  attr : RoleAttributes

structure Site (ι : Type) where
  place : Place
  globalData : GlobalData := {}
  channelManager : ChannelManager
  heard : List (Heard ι) := []

namespace Site

variable {ι : Type}

def dispose (p : Site ι) (role : Role ι) (msg : ChangeMsg) : Site ι :=
  { p with
    channelManager := p.channelManager.step msg
    heard := p.heard ++ [{ role, attr := msg.roleAttr }] }

def rolesOfChannel (hash : Str → BitVec 64) (side : Side) (p : Site ι) (channelName : Str) :
    Option (List RoleAttributes) := do
  let (key, _) ← p.globalData.registerChannel hash channelName
  some (((p.channelManager.channelRoles side).filter fun item => item.1 == key).map fun item =>
    item.2.attributes)

def getWritersOfChannel (hash : Str → BitVec 64) : Site ι → Str → Option (List RoleAttributes) :=
  rolesOfChannel hash .src

def getReadersOfChannel (hash : Str → BitVec 64) : Site ι → Str → Option (List RoleAttributes) :=
  rolesOfChannel hash .dst

/-- `GetFlowDirection(lhs_node_name, rhs_node_name)`, with a bound on the search. -/
def getFlowDirection (left : Nat) (p : Site ι) (lhsNodeName rhsNodeName : Str) :
    Option (FlowDirection × Graph) :=
  p.channelManager.nodeGraph.getDirectionOf left ⟨lhsNodeName⟩ ⟨rhsNodeName⟩

end Site

structure Topology (ι : Type) where
  process : ι → Site ι
  nodes : List (ι × Node) := []
  roles : List (Role ι) := []

namespace Topology

variable {ι : Type} [DecidableEq ι]

def setProcess (t : Topology ι) (i : ι) (p : Site ι) : Topology ι :=
  { t with process := Function.update t.process i p }

def setGlobalData (t : Topology ι) (i : ι) (globalData : GlobalData) : Topology ι :=
  t.setProcess i { t.process i with globalData }

/-- `JoinTheTopology()` of a new role. -/
def addRole (t : Topology ι) (i : ι) (node : NodeChannelImpl) (side : Side)
    (roleAttr : RoleAttributes) (now : BitVec 64) : Topology ι :=
  let p := t.process i
  let message :=
    p.channelManager.prepare ChannelManager.check roleAttr (roleType side) .optJoin now
  let role := { process := i, node, side, roleAttr, message }
  let p := match message with
    | none => p
    | some msg => p.dispose role msg
  { t.setProcess i p with roles := t.roles ++ [role] }

variable (hash : Str → BitVec 64)

def createNode (t : Topology ι) (i : ι) (junk : Junk) (nodeName : Str) : Topology ι :=
  match NodeChannelImpl.new hash (t.process i).place (t.process i).globalData junk nodeName with
  | none => t
  | some (nodeChannelImpl, globalData) =>
      { t.setGlobalData i globalData with nodes := t.nodes ++ [(i, { nodeChannelImpl })] }

/-- `CreatePublisher(role_attr)` of node `k`. -/
def createPublisher (t : Topology ι) (k : Nat) (roleAttr : RoleAttributes) (isShutdown : Bool)
    (id : Identity) (answer : WriterAnswer) (now : BitVec 64) : Topology ι :=
  match t.nodes[k]? with
  | none => t
  | some (i, node) =>
      match node.nodeChannelImpl.newAttr hash (t.process i).globalData roleAttr with
      | none => t
      | some (newAttr, globalData) =>
          let t := t.setGlobalData i globalData
          match Publisher.createTransmitter isShutdown (t.process i).channelManager newAttr id
            answer with
          | none => t
          | some transmitter =>
              t.addRole i node.nodeChannelImpl .src { newAttr with id := transmitter.id.hashValue }
                now

/-- `CreateSubscriber(role_attr, reader_func)` of node `k`; `created` says whether there is a
task for it. -/
def createSubscriber (t : Topology ι) (k : Nat) (roleAttr : RoleAttributes) (created : Bool)
    (now : BitVec 64) : Topology ι :=
  match t.nodes[k]? with
  | none => t
  | some (i, node) =>
      if node.subscribers.contains roleAttr.channelName then t
      else
        match node.nodeChannelImpl.newAttr hash (t.process i).globalData roleAttr with
        | none => t
        | some (newAttr, globalData) =>
            let t := t.setGlobalData i globalData
            if !created then t
            else
              let node := { node with subscribers := node.subscribers ++ [roleAttr.channelName] }
              { t with nodes := t.nodes.set k (i, node) }.addRole i node.nodeChannelImpl .dst newAttr
                now

/-- `OnRemoteChange` in process `i`, of the message that role `k` has joined with: its channel id
is not the one that was sent. -/
def hear (t : Topology ι) (i : ι) (k : Nat) (channelId : BitVec 64) : Topology ι :=
  match t.roles[k]? with
  | none => t
  | some role =>
      match role.message with
      | none => t
      | some msg =>
          let msg := { msg with roleAttr := { msg.roleAttr with channelId } }
          let m := (t.process i).channelManager
          if m.isShutdown then t
          else if m.isFromSameProcess msg then t
          else if !ChannelManager.check msg.roleAttr then t
          else t.setProcess i ((t.process i).dispose role msg)

inductive Event (ι : Type)
  | createNode (i : ι) (junk : Junk) (nodeName : Str)
  | createPublisher (k : Nat) (roleAttr : RoleAttributes) (isShutdown : Bool) (id : Identity)
      (answer : WriterAnswer) (now : BitVec 64)
  | createSubscriber (k : Nat) (roleAttr : RoleAttributes) (created : Bool) (now : BitVec 64)
  | hear (i : ι) (k : Nat) (channelId : BitVec 64)

def step (t : Topology ι) : Event ι → Topology ι
  | .createNode i junk nodeName => t.createNode hash i junk nodeName
  | .createPublisher k roleAttr isShutdown id answer now =>
      t.createPublisher hash k roleAttr isShutdown id answer now
  | .createSubscriber k roleAttr created now => t.createSubscriber hash k roleAttr created now
  | .hear i k channelId => t.hear i k channelId

omit [DecidableEq ι] in
def start (place : ι → Place) : Topology ι where
  process i :=
    { place := place i, channelManager := .new (place i).hostName (place i).processId }

omit [DecidableEq ι] in
/-- The role is one of process `i`, or this has heard of it. -/
def Concerns (t : Topology ι) (i : ι) (role : Role ι) : Prop :=
  role ∈ t.roles ∧ role.process = i ∨ ∃ h ∈ (t.process i).heard, h.role = role

omit [DecidableEq ι] in
/-- What process `i` says of the flow, and of the nodes that roles are of. -/
structure Right (t : Topology ι) (i : ι) : Prop where
  flow : ∀ w r, t.Concerns i w → t.Concerns i r → w.side = .src → r.side = .dst →
    w.roleAttr.channelName = r.roleAttr.channelName →
      ∃ n, ∀ left, n ≤ left →
        (t.process i).getFlowDirection left w.node.nodeName r.node.nodeName =
          some (.upstream, (t.process i).channelManager.nodeGraph)
  names : ∀ side channelName attrs,
    (t.process i).rolesOfChannel hash side channelName = some attrs → ∀ attr ∈ attrs,
      (∃ h ∈ (t.process i).heard, h.role.side = side ∧ h.attr = attr) ∧
      ∀ h ∈ (t.process i).heard, h.role.side = side → h.attr = attr →
        attr.nodeName = h.role.node.nodeName

omit [DecidableEq ι] in
/-- Every node that has a role is named by the last byte of its id. -/
def NamedByBytes (t : Topology ι) : Prop :=
  ∀ r ∈ t.roles, r.node.nodeName = assignNumber r.node.nodeAttr.nodeId

end Topology

/-! ## One manager -/

theorem length_assignNumber (n : BitVec 64) : (assignNumber n).length = 1 := rfl

/-- Where the vertices are of one byte, no two edges have one key. -/
theorem keysDistinct_of_bytes {g : Graph} (h : ∀ c side n, n ∈ g.half c side → n.length = 1) :
    g.KeysDistinct := by
  intro f f' hf hf' hsrc hkey
  have hlength : f.dst.getKey.length = f'.dst.getKey.length :=
    (h _ _ _ (hf .dst)).trans (h _ _ _ (hf' .dst)).symm
  obtain ⟨hvalue, hdst⟩ := List.append_inj' hkey hlength
  exact Graph.edge_ext .src (List.append_inj' hvalue rfl).1 hsrc (Graph.getKey_inj.mp hdst)

variable {ι : Type}

/-- What a process keeps of the roles that it has heard of. -/
structure Informed (p : Site ι) : Prop where
  heard : ∀ h ∈ p.heard, h.attr.nodeName = assignNumber h.role.node.nodeAttr.nodeId ∧
    h.attr.channelName = h.role.roleAttr.channelName
  half : ∀ h ∈ p.heard,
    h.attr.nodeName ∈ p.channelManager.nodeGraph.half h.attr.channelName h.role.side
  bytes : ∀ c side n, n ∈ p.channelManager.nodeGraph.half c side → n.length = 1
  keyed : p.channelManager.nodeGraph.Keyed
  closed : p.channelManager.nodeGraph.Closed
  lists : p.channelManager.nodeGraph.Lists
  stored : ∀ h ∈ p.heard, ∃ item ∈ p.channelManager.channelRoles h.role.side,
    item.1 = h.attr.channelId ∧ item.2.attributes = h.attr
  creator : ∀ side, ∀ item ∈ p.channelManager.channelRoles side,
    ∃ h ∈ p.heard, h.role.side = side ∧ h.attr = item.2.attributes

/-- A message that a role joins with. -/
structure Joins (role : Role ι) (msg : ChangeMsg) : Prop where
  join : msg.operateType = OperateType.optJoin.word
  side : sideOf msg = role.side
  nodeName : msg.roleAttr.nodeName = assignNumber role.node.nodeAttr.nodeId
  channelName : msg.roleAttr.channelName = role.roleAttr.channelName
  named : msg.roleAttr.channelName ≠ []

section Dispose

variable {p : Site ι} {role : Role ι} {msg : ChangeMsg}

theorem Joins.mem_half (hmsg : Joins role msg) (m : ChannelManager) {c n : Str} {side : Side} :
    n ∈ (m.step msg).nodeGraph.half c side ↔ n ∈ m.nodeGraph.half c side ∨
      side = role.side ∧ c = msg.roleAttr.channelName ∧ n = msg.roleAttr.nodeName := by
  have hvalid : (edgeOf msg).isValid = true := by
    refine (Traced.isValid_edgeOf msg).mpr ⟨?_, hmsg.named⟩
    rw [hmsg.nodeName]
    exact List.cons_ne_nil _ _
  rw [Traced.mem_half_join hmsg.join, hmsg.side, and_iff_right hvalid]

theorem Joins.channelRoles (hmsg : Joins role msg) (m : ChannelManager) (side : Side) :
    (m.step msg).channelRoles side = if side = role.side then
      (m.channelRoles side).add msg.roleAttr.channelId (roleOf msg) else m.channelRoles side := by
  rw [ChannelManager.step_join hmsg.join, ChannelManager.channelRoles_disposeJoin, hmsg.side]

theorem bytes_dispose (h : Informed p) (hmsg : Joins role msg) (c : Str) (side : Side) (n : Str)
    (hn : n ∈ (p.dispose role msg).channelManager.nodeGraph.half c side) : n.length = 1 := by
  rcases (hmsg.mem_half p.channelManager).mp hn with hn | ⟨-, -, rfl⟩
  · exact h.bytes c side n hn
  · rw [hmsg.nodeName]
    exact length_assignNumber _

theorem informed_dispose (h : Informed p) (hmsg : Joins role msg) :
    Informed (p.dispose role msg) := by
  have hgraph : (p.dispose role msg).channelManager.nodeGraph =
      p.channelManager.nodeGraph.step (.insert (edgeOf msg)) :=
    ChannelManager.nodeGraph_join hmsg.join
  have hbytes := bytes_dispose h hmsg
  have hroles : ∀ side item, item ∈ p.channelManager.channelRoles side →
      item ∈ (p.channelManager.step msg).channelRoles side := by
    intro side item hitem
    rw [hmsg.channelRoles]
    split
    · exact MultiValueWarehouse.mem_add.mpr (.inl hitem)
    · exact hitem
  refine ⟨fun x hx => ?_, fun x hx => ?_, hbytes, ?_, ?_, ?_, fun x hx => ?_, fun side item hitem => ?_⟩
  · rcases List.mem_append.mp hx with hx | hx
    · exact h.heard x hx
    · rw [List.mem_singleton.mp hx]
      exact ⟨hmsg.nodeName, hmsg.channelName⟩
  · refine (hmsg.mem_half p.channelManager).mpr ?_
    rcases List.mem_append.mp hx with hx | hx
    · exact .inl (h.half x hx)
    · rw [List.mem_singleton.mp hx]
      exact .inr ⟨rfl, rfl, rfl⟩
  · rw [hgraph]
    exact Graph.keyed_step h.keyed _
  · rw [hgraph]
    exact Graph.closed_step h.closed _
  · have hkeys := Graph.keysDistinct_halves.mpr (keysDistinct_of_bytes hbytes)
    rw [hgraph, Graph.halves_step] at hkeys
    rw [hgraph]
    exact Graph.lists_insert h.keyed h.lists hkeys
  · rcases List.mem_append.mp hx with hx | hx
    · obtain ⟨item, hitem, hitem'⟩ := h.stored x hx
      exact ⟨item, hroles _ item hitem, hitem'⟩
    · rw [List.mem_singleton.mp hx]
      refine ⟨(msg.roleAttr.channelId, roleOf msg), ?_, rfl, rfl⟩
      show _ ∈ (p.channelManager.step msg).channelRoles role.side
      rw [hmsg.channelRoles, if_pos rfl]
      exact MultiValueWarehouse.mem_add.mpr (.inr rfl)
  · have hitem : item ∈ (p.channelManager.step msg).channelRoles side := hitem
    have hold : item ∈ p.channelManager.channelRoles side →
        ∃ x ∈ (p.dispose role msg).heard, x.role.side = side ∧ x.attr = item.2.attributes := by
      intro hitem
      obtain ⟨x, hx, hx'⟩ := h.creator side item hitem
      exact ⟨x, List.mem_append_left _ hx, hx'⟩
    rw [hmsg.channelRoles] at hitem
    split at hitem
    case isFalse => exact hold hitem
    case isTrue hside =>
      rcases MultiValueWarehouse.mem_add.mp hitem with hitem | rfl
      · exact hold hitem
      · exact ⟨{ role, attr := msg.roleAttr }, List.mem_append_right _ List.mem_cons_self,
          hside.symm, rfl⟩

theorem sideOf_roleType {msg : ChangeMsg} {side : Side} (h : msg.roleType = (roleType side).word) :
    sideOf msg = side := by
  rw [sideOf, h]
  cases side <;> decide

theorem joins_of_prepare {m : ChannelManager} {role : Role ι} {now : BitVec 64}
    (hname : role.roleAttr.nodeName = assignNumber role.node.nodeAttr.nodeId)
    (hchannel : role.roleAttr.channelName ≠ [])
    (h : m.prepare ChannelManager.check role.roleAttr (roleType role.side) .optJoin now = some msg) :
    Joins role msg ∧ msg.roleAttr.channelId = role.roleAttr.channelId := by
  obtain ⟨-, rfl⟩ := Manager.prepare_eq h
  exact ⟨⟨rfl, sideOf_roleType rfl, hname, rfl, hchannel⟩, rfl⟩

/-- Where no id is 0 there is a message. -/
theorem prepare_some {m : ChannelManager} (hup : m.isShutdown = false) {side : Side}
    (hallowed : roleBit (roleType side) &&& m.allowedRole ≠ 0) {attr : RoleAttributes}
    (hname : attr.channelName ≠ []) (hchannel : attr.channelId ≠ 0) (hid : attr.id ≠ 0)
    (now : BitVec 64) :
    ∃ msg, m.prepare ChannelManager.check attr (roleType side) .optJoin now = some msg := by
  have hcheck : ChannelManager.check attr = true := by
    rw [ChannelManager.check, if_neg (by simpa using hname), if_neg hchannel, if_neg hid]
  refine ⟨m.convert attr (roleType side) .optJoin now, ?_⟩
  rw [Manager.prepare, hup, if_neg Bool.false_ne_true, if_neg hallowed, hcheck]
  rfl

/-- A message that is heard with another channel id. -/
theorem Joins.retold (h : Joins role msg) (channelId : BitVec 64) :
    Joins role { msg with roleAttr := { msg.roleAttr with channelId } } :=
  ⟨h.join, h.side, h.nodeName, h.channelName, h.named⟩

end Dispose

/-- What a process has heard of flows from the one node to the other. -/
theorem Informed.flow {p : Site ι} (h : Informed p) {w r : Heard ι} (hw : w ∈ p.heard)
    (hr : r ∈ p.heard) (hsrc : w.role.side = .src) (hdst : r.role.side = .dst)
    (hchannel : w.role.roleAttr.channelName = r.role.roleAttr.channelName) {left : Nat}
    (hleft : p.channelManager.nodeGraph.turns ≤ left) :
    p.getFlowDirection left w.attr.nodeName r.attr.nodeName =
      some (.upstream, p.channelManager.nodeGraph) := by
  obtain ⟨hwName, hwChannel⟩ := h.heard w hw
  obtain ⟨hrName, hrChannel⟩ := h.heard r hr
  let edge : Edge := ⟨⟨w.attr.nodeName⟩, ⟨r.attr.nodeName⟩, w.attr.channelName⟩
  have hcomplete : p.channelManager.nodeGraph.Complete edge := by
    intro side
    cases side with
    | src =>
        have hhalf := h.half w hw
        rw [hsrc] at hhalf
        exact hhalf
    | dst =>
        have hsame : edge.value = r.attr.channelName := hwChannel.trans (hchannel.trans hrChannel.symm)
        have hhalf := h.half r hr
        rw [hdst, ← hsame] at hhalf
        exact hhalf
  have harc : p.channelManager.nodeGraph.arc w.attr.nodeName edge.getKey = some ⟨r.attr.nodeName⟩ :=
    (h.lists _ _ _).mpr ⟨edge, hcomplete, ⟨rfl, rfl⟩, rfl⟩
  have hdummy : ∀ n, Vertice.isDummy ⟨assignNumber n⟩ = false := fun _ => rfl
  have hdirection : p.channelManager.nodeGraph.direction ⟨w.attr.nodeName⟩ ⟨r.attr.nodeName⟩ =
      .upstream := Graph.direction_of_arc h.closed harc
  rw [Site.getFlowDirection, Graph.getDirectionOf_eq h.closed (hwName ▸ hdummy _)
    (hrName ▸ hdummy _) hleft, hdirection]

/-! ## Every process -/

/-- A role of process `i`, which has the name of its channel registered. -/
structure Registered (hash : Str → BitVec 64) (p : Site ι) (role : Role ι) : Prop where
  nodeName : role.roleAttr.nodeName = assignNumber role.node.nodeAttr.nodeId
  channelName : role.roleAttr.channelName ≠ []
  channelId : p.globalData.names .channel role.roleAttr.channelId = some role.roleAttr.channelName
  known : role.roleAttr.channelId ≠ 0 → role.roleAttr.id ≠ 0 →
    ∃ h ∈ p.heard, h.role = role ∧ h.attr.channelId = role.roleAttr.channelId

/-- What a process keeps of its names and its manager. -/
structure Running (hash : Str → BitVec 64) (p : Site ι) : Prop where
  up : p.channelManager.isShutdown = false
  allowed : ∀ side, roleBit (roleType side) &&& p.channelManager.allowedRole ≠ 0
  placed : Placed hash (p.globalData.names .channel)
  informed : Informed p

namespace Topology

variable [DecidableEq ι] {hash : Str → BitVec 64}

omit [DecidableEq ι] in
structure Kept (hash : Str → BitVec 64) (t : Topology ι) : Prop where
  running : ∀ i, Running hash (t.process i)
  enrolled : ∀ r ∈ t.roles, Registered hash (t.process r.process) r
  joins : ∀ r ∈ t.roles, ∀ msg, r.message = some msg → Joins r msg
  heard : ∀ i, ∀ h ∈ (t.process i).heard, h.role ∈ t.roles

theorem process_setProcess (t : Topology ι) (i j : ι) (p : Site ι) :
    (t.setProcess i p).process j = if j = i then p else t.process j :=
  Function.update_apply t.process i p j

/-- What is true of the new process and of the others is true of all. -/
theorem forall_setProcess {t : Topology ι} {i : ι} {p : Site ι} {P : ι → Site ι → Prop}
    (hp : P i p) (h : ∀ j, P j (t.process j)) (j : ι) : P j ((t.setProcess i p).process j) := by
  rw [process_setProcess]
  split
  case isTrue hj => exact hj ▸ hp
  case isFalse => exact h j

/-- A process that has heard of no more, with the names that it had. -/
structure Grown (p p' : Site ι) : Prop where
  names : ∀ x y, p.globalData.names .channel x = some y → p'.globalData.names .channel x = some y
  heard : ∀ h ∈ p.heard, h ∈ p'.heard

omit [DecidableEq ι] in
theorem Grown.keeps {p p' : Site ι} (h : Grown p p') {r : Role ι} (hr : Registered hash p r) :
    Registered hash p' r where
  nodeName := hr.nodeName
  channelName := hr.channelName
  channelId := h.names _ _ hr.channelId
  known hchannel hid := by
    obtain ⟨x, hx, hx'⟩ := hr.known hchannel hid
    exact ⟨x, h.heard x hx, hx'⟩

theorem Kept.enrolled_setProcess {t : Topology ι} (h : t.Kept hash) {i : ι} {p : Site ι}
    (hgrown : Grown (t.process i) p) {r : Role ι} (hr : r ∈ t.roles) :
    Registered hash ((t.setProcess i p).process r.process) r := by
  rw [process_setProcess]
  split
  case isTrue hi => exact hgrown.keeps (hi ▸ h.enrolled r hr)
  case isFalse => exact h.enrolled r hr

/-- A process goes on, and hears of no roles but those that there are. -/
theorem Kept.setProcess {t : Topology ι} (h : t.Kept hash) {i : ι} {p : Site ι}
    (hgrown : Grown (t.process i) p) (hrunning : Running hash p)
    (hheard : ∀ x ∈ p.heard, x.role ∈ t.roles) : (t.setProcess i p).Kept hash where
  running := forall_setProcess (P := fun _ p => Running hash p) hrunning h.running
  enrolled _ hr := h.enrolled_setProcess hgrown hr
  joins := h.joins
  heard := forall_setProcess (P := fun _ p => ∀ x ∈ p.heard, x.role ∈ t.roles) hheard h.heard

theorem kept_setGlobalData {t : Topology ι} (h : t.Kept hash) {i : ι} {d : GlobalData}
    (hplaced : Placed hash (d.names .channel))
    (hnames : ∀ x y, (t.process i).globalData.names .channel x = some y →
      d.names .channel x = some y) : (t.setGlobalData i d).Kept hash :=
  h.setProcess ⟨hnames, fun _ hx => hx⟩
    ⟨(h.running i).up, (h.running i).allowed, hplaced,
      { (h.running i).informed with }⟩ (h.heard i)

omit [DecidableEq ι] in
theorem grown_dispose (p : Site ι) (role : Role ι) (msg : ChangeMsg) :
    Grown p (p.dispose role msg) :=
  ⟨fun _ _ hy => hy, fun _ hx => List.mem_append_left _ hx⟩

omit [DecidableEq ι] in
theorem running_dispose {p : Site ι} (h : Running hash p) {role : Role ι} {msg : ChangeMsg}
    (hmsg : Joins role msg) : Running hash (p.dispose role msg) := by
  have hmanager : (p.channelManager.step msg).toManager = p.channelManager.toManager :=
    ChannelManager.toManager_step p.channelManager msg
  refine ⟨?_, fun side => ?_, h.placed, informed_dispose h.informed hmsg⟩
  · exact (congrArg Manager.isShutdown hmanager).trans h.up
  · have hallowed := congrArg Manager.allowedRole hmanager
    show roleBit (roleType side) &&& (p.channelManager.step msg).allowedRole ≠ 0
    rw [hallowed]
    exact h.allowed side

theorem kept_addRole {t : Topology ι} (h : t.Kept hash) {i : ι} {node : NodeChannelImpl}
    {side : Side} {attr : RoleAttributes} {now : BitVec 64}
    (hname : attr.nodeName = assignNumber node.nodeAttr.nodeId) (hchannel : attr.channelName ≠ [])
    (hid : (t.process i).globalData.names .channel attr.channelId = some attr.channelName) :
    (t.addRole i node side attr now).Kept hash := by
  have hrunning := h.running i
  rw [addRole]
  generalize hmessage : (t.process i).channelManager.prepare ChannelManager.check attr
    (roleType side) .optJoin now = message
  let role : Role ι := { process := i, node, side, roleAttr := attr, message }
  -- what the process is afterwards, and what it needs to be
  suffices hsuff : ∀ p : Site ι, Grown (t.process i) p → Running hash p →
      (∀ x ∈ p.heard, x.role ∈ t.roles ++ [role]) →
      (attr.channelId ≠ 0 → attr.id ≠ 0 →
        ∃ x ∈ p.heard, x.role = role ∧ x.attr.channelId = attr.channelId) →
      Kept hash { t.setProcess i p with roles := t.roles ++ [role] } by
    cases message with
    | none =>
        refine hsuff (t.process i) ⟨fun _ _ hy => hy, fun _ hx => hx⟩ hrunning
          (fun x hx => List.mem_append_left _ (h.heard i x hx)) fun hchannelId hroleId => ?_
        obtain ⟨msg, hmsg⟩ :=
          prepare_some hrunning.up (hrunning.allowed side) hchannel hchannelId hroleId now
        exact absurd (hmessage.symm.trans hmsg) (Option.some_ne_none msg).symm
    | some msg =>
        have hmessage : (t.process i).channelManager.prepare ChannelManager.check role.roleAttr
            (roleType role.side) .optJoin now = some msg := hmessage
        obtain ⟨hmsg, hmsgId⟩ := joins_of_prepare hname hchannel hmessage
        refine hsuff _ (grown_dispose _ role msg) (running_dispose hrunning hmsg) (fun x hx => ?_)
          fun _ _ => ⟨_, List.mem_append_right _ List.mem_cons_self, rfl, hmsgId⟩
        rcases List.mem_append.mp hx with hx | hx
        · exact List.mem_append_left _ (h.heard i x hx)
        · rw [List.mem_singleton.mp hx]
          exact List.mem_append_right _ List.mem_cons_self
  intro p hgrown hp hheard hknown
  have hrole : Registered hash ((t.setProcess i p).process i) role := by
    rw [process_setProcess, if_pos rfl]
    exact ⟨hname, hchannel, hgrown.names _ _ hid, hknown⟩
  refine ⟨?_, fun r hr => ?_, fun r hr msg hmsg => ?_, ?_⟩
  · exact forall_setProcess (P := fun _ p => Running hash p) hp h.running
  · rcases List.mem_append.mp hr with hr | hr
    · exact h.enrolled_setProcess hgrown hr
    · rw [List.mem_singleton.mp hr]
      exact hrole
  · rcases List.mem_append.mp hr with hr | hr
    · exact h.joins r hr msg hmsg
    · rw [List.mem_singleton.mp hr] at hmsg ⊢
      have hprepare : (t.process i).channelManager.prepare ChannelManager.check role.roleAttr
          (roleType role.side) .optJoin now = some msg := hmessage.trans hmsg
      exact (joins_of_prepare hname hchannel hprepare).1
  · exact forall_setProcess (P := fun _ p => ∀ x ∈ p.heard, x.role ∈ t.roles ++ [role]) hheard
      fun j x hx => List.mem_append_left _ (h.heard j x hx)

/-- What a register leaves of the names of channels. -/
theorem kept_register {t : Topology ι} (h : t.Kept hash) {i : ι} {kind : Kind} {name : Str}
    {id : BitVec 64} {d : GlobalData}
    (hregister : (t.process i).globalData.register hash kind name = some (id, d)) :
    (t.setGlobalData i d).Kept hash := by
  obtain ⟨hentered, hother⟩ := GlobalData.entered_of_register hregister
  by_cases hkind : kind = .channel
  · subst hkind
    exact kept_setGlobalData h (hentered.placed (h.running i).placed) fun x y hy => hentered.kept hy
  · have hsame := hother .channel (Ne.symm hkind)
    exact kept_setGlobalData h (hsame ▸ (h.running i).placed) fun x y hy => hsame ▸ hy

/-- A role is added where its attributes have just been filled in. -/
theorem kept_newRole {t : Topology ι} (h : t.Kept hash) {i : ι} {node : NodeChannelImpl}
    {side : Side} {roleAttr attr : RoleAttributes} {d : GlobalData} (nodes : List (ι × Node))
    (hnew : node.newAttr hash (t.process i).globalData roleAttr = some (attr, d)) (id : BitVec 64)
    (now : BitVec 64) :
    ({ t.setGlobalData i d with nodes }.addRole i node side { attr with id } now).Kept hash := by
  obtain ⟨hfilled, hchannel, hregister⟩ := NodeChannelImpl.newAttr_eq hnew
  have hkept : (t.setGlobalData i d).Kept hash := kept_register h hregister
  have hself := (GlobalData.entered_of_register hregister).1.self
  have hnodes : Kept hash { t.setGlobalData i d with nodes } :=
    ⟨hkept.running, hkept.enrolled, hkept.joins, hkept.heard⟩
  refine kept_addRole hnodes hfilled.nodeName ?_ ?_
  · show attr.channelName ≠ []
    rw [hfilled.channelName]
    exact hchannel
  · have hprocess : ((t.setGlobalData i d).process i).globalData = d := by
      rw [setGlobalData, process_setProcess, if_pos rfl]
    show ((t.setGlobalData i d).process i).globalData.names .channel attr.channelId =
      some attr.channelName
    rw [hprocess, hfilled.channelName]
    exact hself

theorem kept_hear {t : Topology ι} (h : t.Kept hash) (i : ι) (k : Nat) (channelId : BitVec 64) :
    (t.hear i k channelId).Kept hash := by
  rw [hear]
  split
  case h_1 => exact h
  case h_2 role hrole =>
    have hrole := List.mem_of_getElem? hrole
    split
    case h_1 => exact h
    case h_2 msg hmsg =>
      dsimp only
      split
      case isTrue => exact h
      split
      case isTrue => exact h
      split
      case isTrue => exact h
      refine h.setProcess (grown_dispose _ _ _)
        (running_dispose (h.running i) ((h.joins role hrole msg hmsg).retold channelId)) fun x hx => ?_
      rcases List.mem_append.mp hx with hx | hx
      · exact h.heard i x hx
      · rw [List.mem_singleton.mp hx]
        exact hrole

theorem kept_step {t : Topology ι} (h : t.Kept hash) (e : Event ι) : (t.step hash e).Kept hash := by
  cases e with
  | createNode i junk nodeName =>
      show (t.createNode hash i junk nodeName).Kept hash
      rw [createNode]
      split
      case h_1 => exact h
      case h_2 n d hnew =>
        have hregister := (NodeChannelImpl.new_eq hnew).2
        have hkept : (t.setGlobalData i d).Kept hash := kept_register h hregister
        exact ⟨hkept.running, hkept.enrolled, hkept.joins, hkept.heard⟩
  | createPublisher k roleAttr isShutdown id answer now =>
      show (t.createPublisher hash k roleAttr isShutdown id answer now).Kept hash
      rw [createPublisher]
      split
      case h_1 => exact h
      case h_2 i node _ =>
        split
        case h_1 => exact h
        case h_2 attr d hnew =>
          dsimp only
          split
          case h_1 =>
            obtain ⟨-, -, hregister⟩ := NodeChannelImpl.newAttr_eq hnew
            exact kept_register h hregister
          case h_2 transmitter _ => exact kept_newRole h t.nodes hnew _ now
  | createSubscriber k roleAttr created now =>
      show (t.createSubscriber hash k roleAttr created now).Kept hash
      rw [createSubscriber]
      split
      case h_1 => exact h
      case h_2 i node _ =>
        split
        case isTrue => exact h
        split
        case h_1 => exact h
        case h_2 attr d hnew =>
          dsimp only
          split
          case isTrue =>
            obtain ⟨-, -, hregister⟩ := NodeChannelImpl.newAttr_eq hnew
            exact kept_register h hregister
          case isFalse => exact kept_newRole h _ hnew attr.id now
  | hear i k channelId => exact kept_hear h i k channelId

omit [DecidableEq ι] in
theorem kept_start (hash : Str → BitVec 64) (place : ι → Place) : (start place).Kept hash where
  running i := by
    refine ⟨rfl, fun side => ?_, fun x y hy => ?_, ?_⟩
    · show roleBit (roleType side) &&& (roleBit .roleWriter ||| roleBit .roleReader) ≠ 0
      cases side <;> decide
    · cases hy
    · refine ⟨fun h hh => absurd hh List.not_mem_nil, fun h hh => absurd hh List.not_mem_nil,
        fun c side n hn => ?_, Graph.keyed_empty, Graph.closed_empty, Graph.lists_empty,
        fun h hh => absurd hh List.not_mem_nil, fun side item hitem => ?_⟩
      · cases side <;> cases hn
      · cases side <;> cases hitem
  enrolled r hr := absurd hr List.not_mem_nil
  joins r hr := absurd hr List.not_mem_nil
  heard i h hh := absurd hh List.not_mem_nil

omit [DecidableEq ι] in
/-- Every role that concerns a process is one that it has heard of. -/
theorem Kept.heard_of_concerns {t : Topology ι} (h : t.Kept hash)
    (hids : ∀ r ∈ t.roles, r.roleAttr.channelId ≠ 0 ∧ r.roleAttr.id ≠ 0) {i : ι} {r : Role ι}
    (hr : t.Concerns i r) : ∃ x ∈ (t.process i).heard, x.role = r := by
  rcases hr with ⟨hr, rfl⟩ | hr
  · obtain ⟨x, hx, hrole, -⟩ := (h.enrolled r hr).known (hids r hr).1 (hids r hr).2
    exact ⟨x, hx, hrole⟩
  · exact hr

omit [DecidableEq ι] in
theorem right_of_namedByBytes {t : Topology ι} (h : t.Kept hash)
    (hids : ∀ r ∈ t.roles, r.roleAttr.channelId ≠ 0 ∧ r.roleAttr.id ≠ 0) (hnamed : t.NamedByBytes)
    (i : ι) : t.Right hash i := by
  have hinformed := (h.running i).informed
  have hname : ∀ x ∈ (t.process i).heard, x.attr.nodeName = x.role.node.nodeName := fun x hx =>
    (hinformed.heard x hx).1.trans (hnamed x.role (h.heard i x hx)).symm
  constructor
  · intro w r hw hr hsrc hdst hchannel
    obtain ⟨x, hx, rfl⟩ := h.heard_of_concerns hids hw
    obtain ⟨y, hy, rfl⟩ := h.heard_of_concerns hids hr
    refine ⟨(t.process i).channelManager.nodeGraph.turns, fun left hleft => ?_⟩
    rw [← hname x hx, ← hname y hy]
    exact hinformed.flow hx hy hsrc hdst hchannel hleft
  · intro side channelName attrs hattrs attr hattr
    obtain ⟨⟨key, d⟩, -, hattrs⟩ := Option.bind_eq_some_iff.mp hattrs
    cases hattrs
    obtain ⟨item, hitem, rfl⟩ := List.mem_map.mp hattr
    obtain ⟨x, hx, hside, hx'⟩ := hinformed.creator side item (List.mem_filter.mp hitem).1
    exact ⟨⟨x, hx, hside, hx'⟩, fun y hy _ hy' => hy' ▸ hname y hy⟩

omit [DecidableEq ι] in
/-- A role is among those of its channel in its own process. -/
theorem namedByBytes_of_right {t : Topology ι} (h : t.Kept hash)
    (hids : ∀ r ∈ t.roles, r.roleAttr.channelId ≠ 0 ∧ r.roleAttr.id ≠ 0)
    (hright : ∀ i, t.Right hash i) : t.NamedByBytes := by
  intro r hr
  have hregistered := h.enrolled r hr
  obtain ⟨x, hx, rfl, hchannelId⟩ := hregistered.known (hids r hr).1 (hids r hr).2
  have hinformed := (h.running x.role.process).informed
  obtain ⟨item, hitem, hkey, hattr⟩ := hinformed.stored x hx
  obtain ⟨d, hregister⟩ :=
    GlobalData.register_again (h.running x.role.process).placed hregistered.channelId
  have hroles : (t.process x.role.process).rolesOfChannel hash x.role.side
      x.role.roleAttr.channelName = some _ :=
    Option.bind_eq_some_iff.mpr ⟨_, hregister, rfl⟩
  have hmem : item.2.attributes ∈
      (((t.process x.role.process).channelManager.channelRoles x.role.side).filter fun item =>
        item.1 == x.role.roleAttr.channelId).map fun item => item.2.attributes := by
    refine List.mem_map_of_mem (List.mem_filter.mpr ⟨hitem, ?_⟩)
    rw [hkey, hchannelId]
    exact beq_self_eq_true _
  have hname := ((hright x.role.process).names _ _ _ hroles _ hmem).2 x hx rfl hattr.symm
  rw [← hname, hattr]
  exact (hinformed.heard x hx).1

/-- Whatever has been created and heard of, where no publisher or subscriber has an id that is
refused: every process is right if and only if the last byte of its id is the name of every node
that has one. -/
theorem right_iff (hash : Str → BitVec 64) (place : ι → Place) (es : List (Event ι))
    (hids : ∀ r ∈ (Run.exec (step hash) (start place) es).roles,
      r.roleAttr.channelId ≠ 0 ∧ r.roleAttr.id ≠ 0) :
    (∀ i, (Run.exec (step hash) (start place) es).Right hash i) ↔
      (Run.exec (step hash) (start place) es).NamedByBytes := by
  have hstep : ∀ (t : Topology ι) e, t.Kept hash → (step hash t e).Kept hash :=
    fun _ e h => kept_step h e
  have hkept := Run.invariant_always hstep (kept_start hash place) _
    (Run.exec_mem_states (step hash) (start place) es)
  exact ⟨namedByBytes_of_right hkept hids, right_of_namedByBytes hkept hids⟩

def noJunk : Junk := fun _ _ => 0

/-- A node with a publisher and a subscriber of one channel. -/
def oneNode (nodeName : Str) : List (Event Unit) :=
  let roleAttr := { RoleAttributes.init noJunk with channelName := [0x63], id := 7 }
  let id : Identity := { data := Vector.replicate 8 1, hashValue := 6 }
  [.createNode () noJunk nodeName, .createPublisher 0 roleAttr false id .registered 1,
    .createSubscriber 0 roleAttr true 2]

theorem right_iff_oneNode :
    (∀ r ∈ (Run.exec (step fun _ => 5) (start fun _ => {}) (oneNode [5])).roles,
      r.roleAttr.channelId ≠ 0 ∧ r.roleAttr.id ≠ 0) ∧
    ((∀ i, (Run.exec (step fun _ => 5) (start fun _ => {}) (oneNode [5])).Right (fun _ => 5) i) ↔
      (Run.exec (step fun _ => 5) (start fun _ => {}) (oneNode [5])).NamedByBytes) :=
  have hids : ∀ r ∈ (Run.exec (step fun _ => 5) (start fun _ => {}) (oneNode [5])).roles,
      r.roleAttr.channelId ≠ 0 ∧ r.roleAttr.id ≠ 0 := by decide +kernel
  ⟨hids, right_iff _ _ _ hids⟩

/-- The publisher of a node that is named otherwise is not said to be of that node. -/
theorem oneNode_not_right :
    ¬ ∀ i, (Run.exec (step fun _ => 5) (start fun _ => {}) (oneNode [0x61])).Right (fun _ => 5) i := by
  intro h
  let attr : RoleAttributes :=
    { hostName := [], hostIp := [], processId := 0, channelName := [0x63], channelId := 5,
      qosProfile := {}, id := 6, nodeName := [5], nodeId := 5, messageType := [] }
  let p := (Run.exec (step fun _ => 5) (start fun _ => {}) (oneNode [0x61])).process ()
  have hattrs : p.getWritersOfChannel (fun _ => 5) [0x63] = some [attr] := by decide +kernel
  have hheard : p.heard.map (fun x => x.role.node.nodeName) = [[0x61], [0x61]] := by decide +kernel
  obtain ⟨⟨x, hx, hside, hattr⟩, hnames⟩ :=
    (h ()).names .src [0x63] [attr] hattrs attr List.mem_cons_self
  have hname : attr.nodeName = x.role.node.nodeName := hnames x hx hside hattr
  have hmem : x.role.node.nodeName ∈ p.heard.map fun x => x.role.node.nodeName :=
    List.mem_map_of_mem hx
  rw [hheard, ← hname] at hmem
  exact absurd hmem (by decide)

end Topology

end Node
end Cmw
