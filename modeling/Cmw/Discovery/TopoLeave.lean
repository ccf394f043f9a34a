import Cmw.Discovery.Warehouses

/-!
# The purge of a process that is gone

`OnTopoModuleLeave` searches with attributes of which it has set two.  `Match`
compares the node id too, and of a writer or a reader the channel id and the id,
so a role is found only if the storage of the local variable happens to hold
these.
-/

namespace Cmw
namespace Discovery

open Config
open Library
open Serialize

/-- The role runs in process `processId` of `hostName`. -/
def OfProcess (hostName : Str) (processId : BitVec 32) (attr : RoleAttributes) : Prop :=
  attr.hostName = hostName ∧ attr.processId = processId

instance (hostName : Str) (processId : BitVec 32) : DecidablePred (OfProcess hostName processId) :=
  fun _ => inferInstanceAs (Decidable (_ ∧ _))

/-! ## Nodes -/

namespace SingleValueWarehouse

variable {ρ : Type} {w : SingleValueWarehouse ρ} {key : BitVec 64} {role : ρ}

theorem add_true : w.add key role true = (true, w.insert key role) := rfl

theorem add_of_mem (h : key ∈ w) : w.add key role false = (false, w) := by
  rw [add, if_pos (by simpa using h)]

theorem add_of_notMem (h : key ∉ w) : w.add key role false = (true, w.insert key role) := by
  rw [add, if_neg (by simpa using h)]

theorem mem_searchAttr [Role ρ] {target : RoleAttributes} :
    role ∈ w.searchAttr target ↔
      (∃ key, w.lookup key = some role) ∧ Role.matchAttr role target = true := by
  simp only [searchAttr, List.mem_map, List.mem_filter]
  constructor
  · intro h
    obtain ⟨e, ⟨he, hmatch⟩, rfl⟩ := h
    exact ⟨⟨e.1, AList.mem_lookup_iff.mpr he⟩, hmatch⟩
  · intro h
    obtain ⟨⟨key, hkey⟩, hmatch⟩ := h
    exact ⟨⟨key, role⟩, ⟨AList.mem_lookup_iff.mp hkey, hmatch⟩, rfl⟩

end SingleValueWarehouse

theorem MultiValueWarehouse.mem_searchAttr {ρ : Type} [Role ρ] {w : MultiValueWarehouse ρ}
    {role : ρ} {target : RoleAttributes} :
    role ∈ w.searchAttr target ↔
      (∃ key, (key, role) ∈ w) ∧ Role.matchAttr role target = true := by
  simp only [searchAttr, List.mem_map, List.mem_filter]
  constructor
  · intro h
    obtain ⟨item, ⟨hitem, hmatch⟩, rfl⟩ := h
    exact ⟨⟨item.1, hitem⟩, hmatch⟩
  · intro h
    obtain ⟨⟨key, hkey⟩, hmatch⟩ := h
    exact ⟨(key, role), ⟨hkey, hmatch⟩, rfl⟩

namespace NodeManager

/-- What changes the nodes: a message, or a process that is gone. -/
inductive Event
  | dispose (msg : ChangeMsg)
  | topoModuleLeave (junk : Junk) (hostName : Str) (processId : BitVec 32) (now : BitVec 64)

def step (m : NodeManager) : Event → NodeManager
  | .dispose msg => (m.dispose msg).1
  | .topoModuleLeave junk hostName processId now =>
      (m.onTopoModuleLeave (.init junk) hostName processId now).1

/-- The purge of a process has done what it is for. -/
structure Purged (m m' : NodeManager) (notified : List ChangeMsg) (hostName : Str)
    (processId : BitVec 32) (now : BitVec 64) : Prop where
  gone : ∀ key node, m'.nodes.lookup key = some node →
    ¬OfProcess hostName processId node.attributes
  kept : ∀ key node, m.nodes.lookup key = some node →
    ¬OfProcess hostName processId node.attributes → m'.nodes.lookup key = some node
  notified : notified.Perm
    ((m.nodes.entries.filter fun e => OfProcess hostName processId e.2.attributes).map fun e =>
      m.convert e.2.attributes .roleNode .optLeave now)

def Keyed (m : NodeManager) : Prop :=
  ∀ key node, m.nodes.lookup key = some node → key = node.attributes.nodeId

theorem disposeJoin_cases (m : NodeManager) (msg : ChangeMsg) :
    m.disposeJoin msg = m ∨ m.disposeJoin msg =
      { m with
        nodes := m.nodes.insert msg.roleAttr.nodeId
          { attributes := msg.roleAttr, timestampNs := msg.timestamp } } := by
  by_cases hkey : msg.roleAttr.nodeId ∈ m.nodes
  · cases hsearch : m.nodes.search msg.roleAttr.nodeId with
    | none =>
        right
        simp only [disposeJoin, SingleValueWarehouse.add_of_mem hkey, hsearch,
          SingleValueWarehouse.add_true]
        rfl
    | some existing =>
        simp only [disposeJoin, SingleValueWarehouse.add_of_mem hkey, hsearch,
          SingleValueWarehouse.add_true]
        rw [if_neg Bool.false_ne_true]
        split
        · exact Or.inr rfl
        · exact Or.inl rfl
  · right
    simp only [disposeJoin, SingleValueWarehouse.add_of_notMem hkey]
    rfl

theorem lookup_removeKeys {nodes : SingleValueWarehouse RoleNode} {key : BitVec 64} {node : RoleNode}
    {removed : List RoleNode} (hne : ∀ r ∈ removed, r.attributes.nodeId ≠ key)
    (h : nodes.lookup key = some node) :
    (removed.foldl (fun (w : SingleValueWarehouse RoleNode) r => w.removeKey r.attributes.nodeId)
      nodes).lookup key = some node := by
  induction removed generalizing nodes with
  | nil => exact h
  | cons r removed ih =>
      rw [List.forall_mem_cons] at hne
      refine ih hne.2 ((Table.lookup_erase nodes r.attributes.nodeId key).trans ?_)
      rw [if_neg hne.1.symm, h]

theorem lookup_of_removeKeys {nodes : SingleValueWarehouse RoleNode} {key : BitVec 64}
    {node : RoleNode} {l : List RoleNode}
    (h : (l.foldl (fun (w : SingleValueWarehouse RoleNode) r =>
      w.removeKey r.attributes.nodeId) nodes).lookup key = some node) :
    nodes.lookup key = some node := by
  induction l generalizing nodes with
  | nil => exact h
  | cons r l ih =>
      have hstep : (nodes.erase r.attributes.nodeId).lookup key = some node := ih h
      rw [Table.lookup_erase] at hstep
      split at hstep
      · cases hstep
      · exact hstep

theorem keyed_step {m : NodeManager} (h : m.Keyed) (e : Event) : (m.step e).Keyed := by
  intro key node hnode
  cases e with
  | dispose msg =>
      rw [step, dispose] at hnode
      dsimp only at hnode
      split at hnode
      · rcases disposeJoin_cases m msg with hjoin | hjoin
        · exact h key node (hjoin ▸ hnode)
        · rw [hjoin, Table.lookup_insert] at hnode
          split at hnode
          case isTrue hkey =>
            cases hnode
            exact hkey
          case isFalse => exact h key node hnode
      · have hold : m.nodes.lookup key = some node :=
          lookup_of_removeKeys (l := [⟨msg.roleAttr, 0⟩]) hnode
        exact h key node hold
  | topoModuleLeave junk hostName processId now =>
      rw [step, onTopoModuleLeave] at hnode
      split at hnode
      · exact h key node hnode
      · exact h key node (lookup_of_removeKeys hnode)

theorem toManager_step (m : NodeManager) (e : Event) : (m.step e).toManager = m.toManager := by
  cases e with
  | dispose msg =>
      rw [step, dispose]
      dsimp only
      split
      · rcases disposeJoin_cases m msg with hjoin | hjoin <;> rw [hjoin]
      · rfl
  | topoModuleLeave junk hostName processId now =>
      rw [step, onTopoModuleLeave]
      split <;> rfl

theorem onTopoModuleLeave_of_none {m : NodeManager} (hstart : m.isDiscoveryStarted = true)
    {hostName : Str} {processId : BitVec 32}
    (hnone : ∀ key node, m.nodes.lookup key = some node →
      ¬OfProcess hostName processId node.attributes)
    (attr : RoleAttributes) (now : BitVec 64) :
    m.onTopoModuleLeave attr hostName processId now = (m, []) := by
  have hsearch : m.nodes.searchAttr { attr with hostName, processId } = [] := by
    refine List.eq_nil_iff_forall_not_mem.mpr fun r hr => ?_
    obtain ⟨⟨key, hkey⟩, hmatch⟩ := SingleValueWarehouse.mem_searchAttr.mp hr
    obtain ⟨-, hpid, hhost⟩ := RoleBase.matchAttr_iff.mp hmatch
    exact hnone key r hkey ⟨hhost.symm, hpid.symm⟩
  rw [onTopoModuleLeave, hstart]
  dsimp only
  rw [hsearch]
  rfl

/-- A process is purged, whatever the storage of the local variable holds, only if
it has no node. -/
theorem purged_iff {m : NodeManager} (hstart : m.isDiscoveryStarted = true) (hkeyed : m.Keyed)
    (hostName : Str) (processId : BitVec 32) :
    (∀ junk now,
      let left := m.onTopoModuleLeave (.init junk) hostName processId now
      m.Purged left.1 left.2 hostName processId now) ↔
    ∀ key node, m.nodes.lookup key = some node → ¬OfProcess hostName processId node.attributes := by
  constructor
  · intro h key node hnode hof
    -- a node id that is not that of the node
    have hpurged := h (fun _ size => (node.attributes.nodeId + 1).setWidth (8 * size)) 0
    refine hpurged.gone key node ?_ hof
    rw [onTopoModuleLeave, hstart]
    refine lookup_removeKeys (fun r hr hkey => ?_) hnode
    have hmatch := (SingleValueWarehouse.mem_searchAttr.mp hr).2
    have hid : (node.attributes.nodeId + 1).setWidth 64 = r.attributes.nodeId :=
      (RoleBase.matchAttr_iff.mp hmatch).1
    rw [hkey, hkeyed key node hnode] at hid
    bv_omega
  · intro hnone junk now
    have hremoved : m.nodes.entries.filter (fun e => OfProcess hostName processId e.2.attributes)
        = [] := by
      refine List.filter_eq_nil_iff.mpr fun e he => ?_
      rw [decide_eq_true_iff]
      exact hnone e.1 e.2 (AList.mem_lookup_iff.mpr he)
    rw [onTopoModuleLeave_of_none hstart hnone]
    exact ⟨hnone, fun _ _ hnode _ => hnode, by rw [hremoved]; exact List.Perm.nil⟩

end NodeManager

/-! ## Channels -/

namespace ChannelManager

def leaving (m : ChannelManager) (hostName : Str) (processId : BitVec 32) (side : Side) :
    List RoleWriter :=
  ((m.channelRoles side).filter fun item =>
    OfProcess hostName processId item.2.attributes).map Prod.snd

structure Purged (m m' : ChannelManager) (notified : List ChangeMsg) (hostName : Str)
    (processId : BitVec 32) (now : BitVec 64) : Prop where
  nodesGone : ∀ side, ∀ item ∈ m'.nodeRoles side,
    ¬OfProcess hostName processId item.2.attributes
  channelsGone : ∀ side, ∀ item ∈ m'.channelRoles side,
    ¬OfProcess hostName processId item.2.attributes
  nodesKept : ∀ side, ∀ item ∈ m.nodeRoles side,
    ¬OfProcess hostName processId item.2.attributes → item ∈ m'.nodeRoles side
  channelsKept : ∀ side, ∀ item ∈ m.channelRoles side,
    ¬OfProcess hostName processId item.2.attributes → item ∈ m'.channelRoles side
  notified : notified.Perm
    ((m.leaving hostName processId .src).map (fun r =>
        m.convert r.attributes .roleWriter .optLeave now) ++
      (m.leaving hostName processId .dst).map fun r =>
        m.convert r.attributes .roleReader .optLeave now)

theorem mem_disposeLeave {m : ChannelManager} {msg : ChangeMsg} {side : Side}
    {item : BitVec 64 × RoleWriter} (hne : msg.roleAttr.nodeId ≠ item.2.attributes.nodeId) :
    (item ∈ m.nodeRoles side → item ∈ (m.disposeLeave msg).nodeRoles side) ∧
      (item ∈ m.channelRoles side → item ∈ (m.disposeLeave msg).channelRoles side) := by
  have hstays : ∀ {w : MultiValueWarehouse RoleWriter} {key : BitVec 64}, item ∈ w →
      item ∈ w.remove key (roleOf msg) := fun hitem =>
    MultiValueWarehouse.mem_remove.mpr ⟨hitem, fun hmatch =>
      hne (RoleWriter.matchAttr_iff.mp hmatch.2).2.2.1⟩
  rw [nodeRoles_disposeLeave, channelRoles_disposeLeave]
  by_cases hside : side = sideOf msg
  · rw [if_pos hside, if_pos hside]
    exact ⟨hstays, hstays⟩
  · rw [if_neg hside, if_neg hside]
    exact ⟨id, id⟩

theorem mem_purges (role : RoleType) (now : BitVec 64) (side : Side) {roles : List RoleWriter}
    {item : BitVec 64 × RoleWriter}
    (hne : ∀ r ∈ roles, r.attributes.nodeId ≠ item.2.attributes.nodeId)
    (s : ChannelManager × List ChangeMsg) :
    (item ∈ s.1.nodeRoles side → item ∈ (roles.foldl (purge role now) s).1.nodeRoles side) ∧
      (item ∈ s.1.channelRoles side →
        item ∈ (roles.foldl (purge role now) s).1.channelRoles side) := by
  induction roles generalizing s with
  | nil => exact ⟨id, id⟩
  | cons r roles ih =>
      rw [List.forall_mem_cons] at hne
      have hfirst : (item ∈ s.1.nodeRoles side → item ∈ (purge role now s r).1.nodeRoles side) ∧
          (item ∈ s.1.channelRoles side → item ∈ (purge role now s r).1.channelRoles side) :=
        mem_disposeLeave hne.1
      have hrest := ih hne.2 (purge role now s r)
      exact ⟨fun hitem => hrest.1 (hfirst.1 hitem), fun hitem => hrest.2 (hfirst.2 hitem)⟩

/-- The purge finds no role whose node id is not the one in its local variable. -/
theorem mem_onTopoModuleLeave {m : ChannelManager} {attr : RoleAttributes} {hostName : Str}
    {processId : BitVec 32} {now : BitVec 64} {side : Side} {item : BitVec 64 × RoleWriter}
    (hne : attr.nodeId ≠ item.2.attributes.nodeId) :
    (item ∈ m.nodeRoles side →
        item ∈ (m.onTopoModuleLeave attr hostName processId now).1.nodeRoles side) ∧
      (item ∈ m.channelRoles side →
        item ∈ (m.onTopoModuleLeave attr hostName processId now).1.channelRoles side) := by
  have hfound : ∀ {w : MultiValueWarehouse RoleWriter},
      ∀ r ∈ w.searchAttr { attr with hostName, processId },
        r.attributes.nodeId ≠ item.2.attributes.nodeId := by
    intro w r hr hkey
    have hmatch := (MultiValueWarehouse.mem_searchAttr.mp hr).2
    exact hne ((RoleWriter.matchAttr_iff.mp hmatch).2.2.1.trans hkey)
  rw [onTopoModuleLeave]
  split
  · exact ⟨id, id⟩
  · have hwriters := mem_purges .roleWriter now side (hfound (w := m.channelWriters)) (m, [])
    have hreaders := mem_purges .roleReader now side (hfound (w := m.channelReaders))
      ((m.channelWriters.searchAttr { attr with hostName, processId }).foldl
        (purge .roleWriter now) (m, []))
    exact ⟨fun hitem => hreaders.1 (hwriters.1 hitem), fun hitem => hreaders.2 (hwriters.2 hitem)⟩

theorem onTopoModuleLeave_of_none {m : ChannelManager} (hstart : m.isDiscoveryStarted = true)
    {hostName : Str} {processId : BitVec 32}
    (hnone : ∀ side, ∀ item ∈ m.channelRoles side, ¬OfProcess hostName processId item.2.attributes)
    (attr : RoleAttributes) (now : BitVec 64) :
    m.onTopoModuleLeave attr hostName processId now = (m, []) := by
  have hsearch : ∀ side,
      (m.channelRoles side).searchAttr { attr with hostName, processId } = [] := by
    intro side
    refine List.eq_nil_iff_forall_not_mem.mpr fun r hr => ?_
    obtain ⟨⟨key, hkey⟩, hmatch⟩ := MultiValueWarehouse.mem_searchAttr.mp hr
    obtain ⟨-, -, -, hpid, hhost⟩ := RoleWriter.matchAttr_iff.mp hmatch
    exact hnone side (key, r) hkey ⟨hhost.symm, hpid.symm⟩
  have hwriters : m.channelWriters.searchAttr _ = [] := hsearch .src
  have hreaders : m.channelReaders.searchAttr _ = [] := hsearch .dst
  rw [onTopoModuleLeave, hstart]
  dsimp only
  rw [hwriters, hreaders]
  rfl

theorem leaving_eq_nil {m : ChannelManager} {hostName : Str} {processId : BitVec 32} {side : Side}
    (hnone : ∀ item ∈ m.channelRoles side, ¬OfProcess hostName processId item.2.attributes) :
    m.leaving hostName processId side = [] := by
  rw [leaving, List.map_eq_nil_iff]
  refine List.filter_eq_nil_iff.mpr fun item hitem => ?_
  rw [decide_eq_true_iff]
  exact hnone item hitem

theorem purged_iff {m : ChannelManager} (hstart : m.isDiscoveryStarted = true)
    (hostName : Str) (processId : BitVec 32) :
    (∀ junk now,
      let left := m.onTopoModuleLeave (.init junk) hostName processId now
      m.Purged left.1 left.2 hostName processId now) ↔
    ∀ side, (∀ item ∈ m.nodeRoles side, ¬OfProcess hostName processId item.2.attributes) ∧
      ∀ item ∈ m.channelRoles side, ¬OfProcess hostName processId item.2.attributes := by
  constructor
  · intro h side
    have hother : ∀ item : BitVec 64 × RoleWriter,
        (RoleAttributes.init fun _ size => (item.2.attributes.nodeId + 1).setWidth (8 * size)).nodeId
          ≠ item.2.attributes.nodeId := by
      intro item hid
      have hid : (item.2.attributes.nodeId + 1).setWidth 64 = item.2.attributes.nodeId := hid
      bv_omega
    constructor
    · intro item hitem
      exact (h _ 0).nodesGone side item ((mem_onTopoModuleLeave (hother item)).1 hitem)
    · intro item hitem
      exact (h _ 0).channelsGone side item ((mem_onTopoModuleLeave (hother item)).2 hitem)
  · intro hnone junk now
    rw [onTopoModuleLeave_of_none hstart fun side => (hnone side).2]
    exact
      { nodesGone := fun side => (hnone side).1
        channelsGone := fun side => (hnone side).2
        nodesKept := fun _ _ hitem _ => hitem
        channelsKept := fun _ _ hitem _ => hitem
        notified := by
          rw [leaving_eq_nil (hnone .src).2, leaving_eq_nil (hnone .dst).2]
          exact List.Perm.nil }

end ChannelManager

/-! ## Both managers -/

/-- In any state that messages and purges lead to, a process is purged, whatever the
storage of the local variables holds, if and only if there is nothing to purge. -/
theorem moduleLeft_iff {hostName : Str} {processId : BitVec 32} {events : List NodeManager.Event}
    {nm : NodeManager}
    (hnm : nm ∈ Run.states NodeManager.step (NodeManager.new hostName processId).startDiscovery
      events)
    {cm : ChannelManager} (hcm : cm.isDiscoveryStarted = true) (host : Str) (pid : BitVec 32) :
    (∀ junkN junkC now,
      let nodes := nm.onTopoModuleLeave (.init junkN) host pid now
      let roles := cm.onTopoModuleLeave (.init junkC) host pid now
      nm.Purged nodes.1 nodes.2 host pid now ∧ cm.Purged roles.1 roles.2 host pid now) ↔
    (∀ key node, nm.nodes.lookup key = some node → ¬OfProcess host pid node.attributes) ∧
      ∀ side, (∀ item ∈ cm.nodeRoles side, ¬OfProcess host pid item.2.attributes) ∧
        ∀ item ∈ cm.channelRoles side, ¬OfProcess host pid item.2.attributes := by
  have hkeyed : nm.Keyed := by
    have hnew : (NodeManager.new hostName processId).startDiscovery.Keyed := fun _ _ h => by cases h
    exact Run.invariant_always (I := NodeManager.Keyed) (fun _ e h => NodeManager.keyed_step h e)
      hnew nm hnm
  have hstart : nm.isDiscoveryStarted = true := by
    refine Run.invariant_always (I := fun m : NodeManager => m.isDiscoveryStarted = true) ?_ ?_ nm hnm
    · intro m e h
      rw [NodeManager.toManager_step]
      exact h
    · rfl
  rw [← NodeManager.purged_iff hstart hkeyed, ← ChannelManager.purged_iff hcm]
  constructor
  · intro h
    exact ⟨fun junk now => (h junk (fun _ _ => 0) now).1, fun junk now => (h (fun _ _ => 0) junk now).2⟩
  · exact fun h junkN junkC now => ⟨h.1 junkN now, h.2 junkC now⟩

def nodeOne : RoleNode :=
  { attributes :=
      { hostName := [0x68], hostIp := [], processId := 7, channelName := [], channelId := 0,
        qosProfile := {}, id := 0, nodeName := [0x6E], nodeId := 1, messageType := [] }
    timestampNs := 0 }

def nodeJoins : NodeManager.Event :=
  .dispose
    { timestamp := 0, changeType := ChangeType.changeNode.word,
      operateType := OperateType.optJoin.word, roleType := RoleType.roleNode.word,
      roleAttr := nodeOne.attributes }

/-- Process 8, of which nothing is stored, is purged, and node 1 stays. -/
theorem moduleLeft_nodeJoins :
    let nm := (NodeManager.new [] 0).startDiscovery.step nodeJoins
    let cm := (ChannelManager.new [] 0).startDiscovery
    ∀ junkN junkC now,
      let nodes := nm.onTopoModuleLeave (.init junkN) [0x68] 8 now
      let roles := cm.onTopoModuleLeave (.init junkC) [0x68] 8 now
      nm.Purged nodes.1 nodes.2 [0x68] 8 now ∧ cm.Purged roles.1 roles.2 [0x68] 8 now := by
  refine (moduleLeft_iff (Run.exec_mem_states NodeManager.step _ [nodeJoins]) rfl [0x68] 8).mpr
    ⟨fun key node hnode => ?_, fun side => ?_⟩
  · have hstored : ((∅ : SingleValueWarehouse RoleNode).insert 1 nodeOne).lookup key = some node :=
      hnode
    rw [Table.lookup_insert] at hstored
    split at hstored
    · cases hstored
      decide
    · cases hstored
  · cases side <;> exact ⟨List.forall_mem_nil _, List.forall_mem_nil _⟩

/-- Where the storage holds zeros, node 1 stays when its own process is gone. -/
theorem nodeJoins_not_purged :
    let nm := (NodeManager.new [] 0).startDiscovery.step nodeJoins
    let left := nm.onTopoModuleLeave (.init fun _ _ => 0) [0x68] 7 0
    ¬nm.Purged left.1 left.2 [0x68] 7 0 := by
  intro nm left h
  have hstays : left.1.nodes.lookup 1 = some nodeOne := by decide +kernel
  exact h.gone 1 nodeOne hstays (by decide)

end Discovery
end Cmw
