import Cmw.Common.GlobalData
import Cmw.Discovery.Warehouses
import Mathlib.Data.List.Dedup

/-!
# The nodes before and behind a node

`GetUpstreamOfNode` and `GetDownstreamOfNode` of discovery/specific_manager/channel_manager.cpp.
Both join the roles of a node with the roles of the other side that have its channels, and keep one
entry for every name of a node.  `hash` is `common::Hash`.
-/

namespace Cmw
namespace Discovery

open Common
open Config
open Library
open Serialize

/-- `Search(key, &roles_attr)` -/
def MultiValueWarehouse.searchKey (w : MultiValueWarehouse RoleWriter) (key : BitVec 64) :
    List RoleAttributes :=
  (w.filter fun item => item.1 == key).map fun item => item.2.attributes

namespace ChannelManager

section Queries

variable (hash : Str → BitVec 64) (m : ChannelManager)

def rolesOfNode (side : Side) (d : GlobalData) (nodeName : Str) :
    Option (List RoleAttributes × GlobalData) := do
  let (key, d) ← d.registerNode hash nodeName
  some ((m.nodeRoles side).searchKey key, d)

def rolesOfChannel (side : Side) (d : GlobalData) (channelName : Str) :
    Option (List RoleAttributes × GlobalData) := do
  let (key, d) ← d.registerChannel hash channelName
  some ((m.channelRoles side).searchKey key, d)

def getReadersOfNode := rolesOfNode hash m .dst
def getWritersOfNode := rolesOfNode hash m .src
def getReadersOfChannel := rolesOfChannel hash m .dst
def getWritersOfChannel := rolesOfChannel hash m .src

/-- The loop over the channels: each appends its roles. -/
def rolesOfChannels (get : GlobalData → Str → Option (List RoleAttributes × GlobalData)) :
    GlobalData → List Str → Option (List RoleAttributes × GlobalData)
  | d, [] => some ([], d)
  | d, channel :: channels => do
      let (roles, d) ← get d channel
      let (rest, d) ← rolesOfChannels get d channels
      some (roles ++ rest, d)

/-- `nodes[attr.node_name] = attr`, where `attr` has the node of the role. -/
def keepNode (junk : Junk) (nodes : Table Str RoleAttributes) (role : RoleAttributes) :
    Table Str RoleAttributes :=
  let attr := { RoleAttributes.init junk with
    hostName := role.hostName, processId := role.processId, nodeName := role.nodeName,
    nodeId := role.nodeId }
  nodes.insert attr.nodeName attr

/-- The nodes that have roles of the channels of a node, given how the roles of the node and those
of a channel are got. -/
def nodesAcross (ofNode ofChannel : GlobalData → Str → Option (List RoleAttributes × GlobalData))
    (d : GlobalData) (junk : Junk) (nodeName : Str) :
    Option (List RoleAttributes × GlobalData) := do
  let (own, d) ← ofNode d nodeName
  if own.isEmpty then some ([], d)
  else do
    let channels := (own.map fun role => role.channelName).dedup
    let (others, d) ← rolesOfChannels ofChannel d channels
    let nodes := others.foldl (keepNode junk) ∅
    some (nodes.entries.map fun item => item.2, d)

/-- What the call appends to its vector. -/
def getUpstreamOfNode :=
  nodesAcross (getReadersOfNode hash m) (getWritersOfChannel hash m)

/-- What the call appends to its vector. -/
def getDownstreamOfNode :=
  nodesAcross (getWritersOfNode hash m) (getReadersOfChannel hash m)

end Queries

/-- The warehouses have the live writers and readers, each once under its node id and once under
its channel id, and the ids are those of the names. -/
structure Stored (names : Kind → Set Str) (idOf : Kind → Str → BitVec 64) (m : ChannelManager)
    (live : Side → List RoleWriter) : Prop where
  nodes : ∀ side, (m.nodeRoles side).Perm ((live side).map fun r => (r.attributes.nodeId, r))
  channels : ∀ side, (m.channelRoles side).Perm ((live side).map fun r => (r.attributes.channelId, r))
  nodeIds : ∀ side, ∀ r ∈ live side, r.attributes.nodeId = idOf .node r.attributes.nodeName ∧
    r.attributes.nodeName ∈ names .node
  channelIds : ∀ side, ∀ r ∈ live side,
    r.attributes.channelId = idOf .channel r.attributes.channelName ∧
      r.attributes.channelName ∈ names .channel

/-- A writer of the one node and a reader of the other share a channel. -/
def Feeds (live : Side → List RoleWriter) (upstream downstream : Str) : Prop :=
  ∃ w ∈ live .src, ∃ r ∈ live .dst, w.attributes.nodeName = upstream ∧
    r.attributes.nodeName = downstream ∧ w.attributes.channelName = r.attributes.channelName

/-- There is one entry for each node with `P`, and no other. -/
def Lists (nodes : List RoleAttributes) (P : Str → Prop) : Prop :=
  (nodes.map fun attr => attr.nodeName).Nodup ∧
    ∀ name, name ∈ nodes.map (fun attr => attr.nodeName) ↔ P name

end ChannelManager

/-! ## What the queries find -/

theorem MultiValueWarehouse.mem_searchKey {w : MultiValueWarehouse RoleWriter} {key : BitVec 64}
    {attr : RoleAttributes} :
    attr ∈ w.searchKey key ↔ ∃ r : RoleWriter, (key, r) ∈ w ∧ r.attributes = attr := by
  rw [searchKey, List.mem_map]
  constructor
  · intro h
    obtain ⟨⟨k, r⟩, hitem, rfl⟩ := h
    obtain ⟨hitem, hkey⟩ := List.mem_filter.mp hitem
    exact ⟨r, beq_iff_eq.mp hkey ▸ hitem, rfl⟩
  · intro h
    obtain ⟨r, hitem, rfl⟩ := h
    exact ⟨(key, r), List.mem_filter.mpr ⟨hitem, beq_self_eq_true key⟩, rfl⟩

namespace ChannelManager

variable {hash : Str → BitVec 64} {names : Kind → Set Str} {idOf : Kind → Str → BitVec 64}
  {m : ChannelManager} {live : Side → List RoleWriter} {side : Side} {d : GlobalData}

/-- The attributes are those of a live role. -/
def Live (live : Side → List RoleWriter) (side : Side) (attr : RoleAttributes) : Prop :=
  ∃ r ∈ live side, r.attributes = attr

theorem mem_keyed {w : MultiValueWarehouse RoleWriter} {key : RoleAttributes → BitVec 64}
    (hw : w.Perm ((live side).map fun r => (key r.attributes, r))) {k : BitVec 64}
    {attr : RoleAttributes} : attr ∈ w.searchKey k ↔ Live live side attr ∧ key attr = k := by
  rw [MultiValueWarehouse.mem_searchKey]
  constructor
  · intro h
    obtain ⟨r, hitem, rfl⟩ := h
    obtain ⟨r', hlive, heq⟩ := List.mem_map.mp (hw.mem_iff.mp hitem)
    obtain ⟨hkey, rfl⟩ := Prod.mk.inj heq
    exact ⟨⟨r', hlive, rfl⟩, hkey⟩
  · intro h
    obtain ⟨⟨r, hlive, rfl⟩, rfl⟩ := h
    exact ⟨r, hw.mem_iff.mpr (List.mem_map_of_mem hlive), rfl⟩

theorem rolesOfNode_returns (hinj : Set.InjOn (idOf .node) (names .node))
    (hm : m.Stored names idOf live) (side : Side) {nodeName : Str} (hname : nodeName ∈ names .node)
    (hd : d.Assigns hash names idOf) :
    ∃ roles d', rolesOfNode hash m side d nodeName = some (roles, d') ∧
      d'.Assigns hash names idOf ∧
      ∀ attr, attr ∈ roles ↔ Live live side attr ∧ attr.nodeName = nodeName := by
  obtain ⟨d', hregister, hd'⟩ := GlobalData.Assigns.register hd hname
  refine ⟨_, d', Option.bind_eq_some_iff.mpr ⟨_, hregister, rfl⟩, hd', fun attr => ?_⟩
  rw [mem_keyed (hm.nodes side)]
  refine and_congr_right fun hlive => ?_
  obtain ⟨r, hr, rfl⟩ := hlive
  obtain ⟨hid, hmem⟩ := hm.nodeIds side r hr
  rw [hid]
  exact hinj.eq_iff hmem hname

theorem rolesOfChannel_returns (hinj : Set.InjOn (idOf .channel) (names .channel))
    (hm : m.Stored names idOf live) (side : Side) {channel : Str}
    (hname : channel ∈ names .channel) (hd : d.Assigns hash names idOf) :
    ∃ roles d', rolesOfChannel hash m side d channel = some (roles, d') ∧
      d'.Assigns hash names idOf ∧
      ∀ attr, attr ∈ roles ↔ Live live side attr ∧ attr.channelName = channel := by
  obtain ⟨d', hregister, hd'⟩ := GlobalData.Assigns.register hd hname
  refine ⟨_, d', Option.bind_eq_some_iff.mpr ⟨_, hregister, rfl⟩, hd', fun attr => ?_⟩
  rw [mem_keyed (hm.channels side)]
  refine and_congr_right fun hlive => ?_
  obtain ⟨r, hr, rfl⟩ := hlive
  obtain ⟨hid, hmem⟩ := hm.channelIds side r hr
  rw [hid]
  exact hinj.eq_iff hmem hname

theorem rolesOfChannels_returns (hinj : Set.InjOn (idOf .channel) (names .channel))
    (hm : m.Stored names idOf live) (side : Side) {channels : List Str}
    (hchannels : ∀ c ∈ channels, c ∈ names .channel) (hd : d.Assigns hash names idOf) :
    ∃ roles d', rolesOfChannels (rolesOfChannel hash m side) d channels = some (roles, d') ∧
      ∀ attr, attr ∈ roles ↔ Live live side attr ∧ attr.channelName ∈ channels := by
  induction channels generalizing d with
  | nil => exact ⟨[], d, rfl, fun attr => iff_of_false List.not_mem_nil fun h =>
      absurd h.2 List.not_mem_nil⟩
  | cons channel channels ih =>
      obtain ⟨hchannel, hchannels⟩ := List.forall_mem_cons.mp hchannels
      obtain ⟨roles, d₁, hroles, hd₁, hmem⟩ := rolesOfChannel_returns hinj hm side hchannel hd
      obtain ⟨rest, d₂, hrest, hmemRest⟩ := ih hchannels hd₁
      refine ⟨roles ++ rest, d₂, ?_, fun attr => ?_⟩
      · rw [rolesOfChannels, hroles]
        show (rolesOfChannels (rolesOfChannel hash m side) d₁ channels >>= _) = _
        rw [hrest]
        rfl
      · rw [List.mem_append, hmem, hmemRest, List.mem_cons, ← and_or_left]

/-! ## One entry for a node -/

theorem keepNode_spec (junk : Junk) (roles : List RoleAttributes) :
    (∀ k attr, (roles.foldl (keepNode junk) ∅).lookup k = some attr → attr.nodeName = k) ∧
      ∀ k, k ∈ roles.foldl (keepNode junk) ∅ ↔ ∃ role ∈ roles, role.nodeName = k := by
  induction roles using List.reverseRecOn with
  | nil =>
      constructor
      · intro k attr h
        cases h
      · intro k
        refine iff_of_false (AList.notMem_empty k) fun h => ?_
        obtain ⟨role, hrole, -⟩ := h
        exact absurd hrole List.not_mem_nil
  | append_singleton roles role ih =>
      obtain ⟨hnamed, hmem⟩ := ih
      rw [List.foldl_append, List.foldl_cons, List.foldl_nil, keepNode]
      refine ⟨fun k attr h => ?_, fun k => ?_⟩
      · rw [Table.lookup_insert] at h
        split at h
        case isTrue hk =>
          cases h
          exact hk.symm
        case isFalse => exact hnamed k attr h
      · rw [AList.mem_insert, hmem]
        constructor
        · intro h
          rcases h with h | ⟨other, hother, h⟩
          · exact ⟨role, List.mem_append_right _ (List.mem_singleton_self _), h.symm⟩
          · exact ⟨other, List.mem_append_left _ hother, h⟩
        · intro h
          obtain ⟨other, hother, h⟩ := h
          rcases List.mem_append.mp hother with hother | hother
          · exact .inr ⟨other, hother, h⟩
          · exact .inl (List.mem_singleton.mp hother ▸ h).symm

theorem lists_keepNode (junk : Junk) (roles : List RoleAttributes) :
    Lists ((roles.foldl (keepNode junk) ∅).entries.map fun item => item.2) fun name =>
      ∃ role ∈ roles, role.nodeName = name := by
  obtain ⟨hnamed, hmem⟩ := keepNode_spec junk roles
  have hkeys : ((roles.foldl (keepNode junk) ∅).entries.map fun item => item.2).map
      (fun attr => attr.nodeName) = (roles.foldl (keepNode junk) ∅).keys := by
    rw [List.map_map]
    refine List.map_congr_left fun item hitem => ?_
    exact hnamed item.1 item.2 (AList.mem_lookup_iff.mpr hitem)
  rw [Lists, hkeys]
  exact ⟨(roles.foldl (keepNode junk) ∅).keys_nodup, hmem⟩

theorem lists_congr {nodes : List RoleAttributes} {P Q : Str → Prop} (h : Lists nodes P)
    (hPQ : ∀ name, P name ↔ Q name) : Lists nodes Q :=
  ⟨h.1, fun name => (h.2 name).trans (hPQ name)⟩

/-- The nodes with a role on the other side that has the channel of one of the node's own. -/
theorem nodesAcross_returns (hinj : ∀ kind, Set.InjOn (idOf kind) (names kind))
    (hm : m.Stored names idOf live) (side : Side) {nodeName : Str} (hname : nodeName ∈ names .node)
    (hd : d.Assigns hash names idOf) (junk : Junk) :
    ∃ nodes d', nodesAcross (rolesOfNode hash m side) (rolesOfChannel hash m side.other) d junk
        nodeName = some (nodes, d') ∧
      Lists nodes fun name => ∃ own ∈ live side, ∃ other ∈ live side.other,
        own.attributes.nodeName = nodeName ∧ other.attributes.nodeName = name ∧
          own.attributes.channelName = other.attributes.channelName := by
  obtain ⟨own, d₁, hown, hd₁, hmem⟩ := rolesOfNode_returns (hinj .node) hm side hname hd
  cases hempty : own.isEmpty with
  | true =>
      refine ⟨[], d₁, ?_, List.nodup_nil, fun name => iff_of_false List.not_mem_nil fun h => ?_⟩
      · rw [nodesAcross, hown]
        show (if own.isEmpty then _ else _) = _
        rw [hempty, if_pos rfl]
      · obtain ⟨r, hr, -, -, hnode, -, -⟩ := h
        have hrole := (hmem r.attributes).mpr ⟨⟨r, hr, rfl⟩, hnode⟩
        rw [List.isEmpty_iff.mp hempty] at hrole
        exact absurd hrole List.not_mem_nil
  | false =>
      have hchannels : ∀ c ∈ (own.map fun role => role.channelName).dedup,
          c ∈ names .channel := by
        intro c hc
        obtain ⟨attr, hattr, rfl⟩ := List.mem_map.mp (List.mem_dedup.mp hc)
        obtain ⟨⟨r, hr, rfl⟩, -⟩ := (hmem attr).mp hattr
        exact (hm.channelIds side r hr).2
      obtain ⟨others, d₂, hothers, hmemOthers⟩ :=
        rolesOfChannels_returns (hinj .channel) hm side.other hchannels hd₁
      refine ⟨_, d₂, ?_, lists_congr (lists_keepNode junk others) fun name => ?_⟩
      · rw [nodesAcross, hown]
        show (if own.isEmpty then _ else _) = _
        rw [hempty, if_neg Bool.false_ne_true]
        show (rolesOfChannels _ d₁ _ >>= _) = _
        rw [hothers]
        rfl
      · constructor
        · intro h
          obtain ⟨attr, hattr, hnode⟩ := h
          obtain ⟨⟨r, hr, rfl⟩, hchannel⟩ := (hmemOthers attr).mp hattr
          obtain ⟨attr', hattr', hsame⟩ := List.mem_map.mp (List.mem_dedup.mp hchannel)
          obtain ⟨⟨r', hr', rfl⟩, hown⟩ := (hmem attr').mp hattr'
          exact ⟨r', hr', r, hr, hown, hnode, hsame⟩
        · intro h
          obtain ⟨r', hr', r, hr, hown, hnode, hsame⟩ := h
          have hchannel : r.attributes.channelName ∈
              (own.map fun role => role.channelName).dedup :=
            List.mem_dedup.mpr
              (List.mem_map.mpr ⟨r'.attributes, (hmem _).mpr ⟨⟨r', hr', rfl⟩, hown⟩, hsame⟩)
          exact ⟨r.attributes, (hmemOthers _).mpr ⟨⟨r, hr, rfl⟩, hchannel⟩, hnode⟩

/-- Where every live writer and reader is stored once under the ids of its node and its channel,
and ids are injective in the names, a node is upstream of another for exactly one entry if it feeds
it, and the other is then downstream of it. -/
theorem upstream_iff_downstream (hinj : ∀ kind, Set.InjOn (idOf kind) (names kind))
    (hm : m.Stored names idOf live) (hd : d.Assigns hash names idOf) (junk : Junk) {n p : Str}
    (hn : n ∈ names .node) (hp : p ∈ names .node) :
    ∃ up d₁ down d₂, getUpstreamOfNode hash m d junk n = some (up, d₁) ∧
      getDownstreamOfNode hash m d junk p = some (down, d₂) ∧
      Lists up (fun name => Feeds live name n) ∧ Lists down (fun name => Feeds live p name) ∧
      (p ∈ up.map (fun attr => attr.nodeName) ↔ n ∈ down.map fun attr => attr.nodeName) := by
  obtain ⟨up, d₁, hup, hlists⟩ := nodesAcross_returns hinj hm .dst hn hd junk
  obtain ⟨down, d₂, hdown, hlistsDown⟩ := nodesAcross_returns hinj hm .src hp hd junk
  have hfeeds : Lists up fun name => Feeds live name n := by
    refine lists_congr hlists fun name => ?_
    constructor
    · intro h
      obtain ⟨r, hr, w, hw, hrn, hwn, hc⟩ := h
      exact ⟨w, hw, r, hr, hwn, hrn, hc.symm⟩
    · intro h
      obtain ⟨w, hw, r, hr, hwn, hrn, hc⟩ := h
      exact ⟨r, hr, w, hw, hrn, hwn, hc.symm⟩
  have hfeedsDown : Lists down fun name => Feeds live p name := hlistsDown
  exact ⟨up, d₁, down, d₂, hup, hdown, hfeeds, hfeedsDown,
    (hfeeds.2 p).trans (hfeedsDown.2 n).symm⟩

def lengthHash (name : Str) : BitVec 64 := BitVec.ofNat 64 name.length

/-- A writer of a channel in one node, and a reader of it in another. -/
def writerAndReader : Side → List RoleWriter := fun side =>
  [{ attributes := { RoleAttributes.init (fun _ _ => 0) with
       nodeName := if side = .src then [0x61] else [0x62, 0x62]
       nodeId := if side = .src then 1 else 2
       channelName := [0x63]
       channelId := 1 },
     timestampNs := 0 }]

def twoNodes : ChannelManager :=
  { ChannelManager.new [] 1 with
    nodeWriters := (writerAndReader .src).map fun r => (r.attributes.nodeId, r)
    nodeReaders := (writerAndReader .dst).map fun r => (r.attributes.nodeId, r)
    channelWriters := (writerAndReader .src).map fun r => (r.attributes.channelId, r)
    channelReaders := (writerAndReader .dst).map fun r => (r.attributes.channelId, r) }

def twoNodesNames : Kind → Set Str
  | .node => {[0x61], [0x62, 0x62]}
  | .channel => {[0x63]}
  | .task => ∅

theorem upstream_iff_downstream_twoNodes :
    ∃ up d₁ down d₂,
      twoNodes.getUpstreamOfNode lengthHash {} (fun _ _ => 0) [0x62, 0x62] = some (up, d₁) ∧
      twoNodes.getDownstreamOfNode lengthHash {} (fun _ _ => 0) [0x61] = some (down, d₂) ∧
      Lists up (fun name => Feeds writerAndReader name [0x62, 0x62]) ∧
      Lists down (fun name => Feeds writerAndReader [0x61] name) ∧
      ([0x61] ∈ up.map (fun attr => attr.nodeName) ↔
        [0x62, 0x62] ∈ down.map fun attr => attr.nodeName) := by
  have hinj : ∀ kind, Set.InjOn lengthHash (twoNodesNames kind) := by
    intro kind
    cases kind with
    | channel => exact Set.injOn_singleton _ _
    | node => exact Set.injOn_pair.mpr fun h => absurd h (by decide)
    | task => exact Set.injOn_empty _
  have hempty : ∀ kind,
      Hashed lengthHash (twoNodesNames kind) (({} : GlobalData).names kind) := by
    intro kind id name h
    cases kind <;> cases h
  have hassigns : GlobalData.Assigns lengthHash twoNodesNames (fun _ => lengthHash) {} :=
    GlobalData.assigns_of_hashed hinj hempty
  have hstored : twoNodes.Stored twoNodesNames (fun _ => lengthHash) writerAndReader := by
    refine ⟨fun side => ?_, fun side => ?_, fun side => ?_, fun side => ?_⟩
    · cases side <;> exact List.Perm.refl _
    · cases side <;> exact List.Perm.refl _
    · cases side <;> simp [writerAndReader, twoNodesNames, lengthHash]
    · cases side <;> simp [writerAndReader, twoNodesNames, lengthHash]
  exact upstream_iff_downstream hinj hstored hassigns _ (.inr rfl) (.inl rfl)

end ChannelManager

end Discovery
end Cmw
