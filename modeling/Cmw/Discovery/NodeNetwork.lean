import Cmw.Discovery.Network
import Cmw.Library.Earliest

/-!
# The node managers of all processes

`DisposeJoin` of discovery/specific_manager/node_manager.cpp, in every process.  Of two nodes of
one id a manager keeps the earlier, and where the later one is a node of its own process it says
that the process will be terminated.  Nothing else is done about it.

Nothing ever sets the channel id of a node, so that it is read as whatever the storage held: a node
is `bare` without it.
-/

namespace Cmw
namespace Discovery

open Config
open Library
open Library.ByteImage
open Serialize

/-- A node but for its channel id. -/
def RoleBase.bare (node : RoleNode) : RoleNode :=
  { node with attributes := { node.attributes with channelId := 0 } }

namespace NodeManager

/-- `newer_node`: of a node that joins and the one that is there, the later one. -/
def newerNode (m : NodeManager) (msg : ChangeMsg) : Option RoleNode :=
  match m.nodes.search msg.roleAttr.nodeId with
  | none => none
  | some existing => some (if (nodeOf msg).isEarlierThan existing then existing else nodeOf msg)

/-- The node about which `DisposeJoin` says that the process will be terminated. -/
def duplicated (m : NodeManager) (msg : ChangeMsg) : Option RoleNode :=
  if msg.operateType = OperateType.optJoin.word then
    (m.newerNode msg).filter fun newer =>
      newer.attributes.processId = m.processId && newer.attributes.hostName = m.hostName
  else none

end NodeManager

/-! ## What is seen of a manager -/

/-- The nodes by their ids, and those that the process has been told of as duplicated. -/
@[ext]
structure Registry where
  hostName : Str
  processId : BitVec 32
  entry : BitVec 64 → Option RoleNode
  told : List RoleNode

/-- Nodes are as early as their times. -/
def nodeStamp (node : RoleNode) : Nat := node.timestampNs.toNat

theorem isEarlierThan_iff {node other : RoleNode} :
    node.isEarlierThan other = true ↔ nodeStamp node < nodeStamp other :=
  decide_eq_true_iff

namespace Registry

def mine (r : Registry) (node : RoleNode) : Bool :=
  node.attributes.processId = r.processId && node.attributes.hostName = r.hostName

def apply (r : Registry) (msg : ChangeMsg) : Registry :=
  let node := (NodeManager.nodeOf msg).bare
  let id := msg.roleAttr.nodeId
  if msg.operateType = OperateType.optJoin.word then
    { r with
      entry := Function.update r.entry id (some (Earliest.keep nodeStamp (r.entry id) node))
      told := r.told ++ ((Earliest.lose nodeStamp (r.entry id) node).filter r.mine).toList }
  else { r with entry := Function.update r.entry id none }

end Registry

namespace NodeManager

def registry (m : NodeManager) (log : List (NodeManager × ChangeMsg)) : Registry :=
  { hostName := m.hostName
    processId := m.processId
    entry := fun id => (m.nodes.lookup id).map RoleBase.bare
    told := log.flatMap fun e => ((e.1.duplicated e.2).map RoleBase.bare).toList }

theorem bare_keep (existing : Option RoleNode) (node : RoleNode) :
    (keep existing node).bare =
      Earliest.keep nodeStamp (existing.map RoleBase.bare) node.bare := by
  cases existing with
  | none => rfl
  | some old =>
      show (if node.isEarlierThan old then node else old).bare =
        if nodeStamp node < nodeStamp old then node.bare else old.bare
      rw [apply_ite RoleBase.bare]
      exact if_congr isEarlierThan_iff rfl rfl

theorem bare_newerNode (m : NodeManager) (msg : ChangeMsg) :
    (m.newerNode msg).map RoleBase.bare = Earliest.lose nodeStamp
      ((m.nodes.lookup msg.roleAttr.nodeId).map RoleBase.bare) (nodeOf msg).bare := by
  rw [newerNode, SingleValueWarehouse.search]
  cases m.nodes.lookup msg.roleAttr.nodeId with
  | none => rfl
  | some old =>
      show some (if (nodeOf msg).isEarlierThan old then old else nodeOf msg).bare =
        some (if nodeStamp (nodeOf msg) < nodeStamp old then old.bare else (nodeOf msg).bare)
      rw [apply_ite RoleBase.bare]
      exact congrArg some (if_congr isEarlierThan_iff rfl rfl)

theorem registry_dispose (m : NodeManager) (log : List (NodeManager × ChangeMsg))
    (msg : ChangeMsg) :
    (m.dispose msg).1.registry (log ++ [(m, msg)]) = (m.registry log).apply msg := by
  have hbase := manager_dispose m msg
  have hhost : (m.dispose msg).1.hostName = m.hostName := congrArg Manager.hostName hbase
  have hpid : (m.dispose msg).1.processId = m.processId := congrArg Manager.processId hbase
  have htold : ((m.dispose msg).1.registry (log ++ [(m, msg)])).told =
      (m.registry log).told ++ ((m.duplicated msg).map RoleBase.bare).toList := by
    rw [registry, List.flatMap_append, List.flatMap_singleton]
    rfl
  rw [Registry.apply]
  by_cases hjoin : msg.operateType = OperateType.optJoin.word
  · have hdispose : (m.dispose msg).1 = m.disposeJoin msg := if_pos hjoin
    rw [if_pos hjoin]
    refine Registry.ext hhost hpid (funext fun id => ?_) (htold.trans ?_)
    · show ((m.dispose msg).1.nodes.lookup id).map RoleBase.bare = _
      rw [hdispose, lookup_disposeJoin]
      dsimp only
      rw [Function.update_apply]
      split
      case isTrue hid =>
        rw [Option.map_some, bare_keep, hid]
        rfl
      case isFalse => rfl
    · have hmine : (m.registry log).mine ∘ RoleBase.bare = fun newer =>
          newer.attributes.processId = m.processId && newer.attributes.hostName = m.hostName := rfl
      have hlose : Earliest.lose nodeStamp ((m.registry log).entry msg.roleAttr.nodeId)
          (nodeOf msg).bare = (m.newerNode msg).map RoleBase.bare := (bare_newerNode m msg).symm
      dsimp only
      rw [hlose, duplicated, if_pos hjoin, Option.filter_map, hmine]
  · have hdispose : (m.dispose msg).1 = m.disposeLeave msg := if_neg hjoin
    rw [if_neg hjoin]
    refine Registry.ext hhost hpid (funext fun id => ?_) (htold.trans ?_)
    · show ((m.dispose msg).1.nodes.lookup id).map RoleBase.bare = _
      rw [hdispose]
      dsimp only
      rw [Function.update_apply, disposeLeave]
      show ((m.nodes.erase msg.roleAttr.nodeId).lookup id).map RoleBase.bare = _
      rw [Table.lookup_erase]
      split
      · rfl
      · rfl
    · rw [duplicated, if_neg hjoin]
      exact List.append_nil _

/-- A node is read as it was written but for its channel id. -/
def observation : kind.Observation Registry where
  see := registry
  apply := Registry.apply
  Arrives w _ msg := (ChangeMsg.type.image w msg).length ≤ 2 ^ 30
  see_dispose := registry_dispose
  check_convert _ _ _ _ _ h := h
  arrives := fun {w} r {stack msg ds} hlen hcheck hds => by
    obtain ⟨himage, -⟩ := STy.image_of_write (short_of_flatten (le_maxInt hlen)) hds
    rw [himage, ChannelManager.decode_image hlen]
    exact ⟨_, rfl, rfl, rfl, hcheck, fun _ => rfl⟩

end NodeManager

/-! ## Nodes that only join -/

namespace Registry

variable {r : Registry} {msg : ChangeMsg} {msgs : List ChangeMsg} {id : BitVec 64}

theorem entry_apply (r : Registry) (msg : ChangeMsg) (id : BitVec 64) :
    (r.apply msg).entry id =
      if msg.roleAttr.nodeId = id then
        if msg.operateType = OperateType.optJoin.word then
          some (Earliest.keep nodeStamp (r.entry id) (NodeManager.nodeOf msg).bare)
        else none
      else r.entry id := by
  rw [apply]
  by_cases hid : msg.roleAttr.nodeId = id
  · rw [if_pos hid, ← hid]
    split
    · exact Function.update_self ..
    · exact Function.update_self ..
  · rw [if_neg hid]
    split
    · exact Function.update_of_ne (Ne.symm hid) ..
    · exact Function.update_of_ne (Ne.symm hid) ..

/-- The nodes that messages are about, with one id. -/
def nodesUnder (id : BitVec 64) (msgs : List ChangeMsg) : List RoleNode :=
  (msgs.filter fun msg => msg.roleAttr.nodeId = id).map fun msg => (NodeManager.nodeOf msg).bare

theorem nodesUnder_concat (id : BitVec 64) (msgs : List ChangeMsg) (msg : ChangeMsg) :
    nodesUnder id (msgs ++ [msg]) = if msg.roleAttr.nodeId = id then
      nodesUnder id msgs ++ [(NodeManager.nodeOf msg).bare] else nodesUnder id msgs := by
  rw [nodesUnder, List.filter_append, List.map_append, ← nodesUnder]
  split
  case isTrue h =>
    rw [List.filter_singleton, decide_eq_true h]
    rfl
  case isFalse h =>
    rw [List.filter_singleton, decide_eq_false h]
    exact List.append_nil _

/-- A node is stored under its id. -/
def Keyed (r : Registry) : Prop := ∀ key node, r.entry key = some node → node.attributes.nodeId = key

theorem nodeId_keep (hr : r.Keyed) (msg : ChangeMsg) :
    (Earliest.keep nodeStamp (r.entry msg.roleAttr.nodeId)
      (NodeManager.nodeOf msg).bare).attributes.nodeId = msg.roleAttr.nodeId := by
  cases hold : r.entry msg.roleAttr.nodeId with
  | none => rfl
  | some old =>
      rw [Earliest.keep]
      split
      · rfl
      · exact hr _ old hold

theorem nodeId_lose (hr : r.Keyed) {msg : ChangeMsg} {node : RoleNode}
    (h : node ∈ Earliest.lose nodeStamp (r.entry msg.roleAttr.nodeId)
      (NodeManager.nodeOf msg).bare) : node.attributes.nodeId = msg.roleAttr.nodeId := by
  cases hold : r.entry msg.roleAttr.nodeId with
  | none =>
      rw [hold] at h
      cases h
  | some old =>
      rw [hold, Earliest.lose] at h
      cases h
      split
      · exact hr _ old hold
      · rfl

theorem Keyed.apply (hr : r.Keyed) (msg : ChangeMsg) : (r.apply msg).Keyed := by
  intro key node hnode
  rw [entry_apply] at hnode
  split at hnode
  case isTrue hkey =>
    subst hkey
    split at hnode
    · cases hnode
      exact nodeId_keep hr msg
    · cases hnode
  case isFalse => exact hr key node hnode

theorem mine_apply (r : Registry) (msg : ChangeMsg) : (r.apply msg).mine = r.mine := by
  rw [apply]
  split
  · rfl
  · rfl

/-- A registry that has been told nothing. -/
structure Fresh (r : Registry) : Prop where
  entry : ∀ key, r.entry key = none
  told : r.told = []

/-- After nodes have joined, the earliest of an id is there, and the process has been told of those
of its own that have met an earlier one. -/
theorem exec_joins (hr : r.Fresh)
    (hjoin : ∀ msg ∈ msgs, msg.operateType = OperateType.optJoin.word) (id : BitVec 64) :
    (Run.exec apply r msgs).Keyed ∧ (Run.exec apply r msgs).mine = r.mine ∧
      (Run.exec apply r msgs).entry id = (nodesUnder id msgs).argmin nodeStamp ∧
      ((Run.exec apply r msgs).told.filter fun node => node.attributes.nodeId = id) =
        (Earliest.beaten nodeStamp (nodesUnder id msgs)).filter r.mine := by
  induction msgs using List.reverseRecOn with
  | nil =>
      refine ⟨fun key node h => ?_, rfl, hr.entry id, ?_⟩
      · rw [Run.exec_nil, hr.entry] at h
        cases h
      · rw [Run.exec_nil, hr.told]
        rfl
  | append_singleton msgs msg ih =>
      obtain ⟨hbefore, hlast⟩ := List.forall_mem_append.mp hjoin
      obtain ⟨hkeyed, hmine, hentry, htold⟩ := ih hbefore
      rw [Run.exec_append, Run.exec_cons, Run.exec_nil]
      generalize Run.exec apply r msgs = s at hkeyed hmine hentry htold
      refine ⟨hkeyed.apply msg, (mine_apply s msg).trans hmine, ?_, ?_⟩
      · rw [entry_apply, nodesUnder_concat]
        by_cases hid : msg.roleAttr.nodeId = id
        · rw [if_pos hid, if_pos hid, if_pos (hlast msg List.mem_cons_self),
            Earliest.argmin_concat, ← hentry]
        · rw [if_neg hid, if_neg hid, hentry]
      · rw [apply, if_pos (hlast msg List.mem_cons_self), nodesUnder_concat]
        dsimp only
        rw [List.filter_append, htold, hmine, Option.toList_filter]
        by_cases hid : msg.roleAttr.nodeId = id
        · rw [if_pos hid, Earliest.beaten_concat, List.filter_append, ← hentry]
          subst hid
          congr 1
          refine List.filter_eq_self.mpr fun node hnode => decide_eq_true ?_
          exact nodeId_lose hkeyed (Option.mem_toList.mp (List.mem_filter.mp hnode).1)
        · rw [if_neg hid]
          refine List.append_right_eq_self.mpr ?_
          refine List.filter_eq_nil_iff.mpr fun node hnode hthis => hid ?_
          exact (nodeId_lose hkeyed (Option.mem_toList.mp (List.mem_filter.mp hnode).1)).symm.trans
            (of_decide_eq_true hthis)

theorem mem_nodesUnder {node : RoleNode} :
    node ∈ nodesUnder id msgs ↔ ∃ msg ∈ msgs, msg.roleAttr.nodeId = id ∧
      (NodeManager.nodeOf msg).bare = node := by
  simp only [nodesUnder, List.mem_map, List.mem_filter, decide_eq_true_eq, and_assoc]

end Registry

namespace Network

variable {ι : Type} [DecidableEq ι] {p : Placement ι}

/-- The node managers at the start. -/
def nodeManagers (p : Placement ι) (i : ι) : NodeManager :=
  (NodeManager.new (p.hostName i) (p.processId i)).startDiscovery

omit [DecidableEq ι] in
theorem ready_nodeManagers : Ready NodeManager.kind p (nodeManagers p) where
  hostName _ := rfl
  processId _ := rfl
  up _ := rfl
  started _ := rfl
  writer _ := rfl

/-- The networks of node managers that calls with `P` come to. -/
def NodeReached (p : Placement ι) (P : ι → ChannelManager.Call → Prop) :
    Network ι NodeManager → Prop :=
  Reached NodeManager.kind p (nodeManagers p) (Does NodeManager.observation p P)

/-- The node that a process holds under an id, but for its channel id. -/
def heldNode (s : Network ι NodeManager) (j : ι) (id : BitVec 64) : Option RoleNode :=
  ((s.manager j).nodes.lookup id).map RoleBase.bare

/-- The nodes about which a process has said that it will be terminated. -/
def terminations (s : Network ι NodeManager) (j : ι) : List RoleNode :=
  (s.disposed j).flatMap fun e => ((e.1.duplicated e.2).map RoleBase.bare).toList

/-- The nodes that a process has announced with an id. -/
def announcedNodes (s : Network ι NodeManager) (i : ι) (id : BitVec 64) : List RoleNode :=
  Registry.nodesUnder id (s.said i)

/-- No two nodes that have been announced with an id are of the same time. -/
structure DistinctTimes (s : Network ι NodeManager) (id : BitVec 64) : Prop where
  own : ∀ i, ((s.announcedNodes i id).map nodeStamp).Nodup
  other : ∀ i j, i ≠ j → ∀ node ∈ s.announcedNodes i id, ∀ node' ∈ s.announcedNodes j id,
    nodeStamp node ≠ nodeStamp node'

variable {s : Network ι NodeManager}

/-- A process announces nodes of its own that join. -/
def joinsOwn (p : Placement ι) (i : ι) (msg : ChangeMsg) : Prop :=
  msg.operateType = OperateType.optJoin.word ∧ OfProcess (p.hostName i) (p.processId i) msg.roleAttr

/-- Nothing but `Join` is called. -/
def onlyJoin (_ : ι) (c : ChannelManager.Call) : Prop := c.opt = .optJoin

theorem NodeReached.joinsOwn (h : NodeReached p onlyJoin s) :
    Reached NodeManager.kind p (nodeManagers p)
      (Says NodeManager.observation p (nodeManagers p) (joinsOwn p)) s := by
  refine Reached.mono (fun s e he => ⟨he.1, fun i c hc => ⟨?_, ?_⟩⟩) h
  · exact congrArg OperateType.word (he.2 i c hc)
  · exact own_built ready_nodeManagers (hc ▸ he.1)

/-- What has heard everything has joined the nodes of all processes, in some order. -/
theorem NodeReached.exists_order (hinj : p.Distinct) (h : NodeReached p onlyJoin s) {j : ι}
    (hj : ∀ i, i = j ∨ s.heard i j = s.said i) (id : BitVec 64) : ∃ order : List (ι × RoleNode),
      (∀ i, (order.filter fun e => e.1 = i).map Prod.snd = s.announcedNodes i id) ∧
      s.heldNode j id = (order.map Prod.snd).argmin nodeStamp ∧
      ((s.terminations j).filter fun node => node.attributes.nodeId = id) =
        (Earliest.beaten nodeStamp (order.map Prod.snd)).filter fun node =>
          node.attributes.processId = p.processId j && node.attributes.hostName = p.hostName j := by
  obtain ⟨htells, hacted⟩ := h.joinsOwn.acted hinj ready_nodeManagers
  obtain ⟨acts, hacts⟩ := hacted j
  have hfilter : ∀ i, (acts.filter fun e => e.1 = i) = (s.said i).map fun msg => (i, msg) :=
    hacts.filter_eq hj
  have hjoin : ∀ msg ∈ acts.map Prod.snd, msg.operateType = OperateType.optJoin.word := by
    intro msg hmsg
    obtain ⟨e, he, rfl⟩ := List.mem_map.mp hmsg
    have hmem : e ∈ acts.filter fun e' => e'.1 = e.1 := List.mem_filter.mpr ⟨he, decide_eq_true rfl⟩
    rw [hfilter] at hmem
    obtain ⟨msg, hmsg, heq⟩ := List.mem_map.mp hmem
    exact heq ▸ (htells e.1 msg hmsg).1
  have hfresh : ((nodeManagers p j).registry []).Fresh := ⟨fun _ => rfl, rfl⟩
  obtain ⟨-, -, hentry, htold⟩ := Registry.exec_joins hfresh hjoin id
  have hparty : (s.manager j).registry (s.disposed j) =
      Run.exec Registry.apply ((nodeManagers p j).registry []) (acts.map Prod.snd) := hacts.party
  rw [← hparty] at hentry htold
  let order : List (ι × RoleNode) := (acts.filter fun e => e.2.roleAttr.nodeId = id).map
    fun e => (e.1, (NodeManager.nodeOf e.2).bare)
  have horder : order.map Prod.snd = Registry.nodesUnder id (acts.map Prod.snd) := by
    rw [Registry.nodesUnder, List.filter_map, List.map_map, List.map_map]
    rfl
  refine ⟨order, fun i => ?_, horder ▸ hentry, horder ▸ htold⟩
  calc (order.filter fun e => e.1 = i).map Prod.snd
      _ = ((acts.filter fun e => e.1 = i).filter fun e => e.2.roleAttr.nodeId = id).map
          fun e => (NodeManager.nodeOf e.2).bare := by
        rw [List.filter_map, List.map_map, List.filter_filter, List.filter_filter]
        congr 2
        funext e
        exact Bool.and_comm ..
      _ = s.announcedNodes i id := by
        rw [hfilter, List.filter_map, List.map_map]
        rfl

/-- A process announces nodes of its own. -/
theorem NodeReached.own_announced (hinj : p.Distinct) (h : NodeReached p onlyJoin s) {j : ι}
    {id : BitVec 64} {node : RoleNode} (hnode : node ∈ s.announcedNodes j id) :
    node.attributes.nodeId = id ∧ OfProcess (p.hostName j) (p.processId j) node.attributes := by
  obtain ⟨msg, hmsg, hid, rfl⟩ := Registry.mem_nodesUnder.mp hnode
  exact ⟨hid, ((h.joinsOwn.acted hinj ready_nodeManagers).1 j msg hmsg).2⟩

/-- Where nodes only join, a process that has heard all that the others have written holds the
earliest of all nodes that have been announced with an id anywhere, and has said that it will be
terminated for just those of its own that are not the earliest: one node of every id is left. -/
theorem one_survives (hinj : p.Distinct) (h : NodeReached p onlyJoin s) {j : ι}
    (hj : ∀ i, i = j ∨ s.heard i j = s.said i) {id : BitVec 64} (htimes : s.DistinctTimes id) :
    (∀ node, s.heldNode j id = some node ↔ (∃ i, node ∈ s.announcedNodes i id) ∧
      ∀ i, ∀ other ∈ s.announcedNodes i id, nodeStamp node ≤ nodeStamp other) ∧
    ∀ node ∈ s.announcedNodes j id, node ∈ s.terminations j ↔
      ∃ i, ∃ other ∈ s.announcedNodes i id, nodeStamp other < nodeStamp node := by
  obtain ⟨order, horder, hheld, htold⟩ := h.exists_order hinj hj id
  have hfrom : ∀ e ∈ order, e.2 ∈ s.announcedNodes e.1 id := fun e he => by
    rw [← horder]
    exact List.mem_map_of_mem (List.mem_filter.mpr ⟨he, decide_eq_true rfl⟩)
  have hmem : ∀ node, node ∈ order.map Prod.snd ↔ ∃ i, node ∈ s.announcedNodes i id := by
    intro node
    constructor
    · intro hnode
      obtain ⟨e, he, rfl⟩ := List.mem_map.mp hnode
      exact ⟨e.1, hfrom e he⟩
    · rintro ⟨i, hnode⟩
      rw [← horder] at hnode
      obtain ⟨e, he, rfl⟩ := List.mem_map.mp hnode
      exact List.mem_map_of_mem (List.mem_filter.mp he).1
  have hstamps : ((order.map Prod.snd).map nodeStamp).Nodup := by
    rw [List.map_map]
    refine nodup_of_filter Prod.fst _ (fun i => ?_) fun e he e' he' hne =>
      htimes.other e.1 e'.1 hne e.2 (hfrom e he) e'.2 (hfrom e' he')
    rw [← List.map_map, horder]
    exact htimes.own i
  constructor
  · intro node
    rw [hheld, Earliest.argmin_eq_some_iff hstamps, hmem]
    refine and_congr_right fun _ => ⟨fun hle i other hother => ?_, fun hle other hother => ?_⟩
    · exact hle other ((hmem other).mpr ⟨i, hother⟩)
    · obtain ⟨i, hother⟩ := (hmem other).mp hother
      exact hle i other hother
  · intro node hnode
    obtain ⟨hid, hmine⟩ := h.own_announced hinj hnode
    have hbeaten : node ∈ s.terminations j ↔
        node ∈ Earliest.beaten nodeStamp (order.map Prod.snd) := by
      have hfilter : node ∈ s.terminations j ↔
          node ∈ (s.terminations j).filter fun node => node.attributes.nodeId = id := by
        rw [List.mem_filter, and_iff_left (decide_eq_true hid)]
      rw [hfilter, htold, List.mem_filter, and_iff_left]
      rw [hmine.1, hmine.2, decide_eq_true rfl, decide_eq_true rfl]
      rfl
    rw [hbeaten, Earliest.mem_beaten_iff hstamps ((hmem node).mpr ⟨j, hnode⟩)]
    constructor
    · rintro ⟨other, hother, hlt⟩
      obtain ⟨i, hother⟩ := (hmem other).mp hother
      exact ⟨i, other, hother, hlt⟩
    · rintro ⟨i, other, hother, hlt⟩
      exact ⟨other, (hmem other).mpr ⟨i, hother⟩, hlt⟩

/-! ## Nodes that join and leave -/

/-- What the messages of one process tell of the node with an id. -/
def toldNode (id : BitVec 64) (msgs : List ChangeMsg) : Option RoleNode :=
  msgs.foldl (fun held msg =>
    if msg.roleAttr.nodeId = id then
      if msg.operateType = OperateType.optJoin.word then
        some (Earliest.keep nodeStamp held (NodeManager.nodeOf msg).bare)
      else none
    else held) none

theorem entry_exec {r : Registry} (hr : r.Fresh) (msgs : List ChangeMsg) (id : BitVec 64) :
    (Run.exec Registry.apply r msgs).entry id = toldNode id msgs := by
  induction msgs using List.reverseRecOn with
  | nil => exact hr.entry id
  | append_singleton msgs msg ih =>
      rw [Run.exec_append, Run.exec_cons, Run.exec_nil, Registry.entry_apply, ih, toldNode, toldNode,
        List.foldl_append]
      rfl

/-- What is held of the nodes of a process is told by its own messages. -/
def entryView (owner : BitVec 64 → ι) : View ι Registry.apply where
  Of i msg := owner msg.roleAttr.nodeId = i
  Agree i r r' := ∀ id, owner id = i → r.entry id = r'.entry id
  own := fun _ hagree id hid => by
    rw [Registry.entry_apply, Registry.entry_apply, hagree id hid]
  other := fun hne hof hagree id hid => by
    rw [Registry.entry_apply, if_neg, hagree id hid]
    intro heq
    exact hne (hof.symm.trans (heq.symm ▸ hid))

/-- A process announces nodes with ids that are its own. -/
def ofOwner (owner : BitVec 64 → ι) (i : ι) (c : ChannelManager.Call) : Prop :=
  owner c.attr.nodeId = i

/-- Where nodes join and leave, and no two processes have an id in common, what a process holds under
an id is, at every moment of every run, what is told by those messages that have come from the
process with that id, in the order in which they were written; what that process holds itself is
told by all of them. -/
theorem held_told {owner : BitVec 64 → ι} (hinj : p.Distinct)
    (h : NodeReached p (ofOwner owner) s) (id : BitVec 64) (j : ι) :
    (s.heard (owner id) j).Sublist (s.said (owner id)) ∧
    s.heldNode j id =
      toldNode id (if owner id = j then s.said (owner id) else s.heard (owner id) j) := by
  let blank : Registry := { hostName := [], processId := 0, entry := fun _ => none, told := [] }
  have hfresh : blank.Fresh := ⟨fun _ => rfl, rfl⟩
  have htells : Reached NodeManager.kind p (nodeManagers p)
      (Says NodeManager.observation p (nodeManagers p) (entryView owner).Of) s := h
  have hblank : ∀ i j, (entryView owner).Agree i ((nodeManagers p j).registry []) blank :=
    fun _ _ _ _ => rfl
  have hkept := htells.kept hinj ready_nodeManagers hblank
  have hagree := hkept.agree (owner id) j id rfl
  exact ⟨(List.sublist_append_left _ _).trans (hkept.sub (owner id) j),
    hagree.trans (entry_exec hfresh _ id)⟩

/-! ## Two processes with a node of the same name -/

/-- Node 1 joins at a time. -/
def nodeJoins (now : BitVec 64) : ChannelManager.Call :=
  { attr :=
      { hostName := [], hostIp := [], processId := 0, channelName := [], channelId := 0,
        qosProfile := {}, id := 0, nodeName := [0x6E], nodeId := 1, messageType := [] }
    role := .roleNode
    opt := .optJoin
    now }

/-- The message of each of the two: the second is the later one. -/
def nodeJoined (i : Bool) : ChangeMsg :=
  built NodeManager.kind (nodeManagers places) i (nodeJoins (if i then 9 else 5))

theorem fits_nodeJoined (i : Bool) :
    (ChangeMsg.type.image .littleEndian (nodeJoined i)).length ≤ 2 ^ 30 := by
  have hlen : (ChangeMsg.type.image .littleEndian (nodeJoined i)).length = 112 := by
    cases i <;> decide
  omega

theorem accepted_nodeJoins (i : Bool) : Accepted NodeManager.kind places (nodeManagers places) i
    (nodeJoins (if i then 9 else 5)) where
  accepts := ⟨rfl, by cases i <;> decide, rfl⟩
  fits := fits_nodeJoined i

variable {P : Bool → ChannelManager.Call → Prop} {s : Network Bool NodeManager}

theorem exists_joins (hs : NodeReached places P s)
    (hwired : s.Wired NodeManager.kind places (nodeManagers places)) (i : Bool)
    (hP : P i (nodeJoins (if i then 9 else 5))) :
    ∃ s', NodeReached places P s' ∧ s'.Wired NodeManager.kind places (nodeManagers places) ∧
      s'.broadcast NodeManager.observation =
        (s.broadcast NodeManager.observation).say Registry.apply i [nodeJoined i] :=
  Reached.exists_call ready_nodeManagers hs hwired ⟨.inl rfl, .inl rfl⟩ hP (accepted_nodeJoins i)

theorem exists_heard (hs : NodeReached places P s)
    (hwired : s.Wired NodeManager.kind places (nodeManagers places)) {i j : Bool}
    (hway : (s.broadcast NodeManager.observation).onWay i j = [nodeJoined i]) :
    ∃ s', NodeReached places P s' ∧ s'.Wired NodeManager.kind places (nodeManagers places) ∧
      s'.broadcast NodeManager.observation =
        (s.broadcast NodeManager.observation).hear Registry.apply i j := by
  refine Reached.exists_receive distinct_places ready_nodeManagers hs hwired (fun _ _ _ => 0)
    fun msg hmsg => ?_
  rw [hway] at hmsg
  cases hmsg
  exact fits_nodeJoined i

omit s in
/-- Both join, and hear of each other. -/
theorem exists_both : ∃ s, NodeReached places onlyJoin s ∧ (∀ i, s.said i = [nodeJoined i]) ∧
    ∀ i j, i = j ∨ s.heard i j = s.said i := by
  obtain ⟨s₁, h₁, hwired₁, hsaid₁⟩ := exists_joins (P := onlyJoin) .start wired_start false rfl
  obtain ⟨s₂, h₂, hwired₂, hsaid₂⟩ := exists_joins h₁ hwired₁ true rfl
  rw [hsaid₁] at hsaid₂
  obtain ⟨s₃, h₃, hwired₃, hheard₃⟩ := exists_heard (i := false) (j := true) h₂ hwired₂
    (by rw [hsaid₂]; rfl)
  rw [hsaid₂] at hheard₃
  obtain ⟨s, h, -, hheard⟩ := exists_heard (i := true) (j := false) h₃ hwired₃
    (by rw [hheard₃]; rfl)
  rw [hheard₃] at hheard
  have hall : ∀ i j, i = j ∨ (s.broadcast NodeManager.observation).heard i j =
      (s.broadcast NodeManager.observation).said i := by
    rw [hheard]
    intro i j
    cases i <;> cases j
    · exact .inl rfl
    · exact .inr rfl
    · exact .inr rfl
    · exact .inl rfl
  refine ⟨s, h, fun i => ?_, hall⟩
  rw [show s.said i = (s.broadcast NodeManager.observation).said i from rfl, hheard]
  cases i
  · rfl
  · rfl

/-- The process whose node came later has said that it will be terminated. -/
theorem one_survives_both : ∃ s, NodeReached places onlyJoin s ∧
    (NodeManager.nodeOf (nodeJoined true)).bare ∈ s.terminations true := by
  obtain ⟨s, hs, hsaid, hall⟩ := exists_both
  have hannounced : ∀ i, s.announcedNodes i 1 = [(NodeManager.nodeOf (nodeJoined i)).bare] := by
    intro i
    rw [announcedNodes, hsaid]
    cases i
    · rfl
    · rfl
  have htime : ∀ i, nodeStamp (NodeManager.nodeOf (nodeJoined i)).bare = if i then 9 else 5 := by
    decide
  have htimes : s.DistinctTimes 1 := by
    refine ⟨fun i => ?_, fun i j hne node hnode node' hnode' heq => hne ?_⟩
    · rw [hannounced]
      exact List.nodup_singleton _
    · rw [hannounced] at hnode hnode'
      rw [List.mem_singleton.mp hnode, List.mem_singleton.mp hnode', htime, htime] at heq
      revert heq
      cases i <;> cases j <;> decide
  have hsurvives := one_survives distinct_places hs (fun i => hall i true) htimes
  refine ⟨s, hs, (hsurvives.2 _ (by rw [hannounced]; exact List.mem_singleton_self _)).mpr ?_⟩
  refine ⟨false, _, by rw [hannounced]; exact List.mem_singleton_self _, ?_⟩
  rw [htime, htime]
  decide

/-- The process that has heard of the node holds it. -/
theorem held_told_nodeJoins : ∃ s, NodeReached places (ofOwner fun _ => false) s ∧
    s.heldNode true 1 = toldNode 1 [nodeJoined false] := by
  obtain ⟨s₁, h₁, hwired₁, hsaid₁⟩ :=
    exists_joins (P := ofOwner fun _ => false) .start wired_start false rfl
  obtain ⟨s, hs, -, hheard⟩ := exists_heard (i := false) (j := true) h₁ hwired₁
    (by rw [hsaid₁]; rfl)
  rw [hsaid₁] at hheard
  have hheard' : s.heard false true = [nodeJoined false] :=
    congrFun (congrFun (congrArg Broadcast.heard hheard) false) true
  have htold := (held_told distinct_places hs 1 true).2
  exact ⟨s, hs, htold.trans (congrArg (toldNode 1) hheard')⟩

end Network

end Discovery
end Cmw
