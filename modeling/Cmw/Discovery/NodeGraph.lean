import Cmw.Discovery.GraphExact
import Cmw.Discovery.Warehouses

/-!
# The node graph and the roles that are there

The graph of a channel manager has a node once for a channel, however many of the
node's writers or readers are on it, and the first of them to leave takes the
node away.  The history is followed beside the manager: `live` is the set of the
roles that have joined and not left.
-/

namespace Cmw
namespace Discovery

open Config
open Library

/-- A writer or a reader by its identity and its place. -/
structure LiveRole where
  side : Side
  id : BitVec 64
  nodeName : Str
  channelName : Str
  deriving DecidableEq, Repr

def LiveRole.At (r : LiveRole) (c : Str) (side : Side) (n : Str) : Prop :=
  r.side = side ∧ r.channelName = c ∧ r.nodeName = n

def LiveRole.of (msg : ChangeMsg) : LiveRole :=
  { side := sideOf msg, id := msg.roleAttr.id, nodeName := msg.roleAttr.nodeName,
    channelName := msg.roleAttr.channelName }

def edgeOf (msg : ChangeMsg) : Edge :=
  ({ value := msg.roleAttr.channelName } : Edge).setTip ⟨msg.roleAttr.nodeName⟩ (sideOf msg)

namespace ChannelManager

theorem nodeGraph_join {m : ChannelManager} {msg : ChangeMsg}
    (h : msg.operateType = OperateType.optJoin.word) :
    (m.step msg).nodeGraph = m.nodeGraph.insert (edgeOf msg) := by
  rw [step_join h]
  by_cases hw : msg.roleType = RoleType.roleWriter.word <;>
    simp [disposeJoin, edgeOf, sideOf, hw, Edge.setTip]

theorem nodeGraph_leave {m : ChannelManager} {msg : ChangeMsg}
    (h : msg.operateType ≠ OperateType.optJoin.word) :
    (m.step msg).nodeGraph = m.nodeGraph.delete (edgeOf msg) := by
  rw [step_leave h]
  by_cases hw : msg.roleType = RoleType.roleWriter.word <;>
    simp [disposeLeave, edgeOf, sideOf, hw, Edge.setTip]

end ChannelManager

/-- A manager with the roles that have joined and not left. -/
structure Traced where
  manager : ChannelManager
  live : Finset LiveRole

namespace Traced

def step (t : Traced) (msg : ChangeMsg) : Traced :=
  { manager := t.manager.step msg
    live := if msg.operateType = OperateType.optJoin.word then insert (.of msg) t.live
      else t.live.erase (.of msg) }

def new (hostName : Str) (processId : BitVec 32) : Traced :=
  { manager := .new hostName processId, live := ∅ }

/-- A node is on a side of a channel if and only if one of its roles is. -/
def GraphRight (t : Traced) : Prop :=
  ∀ c side n, n ∈ t.manager.nodeGraph.half c side ↔ ∃ r ∈ t.live, r.At c side n

/-- A role that joins names its node and its channel; a role that leaves is the
last of its node on its side of the channel. -/
def LastLeaves (t : Traced) (msg : ChangeMsg) : Prop :=
  if msg.operateType = OperateType.optJoin.word then
    msg.roleAttr.nodeName ≠ [] ∧ msg.roleAttr.channelName ≠ []
  else ∀ r ∈ t.live.erase (.of msg),
    ¬r.At msg.roleAttr.channelName (sideOf msg) msg.roleAttr.nodeName

def Named (g : Graph) : Prop := ∀ c side n, n ∈ g.half c side → n ≠ [] ∧ c ≠ []

theorem isValid_edgeOf (msg : ChangeMsg) : (edgeOf msg).isValid = true ↔
    msg.roleAttr.nodeName ≠ [] ∧ msg.roleAttr.channelName ≠ [] := by
  cases hside : sideOf msg <;>
    simp [edgeOf, hside, Edge.setTip, Edge.isValid, Vertice.isDummy, and_comm]

theorem tip_edgeOf (msg : ChangeMsg) (side : Side) : (edgeOf msg).tip side =
    if side = sideOf msg then ⟨msg.roleAttr.nodeName⟩ else {} := by
  cases hside : sideOf msg <;> cases side <;> simp [edgeOf, hside, Edge.setTip, Edge.tip]

@[simp] theorem value_edgeOf (msg : ChangeMsg) : (edgeOf msg).value = msg.roleAttr.channelName :=
  Graph.value_setTip _ _ _

theorem tip_edgeOf_iff {msg : ChangeMsg} (hv : (edgeOf msg).isValid = true) {side : Side}
    {c n : Str} :
    ((edgeOf msg).tip side).isDummy = false ∧ c = (edgeOf msg).value ∧
        n = ((edgeOf msg).tip side).getKey ↔
      side = sideOf msg ∧ c = msg.roleAttr.channelName ∧ n = msg.roleAttr.nodeName := by
  have hname := ((isValid_edgeOf msg).mp hv).1
  rw [tip_edgeOf, value_edgeOf]
  by_cases hside : side = sideOf msg
  · simp [hside, Vertice.isDummy, Vertice.getKey, hname]
  · simp [hside, Vertice.isDummy]

theorem mem_half_join {m : ChannelManager} {msg : ChangeMsg}
    (h : msg.operateType = OperateType.optJoin.word) {c n : Str} {side : Side} :
    n ∈ (m.step msg).nodeGraph.half c side ↔
      n ∈ m.nodeGraph.half c side ∨ (edgeOf msg).isValid = true ∧ side = sideOf msg ∧
        c = msg.roleAttr.channelName ∧ n = msg.roleAttr.nodeName := by
  rw [ChannelManager.nodeGraph_join h]
  cases hv : (edgeOf msg).isValid with
  | false => simp [Graph.insert_of_invalid hv]
  | true => rw [Graph.mem_half_insert hv, tip_edgeOf_iff hv, and_iff_right rfl]

theorem mem_half_leave {m : ChannelManager} {msg : ChangeMsg}
    (h : msg.operateType ≠ OperateType.optJoin.word) {c n : Str} {side : Side} :
    n ∈ (m.step msg).nodeGraph.half c side ↔
      n ∈ m.nodeGraph.half c side ∧ ¬((edgeOf msg).isValid = true ∧ side = sideOf msg ∧
        c = msg.roleAttr.channelName ∧ n = msg.roleAttr.nodeName) := by
  rw [ChannelManager.nodeGraph_leave h]
  cases hv : (edgeOf msg).isValid with
  | false => simp [Graph.delete_of_invalid hv]
  | true => rw [Graph.mem_half_delete hv, tip_edgeOf_iff hv, and_iff_right rfl]

theorem named_step {m : ChannelManager} (h : Named m.nodeGraph) (msg : ChangeMsg) :
    Named (m.step msg).nodeGraph := by
  intro c side n hn
  by_cases hjoin : msg.operateType = OperateType.optJoin.word
  · rcases (mem_half_join hjoin).mp hn with hn | ⟨hvalid, _, rfl, rfl⟩
    · exact h c side n hn
    · exact (isValid_edgeOf msg).mp hvalid
  · exact h c side n ((mem_half_leave hjoin).mp hn).1

theorem graphRight_join_iff {t : Traced} (hn : Named t.manager.nodeGraph) (h : t.GraphRight)
    {msg : ChangeMsg} (hjoin : msg.operateType = OperateType.optJoin.word) :
    (t.step msg).GraphRight ↔ t.LastLeaves msg := by
  rw [LastLeaves, if_pos hjoin]
  have hlive : (t.step msg).live = insert (.of msg) t.live := if_pos hjoin
  constructor
  · intro hright
    have hmem : msg.roleAttr.nodeName ∈
        (t.manager.step msg).nodeGraph.half msg.roleAttr.channelName (sideOf msg) := by
      refine (hright _ _ _).mpr ⟨.of msg, ?_, rfl, rfl, rfl⟩
      rw [hlive]
      exact Finset.mem_insert_self _ _
    exact named_step hn msg _ _ _ hmem
  · intro hnames c side n
    have hvalid := (isValid_edgeOf msg).mpr hnames
    rw [hlive, Finset.exists_mem_insert, ← h c side n]
    refine (mem_half_join hjoin).trans (or_comm.trans (or_congr_left ?_))
    constructor
    · intro hp
      obtain ⟨-, rfl, rfl, rfl⟩ := hp
      exact ⟨rfl, rfl, rfl⟩
    · intro hp
      obtain ⟨rfl, rfl, rfl⟩ := hp
      exact ⟨hvalid, rfl, rfl, rfl⟩

theorem graphRight_leave_iff {t : Traced} (hn : Named t.manager.nodeGraph) (h : t.GraphRight)
    {msg : ChangeMsg} (hleave : msg.operateType ≠ OperateType.optJoin.word) :
    (t.step msg).GraphRight ↔ t.LastLeaves msg := by
  rw [LastLeaves, if_neg hleave]
  have hlive : (t.step msg).live = t.live.erase (.of msg) := if_neg hleave
  constructor
  · intro hright r hr hat
    have hmem := (hright _ _ _).mpr ⟨r, hlive ▸ hr, hat⟩
    obtain ⟨hold, hnot⟩ := (mem_half_leave hleave).mp hmem
    exact hnot ⟨(isValid_edgeOf msg).mpr (hn _ _ _ hold), rfl, rfl, rfl⟩
  · intro hlast c side n
    refine (mem_half_leave hleave).trans ?_
    rw [hlive]
    constructor
    · intro hp
      obtain ⟨hold, hnot⟩ := hp
      obtain ⟨r, hr, rfl, rfl, rfl⟩ := (h c side n).mp hold
      refine ⟨r, Finset.mem_erase.mpr ⟨?_, hr⟩, rfl, rfl, rfl⟩
      rintro rfl
      exact hnot ⟨(isValid_edgeOf msg).mpr (hn _ _ _ hold), rfl, rfl, rfl⟩
    · intro hp
      obtain ⟨r, hr, hat⟩ := hp
      refine ⟨(h c side n).mpr ⟨r, (Finset.mem_erase.mp hr).2, hat⟩, ?_⟩
      intro hp
      obtain ⟨-, rfl, rfl, rfl⟩ := hp
      exact hlast r hr hat

theorem graphRight_step_iff {t : Traced} (hn : Named t.manager.nodeGraph) (h : t.GraphRight)
    (msg : ChangeMsg) : (t.step msg).GraphRight ↔ t.LastLeaves msg := by
  by_cases hjoin : msg.operateType = OperateType.optJoin.word
  · exact graphRight_join_iff hn h hjoin
  · exact graphRight_leave_iff hn h hjoin

theorem named_new (hostName : Str) (processId : BitVec 32) :
    Named (new hostName processId).manager.nodeGraph := by
  intro c side n hmem
  cases side <;> cases hmem

theorem graphRight_new (hostName : Str) (processId : BitVec 32) :
    (new hostName processId).GraphRight := by
  intro c side n
  constructor
  · intro hmem
    cases side <;> cases hmem
  · intro h
    obtain ⟨r, hr, -⟩ := h
    exact absurd hr (Finset.notMem_empty r)

/-- The graph is right all through a history if and only if every role that joins
has its names and every role that leaves is the last of its node there. -/
theorem graphRight_iff_lastLeaves (hostName : Str) (processId : BitVec 32)
    (msgs : List ChangeMsg) :
    (∀ t ∈ Run.states step (new hostName processId) msgs, t.GraphRight) ↔
      Run.Along step LastLeaves (new hostName processId) msgs := by
  have hkeep : ∀ (t : Traced) (msg : ChangeMsg), Named t.manager.nodeGraph →
      Named (t.step msg).manager.nodeGraph := fun _ msg hn => named_step hn msg
  have hstep : ∀ (t : Traced) (msg : ChangeMsg), Named t.manager.nodeGraph → t.GraphRight →
      ((t.step msg).GraphRight ↔ t.LastLeaves msg) := fun _ msg hn h => graphRight_step_iff hn h msg
  exact Run.states_iff_along hkeep hstep (named_new hostName processId)
    (graphRight_new hostName processId)

/-- Writer `id` of channel `c` in node `n`. -/
def writer (id : BitVec 64) (opt : OperateType) : ChangeMsg :=
  { timestamp := 0, changeType := ChangeType.changeChannel.word, operateType := opt.word,
    roleType := RoleType.roleWriter.word,
    roleAttr :=
      { hostName := [0x68], hostIp := [], processId := 7, channelName := [0x63], channelId := 2,
        qosProfile := {}, id, nodeName := [0x6E], nodeId := 1, messageType := [] } }

/-- Two writers of one node join a channel, and the first leaves it. -/
def firstLeaves : List ChangeMsg := [writer 3 .optJoin, writer 4 .optJoin, writer 3 .optLeave]

/-- The node is no source of the channel any more, with one writer still there. -/
theorem firstLeaves_not_graphRight :
    ¬ ∀ t ∈ Run.states step (new [] 0) firstLeaves, t.GraphRight := by
  intro h
  have hlive : LiveRole.of (writer 4 .optJoin) ∈ (Run.exec step (new [] 0) firstLeaves).live := by
    decide +kernel
  have hat : (LiveRole.of (writer 4 .optJoin)).At [0x63] .src [0x6E] := ⟨rfl, rfl, rfl⟩
  have hmem := (h _ (Run.exec_mem_states step (new [] 0) firstLeaves) _ _ _).mpr ⟨_, hlive, hat⟩
  revert hmem
  decide +kernel

end Traced

end Discovery
end Cmw
