import Cmw.Discovery.Direction
import Cmw.Discovery.ChannelNetwork

/-!
# Who feeds whom, in every process

The node graph of a manager names nodes and channels and no processes.  Where every node is of one
process, the part of the graph about its nodes is told by the messages of that process, and where
the keys of edges are distinct, two processes that have heard the same find the same flow
between any two nodes.
-/

namespace Cmw
namespace Discovery

open Config
open Library
open Serialize

namespace Graph

variable {g g' : Graph}

/-- The readers are among these pairs of a channel and a node. -/
def ReadersAmong (pairs : Set (Str × Str)) (g : Graph) : Prop :=
  ∀ c n, n ∈ g.half c .dst → (c, n) ∈ pairs

/-- The key of an edge that ends in a pair. -/
def pairKey (pair : Str × Str) : Str := pair.1 ++ [0x5F] ++ pair.2

theorem keysDistinct_of_among {pairs : Set (Str × Str)} (hinj : Set.InjOn pairKey pairs)
    (h : g.ReadersAmong pairs) : g.KeysDistinct := by
  intro f f' hf hf' hsrc hkey
  have hpair : (f.value, f.dst.value) = (f'.value, f'.dst.value) :=
    hinj (h _ _ (hf .dst)) (h _ _ (hf' .dst)) hkey
  obtain ⟨hvalue, hdst⟩ := Prod.mk.inj hpair
  exact edge_ext .src hvalue hsrc (congrArg Vertice.mk hdst)

/-- What the lists are told by. -/
structure Settled (pairs : Set (Str × Str)) (g : Graph) : Prop where
  keyed : g.Keyed
  closed : g.Closed
  lists : g.Lists
  among : g.ReadersAmong pairs

theorem mem_successors_iff (h : g.Lists) {s x : Str} :
    x ∈ g.successors s ↔ ∃ c, s ∈ g.half c .src ∧ x ∈ g.half c .dst := by
  rw [mem_successors]
  constructor
  · rintro ⟨k, v, harc, rfl⟩
    obtain ⟨f, hf, ⟨rfl, -⟩, rfl⟩ := (h s k v).mp harc
    exact ⟨f.value, hf .src, hf .dst⟩
  · rintro ⟨c, hs, hx⟩
    let f : Edge := { src := ⟨s⟩, dst := ⟨x⟩, value := c }
    have hf : g.Complete f := fun side => by cases side <;> assumption
    exact ⟨f.getKey, ⟨x⟩, (h s _ _).mpr ⟨f, hf, ⟨rfl, rfl⟩, rfl⟩, rfl⟩

theorem mem_list_of_reach (h : g.Closed) {a b : Str} (hne : a ≠ b)
    (hreach : Traverse.Reach g.successors a b) : a ∈ g.list ∧ b ∈ g.list := by
  rcases Relation.ReflTransGen.cases_head hreach with rfl | ⟨x, hx, -⟩
  · exact absurd rfl hne
  rcases Relation.ReflTransGen.cases_tail hreach with heq | ⟨y, -, hy⟩
  · exact absurd heq.symm hne
  obtain ⟨k, v, hv, -⟩ := mem_successors.mp hx
  obtain ⟨k', v', hv', rfl⟩ := mem_successors.mp hy
  exact ⟨mem_list_of_arc hv, h _ _ _ hv'⟩

open Classical in
/-- Between two vertices, the lists that are there do not matter. -/
theorem direction_of_ne (h : g.Closed) {lhs rhs : Vertice} (hne : lhs ≠ rhs) :
    g.direction lhs rhs =
      if Traverse.Reach g.successors lhs.getKey rhs.getKey then .upstream
      else if Traverse.Reach g.successors rhs.getKey lhs.getKey then .downstream
      else .unreachable := by
  have hkeys : lhs.getKey ≠ rhs.getKey := fun heq => hne (getKey_inj.mp heq)
  rw [direction]
  by_cases hlist : lhs.getKey ∉ g.list ∨ rhs.getKey ∉ g.list
  · have hgo : ¬Traverse.Reach g.successors lhs.getKey rhs.getKey := fun hreach => by
      obtain ⟨hl, hr⟩ := mem_list_of_reach h hkeys hreach
      exact hlist.elim (· hl) (· hr)
    have hback : ¬Traverse.Reach g.successors rhs.getKey lhs.getKey := fun hreach => by
      obtain ⟨hr, hl⟩ := mem_list_of_reach h hkeys.symm hreach
      exact hlist.elim (· hl) (· hr)
    rw [if_pos hlist, if_neg hgo, if_neg hback]
  · rw [if_neg hlist]

/-- Two graphs with the same halves have the same flow between two vertices. -/
theorem direction_congr {pairs : Set (Str × Str)} (hg : g.Settled pairs) (hg' : g'.Settled pairs)
    (h : ∀ c side n, n ∈ g.half c side ↔ n ∈ g'.half c side) {lhs rhs : Vertice}
    (hne : lhs ≠ rhs) : g.direction lhs rhs = g'.direction lhs rhs := by
  have hsucc : (fun x y => y ∈ g.successors x) = fun x y => y ∈ g'.successors x := by
    funext x y
    refine propext ?_
    rw [mem_successors_iff hg.lists, mem_successors_iff hg'.lists]
    exact exists_congr fun c => and_congr (h c .src x) (h c .dst y)
  have hreach : Traverse.Reach g.successors = Traverse.Reach g'.successors := by
    unfold Traverse.Reach
    rw [hsucc]
  rw [direction_of_ne hg.closed hne, direction_of_ne hg'.closed hne, hreach]

theorem settled_empty (pairs : Set (Str × Str)) : Settled pairs {} where
  keyed := keyed_empty
  closed := closed_empty
  lists := lists_empty
  among := fun _ _ h => by cases h

end Graph

namespace ChannelManager

/-- `GetFlowDirection(lhs_node_name, rhs_node_name)`, with a bound on the search. -/
def getFlowDirection (left : Nat) (m : ChannelManager) (lhsNodeName rhsNodeName : Str) :
    Option (FlowDirection × Graph) :=
  m.nodeGraph.getDirectionOf left ⟨lhsNodeName⟩ ⟨rhsNodeName⟩

/-- The place of a role in the graph. -/
def placeOf (msg : ChangeMsg) : Str × Str := (msg.roleAttr.channelName, msg.roleAttr.nodeName)

theorem mem_half_step (m : ChannelManager) (msg : ChangeMsg) {c n : Str} {side : Side} :
    n ∈ (m.step msg).nodeGraph.half c side ↔
      if msg.operateType = OperateType.optJoin.word then
        n ∈ m.nodeGraph.half c side ∨ (edgeOf msg).isValid = true ∧ side = sideOf msg ∧
          (c, n) = placeOf msg
      else n ∈ m.nodeGraph.half c side ∧ ¬((edgeOf msg).isValid = true ∧ side = sideOf msg ∧
        (c, n) = placeOf msg) := by
  rw [placeOf, Prod.mk.injEq]
  split
  case isTrue h => exact Traced.mem_half_join h
  case isFalse h => exact Traced.mem_half_leave h

theorem Settled.step {pairs : Set (Str × Str)} (hinj : Set.InjOn Graph.pairKey pairs)
    {m : ChannelManager} (h : m.nodeGraph.Settled pairs) {msg : ChangeMsg}
    (hmsg : sideOf msg = .dst → placeOf msg ∈ pairs) : (m.step msg).nodeGraph.Settled pairs := by
  have hamong : (m.step msg).nodeGraph.ReadersAmong pairs := by
    intro c n hn
    rw [mem_half_step] at hn
    split at hn
    · rcases hn with hn | ⟨-, hside, hplace⟩
      · exact h.among c n hn
      · exact hplace ▸ hmsg hside.symm
    · exact h.among c n hn.1
  have hkeys := Graph.keysDistinct_of_among hinj h.among
  by_cases hjoin : msg.operateType = OperateType.optJoin.word
  · have hgraph := nodeGraph_join (m := m) hjoin
    rw [hgraph] at hamong ⊢
    refine ⟨Graph.keyed_step h.keyed (.insert _), Graph.closed_step h.closed (.insert _), ?_, hamong⟩
    refine Graph.lists_insert h.keyed h.lists ?_
    have hhalves : (m.nodeGraph.insert (edgeOf msg)).halves = m.nodeGraph.halves.insert (edgeOf msg) :=
      Graph.halves_step m.nodeGraph (.insert (edgeOf msg))
    rw [← hhalves]
    exact Graph.keysDistinct_halves.mpr (Graph.keysDistinct_of_among hinj hamong)
  · have hgraph := nodeGraph_leave (m := m) hjoin
    rw [hgraph] at hamong ⊢
    exact ⟨Graph.keyed_step h.keyed (.delete _), Graph.closed_step h.closed (.delete _),
      Graph.lists_delete h.keyed h.lists hkeys, hamong⟩

/-- The nodes that are on a side of a channel, among those of a process. -/
def NodesAgree {ι : Type} (owner : Str → ι) (i : ι) (m m' : ChannelManager) : Prop :=
  ∀ c side n, owner n = i → (n ∈ m.nodeGraph.half c side ↔ n ∈ m'.nodeGraph.half c side)

end ChannelManager

namespace Network

variable {ι : Type} [DecidableEq ι] {p : Placement ι} {s : Network ι ChannelManager}
  {owner : Str → ι} {pairs : Set (Str × Str)}

/-- What is held of the nodes of a process is told by its own messages. -/
def nodeView (owner : Str → ι) (pairs : Set (Str × Str)) : View ι ChannelManager.step where
  Of i msg := owner msg.roleAttr.nodeName = i ∧
    (sideOf msg = .dst → ChannelManager.placeOf msg ∈ pairs)
  Agree := ChannelManager.NodesAgree owner
  own := fun _ hagree c side n hn => by
    rw [ChannelManager.mem_half_step, ChannelManager.mem_half_step, hagree c side n hn]
  other := fun hne hof hagree c side n hn => by
    have hplace : ∀ msg : ChangeMsg, owner msg.roleAttr.nodeName ≠ owner n →
        (c, n) ≠ ChannelManager.placeOf msg := fun msg hne heq =>
      hne (congrArg owner (Prod.mk.inj heq).2).symm
    rw [ChannelManager.mem_half_step, ← hagree c side n hn]
    have hnot := hplace _ (hof.1 ▸ hn ▸ hne)
    split
    · exact ⟨fun h => h.resolve_right fun h => hnot h.2.2, .inl⟩
    · exact ⟨And.left, fun h => ⟨h, fun h => hnot h.2.2⟩⟩

/-- A process announces roles of its own nodes, and the readers are among the pairs. -/
def ofNodes (owner : Str → ι) (pairs : Set (Str × Str)) (i : ι) (c : ChannelManager.Call) : Prop :=
  owner c.attr.nodeName = i ∧
    (c.role ≠ .roleWriter → (c.attr.channelName, c.attr.nodeName) ∈ pairs)

theorem ChannelReached.tellsNodes (h : ChannelReached p (ofNodes owner pairs) s) :
    Reached ChannelManager.kind p (channelManagers p)
      (Says ChannelManager.observation p (channelManagers p) (nodeView owner pairs).Of) s := by
  refine Reached.mono (fun s e he => ⟨he.1, fun i c hc => ?_⟩) h
  obtain ⟨howner, hpair⟩ := he.2 i c hc
  refine ⟨howner, fun hside => hpair fun hrole => ?_⟩
  have hsrc : sideOf (built ChannelManager.kind (channelManagers p) i c) = .src :=
    if_pos (congrArg RoleType.word hrole)
  rw [hsrc] at hside
  cases hside

omit [DecidableEq ι] in
theorem nodesAgree_start (owner : Str → ι) (i j : ι) :
    ChannelManager.NodesAgree owner i (channelManagers p j) blank := by
  intro c side n _
  rfl

theorem ChannelReached.settled (hinj : p.Distinct) (hkeys : Set.InjOn Graph.pairKey pairs)
    (h : ChannelReached p (ofNodes owner pairs) s) (j : ι) :
    (s.manager j).nodeGraph.Settled pairs := by
  have hstep : ∀ i (m : ChannelManager) msg, (nodeView owner pairs).Of i msg →
      m.nodeGraph.Settled pairs → (m.step msg).nodeGraph.Settled pairs := fun _ _ _ hof hm =>
    ChannelManager.Settled.step hkeys hm hof.2
  exact h.tellsNodes.always hinj ready_channelManagers (nodesAgree_start owner) hstep
    (fun _ => Graph.settled_empty pairs) j

/-- Two processes that have heard everything have the same nodes on each side of each channel. -/
theorem ChannelReached.nodes_agree (hinj : p.Distinct)
    (h : ChannelReached p (ofNodes owner pairs) s) {j l : ι}
    (hj : ∀ i, i = j ∨ s.heard i j = s.said i) (hl : ∀ i, i = l ∨ s.heard i l = s.said i)
    (c : Str) (side : Side) (n : Str) :
    n ∈ (s.manager j).nodeGraph.half c side ↔ n ∈ (s.manager l).nodeGraph.half c side := by
  have hkept := h.tellsNodes.kept hinj ready_channelManagers (nodesAgree_start owner)
  have hheld : ∀ {j : ι}, (∀ i, i = j ∨ s.heard i j = s.said i) → _ := fun {j} hj =>
    hkept.agree_of_all (hj (owner n)) c side n rfl
  exact (hheld hj).trans (hheld hl).symm

/-- In every run, two processes that have heard all that the others have written find the same flow
between any two nodes, where no two processes share a node name and no two pairs of a channel and
a reading node share a key. -/
theorem flow_agree (hinj : p.Distinct) (hkeys : Set.InjOn Graph.pairKey pairs)
    (h : ChannelReached p (ofNodes owner pairs) s) {j l : ι}
    (hj : ∀ i, i = j ∨ s.heard i j = s.said i) (hl : ∀ i, i = l ∨ s.heard i l = s.said i)
    {lhs rhs : Str} (hlhs : lhs ≠ []) (hrhs : rhs ≠ []) (hne : lhs ≠ rhs) :
    ∃ direction enough, ∀ left, enough ≤ left →
      ((s.manager j).getFlowDirection left lhs rhs).map Prod.fst = some direction ∧
      ((s.manager l).getFlowDirection left lhs rhs).map Prod.fst = some direction := by
  have hdummy : ∀ {name : Str}, name ≠ [] → (⟨name⟩ : Vertice).isDummy = false := fun hname => by
    rw [Vertice.isDummy, List.isEmpty_eq_false_iff]
    exact hname
  have hsettled := h.settled hinj hkeys
  have hvertices : (⟨lhs⟩ : Vertice) ≠ ⟨rhs⟩ := fun heq => hne (congrArg Vertice.value heq)
  have hsame := Graph.direction_congr (hsettled j) (hsettled l) (h.nodes_agree hinj hj hl) hvertices
  refine ⟨(s.manager j).nodeGraph.direction ⟨lhs⟩ ⟨rhs⟩,
    max (s.manager j).nodeGraph.turns (s.manager l).nodeGraph.turns, fun left hleft => ?_⟩
  obtain ⟨hleftj, hleftl⟩ := max_le_iff.mp hleft
  rw [ChannelManager.getFlowDirection, ChannelManager.getFlowDirection,
    Graph.getDirectionOf_eq (hsettled j).closed (hdummy hlhs) (hdummy hrhs) hleftj,
    Graph.getDirectionOf_eq (hsettled l).closed (hdummy hlhs) (hdummy hrhs) hleftl, hsame]
  exact ⟨rfl, rfl⟩

theorem flow_agree_writerJoins : ∃ s direction enough, ChannelReached places onlyJoins s ∧
    ∀ left, enough ≤ left →
      ((s.manager false).getFlowDirection left [0x6E] [0x6D]).map Prod.fst = some direction ∧
      ((s.manager true).getFlowDirection left [0x6E] [0x6D]).map Prod.fst = some direction := by
  obtain ⟨s, honly, -, hheard, hback⟩ := writerJoins_heard
  have hs : ChannelReached places (ofNodes (fun _ => false) ∅) s := by
    refine honly.mono fun i c hc => ?_
    obtain ⟨rfl, rfl⟩ := hc
    exact ⟨rfl, fun hrole => absurd rfl hrole⟩
  have hfalse : ∀ i, i = false ∨ s.heard i false = s.said i := by
    intro i
    cases i
    · exact .inl rfl
    · exact .inr (hback false)
  have htrue : ∀ i, i = true ∨ s.heard i true = s.said i := by
    intro i
    cases i
    · exact .inr hheard
    · exact .inl rfl
  obtain ⟨direction, enough, hflow⟩ := flow_agree distinct_places (Set.injOn_empty _) hs hfalse htrue
    (show [0x6E] ≠ [] by decide) (show [0x6D] ≠ [] by decide) (by decide)
  exact ⟨s, direction, enough, honly, hflow⟩

end Network

end Discovery
end Cmw
