import Cmw.Discovery.GraphExact
import Cmw.Library.Traverse

/-!
# Which way the messages flow

`GetDirectionOf` of discovery/container/graph.cpp.  It searches `list` breadth first from one vertex
and then from the other.  The search reads the lists with an `operator[]` that makes those that are
not there; it makes none as long as every vertex that is listed has a list of its own.
-/

namespace Cmw
namespace Discovery

open Config
open Library

inductive FlowDirection
  | unreachable | upstream | downstream
  deriving DecidableEq, Repr

namespace Graph

/-- The loop of `LevelTraverse`, with a bound on its turns. -/
def levelLoop (goal : Vertice) : Nat → AdjacencyList → List Vertice → Table Str Bool →
    Option (Bool × AdjacencyList)
  | 0, _, _, _ => none
  | _ + 1, list, [], visited => some (visited.get false goal.getKey, list)
  | left + 1, list, curr :: unvisited, visited =>
      if visited.get false curr.getKey then levelLoop goal left list unvisited visited
      else
        let visited : Table Str Bool := visited.insert curr.getKey true
        if curr = goal then some (visited.get false goal.getKey, list)
        else
          let list := list.touch ∅ curr.getKey
          let next := (list.get ∅ curr.getKey).entries.map fun item => item.2
          levelLoop goal left list (unvisited ++ next) visited

def levelTraverse (left : Nat) (g : Graph) (start goal : Vertice) : Option (Bool × Graph) := do
  let (found, list) ← levelLoop goal left g.list [start] (AList.insert goal.getKey false ∅)
  some (found, { g with list })

def getDirectionOf (left : Nat) (g : Graph) (lhs rhs : Vertice) : Option (FlowDirection × Graph) :=
  if lhs.isDummy || rhs.isDummy then some (.unreachable, g)
  else if lhs.getKey ∉ g.list ∨ rhs.getKey ∉ g.list then some (.unreachable, g)
  else do
    let (found, g) ← g.levelTraverse left lhs rhs
    if found then some (.upstream, g)
    else do
      let (found, g) ← g.levelTraverse left rhs lhs
      some (if found then .downstream else .unreachable, g)

/-! ## The search -/

/-- The vertices in the list of `k`. -/
def successors (g : Graph) (k : Str) : List Str :=
  (g.list.get ∅ k).entries.map fun item => item.2.getKey

theorem mem_successors {g : Graph} {s x : Str} :
    x ∈ g.successors s ↔ ∃ k v, g.arc s k = some v ∧ v.getKey = x := by
  rw [successors, List.mem_map]
  constructor
  · intro h
    obtain ⟨item, hitem, rfl⟩ := h
    exact ⟨item.1, item.2, AList.mem_lookup_iff.mpr hitem, rfl⟩
  · intro h
    obtain ⟨k, v, hv, rfl⟩ := h
    exact ⟨⟨k, v⟩, AList.mem_lookup_iff.mp hv, rfl⟩

/-- Every vertex that is listed has a list. -/
def Closed (g : Graph) : Prop := ∀ s k v, g.arc s k = some v → v.getKey ∈ g.list

theorem touch_of_mem {list : AdjacencyList} {k : Str} (h : k ∈ list) : list.touch ∅ k = list :=
  if_pos h

theorem getKey_inj {v w : Vertice} : v.getKey = w.getKey ↔ v = w :=
  ⟨fun h => congrArg Vertice.mk h, fun h => congrArg Vertice.getKey h⟩

/-- The loop is the search among the keys, and leaves the lists as they are. -/
theorem levelLoop_eq {g : Graph} (hg : g.Closed) (goal : Vertice) (left : Nat) {queue : List Vertice}
    {visited : Table Str Bool} {seen : Finset Str} (hqueue : ∀ v ∈ queue, v.getKey ∈ g.list)
    (hseen : ∀ k, visited.get false k = true ↔ k ∈ seen) :
    levelLoop goal left g.list queue visited =
      (Traverse.visits g.successors goal.getKey left (queue.map Vertice.getKey) seen).map
        fun out => (decide (goal.getKey ∈ out), g.list) := by
  have hget : ∀ {visited : Table Str Bool} {seen : Finset Str},
      (∀ k, visited.get false k = true ↔ k ∈ seen) → ∀ k, visited.get false k = decide (k ∈ seen) :=
    fun h k => Bool.eq_iff_iff.mpr ((h k).trans decide_eq_true_iff.symm)
  induction left generalizing queue visited seen with
  | zero => rfl
  | succ left ih =>
      cases queue with
      | nil =>
          rw [levelLoop, hget hseen]
          rfl
      | cons curr queue =>
          obtain ⟨hcurr, hrest⟩ := List.forall_mem_cons.mp hqueue
          have hmark : ∀ k, Table.get (visited.insert curr.getKey true) false k = true ↔
              k ∈ Insert.insert curr.getKey seen := by
            intro k
            rw [Table.get_insert, Finset.mem_insert, ← hseen]
            split
            case isTrue hk => exact iff_of_true rfl (.inl hk)
            case isFalse hk => exact (or_iff_right hk).symm
          rw [levelLoop, List.map_cons, Traverse.visits, touch_of_mem hcurr]
          by_cases hvisited : curr.getKey ∈ seen
          · rw [if_pos hvisited, if_pos ((hseen _).mpr hvisited)]
            exact ih hrest hseen
          · rw [if_neg hvisited, if_neg fun h => hvisited ((hseen _).mp h)]
            by_cases hgoal : curr = goal
            · rw [if_pos (congrArg Vertice.getKey hgoal), if_pos hgoal, hget hmark]
              rfl
            · rw [if_neg fun h => hgoal (getKey_inj.mp h), if_neg hgoal, ih _ hmark,
                List.map_append, List.map_map]
              · rfl
              · intro v hv
                rcases List.mem_append.mp hv with hv | hv
                · exact hrest v hv
                · obtain ⟨item, hitem, rfl⟩ := List.mem_map.mp hv
                  exact hg _ item.1 item.2 (AList.mem_lookup_iff.mpr hitem)

/-- How many turns every search ends in. -/
def turns (g : Graph) : Nat :=
  1 + (g.list.keys.toFinset.sum fun k => (g.successors k).length) + 1

theorem levelTraverse_eq {g : Graph} (hg : g.Closed) {start : Vertice} (goal : Vertice)
    (hstart : start.getKey ∈ g.list) {left : Nat} (hleft : g.turns ≤ left) :
    ∃ found, g.levelTraverse left start goal = some (found, g) ∧
      (found = true ↔ Traverse.Reach g.successors start.getKey goal.getKey) := by
  have hclosed : ∀ k ∈ g.list.keys.toFinset, ∀ x ∈ g.successors k, x ∈ g.list.keys.toFinset := by
    intro k _ x hx
    obtain ⟨key, v, hv, rfl⟩ := mem_successors.mp hx
    exact List.mem_toFinset.mpr (hg k key v hv)
  have hturns : Traverse.turns g.successors g.list.keys.toFinset [start.getKey] ∅ ≤ left := by
    rw [Traverse.turns, Finset.sdiff_empty]
    exact hleft
  obtain ⟨out, hout, hreach⟩ :=
    Traverse.visits_iff hclosed (List.mem_toFinset.mpr hstart) goal.getKey hturns
  have hnone : ∀ k, Table.get (AList.insert goal.getKey false (∅ : Table Str Bool)) false k = true ↔
      k ∈ (∅ : Finset Str) := by
    intro k
    rw [Table.get_insert]
    split <;> exact iff_of_false Bool.false_ne_true (Finset.notMem_empty k)
  have hqueue : ∀ v ∈ [start], v.getKey ∈ g.list := fun v hv => List.mem_singleton.mp hv ▸ hstart
  refine ⟨decide (goal.getKey ∈ out), ?_, decide_eq_true_iff.trans hreach⟩
  rw [levelTraverse, levelLoop_eq hg goal left hqueue hnone, List.map_singleton, hout]
  rfl

open Classical in
/-- The direction from one vertex to another. -/
noncomputable def direction (g : Graph) (lhs rhs : Vertice) : FlowDirection :=
  if lhs.getKey ∉ g.list ∨ rhs.getKey ∉ g.list then .unreachable
  else if Traverse.Reach g.successors lhs.getKey rhs.getKey then .upstream
  else if Traverse.Reach g.successors rhs.getKey lhs.getKey then .downstream
  else .unreachable

theorem getDirectionOf_eq {g : Graph} (hg : g.Closed) {lhs rhs : Vertice}
    (hlhs : lhs.isDummy = false) (hrhs : rhs.isDummy = false) {left : Nat} (hleft : g.turns ≤ left) :
    g.getDirectionOf left lhs rhs = some (g.direction lhs rhs, g) := by
  rw [getDirectionOf, hlhs, hrhs, if_neg (by simp), direction]
  by_cases hlist : lhs.getKey ∉ g.list ∨ rhs.getKey ∉ g.list
  · rw [if_pos hlist, if_pos hlist]
  · rw [if_neg hlist, if_neg hlist]
    obtain ⟨hl, hr⟩ := not_or.mp hlist
    obtain ⟨found, hfound, hreach⟩ := levelTraverse_eq hg rhs (not_not.mp hl) hleft
    obtain ⟨back, hback, hreachBack⟩ := levelTraverse_eq hg lhs (not_not.mp hr) hleft
    rw [hfound, ← hreach]
    cases found with
    | true =>
        rw [if_pos rfl]
        rfl
    | false =>
        rw [if_neg Bool.false_ne_true, ← hreachBack]
        show (g.levelTraverse left rhs lhs >>= _) = _
        rw [hback]
        cases back <;> simp

/-! ## The lists -/

theorem mem_touch {list : AdjacencyList} {k x : Str} :
    x ∈ list.touch ∅ k ↔ x ∈ list ∨ x = k := by
  rw [Table.touch]
  split
  case isTrue hk => exact (or_iff_left_of_imp fun hx => hx ▸ hk).symm
  case isFalse => rw [AList.mem_insert, or_comm]

theorem mem_list_insertCompleteEdge {g : Graph} {e : Edge} {k : Str} :
    k ∈ (g.insertCompleteEdge e).list ↔ k ∈ g.list ∨ k = e.src.getKey ∨ k = e.dst.getKey := by
  show k ∈ AList.insert _ _ _ ↔ _
  rw [AList.mem_insert, mem_touch, mem_touch]
  tauto

theorem mem_list_deleteCompleteEdge {g : Graph} {e : Edge} {k : Str} :
    k ∈ (g.deleteCompleteEdge e).list ↔ k ∈ g.list ∨ k = e.src.getKey := by
  show k ∈ AList.insert _ _ _ ↔ _
  rw [AList.mem_insert, or_comm]

theorem closed_insertCompleteEdge {g : Graph} (hg : g.Closed) (e : Edge) :
    (g.insertCompleteEdge e).Closed := by
  intro s k v hv
  rw [arc_insertCompleteEdge] at hv
  rw [mem_list_insertCompleteEdge]
  split at hv
  · cases hv
    exact .inr (.inr rfl)
  · exact .inl (hg s k v hv)

theorem closed_deleteCompleteEdge {g : Graph} (hg : g.Closed) (e : Edge) :
    (g.deleteCompleteEdge e).Closed := by
  intro s k v hv
  rw [arc_deleteCompleteEdge] at hv
  rw [mem_list_deleteCompleteEdge]
  split at hv
  · cases hv
  · exact .inl (hg s k v hv)

theorem closed_edges {g : Graph} (hg : g.Closed) (edges : EdgeInfo) : Closed { g with edges } := hg

theorem closed_insertHalf {g : Graph} (hg : g.Closed) (side : Side) (e : Edge) :
    (g.insertHalf side e).Closed := by
  rw [insertHalf]
  split
  · exact hg
  · exact List.foldlRecOn _ insertCompleteEdge (closed_edges hg _) fun g hg e _ =>
      closed_insertCompleteEdge hg e

theorem closed_deleteHalf {g : Graph} (hg : g.Closed) (side : Side) (e : Edge) :
    (g.deleteHalf side e).Closed := by
  rw [deleteHalf]
  split
  · exact hg
  · exact List.foldlRecOn _ deleteCompleteEdge (closed_edges hg _) fun g hg e _ =>
      closed_deleteCompleteEdge hg e

theorem closed_step {g : Graph} (hg : g.Closed) (call : Call) : (g.step call).Closed := by
  cases call with
  | insert e =>
      exact insert_induction (P := Closed) hg (closed_edges hg _) fun _ side _ hg =>
        closed_insertHalf hg side e
  | delete e =>
      exact delete_induction (P := Closed) hg fun _ side _ hg => closed_deleteHalf hg side e

theorem closed_empty : Closed {} := by
  intro s k v hv
  cases hv

theorem mem_list_of_arc {g : Graph} {s k : Str} {v : Vertice} (h : g.arc s k = some v) :
    s ∈ g.list := by
  by_contra hs
  rw [arc, Table.get_of_notMem hs] at h
  cases h

theorem direction_of_arc {g : Graph} (hg : g.Closed) {lhs rhs : Vertice} {k : Str}
    (h : g.arc lhs.getKey k = some rhs) : g.direction lhs rhs = .upstream := by
  have hlist : ¬(lhs.getKey ∉ g.list ∨ rhs.getKey ∉ g.list) :=
    not_or.mpr ⟨not_not_intro (mem_list_of_arc h), not_not_intro (hg _ _ _ h)⟩
  have hreach : Traverse.Reach g.successors lhs.getKey rhs.getKey :=
    .single (mem_successors.mpr ⟨k, rhs, h, rfl⟩)
  rw [direction, if_neg hlist, if_pos hreach]

/-- After any calls, the direction from a vertex to another is found in finitely many turns, and
looking for it leaves the graph as it is. -/
theorem getDirectionOf_reached (calls : List Call) {lhs rhs : Vertice} (hlhs : lhs.value ≠ [])
    (hrhs : rhs.value ≠ []) :
    ∃ enough, ∀ left, enough ≤ left →
      (Run.exec step {} calls).getDirectionOf left lhs rhs =
        some ((Run.exec step {} calls).direction lhs rhs, Run.exec step {} calls) := by
  have hstep : ∀ (g : Graph) (call : Call), g.Closed → (g.step call).Closed :=
    fun _ call hg => closed_step hg call
  have hclosed : (Run.exec step {} calls).Closed :=
    Run.invariant_always hstep closed_empty _ (Run.exec_mem_states _ _ calls)
  have hdummy : ∀ {v : Vertice}, v.value ≠ [] → v.isDummy = false := fun hv => by
    rw [Vertice.isDummy, List.isEmpty_eq_false_iff]
    exact hv
  exact ⟨(Run.exec step {} calls).turns, fun left hleft =>
    getDirectionOf_eq hclosed (hdummy hlhs) (hdummy hrhs) hleft⟩

/-- A writer of a channel at one vertex, and a reader of it at the other. -/
def writerAndReader : List Call :=
  [.insert { src := ⟨[0x61]⟩, value := [0x63] }, .insert { dst := ⟨[0x62]⟩, value := [0x63] }]

theorem getDirectionOf_writerAndReader :
    ∃ enough, ∀ left, enough ≤ left →
      (Run.exec step {} writerAndReader).getDirectionOf left ⟨[0x61]⟩ ⟨[0x62]⟩ =
        some ((Run.exec step {} writerAndReader).direction ⟨[0x61]⟩ ⟨[0x62]⟩,
          Run.exec step {} writerAndReader) :=
  getDirectionOf_reached writerAndReader (by decide) (by decide)

end Graph

end Discovery
end Cmw
