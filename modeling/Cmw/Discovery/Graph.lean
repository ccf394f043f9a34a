import Cmw.Config.RoleAttributes
import Cmw.Library.Run
import Cmw.Library.Table

/-!
# The topology graph

`Graph` of discovery/container/graph.h.  A channel is an edge of the graph: its
writers' nodes are the sources of the edge and its readers' nodes the
destinations.  `Insert` and `Delete` are told one half of an edge at a time.
`edges` keeps the halves and `list` the complete edges that are made of them, the
latter under the source and under a key that joins the channel to the
destination.
-/

namespace Cmw
namespace Discovery

open Config
open Library

structure Vertice where
  value : Str := []
  deriving DecidableEq, Repr

def Vertice.isDummy (v : Vertice) : Bool := v.value.isEmpty

def Vertice.getKey (v : Vertice) : Str := v.value

structure Edge where
  src : Vertice := {}
  dst : Vertice := {}
  value : Str := []
  deriving DecidableEq, Repr

def Edge.isValid (e : Edge) : Bool :=
  if e.value.isEmpty then false
  else if e.src.isDummy && e.dst.isDummy then false
  else true

/-- `value_ + "_" + dst_.GetKey()` -/
def Edge.getKey (e : Edge) : Str := e.value ++ [0x5F] ++ e.dst.getKey

abbrev VerticeSet := Table Str Vertice

abbrev AdjacencyList := Table Str VerticeSet

structure RelatedVertices where
  src : VerticeSet := ∅
  dst : VerticeSet := ∅

abbrev EdgeInfo := Table Str RelatedVertices

structure Graph where
  edges : EdgeInfo := ∅
  list : AdjacencyList := ∅

/-- The two ends of an edge, which the source treats in functions of their own. -/
inductive Side
  | src | dst
  deriving DecidableEq, Repr

def Side.other : Side → Side
  | .src => .dst
  | .dst => .src

def Edge.tip (e : Edge) : Side → Vertice
  | .src => e.src
  | .dst => e.dst

def Edge.setTip (e : Edge) (v : Vertice) : Side → Edge
  | .src => { e with src := v }
  | .dst => { e with dst := v }

def RelatedVertices.half (r : RelatedVertices) : Side → VerticeSet
  | .src => r.src
  | .dst => r.dst

def RelatedVertices.setHalf (r : RelatedVertices) (m : VerticeSet) : Side → RelatedVertices
  | .src => { r with src := m }
  | .dst => { r with dst := m }

namespace Graph

/-- `edges_[e_v]` -/
def related (g : Graph) (e_v : Str) : RelatedVertices := Table.get g.edges {} e_v

def insertCompleteEdge (g : Graph) (e : Edge) : Graph :=
  let list := Table.touch (Table.touch g.list ∅ e.src.getKey) ∅ e.dst.getKey
  let set := Table.get list ∅ e.src.getKey
  { g with list := list.insert e.src.getKey (set.insert e.getKey e.dst) }

def deleteCompleteEdge (g : Graph) (e : Edge) : Graph :=
  let set := Table.get g.list ∅ e.src.getKey
  { g with list := g.list.insert e.src.getKey (set.erase e.getKey) }

/-- The edges that a half edge makes with the vertices on its other side. -/
def completions (r : RelatedVertices) (e : Edge) (side : Side) : List Edge :=
  (r.half side.other).entries.map fun item => e.setTip item.2 side.other

def insertHalf (side : Side) (g : Graph) (e : Edge) : Graph :=
  let r := g.related e.value
  if (e.tip side).getKey ∈ r.half side then g
  else
    let half := (r.half side).insert (e.tip side).getKey (e.tip side)
    let g := { g with edges := g.edges.insert e.value (r.setHalf half side) }
    (completions r e side).foldl insertCompleteEdge g

def deleteHalf (side : Side) (g : Graph) (e : Edge) : Graph :=
  let r := g.related e.value
  if (e.tip side).getKey ∉ r.half side then g
  else
    let half := (r.half side).erase (e.tip side).getKey
    let g := { g with edges := g.edges.insert e.value (r.setHalf half side) }
    (completions r e side).foldl deleteCompleteEdge g

def insertOutgoingEdge : Graph → Edge → Graph := insertHalf .src
def insertIncomingEdge : Graph → Edge → Graph := insertHalf .dst
def deleteOutgoingEdge : Graph → Edge → Graph := deleteHalf .src
def deleteIncomingEdge : Graph → Edge → Graph := deleteHalf .dst

def insert (g : Graph) (e : Edge) : Graph :=
  if !e.isValid then g
  else
    let g := { g with edges := Table.touch g.edges {} e.value }
    let g := if !e.src.isDummy then g.insertOutgoingEdge e else g
    if !e.dst.isDummy then g.insertIncomingEdge e else g

def delete (g : Graph) (e : Edge) : Graph :=
  if !e.isValid then g
  else if e.value ∉ g.edges then g
  else
    let g := if !e.src.isDummy then g.deleteOutgoingEdge e else g
    if !e.dst.isDummy then g.deleteIncomingEdge e else g

/-- The `uint32_t` sum of the sizes of the adjacency lists. -/
def getNumOfEdge (g : Graph) : BitVec 32 :=
  g.list.entries.foldl (fun num item => num + BitVec.ofNat 32 item.2.keys.length) 0

inductive Call
  | insert (e : Edge)
  | delete (e : Edge)
  deriving DecidableEq, Repr

def step (g : Graph) : Call → Graph
  | .insert e => g.insert e
  | .delete e => g.delete e

/-! ## The halves

What the calls do to `edges`: nothing there depends on `list`. -/

@[simp] theorem half_setHalf (r : RelatedVertices) (m : VerticeSet) (side side' : Side) :
    (r.setHalf m side).half side' = if side' = side then m else r.half side' := by
  cases side <;> cases side' <;> rfl

@[simp] theorem related_foldl_insert (g : Graph) (es : List Edge) :
    (es.foldl insertCompleteEdge g).related = g.related := by
  induction es generalizing g with
  | nil => rfl
  | cons e es ih =>
      rw [List.foldl_cons, ih]
      rfl

@[simp] theorem related_foldl_delete (g : Graph) (es : List Edge) :
    (es.foldl deleteCompleteEdge g).related = g.related := by
  induction es generalizing g with
  | nil => rfl
  | cons e es ih =>
      rw [List.foldl_cons, ih]
      rfl

theorem related_edges_insert (g : Graph) (c c' : Str) (r : RelatedVertices) :
    related { g with edges := g.edges.insert c r } c' = if c' = c then r else g.related c' :=
  Table.get_insert _ _ _ _ _

theorem related_edges_touch (g : Graph) (c : Str) :
    related { g with edges := Table.touch g.edges {} c } = g.related := by
  funext c'
  exact Table.get_touch _ _ _ _

def half (g : Graph) (c : Str) (side : Side) : VerticeSet := (g.related c).half side

theorem lookup_half_insertHalf (g : Graph) (e : Edge) (side side' : Side) (c k : Str) :
    ((g.insertHalf side e).half c side').lookup k =
      if side' = side ∧ c = e.value ∧ k = (e.tip side).getKey ∧ k ∉ g.half c side then
        some (e.tip side)
      else (g.half c side').lookup k := by
  by_cases hmem : (e.tip side).getKey ∈ (g.related e.value).half side
  · rw [insertHalf, if_pos hmem, if_neg]
    intro hp
    obtain ⟨rfl, rfl, rfl, h⟩ := hp
    exact h hmem
  · rw [insertHalf, if_neg hmem, half, related_foldl_insert, related_edges_insert]
    by_cases hc : c = e.value
    · subst hc
      rw [if_pos rfl, half_setHalf]
      by_cases hside : side' = side
      · subst hside
        rw [if_pos rfl, Table.lookup_insert]
        by_cases hk : k = (e.tip side').getKey
        · subst hk
          rw [if_pos rfl, if_pos ⟨rfl, rfl, rfl, hmem⟩]
        · rw [if_neg hk, if_neg fun h => hk h.2.2.1, half]
      · rw [if_neg hside, if_neg fun h => hside h.1, half]
    · rw [if_neg hc, if_neg fun h => hc h.2.1, half]

theorem lookup_half_deleteHalf (g : Graph) (e : Edge) (side side' : Side) (c k : Str) :
    ((g.deleteHalf side e).half c side').lookup k =
      if side' = side ∧ c = e.value ∧ k = (e.tip side).getKey then none
      else (g.half c side').lookup k := by
  by_cases hmem : (e.tip side).getKey ∈ (g.related e.value).half side
  · rw [deleteHalf, if_neg (not_not_intro hmem), half, related_foldl_delete, related_edges_insert]
    by_cases hc : c = e.value
    · subst hc
      rw [if_pos rfl, half_setHalf]
      by_cases hside : side' = side
      · subst hside
        rw [if_pos rfl, Table.lookup_erase]
        by_cases hk : k = (e.tip side').getKey
        · rw [if_pos hk, if_pos ⟨rfl, rfl, hk⟩]
        · rw [if_neg hk, if_neg fun h => hk h.2.2, half]
      · rw [if_neg hside, if_neg fun h => hside h.1, half]
    · rw [if_neg hc, if_neg fun h => hc h.2.1, half]
  · rw [deleteHalf, if_pos hmem]
    by_cases h : side' = side ∧ c = e.value ∧ k = (e.tip side).getKey
    · obtain ⟨rfl, rfl, rfl⟩ := h
      rw [if_pos ⟨rfl, rfl, rfl⟩]
      exact AList.lookup_eq_none.mpr hmem
    · rw [if_neg h]

end Graph

end Discovery
end Cmw
