import Cmw.Discovery.Graph
import Mathlib.Algebra.BigOperators.Group.Finset.Sigma

/-!
# Half edges and complete edges

The calls on a graph insert and delete half edges, and `list` is meant to hold
every complete edge they make.  `Halves` is that meaning: two sets of pairs of a
channel and a vertex.  The key of a complete edge does not say where the channel
ends, so `list` holds what it should exactly as long as no two complete edges
from one vertex share a key.
-/

namespace Cmw
namespace Discovery

open Config
open Library

/-- The half edges that have been inserted and not deleted since. -/
abbrev Halves := Side → Finset (Str × Str)

namespace Halves

def insert (h : Halves) (e : Edge) : Halves :=
  if !e.isValid then h
  else fun side =>
    if (e.tip side).isDummy then h side else Insert.insert (e.value, (e.tip side).value) (h side)

def delete (h : Halves) (e : Edge) : Halves :=
  if !e.isValid then h
  else fun side =>
    if (e.tip side).isDummy then h side else (h side).erase (e.value, (e.tip side).value)

def step (h : Halves) : Graph.Call → Halves
  | .insert e => h.insert e
  | .delete e => h.delete e

def complete (h : Halves) : Finset Edge :=
  ((h .src ×ˢ h .dst).filter fun p => p.1.1 = p.2.1).image fun p =>
    { src := ⟨p.1.2⟩, dst := ⟨p.2.2⟩, value := p.1.1 }

/-- No vertex is the source of two complete edges with one key. -/
def KeysDistinct (h : Halves) : Prop :=
  ∀ f ∈ h.complete, ∀ f' ∈ h.complete, f.src = f'.src → f.getKey = f'.getKey → f = f'

theorem mem_complete {h : Halves} {f : Edge} :
    f ∈ h.complete ↔ ∀ side, (f.value, (f.tip side).value) ∈ h side := by
  simp only [complete, Finset.mem_image, Finset.mem_filter, Finset.mem_product]
  constructor
  · intro hp side
    obtain ⟨⟨⟨c, s⟩, ⟨c', d⟩⟩, ⟨⟨hs, hd⟩, hc⟩, rfl⟩ := hp
    obtain rfl : c = c' := hc
    cases side with
    | src => exact hs
    | dst => exact hd
  · intro hf
    exact ⟨((f.value, f.src.value), (f.value, f.dst.value)), ⟨⟨hf .src, hf .dst⟩, rfl⟩, rfl⟩

end Halves

namespace Graph

/-! ## Halves of a graph -/

/-- The vertices of a channel are stored under their names. -/
def Keyed (g : Graph) : Prop := ∀ c side k v, (g.half c side).lookup k = some v → v.value = k

def halves (g : Graph) : Halves := fun side =>
  (g.edges.entries.flatMap fun item => (item.2.half side).keys.map fun k => (item.1, k)).toFinset

theorem mem_halves {g : Graph} {side : Side} {c k : Str} :
    (c, k) ∈ g.halves side ↔ k ∈ g.half c side := by
  simp only [halves, List.mem_toFinset, List.mem_flatMap, List.mem_map, Prod.mk.injEq]
  constructor
  · intro h
    obtain ⟨item, hitem, k, hk, rfl, rfl⟩ := h
    have hlookup : g.edges.lookup item.1 = some item.2 := AList.mem_lookup_iff.mpr hitem
    rw [half, related, Table.get_of_lookup hlookup]
    exact hk
  · intro hk
    have hc : c ∈ g.edges := by
      by_contra hc
      rw [half, related, Table.get_of_notMem hc] at hk
      cases side <;> exact AList.notMem_empty k hk
    have hentry : Sigma.mk c (g.related c) ∈ g.edges.entries :=
      AList.mem_lookup_iff.mp (Table.lookup_of_mem hc)
    exact ⟨_, hentry, k, hk, rfl, rfl⟩

theorem mem_half_insertHalf {g : Graph} {e : Edge} {side side' : Side} {c k : Str} :
    k ∈ (g.insertHalf side e).half c side' ↔
      k ∈ g.half c side' ∨ side' = side ∧ c = e.value ∧ k = (e.tip side).getKey := by
  rw [← AList.lookup_isSome, lookup_half_insertHalf]
  split
  case isTrue h => exact iff_of_true rfl (Or.inr ⟨h.1, h.2.1, h.2.2.1⟩)
  case isFalse h =>
    rw [AList.lookup_isSome]
    constructor
    · exact Or.inl
    · intro hp
      rcases hp with hk | ⟨rfl, rfl, rfl⟩
      · exact hk
      · by_contra hk
        exact h ⟨rfl, rfl, rfl, hk⟩

theorem mem_half_deleteHalf {g : Graph} {e : Edge} {side side' : Side} {c k : Str} :
    k ∈ (g.deleteHalf side e).half c side' ↔
      k ∈ g.half c side' ∧ ¬(side' = side ∧ c = e.value ∧ k = (e.tip side).getKey) := by
  rw [← AList.lookup_isSome, lookup_half_deleteHalf]
  split
  case isTrue h => exact iff_of_false (by simp) fun h' => h'.2 h
  case isFalse h =>
    rw [AList.lookup_isSome]
    exact ⟨fun hk => ⟨hk, h⟩, fun hk => hk.1⟩

theorem half_touch (g : Graph) (c : Str) :
    half { g with edges := Table.touch g.edges {} c } = g.half := by
  funext c' side
  rw [half, half, related_edges_touch]

theorem insert_of_invalid {g : Graph} {e : Edge} (h : e.isValid = false) : g.insert e = g := by
  rw [insert, h]
  rfl

theorem delete_of_invalid {g : Graph} {e : Edge} (h : e.isValid = false) : g.delete e = g := by
  rw [delete, h]
  rfl

theorem insert_induction {P : Graph → Prop} {g : Graph} {e : Edge} (hg : P g)
    (htouch : P { g with edges := Table.touch g.edges {} e.value })
    (hhalf : ∀ g side, (e.tip side).isDummy = false → P g → P (g.insertHalf side e)) :
    P (g.insert e) := by
  cases hv : e.isValid with
  | false => rwa [insert_of_invalid hv]
  | true =>
      rw [insert, hv]
      have hsrc : P (if !e.src.isDummy then
          insertOutgoingEdge { g with edges := Table.touch g.edges {} e.value } e
          else { g with edges := Table.touch g.edges {} e.value }) := by
        cases hd : e.src.isDummy with
        | false => exact hhalf _ .src hd htouch
        | true => exact htouch
      cases hd : e.dst.isDummy with
      | false => exact hhalf _ .dst hd hsrc
      | true => exact hsrc

theorem delete_induction {P : Graph → Prop} {g : Graph} {e : Edge} (hg : P g)
    (hhalf : ∀ g side, (e.tip side).isDummy = false → P g → P (g.deleteHalf side e)) :
    P (g.delete e) := by
  cases hv : e.isValid with
  | false => rwa [delete_of_invalid hv]
  | true =>
      rw [delete, hv]
      have hsrc : P (if !e.src.isDummy then deleteOutgoingEdge g e else g) := by
        cases hd : e.src.isDummy with
        | false => exact hhalf _ .src hd hg
        | true => exact hg
      by_cases hc : e.value ∈ g.edges
      · cases hd : e.dst.isDummy with
        | false =>
            simp only [hc]
            exact hhalf _ .dst hd hsrc
        | true =>
            simp only [hc]
            exact hsrc
      · simp only [hc]
        exact hg

theorem mem_half_insert {g : Graph} {e : Edge} (hv : e.isValid = true) {side : Side} {c k : Str} :
    k ∈ (g.insert e).half c side ↔
      k ∈ g.half c side ∨
        (e.tip side).isDummy = false ∧ c = e.value ∧ k = (e.tip side).getKey := by
  rw [insert, hv]
  have hside : side = .src ∨ side = .dst := by cases side <;> simp
  rcases hside with rfl | rfl <;> cases hsrc : e.src.isDummy <;> cases hdst : e.dst.isDummy <;>
    simp [insertOutgoingEdge, insertIncomingEdge, mem_half_insertHalf, half_touch, Edge.tip, hsrc,
      hdst]

theorem mem_half_delete {g : Graph} {e : Edge} (hv : e.isValid = true) {side : Side} {c k : Str} :
    k ∈ (g.delete e).half c side ↔
      k ∈ g.half c side ∧
        ¬((e.tip side).isDummy = false ∧ c = e.value ∧ k = (e.tip side).getKey) := by
  rw [delete, hv]
  by_cases hc : e.value ∈ g.edges
  · have hside : side = .src ∨ side = .dst := by cases side <;> simp
    rcases hside with rfl | rfl <;> cases hsrc : e.src.isDummy <;> cases hdst : e.dst.isDummy <;>
      simp [deleteOutgoingEdge, deleteIncomingEdge, mem_half_deleteHalf, Edge.tip, hsrc, hdst, hc]
  · have hempty : k ∉ g.half e.value side := by
      rw [half, related, Table.get_of_notMem hc]
      cases side <;> exact AList.notMem_empty k
    simp only [hc, not_false_eq_true, if_true]
    constructor
    · intro hk
      refine ⟨hk, ?_⟩
      intro hp
      obtain ⟨-, rfl, -⟩ := hp
      exact hempty hk
    · exact fun h => h.1

theorem halves_step (g : Graph) (call : Call) : (g.step call).halves = g.halves.step call := by
  funext side
  ext ⟨c, k⟩
  rw [mem_halves]
  cases call with
  | insert e =>
      rw [step, Halves.step, Halves.insert]
      cases hv : e.isValid with
      | false => rw [insert_of_invalid hv]; exact mem_halves.symm
      | true =>
          rw [mem_half_insert hv]
          cases hd : (e.tip side).isDummy <;> simp [hd, mem_halves, Vertice.getKey, or_comm]
  | delete e =>
      rw [step, Halves.step, Halves.delete]
      cases hv : e.isValid with
      | false => rw [delete_of_invalid hv]; exact mem_halves.symm
      | true =>
          rw [mem_half_delete hv]
          cases hd : (e.tip side).isDummy <;> simp [hd, mem_halves, Vertice.getKey, and_comm]

theorem keyed_insertHalf {g : Graph} (hg : g.Keyed) (e : Edge) (side : Side) :
    (g.insertHalf side e).Keyed := by
  intro c side' k v hk
  rw [lookup_half_insertHalf] at hk
  split at hk
  case isTrue h =>
    cases hk
    exact h.2.2.1.symm
  case isFalse => exact hg c side' k v hk

theorem keyed_deleteHalf {g : Graph} (hg : g.Keyed) (e : Edge) (side : Side) :
    (g.deleteHalf side e).Keyed := by
  intro c side' k v hk
  rw [lookup_half_deleteHalf] at hk
  split at hk
  · cases hk
  · exact hg c side' k v hk

theorem keyed_touch {g : Graph} (hg : g.Keyed) (c : Str) :
    Keyed { g with edges := Table.touch g.edges {} c } := by
  rw [Keyed, half_touch]
  exact hg

theorem keyed_step {g : Graph} (hg : g.Keyed) (call : Call) : (g.step call).Keyed := by
  cases call with
  | insert e =>
      exact insert_induction (P := Keyed) hg (keyed_touch hg e.value) fun _ side _ hg =>
        keyed_insertHalf hg e side
  | delete e =>
      exact delete_induction (P := Keyed) hg fun _ side _ hg => keyed_deleteHalf hg e side

/-! ## Complete edges -/

/-- Both halves of `f` are there. -/
def Complete (g : Graph) (f : Edge) : Prop := ∀ side, (f.tip side).value ∈ g.half f.value side

theorem mem_complete_halves {g : Graph} {f : Edge} : f ∈ g.halves.complete ↔ g.Complete f := by
  rw [Halves.mem_complete]
  exact forall_congr' fun side => mem_halves

@[simp] theorem tip_setTip (e : Edge) (v : Vertice) (side : Side) : (e.setTip v side).tip side = v := by
  cases side <;> rfl

@[simp] theorem tip_setTip_other (e : Edge) (v : Vertice) (side : Side) :
    (e.setTip v side.other).tip side = e.tip side := by
  cases side <;> rfl

@[simp] theorem value_setTip (e : Edge) (v : Vertice) (side : Side) :
    (e.setTip v side).value = e.value := by
  cases side <;> rfl

theorem edge_ext {e f : Edge} (side : Side) (hvalue : e.value = f.value)
    (htip : e.tip side = f.tip side) (hother : e.tip side.other = f.tip side.other) : e = f := by
  cases e
  cases f
  cases side <;> simp_all [Edge.tip, Side.other]

theorem mem_completions {g : Graph} (hg : g.Keyed) {e f : Edge} {side : Side} :
    f ∈ completions (g.related e.value) e side ↔
      f.value = e.value ∧ f.tip side = e.tip side ∧
        (f.tip side.other).value ∈ g.half e.value side.other := by
  rw [completions, List.mem_map]
  constructor
  · intro h
    obtain ⟨item, hitem, rfl⟩ := h
    have hlookup : (g.half e.value side.other).lookup item.1 = some item.2 :=
      AList.mem_lookup_iff.mpr hitem
    refine ⟨value_setTip .., tip_setTip_other .., ?_⟩
    rw [tip_setTip, hg _ _ _ _ hlookup, ← AList.lookup_isSome, hlookup]
    rfl
  · intro h
    obtain ⟨hvalue, htip, hother⟩ := h
    obtain ⟨v, hv⟩ := Option.isSome_iff_exists.mp (AList.lookup_isSome.mpr hother)
    refine ⟨_, AList.mem_lookup_iff.mp hv, edge_ext side ?_ ?_ ?_⟩
    · rw [value_setTip, hvalue]
    · rw [tip_setTip_other, htip]
    · rw [tip_setTip]
      exact congrArg Vertice.mk (hg _ _ _ _ hv)

theorem complete_insertHalf {g : Graph} (hg : g.Keyed) {e f : Edge} {side : Side} :
    (g.insertHalf side e).Complete f ↔
      g.Complete f ∨ f ∈ completions (g.related e.value) e side := by
  rw [mem_completions hg]
  constructor
  · intro hf
    by_cases hside : (f.tip side).value ∈ g.half f.value side
    · left
      intro side'
      rcases mem_half_insertHalf.mp (hf side') with h | ⟨rfl, _, _⟩
      · exact h
      · exact hside
    · right
      have htip := (mem_half_insertHalf.mp (hf side)).resolve_left hside
      have hother : side.other ≠ side := by cases side <;> decide
      refine ⟨htip.2.1, ?_, ?_⟩
      · exact congrArg Vertice.mk htip.2.2
      · rw [← htip.2.1]
        exact (mem_half_insertHalf.mp (hf side.other)).resolve_right fun h => hother h.1
  · intro hp side'
    rcases hp with hf | ⟨hvalue, htip, hother⟩
    · exact mem_half_insertHalf.mpr (Or.inl (hf side'))
    · have hside : side' = side ∨ side' = side.other := by cases side <;> cases side' <;> decide
      rcases hside with rfl | rfl
      · exact mem_half_insertHalf.mpr (Or.inr ⟨rfl, hvalue, congrArg Vertice.value htip⟩)
      · rw [← hvalue] at hother
        exact mem_half_insertHalf.mpr (Or.inl hother)

theorem complete_deleteHalf {g : Graph} (hg : g.Keyed) {e f : Edge} {side : Side} :
    (g.deleteHalf side e).Complete f ↔
      g.Complete f ∧ f ∉ completions (g.related e.value) e side := by
  rw [mem_completions hg]
  constructor
  · intro hf
    refine ⟨fun side' => (mem_half_deleteHalf.mp (hf side')).1, ?_⟩
    intro h
    obtain ⟨hvalue, htip, _⟩ := h
    exact (mem_half_deleteHalf.mp (hf side)).2 ⟨rfl, hvalue, congrArg Vertice.value htip⟩
  · intro h side'
    obtain ⟨hf, hnot⟩ := h
    refine mem_half_deleteHalf.mpr ⟨hf side', ?_⟩
    intro h
    obtain ⟨rfl, hvalue, htip⟩ := h
    exact hnot ⟨hvalue, congrArg Vertice.mk htip, hvalue ▸ hf side'.other⟩

/-! ## The adjacency lists -/

/-- What the adjacency list of `s` has under `k`. -/
def arc (g : Graph) (s k : Str) : Option Vertice := (Table.get g.list ∅ s).lookup k

theorem arc_insertCompleteEdge (g : Graph) (e : Edge) (s k : Str) :
    (g.insertCompleteEdge e).arc s k =
      if s = e.src.getKey ∧ k = e.getKey then some e.dst else g.arc s k := by
  rw [arc, insertCompleteEdge, Table.get_insert]
  by_cases hs : s = e.src.getKey
  · subst hs
    rw [if_pos rfl, Table.lookup_insert, Table.get_touch, Table.get_touch]
    by_cases hk : k = e.getKey
    · rw [if_pos hk, if_pos ⟨rfl, hk⟩]
    · rw [if_neg hk, if_neg fun h => hk h.2, arc]
  · rw [if_neg hs, if_neg fun h => hs h.1, Table.get_touch, Table.get_touch, arc]

theorem arc_deleteCompleteEdge (g : Graph) (e : Edge) (s k : Str) :
    (g.deleteCompleteEdge e).arc s k =
      if s = e.src.getKey ∧ k = e.getKey then none else g.arc s k := by
  rw [arc, deleteCompleteEdge, Table.get_insert]
  by_cases hs : s = e.src.getKey
  · subst hs
    rw [if_pos rfl, Table.lookup_erase]
    by_cases hk : k = e.getKey
    · rw [if_pos hk, if_pos ⟨rfl, hk⟩]
    · rw [if_neg hk, if_neg fun h => hk h.2, arc]
  · rw [if_neg hs, if_neg fun h => hs h.1, arc]

def Kept (f : Edge) (s k : Str) : Prop := f.src.getKey = s ∧ f.getKey = k

theorem arc_foldl_insert {es : List Edge}
    (hes : ∀ e ∈ es, ∀ f ∈ es, e.src = f.src → e.getKey = f.getKey → e = f)
    (g : Graph) (s k : Str) (v : Vertice) :
    (es.foldl insertCompleteEdge g).arc s k = some v ↔
      (∃ f ∈ es, Kept f s k ∧ f.dst = v) ∨ (∀ f ∈ es, ¬Kept f s k) ∧ g.arc s k = some v := by
  induction es generalizing g with
  | nil => simp
  | cons e es ih =>
      rw [List.foldl_cons, ih fun e he f hf => hes e (List.mem_cons_of_mem _ he) f
        (List.mem_cons_of_mem _ hf), arc_insertCompleteEdge, List.exists_mem_cons_iff,
        List.forall_mem_cons]
      by_cases he : Kept e s k
      · have hlater : ∀ f ∈ es, Kept f s k → f = e := fun f hf hkept =>
          hes f (List.mem_cons_of_mem _ hf) e List.mem_cons_self
            (congrArg Vertice.mk (hkept.1.trans he.1.symm)) (hkept.2.trans he.2.symm)
        rw [if_pos ⟨he.1.symm, he.2.symm⟩, Option.some.injEq]
        constructor
        · intro hp
          rcases hp with ⟨f, hf, hkept, hdst⟩ | ⟨_, hdst⟩
          · exact Or.inl (Or.inl ⟨he, hlater f hf hkept ▸ hdst⟩)
          · exact Or.inl (Or.inl ⟨he, hdst⟩)
        · intro hp
          rcases hp with (⟨_, hdst⟩ | hf) | ⟨⟨hnot, _⟩, _⟩
          · by_cases hmem : ∃ f ∈ es, Kept f s k
            · obtain ⟨f, hf, hkept⟩ := hmem
              exact Or.inl ⟨f, hf, hkept, hlater f hf hkept ▸ hdst⟩
            · exact Or.inr ⟨fun f hf hkept => hmem ⟨f, hf, hkept⟩, hdst⟩
          · exact Or.inl hf
          · exact absurd he hnot
      · rw [if_neg fun h => he ⟨h.1.symm, h.2.symm⟩]
        simp [he]

theorem arc_foldl_delete (es : List Edge) (g : Graph) (s k : Str) (v : Vertice) :
    (es.foldl deleteCompleteEdge g).arc s k = some v ↔
      (∀ f ∈ es, ¬Kept f s k) ∧ g.arc s k = some v := by
  induction es generalizing g with
  | nil => simp
  | cons e es ih =>
      rw [List.foldl_cons, ih, arc_deleteCompleteEdge, List.forall_mem_cons]
      by_cases he : s = e.src.getKey ∧ k = e.getKey
      · rw [if_pos he]
        have hat : Kept e s k := ⟨he.1.symm, he.2.symm⟩
        simp [hat]
      · rw [if_neg he]
        have hat : ¬Kept e s k := fun h => he ⟨h.1.symm, h.2.symm⟩
        simp [hat]

/-- `list` holds the complete edges and nothing else. -/
def Lists (g : Graph) : Prop :=
  ∀ s k v, g.arc s k = some v ↔ ∃ f, g.Complete f ∧ Kept f s k ∧ f.dst = v

/-- No vertex is the source of two complete edges with one key. -/
def KeysDistinct (g : Graph) : Prop :=
  ∀ f f', g.Complete f → g.Complete f' → f.src = f'.src → f.getKey = f'.getKey → f = f'

theorem keysDistinct_halves {g : Graph} : g.halves.KeysDistinct ↔ g.KeysDistinct := by
  constructor
  · intro h f f' hf hf'
    exact h f (mem_complete_halves.mpr hf) f' (mem_complete_halves.mpr hf')
  · intro h f hf f' hf'
    exact h f f' (mem_complete_halves.mp hf) (mem_complete_halves.mp hf')

theorem lists_insertHalf {g : Graph} (hg : g.Keyed) (hlist : g.Lists) {e : Edge} {side : Side}
    (hkeys : (g.insertHalf side e).KeysDistinct) : (g.insertHalf side e).Lists := by
  intro s k v
  have hnew : ∀ f ∈ completions (g.related e.value) e side, (g.insertHalf side e).Complete f :=
    fun f hf => (complete_insertHalf hg).mpr (Or.inr hf)
  have hold : ∀ f, g.Complete f → (g.insertHalf side e).Complete f :=
    fun f hf => (complete_insertHalf hg).mpr (Or.inl hf)
  simp only [complete_insertHalf hg]
  by_cases hmem : (e.tip side).getKey ∈ (g.related e.value).half side
  · -- the half edge is there already, and so are its completions
    have hdone : ∀ f, f ∈ completions (g.related e.value) e side → g.Complete f := by
      intro f hf
      have := hnew f hf
      rwa [insertHalf, if_pos hmem] at this
    rw [insertHalf, if_pos hmem, hlist]
    constructor
    · intro h
      obtain ⟨f, hf, hkept⟩ := h
      exact ⟨f, Or.inl hf, hkept⟩
    · intro h
      obtain ⟨f, hf | hf, hkept⟩ := h
      · exact ⟨f, hf, hkept⟩
      · exact ⟨f, hdone f hf, hkept⟩
  · have hes : ∀ f ∈ completions (g.related e.value) e side,
        ∀ f' ∈ completions (g.related e.value) e side,
          f.src = f'.src → f.getKey = f'.getKey → f = f' :=
      fun f hf f' hf' => hkeys f f' (hnew f hf) (hnew f' hf')
    have harc := arc_foldl_insert hes { g with
      edges := g.edges.insert e.value ((g.related e.value).setHalf
        (((g.related e.value).half side).insert (e.tip side).getKey (e.tip side)) side) } s k v
    rw [insertHalf, if_neg hmem]
    refine harc.trans ?_
    show _ ∨ _ ∧ g.arc s k = some v ↔ _
    rw [hlist]
    constructor
    · intro h
      rcases h with ⟨f, hf, hkept⟩ | ⟨_, f, hf, hkept⟩
      · exact ⟨f, Or.inr hf, hkept⟩
      · exact ⟨f, Or.inl hf, hkept⟩
    · intro h
      obtain ⟨f, hf | hf, hkept, hdst⟩ := h
      · by_cases hany : ∃ f' ∈ completions (g.related e.value) e side, Kept f' s k
        · obtain ⟨f', hf', hkept'⟩ := hany
          have heq : f' = f := hkeys f' f (hnew f' hf') (hold f hf)
            (congrArg Vertice.mk (hkept'.1.trans hkept.1.symm)) (hkept'.2.trans hkept.2.symm)
          exact Or.inl ⟨f', hf', hkept', heq ▸ hdst⟩
        · exact Or.inr ⟨fun f' hf' hkept' => hany ⟨f', hf', hkept'⟩, f, hf, hkept, hdst⟩
      · exact Or.inl ⟨f, hf, hkept, hdst⟩

theorem lists_deleteHalf {g : Graph} (hg : g.Keyed) (hlist : g.Lists) (hkeys : g.KeysDistinct)
    {e : Edge} {side : Side} : (g.deleteHalf side e).Lists := by
  intro s k v
  by_cases hmem : (e.tip side).getKey ∈ (g.related e.value).half side
  · have hgone : ∀ f ∈ completions (g.related e.value) e side, g.Complete f := by
      intro f hf side'
      obtain ⟨hvalue, htip, hother⟩ := (mem_completions hg).mp hf
      have hside : side' = side ∨ side' = side.other := by cases side <;> cases side' <;> decide
      rcases hside with rfl | rfl
      · rw [hvalue, htip]
        exact hmem
      · rw [hvalue]
        exact hother
    simp only [complete_deleteHalf hg]
    rw [deleteHalf, if_neg (not_not_intro hmem)]
    refine (arc_foldl_delete _ _ s k v).trans ?_
    show _ ∧ g.arc s k = some v ↔ _
    rw [hlist]
    constructor
    · intro h
      obtain ⟨hnot, f, hf, hkept, hdst⟩ := h
      exact ⟨f, ⟨hf, fun hmem => hnot f hmem hkept⟩, hkept, hdst⟩
    · intro h
      obtain ⟨f, ⟨hf, hstays⟩, hkept, hdst⟩ := h
      refine ⟨fun f' hf' hkept' => ?_, f, hf, hkept, hdst⟩
      have heq : f' = f := hkeys f' f (hgone f' hf') hf
        (congrArg Vertice.mk (hkept'.1.trans hkept.1.symm)) (hkept'.2.trans hkept.2.symm)
      exact hstays (heq ▸ hf')
  · rw [deleteHalf, if_pos hmem]
    exact hlist s k v

/-! ## One call -/

theorem keysDistinct_of_subset {h h' : Halves} (hsub : ∀ side, h side ⊆ h' side)
    (hkeys : h'.KeysDistinct) : h.KeysDistinct := by
  have hcomplete : h.complete ⊆ h'.complete := fun f hf =>
    Halves.mem_complete.mpr fun side => hsub side (Halves.mem_complete.mp hf side)
  exact fun f hf f' hf' => hkeys f (hcomplete hf) f' (hcomplete hf')

theorem lists_touch {g : Graph} (hlist : g.Lists) (c : Str) :
    Lists { g with edges := Table.touch g.edges {} c } := by
  simp only [Lists, Complete, half_touch]
  exact hlist

theorem lists_insert {g : Graph} (hg : g.Keyed) (hlist : g.Lists) {e : Edge}
    (hkeys : (g.halves.insert e).KeysDistinct) : (g.insert e).Lists := by
  cases hv : e.isValid with
  | false => rwa [insert_of_invalid hv]
  | true =>
      have hstep : g.halves.insert e = (g.insert e).halves := (halves_step g (.insert e)).symm
      rw [hstep] at hkeys
      -- on the way no half edge is there that is not there in the end
      refine (insert_induction (P := fun g' => g'.Keyed ∧ g'.Lists ∧
        ∀ c side k, k ∈ g'.half c side → k ∈ (g.insert e).half c side)
        ⟨hg, hlist, fun c side k hk => (mem_half_insert hv).mpr (Or.inl hk)⟩ ?_ ?_).2.1
      · refine ⟨keyed_touch hg e.value, lists_touch hlist e.value, fun c side k hk => ?_⟩
        rw [half_touch] at hk
        exact (mem_half_insert hv).mpr (Or.inl hk)
      · rintro g' side hd ⟨hg', hlist', hsub⟩
        have hsub' : ∀ c side' k, k ∈ (g'.insertHalf side e).half c side' →
            k ∈ (g.insert e).half c side' := by
          intro c side' k hk
          rcases mem_half_insertHalf.mp hk with hk | ⟨rfl, hc, hk⟩
          · exact hsub c side' k hk
          · exact (mem_half_insert hv).mpr (Or.inr ⟨hd, hc, hk⟩)
        have hkeys' : (g'.insertHalf side e).halves.KeysDistinct :=
          keysDistinct_of_subset (fun side' ⟨c, k⟩ hk =>
            mem_halves.mpr (hsub' c side' k (mem_halves.mp hk))) hkeys
        exact ⟨keyed_insertHalf hg' e side,
          lists_insertHalf hg' hlist' (keysDistinct_halves.mp hkeys'), hsub'⟩

theorem lists_delete {g : Graph} (hg : g.Keyed) (hlist : g.Lists) (hkeys : g.KeysDistinct)
    {e : Edge} : (g.delete e).Lists := by
  refine (delete_induction (P := fun g' => g'.Keyed ∧ g'.Lists ∧ g'.KeysDistinct)
    ⟨hg, hlist, hkeys⟩ ?_).2.1
  rintro g' side _ ⟨hg', hlist', hkeys'⟩
  refine ⟨keyed_deleteHalf hg' e side, lists_deleteHalf hg' hlist' hkeys', ?_⟩
  intro f f' hf hf'
  exact hkeys' f f' ((complete_deleteHalf hg').mp hf).1 ((complete_deleteHalf hg').mp hf').1

/-! ## Counting -/

theorem toNat_getNumOfEdge (g : Graph) : g.getNumOfEdge.toNat =
    (g.list.entries.map fun item => item.2.keys.length).sum % 2 ^ 32 := by
  have hfold : ∀ (l : List ((_ : Str) × VerticeSet)) (num : BitVec 32),
      (l.foldl (fun num item => num + BitVec.ofNat 32 item.2.keys.length) num).toNat =
        (num.toNat + (l.map fun item => item.2.keys.length).sum) % 2 ^ 32 := by
    intro l
    induction l with
    | nil =>
        intro num
        have := num.isLt
        simp only [List.foldl_nil, List.map_nil, List.sum_nil]
        omega
    | cons item l ih =>
        intro num
        rw [List.foldl_cons, ih, List.map_cons, List.sum_cons, BitVec.toNat_add,
          BitVec.toNat_ofNat]
        omega
  rw [getNumOfEdge, hfold]
  simp

def edgeSum (g : Graph) : Nat :=
  (g.edges.entries.map fun item => item.2.src.keys.length * item.2.dst.keys.length).sum

theorem length_keys_eq_card {ν : Type} (m : Table Str ν) :
    m.keys.length = m.keys.toFinset.card := (List.toFinset_card_of_nodup m.keys_nodup).symm

theorem edgeSum_eq_card (g : Graph) : g.edgeSum = g.halves.complete.card := by
  have hsum := Table.sum_entries g.edges {} fun r => r.src.keys.length * r.dst.keys.length
  simp only [length_keys_eq_card, ← Finset.card_product] at hsum
  simp only [edgeSum, length_keys_eq_card, ← Finset.card_product]
  rw [hsum, ← Finset.card_sigma]
  refine Finset.card_bij (fun p _ => { src := ⟨p.2.1⟩, dst := ⟨p.2.2⟩, value := p.1 }) ?_ ?_ ?_
  · intro hq hp
    obtain ⟨c, s, d⟩ := hq
    simp only [Finset.mem_sigma, Finset.mem_product, List.mem_toFinset] at hp
    refine mem_complete_halves.mpr fun side => ?_
    cases side with
    | src => exact hp.2.1
    | dst => exact hp.2.2
  · rintro ⟨c, s, d⟩ _ ⟨c', s', d'⟩ _ h
    cases h
    rfl
  · intro hq hf
    obtain ⟨⟨s⟩, ⟨d⟩, c⟩ := hq
    have hf := mem_complete_halves.mp hf
    refine ⟨⟨c, s, d⟩, ?_, rfl⟩
    simp only [Finset.mem_sigma, Finset.mem_product, List.mem_toFinset]
    refine ⟨?_, hf .src, hf .dst⟩
    by_contra hc
    have hs := hf .src
    rw [half, related, Table.get_of_notMem hc] at hs
    exact AList.notMem_empty s hs

theorem listSum_eq_card {g : Graph} (hlist : g.Lists) (hkeys : g.KeysDistinct) :
    (g.list.entries.map fun item => item.2.keys.length).sum = g.halves.complete.card := by
  rw [Table.sum_entries g.list ∅ fun m => m.keys.length]
  simp only [length_keys_eq_card]
  rw [← Finset.card_sigma]
  symm
  refine Finset.card_bij (fun f _ => ⟨f.src.getKey, f.getKey⟩) ?_ ?_ ?_
  · intro f hf
    have harc : g.arc f.src.getKey f.getKey = some f.dst :=
      (hlist _ _ _).mpr ⟨f, mem_complete_halves.mp hf, ⟨rfl, rfl⟩, rfl⟩
    rw [arc] at harc
    simp only [Finset.mem_sigma, List.mem_toFinset]
    refine ⟨?_, AList.lookup_isSome.mp (by rw [harc]; rfl)⟩
    by_contra hs
    rw [Table.get_of_notMem hs] at harc
    cases harc
  · intro f hf f' hf' h
    simp only [Sigma.mk.injEq, heq_eq_eq] at h
    exact hkeys f f' (mem_complete_halves.mp hf) (mem_complete_halves.mp hf')
      (congrArg Vertice.mk h.1) h.2
  · intro hq hp
    obtain ⟨s, k⟩ := hq
    simp only [Finset.mem_sigma, List.mem_toFinset] at hp
    obtain ⟨v, hv⟩ := Option.isSome_iff_exists.mp (AList.lookup_isSome.mpr hp.2)
    obtain ⟨f, hf, ⟨rfl, rfl⟩, _⟩ := (hlist s k v).mp hv
    exact ⟨f, mem_complete_halves.mpr hf, rfl⟩

/-- What a reader of the graph relies on. -/
structure Exact (g : Graph) : Prop where
  present : ∀ s c d, s ∈ (g.related c).src → d ∈ (g.related c).dst →
    g.arc s (Edge.getKey { src := ⟨s⟩, dst := ⟨d⟩, value := c }) = some ⟨d⟩
  only : ∀ s k v, g.arc s k = some v → ∃ c, s ∈ (g.related c).src ∧
    v.value ∈ (g.related c).dst ∧ k = Edge.getKey { src := ⟨s⟩, dst := v, value := c }
  count : g.getNumOfEdge.toNat = g.edgeSum

theorem exact_of_lists {g : Graph} (hlist : g.Lists) (hkeys : g.KeysDistinct)
    (hcount : g.halves.complete.card < 2 ^ 32) : g.Exact where
  present := by
    intro s c d hs hd
    refine (hlist _ _ _).mpr ⟨_, fun side => ?_, ⟨rfl, rfl⟩, rfl⟩
    cases side with
    | src => exact hs
    | dst => exact hd
  only := by
    intro s k v hk
    obtain ⟨⟨src, dst, c⟩, hf, ⟨rfl, rfl⟩, rfl⟩ := (hlist s k v).mp hk
    exact ⟨c, hf .src, hf .dst, rfl⟩
  count := by
    rw [toNat_getNumOfEdge, listSum_eq_card hlist hkeys, edgeSum_eq_card, Nat.mod_eq_of_lt hcount]

theorem Exact.lists {g : Graph} (h : g.Exact) : g.Lists := by
  intro s k v
  constructor
  · intro hk
    obtain ⟨c, hs, hd, rfl⟩ := h.only s k v hk
    refine ⟨{ src := ⟨s⟩, dst := v, value := c }, fun side => ?_, ⟨rfl, rfl⟩, rfl⟩
    cases side with
    | src => exact hs
    | dst => exact hd
  · intro hp
    obtain ⟨⟨⟨s⟩, ⟨d⟩, c⟩, hf, ⟨rfl, rfl⟩, rfl⟩ := hp
    exact h.present s c d (hf .src) (hf .dst)

/-- Two complete edges under one key would have one destination, and then one
channel. -/
theorem keysDistinct_of_lists {g : Graph} (hlist : g.Lists) : g.KeysDistinct := by
  rintro ⟨src, dst, c⟩ ⟨src', dst', c'⟩ hf hf' hsrc hkey
  obtain rfl : src = src' := hsrc
  have harc := (hlist _ _ _).mpr ⟨_, hf, ⟨rfl, rfl⟩, rfl⟩
  have harc' := (hlist _ _ _).mpr ⟨_, hf', ⟨rfl, hkey.symm⟩, rfl⟩
  obtain rfl : dst = dst' := Option.some.inj (harc.symm.trans harc')
  obtain rfl : c = c' := by
    simp only [Edge.getKey] at hkey
    exact List.append_cancel_right (List.append_cancel_right hkey)
  rfl

theorem Exact.count_lt {g : Graph} (h : g.Exact) : g.halves.complete.card < 2 ^ 32 := by
  rw [← edgeSum_eq_card, ← h.count]
  exact g.getNumOfEdge.isLt

end Graph

/-- The histories the keys are good enough for. -/
def Halves.Clear (h : Halves) : Prop := h.KeysDistinct ∧ h.complete.card < 2 ^ 32

namespace Graph

theorem exact_iff_clear_of_lists {g : Graph} (hlist : g.Lists) : g.Exact ↔ g.halves.Clear := by
  constructor
  · exact fun h => ⟨keysDistinct_halves.mpr (keysDistinct_of_lists hlist), h.count_lt⟩
  · exact fun h => exact_of_lists hlist (keysDistinct_halves.mp h.1) h.2

theorem exact_step_iff {g : Graph} (hg : g.Keyed) (h : g.Exact) (call : Call) :
    (g.step call).Exact ↔ (g.halves.step call).Clear := by
  rw [← halves_step]
  constructor
  · exact fun h' => (exact_iff_clear_of_lists h'.lists).mp h'
  · intro hclear
    refine (exact_iff_clear_of_lists ?_).mpr hclear
    cases call with
    | insert e =>
        refine lists_insert hg h.lists ?_
        have hstep : g.halves.insert e = (g.insert e).halves := (halves_step g (.insert e)).symm
        rw [hstep]
        exact hclear.1
    | delete e => exact lists_delete hg h.lists (keysDistinct_of_lists h.lists)

/-! ## Runs -/

theorem keyed_empty : Keyed {} := by
  intro c side k v hk
  cases side <;> cases hk

theorem lists_empty : Lists {} := by
  intro s k v
  constructor
  · intro hk
    cases hk
  · intro h
    obtain ⟨f, hf, _⟩ := h
    exact absurd (hf .src) (AList.notMem_empty _)

theorem halves_empty : halves {} = fun _ => ∅ := rfl

theorem clear_empty : (halves {}).Clear := by
  refine ⟨fun f hf => absurd (Halves.mem_complete.mp hf .src) (Finset.notMem_empty _), ?_⟩
  decide

theorem exact_empty : Exact {} := (exact_iff_clear_of_lists lists_empty).mpr clear_empty

/-- The graph is exact all through a history of calls if and only if at every
stage the half edges leave every vertex distinct keys for its complete edges, and
there are fewer than `2 ^ 32` of these. -/
theorem exact_iff_clear (calls : List Call) :
    (∀ g ∈ Run.states step {} calls, g.Exact) ↔
      ∀ h ∈ Run.states Halves.step (fun _ => ∅) calls, h.Clear := by
  calc (∀ g ∈ Run.states step {} calls, g.Exact)
      ↔ Run.Along step (fun g call => (g.halves.step call).Clear) {} calls :=
        Run.states_iff_along (J := Keyed) (fun _ call hg => keyed_step hg call)
          (fun _ call hg h => exact_step_iff hg h call) keyed_empty exact_empty
    _ ↔ ∀ g ∈ Run.states step {} calls, g.halves.Clear :=
        (Run.states_iff_along (J := fun _ : Graph => True) (fun _ _ h => h)
          (fun g call _ _ => by rw [halves_step]) trivial clear_empty).symm
    _ ↔ ∀ h ∈ Run.states Halves.step (fun _ => ∅) calls, h.Clear := by
        rw [← halves_empty, Run.states_map halves_step, List.forall_mem_map]

/-- Channel `a` from `n` to `b_c`, and channel `a_b` from `n` to `c`. -/
def clash : List Call :=
  let n : Vertice := ⟨[0x6E]⟩
  [.insert { src := n, dst := ⟨[0x62, 0x5F, 0x63]⟩, value := [0x61] },
    .insert { src := n, dst := ⟨[0x63]⟩, value := [0x61, 0x5F, 0x62] }]

/-- The second edge takes the place of the first. -/
theorem clash_not_exact : ¬ ∀ g ∈ Run.states step {} clash, g.Exact := by
  intro h
  have hpresent := (h _ (Run.exec_mem_states step {} clash)).present [0x6E] [0x61]
    [0x62, 0x5F, 0x63] (by decide +kernel) (by decide +kernel)
  revert hpresent
  decide +kernel

end Graph

end Discovery
end Cmw
