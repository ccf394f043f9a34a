import Mathlib.Data.List.Basic
import Mathlib.Order.Lattice
import Mathlib.Order.Nat

/-!
# Ordered associative containers

A container kept sorted by the keys of its entries, as a list.  `place` is the
insertion every such container shares: find the first entry whose key is not
below the new one, and insert in front of it unless the two keys are equivalent,
in which case `meet` says what becomes of the entry there.

Over a linear order a map is its `find`, and the operations are equations about it.
-/

namespace Library
namespace Ordered

/-- A strict weak ordering, as a test. -/
structure Compare (κ : Type*) where
  less : κ → κ → Bool
  irrefl : ∀ a, less a a = false
  trans : ∀ a b c, less a b = true → less b c = true → less a c = true
  cotrans : ∀ a b c, less a c = true → less a b = true ∨ less b c = true

variable {κ ε ν : Type*}

def Sorted (cmp : Compare κ) (key : ε → κ) (l : List ε) : Prop :=
  l.Pairwise fun x y => cmp.less (key x) (key y) = true

def place (cmp : Compare κ) (key : ε → κ) (meet : ε → ε → ε) (x : ε) : List ε → List ε
  | [] => [x]
  | y :: ys =>
      if cmp.less (key y) (key x) then y :: place cmp key meet x ys
      else if cmp.less (key x) (key y) then x :: y :: ys
      else meet y x :: ys

/-- Appending is what `place` does with a key above all others. -/
theorem place_above {cmp : Compare κ} {key : ε → κ} {meet : ε → ε → ε} {x : ε} {l : List ε}
    (h : ∀ y ∈ l, cmp.less (key y) (key x) = true) : place cmp key meet x l = l ++ [x] := by
  induction l with
  | nil => rfl
  | cons y ys ih =>
      rw [place, if_pos (h y List.mem_cons_self), ih fun z hz => h z (List.mem_cons_of_mem y hz)]
      rfl

theorem place_above_all {cmp : Compare κ} {key : ε → κ} {meet : ε → ε → ε} {x : ε} {k : κ}
    (hmeet : ∀ y z, key (meet y z) = key y) {l : List ε}
    (hx : cmp.less k (key x) = true) (hl : ∀ y ∈ l, cmp.less k (key y) = true) :
    ∀ y ∈ place cmp key meet x l, cmp.less k (key y) = true := by
  induction l with
  | nil =>
      intro y hy
      rw [place, List.mem_singleton] at hy
      rw [hy]
      exact hx
  | cons z zs ih =>
      have hzs : ∀ y ∈ zs, cmp.less k (key y) = true := fun y hy =>
        hl y (List.mem_cons_of_mem z hy)
      intro y hy
      rw [place] at hy
      split at hy
      · rcases List.mem_cons.mp hy with rfl | hy
        · exact hl y List.mem_cons_self
        · exact ih hzs y hy
      · split at hy
        · rcases List.mem_cons.mp hy with rfl | hy
          · exact hx
          · exact hl y hy
        · rcases List.mem_cons.mp hy with rfl | hy
          · rw [hmeet]
            exact hl z List.mem_cons_self
          · exact hzs y hy

theorem place_sorted {cmp : Compare κ} {key : ε → κ} {meet : ε → ε → ε} (x : ε)
    (hmeet : ∀ y z, key (meet y z) = key y) {l : List ε} (hl : Sorted cmp key l) :
    Sorted cmp key (place cmp key meet x l) := by
  induction l with
  | nil => exact List.pairwise_singleton _ x
  | cons y ys ih =>
      obtain ⟨hy, hys⟩ := List.pairwise_cons.mp hl
      rw [place]
      split
      case isTrue hlow =>
        exact List.pairwise_cons.mpr ⟨place_above_all hmeet hlow hy, ih hys⟩
      case isFalse hlow =>
        split
        case isTrue hhigh =>
          refine List.pairwise_cons.mpr ⟨fun z hz => ?_, hl⟩
          rcases List.mem_cons.mp hz with rfl | hz
          · exact hhigh
          · exact cmp.trans _ _ _ hhigh (hy z hz)
        case isFalse hhigh =>
          refine List.pairwise_cons.mpr ⟨fun z hz => ?_, hys⟩
          rw [hmeet]
          exact hy z hz

/-- Placing the entries of a sorted list one after another rebuilds it. -/
theorem foldl_place {cmp : Compare κ} {key : ε → κ} {meet : ε → ε → ε} {l : List ε}
    {acc : List ε} (h : Sorted cmp key (acc ++ l)) :
    l.foldl (fun acc x => place cmp key meet x acc) acc = acc ++ l := by
  induction l generalizing acc with
  | nil => rw [List.foldl_nil, List.append_nil]
  | cons x xs ih =>
      have habove : ∀ y ∈ acc, cmp.less (key y) (key x) = true := by
        intro y hy
        exact (List.pairwise_append.mp h).2.2 y hy x List.mem_cons_self
      rw [List.foldl_cons, place_above habove]
      rw [List.append_cons] at h
      rw [ih h, ← List.append_cons]

/-- The elements of a set, in order. -/
def OrdSet (cmp : Compare κ) := {l : List κ // Sorted cmp id l}

/-- The entries of a map, in the order of their keys. -/
def OrdMap (cmp : Compare κ) (ν : Type*) := {l : List (κ × ν) // Sorted cmp Prod.fst l}

namespace OrdSet

def empty (cmp : Compare κ) : OrdSet cmp := ⟨[], List.Pairwise.nil⟩

def insert {cmp : Compare κ} (s : OrdSet cmp) (x : κ) : OrdSet cmp :=
  ⟨place cmp id (fun y _ => y) x s.1, place_sorted x (fun _ _ => rfl) s.2⟩

theorem foldl_insert {cmp : Compare κ} (s : OrdSet cmp) : s.1.foldl insert (empty cmp) = s := by
  have hval : ∀ (l : List κ) (t : OrdSet cmp),
      (l.foldl insert t).1 = l.foldl (fun acc x => place cmp id (fun y _ => y) x acc) t.1 := by
    intro l
    induction l with
    | nil => intro t; rfl
    | cons x xs ih => intro t; exact ih (t.insert x)
  apply Subtype.ext
  rw [hval]
  exact foldl_place (show Sorted cmp id ([] ++ s.1) from s.2)

end OrdSet

namespace OrdMap

def empty (cmp : Compare κ) (ν : Type*) : OrdMap cmp ν := ⟨[], List.Pairwise.nil⟩

def overwrite (old e : κ × ν) : κ × ν := (old.1, e.2)

theorem overwrite_fst (old e : κ × ν) : (overwrite old e).1 = old.1 := rfl

def assign {cmp : Compare κ} (m : OrdMap cmp ν) (e : κ × ν) : OrdMap cmp ν :=
  ⟨place cmp Prod.fst overwrite e m.1, place_sorted e overwrite_fst m.2⟩

theorem foldl_assign {cmp : Compare κ} (m : OrdMap cmp ν) :
    m.1.foldl assign (empty cmp ν) = m := by
  have hval : ∀ (l : List (κ × ν)) (n : OrdMap cmp ν), (l.foldl assign n).1 =
      l.foldl (fun acc e => place cmp Prod.fst overwrite e acc) n.1 := by
    intro l
    induction l with
    | nil => intro n; rfl
    | cons e es ih => intro n; exact ih (n.assign e)
  apply Subtype.ext
  rw [hval]
  exact foldl_place (show Sorted cmp Prod.fst ([] ++ m.1) from m.2)

end OrdMap

/-! ## Maps over a linear order -/

instance linearOrderBitVec {n : Nat} : LinearOrder (BitVec n) where
  le_refl a := Nat.le_refl a.toNat
  le_trans _ _ _ := Nat.le_trans
  le_antisymm _ _ h h' := BitVec.eq_of_toNat_eq (Nat.le_antisymm h h')
  le_total a b := Nat.le_total a.toNat b.toNat
  lt_iff_le_not_ge _ _ := Nat.lt_iff_le_and_not_ge
  toDecidableLE := inferInstance
  toDecidableEq := inferInstance
  toDecidableLT := inferInstance

/-- The comparison of a linear order. -/
def Compare.linear (κ : Type*) [LinearOrder κ] : Compare κ where
  less a b := decide (a < b)
  irrefl a := decide_eq_false (lt_irrefl a)
  trans _ _ _ hab hbc :=
    decide_eq_true ((of_decide_eq_true hab).trans (of_decide_eq_true hbc))
  cotrans a b _ hac :=
    (lt_or_ge a b).imp decide_eq_true fun hba =>
      decide_eq_true (lt_of_le_of_lt hba (of_decide_eq_true hac))

/-- `std::map` with its own comparison. -/
abbrev Map (κ ν : Type*) [LinearOrder κ] := OrdMap (Compare.linear κ) ν

namespace Map

variable [LinearOrder κ]

def find (m : Map κ ν) (k : κ) : Option ν := m.1.lookup k

/-- Each entry gets another value, or is erased. -/
def adjust (f : κ → ν → Option ν) (m : Map κ ν) : Map κ ν :=
  ⟨m.1.filterMap fun e => (f e.1 e.2).map fun v => (e.1, v), by
    refine m.2.filterMap _ fun a a' haa' b hb b' hb' => ?_
    obtain ⟨v, -, rfl⟩ := Option.map_eq_some_iff.mp hb
    obtain ⟨v', -, rfl⟩ := Option.map_eq_some_iff.mp hb'
    exact haa'⟩

variable {m : Map κ ν} {k k' : κ} {v : ν} {l : List (κ × ν)}

theorem less_iff {a b : κ} : (Compare.linear κ).less a b = true ↔ a < b := decide_eq_true_iff

theorem lookup_none (h : ∀ e ∈ l, k < e.1) : l.lookup k = none := by
  rw [List.lookup_eq_none_iff]
  intro e he
  exact bne_iff_ne.mpr (h e he).ne

theorem lookup_cons (e : κ × ν) (l : List (κ × ν)) :
    (e :: l).lookup k = if k = e.1 then some e.2 else l.lookup k := by
  rw [List.lookup_cons]
  by_cases hk : k = e.1
  · rw [if_pos hk, hk, beq_self_eq_true]
  · rw [if_neg hk, beq_false_of_ne hk]

theorem lookup_place (l : List (κ × ν)) :
    (place (Compare.linear κ) Prod.fst OrdMap.overwrite (k, v) l).lookup k' =
      if k' = k then some v else l.lookup k' := by
  induction l with
  | nil => exact lookup_cons ..
  | cons e l ih =>
      rw [place]
      split
      case isTrue hlow =>
        have hne : e.1 ≠ k := (less_iff.mp hlow).ne
        rw [lookup_cons, lookup_cons, ih]
        by_cases hk : k' = e.1
        · rw [if_pos hk, if_pos hk, if_neg fun h => hne (hk.symm.trans h)]
        · rw [if_neg hk, if_neg hk]
      case isFalse hlow =>
        split
        case isTrue => exact lookup_cons ..
        case isFalse hhigh =>
          have heq : e.1 = k := by
            have hle := not_lt.mp fun h => hlow (less_iff.mpr h)
            exact (not_lt.mp fun h => hhigh (less_iff.mpr h)).antisymm hle
          rw [lookup_cons, lookup_cons, OrdMap.overwrite, heq]
          split
          · rfl
          · rfl

@[simp] theorem find_empty : find (OrdMap.empty (Compare.linear κ) ν) k = none := rfl

theorem find_assign (m : Map κ ν) : find (m.assign (k, v)) k' = if k' = k then some v else m.find k' :=
  lookup_place m.1

theorem mem_iff_find : (k, v) ∈ m.1 ↔ m.find k = some v := by
  obtain ⟨l, hl⟩ := m
  show (k, v) ∈ l ↔ l.lookup k = some v
  induction l with
  | nil => exact iff_of_false List.not_mem_nil (Option.some_ne_none v).symm
  | cons e l ih =>
      obtain ⟨he, hl⟩ := List.pairwise_cons.mp hl
      rw [List.mem_cons, lookup_cons, ih hl]
      split
      case isTrue hk =>
        have hnone : l.lookup k = none := lookup_none fun e' he' => hk ▸ less_iff.mp (he e' he')
        rw [hnone, Option.some_inj]
        constructor
        · intro h
          rcases h with rfl | h
          · rfl
          · cases h
        · intro h
          exact .inl (Prod.ext hk h.symm)
      case isFalse hk => exact or_iff_right fun h => hk (congrArg Prod.fst h)

theorem find_adjust (f : κ → ν → Option ν) (m : Map κ ν) :
    (m.adjust f).find k = (m.find k).bind (f k) := by
  refine Option.ext fun v => ?_
  rw [← mem_iff_find, Option.bind_eq_some_iff, adjust, List.mem_filterMap]
  constructor
  · intro h
    obtain ⟨e, he, hv⟩ := h
    obtain ⟨w, hw, heq⟩ := Option.map_eq_some_iff.mp hv
    obtain ⟨rfl, rfl⟩ := Prod.mk.inj heq
    exact ⟨e.2, mem_iff_find.mp he, hw⟩
  · intro h
    obtain ⟨w, hw, hv⟩ := h
    exact ⟨(k, w), mem_iff_find.mpr hw, by rw [hv, Option.map_some]⟩

end Map

end Ordered
end Library
