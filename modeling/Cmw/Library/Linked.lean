import Mathlib.Logic.Function.Basic
import Mathlib.Data.List.Basic

/-!
# Linked lists in memory

`Linked next p ns`: the pointers that are followed from `p` are those of `ns`, and the
last of them points to nothing.  A list in memory is finite, and it is the only one from
its first pointer.
-/

namespace Library

def Linked {ν : Type} (next : ν → Option ν) : Option ν → List ν → Prop
  | p, [] => p = none
  | p, n :: ns => p = some n ∧ Linked next (next n) ns

namespace Linked

variable {ν : Type} {next next' : ν → Option ν} {p : Option ν} {n : ν} {ns : List ν}

theorem head_eq (h : Linked next p ns) : p = ns.head? := by
  cases ns with
  | nil => exact h
  | cons n ns => exact h.1

theorem unique (h : Linked next p ns) {ms : List ν} (h' : Linked next p ms) : ns = ms := by
  induction ns generalizing p ms with
  | nil =>
      cases ms with
      | nil => rfl
      | cons m ms => exact absurd (h'.1.symm.trans h) (Option.some_ne_none m)
  | cons n ns ih =>
      cases ms with
      | nil => exact absurd (h.1.symm.trans h') (Option.some_ne_none n)
      | cons m ms =>
          obtain rfl := Option.some.inj (h.1.symm.trans h'.1)
          exact congrArg _ (ih h.2 h'.2)

/-- What is not in the list may change. -/
theorem congr (h : Linked next p ns) (hnext : ∀ m ∈ ns, next' m = next m) : Linked next' p ns := by
  induction ns generalizing p with
  | nil => exact h
  | cons n ns ih =>
      obtain ⟨hp, hrest⟩ := h
      have hn : next' n = next n := hnext n List.mem_cons_self
      exact ⟨hp, hn ▸ ih hrest fun m hm => hnext m (List.mem_cons_of_mem n hm)⟩

theorem update [DecidableEq ν] (h : Linked next p ns) (hn : n ∉ ns) (q : Option ν) :
    Linked (Function.update next n q) p ns :=
  h.congr fun _ hm => Function.update_of_ne (ne_of_mem_of_not_mem hm hn) _ _

theorem eq_nil (h : Linked next none ns) : ns = [] := by
  cases ns with
  | nil => rfl
  | cons n ns => cases h.1

theorem exists_cons (h : Linked next (some n) ns) :
    ∃ rest, ns = n :: rest ∧ Linked next (next n) rest := by
  cases ns with
  | nil => cases h
  | cons m rest =>
      obtain ⟨hm, hrest⟩ := h
      obtain rfl := Option.some.inj hm
      exact ⟨rest, rfl, hrest⟩

/-- A list, at one of its nodes. -/
theorem split (h : Linked next p ns) {m : ν} (hm : m ∈ ns) :
    ∃ before after, ns = before ++ m :: after ∧ Linked next (next m) after := by
  induction ns generalizing p with
  | nil => cases hm
  | cons n ns ih =>
      obtain ⟨_, hrest⟩ := h
      rcases List.mem_cons.mp hm with rfl | hm
      · exact ⟨[], ns, rfl, hrest⟩
      · obtain ⟨before, after, rfl, hafter⟩ := ih hrest hm
        exact ⟨n :: before, after, rfl, hafter⟩

/-- In a list that is sorted, what comes after a node comes after the next one, or is it. -/
theorem next_le {R : ν → ν → Prop} (hirrefl : ∀ m, ¬ R m m) (hasymm : ∀ m n, R m n → ¬ R n m)
    (h : Linked next p ns) (hsorted : ns.Pairwise R) {m x : ν} (hm : m ∈ ns) (hx : x ∈ ns)
    (hmx : R m x) : ∃ t, next m = some t ∧ (x = t ∨ R t x) := by
  obtain ⟨before, after, rfl, hafter⟩ := h.split hm
  obtain ⟨_, hafter', hbefore⟩ := List.pairwise_append.mp hsorted
  rcases List.mem_append.mp hx with hx | hx
  · exact absurd (hbefore x hx m List.mem_cons_self) (hasymm m x hmx)
  · rcases List.mem_cons.mp hx with rfl | hx
    · exact absurd hmx (hirrefl x)
    · cases after with
      | nil => cases hx
      | cons t rest =>
          refine ⟨t, hafter.1, ?_⟩
          rcases List.mem_cons.mp hx with rfl | hx
          · exact .inl rfl
          · exact .inr (List.rel_of_pairwise_cons (List.pairwise_cons.mp hafter').2 hx)

theorem next_mem (h : Linked next p ns) {m t : ν} (hm : m ∈ ns) (ht : next m = some t) :
    t ∈ ns := by
  obtain ⟨before, after, rfl, hafter⟩ := h.split hm
  rw [ht] at hafter
  obtain ⟨rest, rfl, _⟩ := hafter.exists_cons
  exact List.mem_append_right _ (List.mem_cons_of_mem _ List.mem_cons_self)

theorem next_rel {R : ν → ν → Prop} (h : Linked next p ns) (hsorted : ns.Pairwise R) {m t : ν}
    (hm : m ∈ ns) (ht : next m = some t) : R m t := by
  obtain ⟨before, after, rfl, hafter⟩ := h.split hm
  rw [ht] at hafter
  obtain ⟨rest, rfl, _⟩ := hafter.exists_cons
  exact List.rel_of_pairwise_cons (List.pairwise_append.mp hsorted).2.1 List.mem_cons_self

variable [DecidableEq ν]

/-- The list with `n` after `m`. -/
def insertAfter (m n : ν) : List ν → List ν
  | [] => []
  | x :: ns => if x = m then x :: n :: ns else x :: insertAfter m n ns

theorem mem_insertAfter {m n x : ν} (hm : m ∈ ns) : x ∈ insertAfter m n ns ↔ x = n ∨ x ∈ ns := by
  induction ns with
  | nil => cases hm
  | cons y ns ih =>
      unfold insertAfter
      split
      · rw [List.mem_cons, List.mem_cons, List.mem_cons]
        exact or_left_comm
      case isFalse hy =>
        have hm : m ∈ ns := (List.mem_cons.mp hm).resolve_left fun h => hy h.symm
        rw [List.mem_cons, List.mem_cons, ih hm]
        exact or_left_comm

/-- The node `n` is linked in behind `m`. -/
theorem link (h : Linked next p ns) {m n : ν} (hm : m ∈ ns) (hnodup : ns.Nodup)
    (hn : next' n = next m) (hm' : next' m = some n)
    (hother : ∀ x ∈ ns, x ≠ m → next' x = next x) : Linked next' p (insertAfter m n ns) := by
  induction ns generalizing p with
  | nil => cases hm
  | cons x ns ih =>
      obtain ⟨hp, hrest⟩ := h
      obtain ⟨hx, hnodup⟩ := List.nodup_cons.mp hnodup
      unfold insertAfter
      split
      case isTrue hxm =>
        subst hxm
        refine ⟨hp, hm', ?_⟩
        rw [hn]
        exact hrest.congr fun y hy =>
          hother y (List.mem_cons_of_mem x hy) (ne_of_mem_of_not_mem hy hx)
      case isFalse hxm =>
        have hm : m ∈ ns := (List.mem_cons.mp hm).resolve_left fun h => hxm h.symm
        refine ⟨hp, ?_⟩
        rw [hother x List.mem_cons_self hxm]
        exact ih hrest hm hnodup fun y hy => hother y (List.mem_cons_of_mem x hy)

theorem pairwise_insertAfter {R : ν → ν → Prop} {m n : ν} (hm : m ∈ ns) (hsorted : ns.Pairwise R)
    (hmn : R m n) (hbefore : ∀ x ∈ ns, R x m → R x n) (hafter : ∀ x ∈ ns, R m x → R n x) :
    (insertAfter m n ns).Pairwise R := by
  induction ns with
  | nil => exact hsorted
  | cons x ns ih =>
      obtain ⟨hx, hsorted⟩ := List.pairwise_cons.mp hsorted
      unfold insertAfter
      split
      case isTrue hxm =>
        subst hxm
        have hn : ∀ y ∈ ns, R n y := fun y hy => hafter y (List.mem_cons_of_mem x hy) (hx y hy)
        refine List.pairwise_cons.mpr ⟨fun y hy => ?_, List.pairwise_cons.mpr ⟨hn, hsorted⟩⟩
        rcases List.mem_cons.mp hy with rfl | hy
        · exact hmn
        · exact hx y hy
      case isFalse hxm =>
        have hm : m ∈ ns := (List.mem_cons.mp hm).resolve_left fun h => hxm h.symm
        refine List.pairwise_cons.mpr ⟨fun y hy => ?_, ih hm hsorted
          (fun y hy => hbefore y (List.mem_cons_of_mem x hy))
          fun y hy => hafter y (List.mem_cons_of_mem x hy)⟩
        rcases (mem_insertAfter hm).mp hy with rfl | hy
        · exact hbefore x List.mem_cons_self (hx m hm)
        · exact hx y hy

end Linked
end Library
