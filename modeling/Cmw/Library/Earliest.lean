import Mathlib.Data.List.MinMax
import Mathlib.Data.List.Nodup
import Mathlib.Data.List.Perm.Basic

/-!
# The earliest of many

Things with a stamp come one after another, and the earliest so far is held: `List.argmin`.
`beaten` are the others, each of them at the moment when it met an earlier one, as the new
one or as the one that was held.  What is held and what is beaten are together everything
that has come, so that whatever the order, all but the earliest are beaten.
-/

namespace Library
namespace Earliest

variable {α β : Type*} [LinearOrder β] (stamp : α → β)

/-- What is held after another has come. -/
def keep (held : Option α) (a : α) : α :=
  match held with
  | none => a
  | some b => if stamp a < stamp b then a else b

/-- Which of the two is the later one. -/
def lose (held : Option α) (a : α) : Option α :=
  match held with
  | none => none
  | some b => some (if stamp a < stamp b then b else a)

def beaten (as : List α) : List α :=
  (as.foldl (fun s a => (some (keep stamp s.1 a), s.2 ++ (lose stamp s.1 a).toList))
    ((none, []) : Option α × List α)).2

variable {stamp}

theorem argmin_concat (as : List α) (a : α) :
    (as ++ [a]).argmin stamp = some (keep stamp (as.argmin stamp) a) := by
  rw [List.argmin_concat]
  cases as.argmin stamp with
  | none => rfl
  | some b => exact (apply_ite some (stamp a < stamp b) a b).symm

theorem foldl_keep (as : List α) :
    (as.foldl (fun s a => (some (keep stamp s.1 a), s.2 ++ (lose stamp s.1 a).toList))
      ((none, []) : Option α × List α)).1 = as.argmin stamp := by
  induction as using List.reverseRecOn with
  | nil => rfl
  | append_singleton as a ih =>
      rw [List.foldl_append, List.foldl_cons, List.foldl_nil, argmin_concat, ih]

theorem beaten_concat (as : List α) (a : α) :
    beaten stamp (as ++ [a]) = beaten stamp as ++ (lose stamp (as.argmin stamp) a).toList := by
  rw [beaten, List.foldl_append, List.foldl_cons, List.foldl_nil, foldl_keep]
  rfl

variable (stamp) in
theorem keep_lose_perm (held : Option α) (a : α) :
    (keep stamp held a :: (lose stamp held a).toList).Perm (a :: held.toList) := by
  cases held with
  | none => exact List.Perm.refl _
  | some b =>
      rw [keep, lose]
      split
      · exact List.Perm.refl _
      · exact List.Perm.swap a b []

variable (stamp) in
/-- What is held and what is beaten are everything that has come. -/
theorem perm (as : List α) : ((as.argmin stamp).toList ++ beaten stamp as).Perm as := by
  induction as using List.reverseRecOn with
  | nil => exact List.Perm.refl _
  | append_singleton as a ih =>
      rw [argmin_concat, beaten_concat, ← List.append_assoc]
      have hlast := keep_lose_perm stamp (as.argmin stamp) a
      have hswap : ((beaten stamp as) ++ (lose stamp (as.argmin stamp) a).toList).Perm _ :=
        List.perm_append_comm
      calc (keep stamp (as.argmin stamp) a :: beaten stamp as) ++
            (lose stamp (as.argmin stamp) a).toList
          _ |>.Perm ((keep stamp (as.argmin stamp) a :: (lose stamp (as.argmin stamp) a).toList) ++
            beaten stamp as) := hswap.cons _
          _ |>.Perm ((a :: (as.argmin stamp).toList) ++ beaten stamp as) := hlast.append_right _
          _ |>.Perm (as ++ [a]) := (ih.cons a).trans (List.perm_append_singleton a as).symm

variable {as : List α}

/-- Where no two have the same stamp, all but the earliest are beaten. -/
theorem mem_beaten_iff (hstamps : (as.map stamp).Nodup) {a : α} (ha : a ∈ as) :
    a ∈ beaten stamp as ↔ ∃ b ∈ as, stamp b < stamp a := by
  have hnodup : ((as.argmin stamp).toList ++ beaten stamp as).Nodup :=
    (perm stamp as).nodup_iff.mpr (List.Nodup.of_map stamp hstamps)
  obtain ⟨least, hleast⟩ : ∃ least, as.argmin stamp = some least :=
    Option.ne_none_iff_exists'.mp fun hnone =>
      List.ne_nil_of_mem ha (List.argmin_eq_none.mp hnone)
  have hmem : least ∈ as := List.argmin_mem hleast
  have hle : ∀ b ∈ as, stamp least ≤ stamp b := fun b hb => List.le_of_mem_argmin hb hleast
  have hall : a = least ∨ a ∈ beaten stamp as := by
    have hperm := (perm stamp as).mem_iff.mpr ha
    rw [hleast] at hperm
    simpa using hperm
  rw [hleast] at hnodup
  constructor
  · intro hbeaten
    refine ⟨least, hmem, lt_of_le_of_ne (hle a ha) fun heq => ?_⟩
    obtain rfl := List.inj_on_of_nodup_map hstamps hmem ha heq
    exact (List.nodup_cons.mp hnodup).1 hbeaten
  · rintro ⟨b, hb, hlt⟩
    refine hall.resolve_left fun heq => ?_
    exact absurd (hle b hb) (not_le_of_gt (heq ▸ hlt))

theorem argmin_eq_some_iff (hstamps : (as.map stamp).Nodup) {a : α} :
    as.argmin stamp = some a ↔ a ∈ as ∧ ∀ b ∈ as, stamp a ≤ stamp b := by
  constructor
  · exact fun h => ⟨List.argmin_mem h, fun b hb => List.le_of_mem_argmin hb h⟩
  · rintro ⟨ha, hle⟩
    obtain ⟨least, hleast⟩ : ∃ least, as.argmin stamp = some least :=
      Option.ne_none_iff_exists'.mp fun hnone =>
        List.ne_nil_of_mem ha (List.argmin_eq_none.mp hnone)
    have hmem : least ∈ as := List.argmin_mem hleast
    have heq : stamp least = stamp a := le_antisymm (List.le_of_mem_argmin ha hleast) (hle least hmem)
    rw [hleast, List.inj_on_of_nodup_map hstamps hmem ha heq]

end Earliest
end Library
