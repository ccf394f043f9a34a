import Mathlib.Data.Finset.Card
import Mathlib.Data.Finset.Image
import Mathlib.Logic.Function.Iterate

/-!
# Open addressing

What is looked for is looked for at its home, and from there at one place after another,
until it is found or a free place is.  Nothing is ever taken out of the table, so that what
has been passed once is passed again, and what was found is found at the same place.
-/

namespace Library
namespace Probing

variable {κ ν : Type} (next : κ → κ)

/-- From one place to another, past places that others than `x` have. -/
inductive Past (get : κ → Option ν) (x : ν) : κ → κ → Prop
  | here (k : κ) : Past get x k k
  | past {k l : κ} {y : ν} (hy : get k = some y) (hne : y ≠ x) (h : Past get x (next k) l) :
      Past get x k l

/-- `x` is there, or nothing is. -/
def Stop (get : κ → Option ν) (x : ν) (l : κ) : Prop := get l = none ∨ get l = some x

/-- The place of `x`, in a search of no more than `left` places. -/
def probe [DecidableEq ν] (get : κ → Option ν) (x : ν) : Nat → κ → Option κ
  | 0, _ => none
  | left + 1, k =>
      match get k with
      | none => some k
      | some y => if y = x then some k else probe get x left (next k)

/-- Everything is found from its home. -/
def Placed (home : ν → κ) (get : κ → Option ν) : Prop :=
  ∀ l x, get l = some x → Past next get x (home x) l

variable {next} {get get' : κ → Option ν} {home : ν → κ} {x : ν} {k l l' : κ}

theorem Stop.not_past (h : Stop get x k) (hkl : Past next get x k l) : l = k := by
  cases hkl with
  | here => rfl
  | past hy hne _ =>
      rcases h with h | h
      · exact absurd (hy.symm.trans h) (Option.some_ne_none _)
      · exact absurd (Option.some.inj (hy.symm.trans h)) hne

theorem Past.unique (h : Past next get x k l) (h' : Past next get x k l') (hl : Stop get x l)
    (hl' : Stop get x l') : l = l' := by
  induction h with
  | here => exact (hl.not_past h').symm
  | past hy hne _ ih =>
      cases h' with
      | here =>
          rcases hl' with hl' | hl'
          · exact absurd (hy.symm.trans hl') (Option.some_ne_none _)
          · exact absurd (Option.some.inj (hy.symm.trans hl')) hne
      | past _ _ h' => exact ih h' hl

theorem Past.mono (hget : ∀ k y, get k = some y → get' k = some y) (h : Past next get x k l) :
    Past next get' x k l := by
  induction h with
  | here k => exact .here k
  | past hy hne _ ih => exact .past (hget _ _ hy) hne ih

theorem Placed.unique (h : Placed next home get) (hl : get l = some x) (hl' : get l' = some x) :
    l = l' :=
  (h l x hl).unique (h l' x hl') (.inr hl) (.inr hl')

/-- What is put where its search ends is found there, and so is all that was there before. -/
theorem Placed.put [DecidableEq κ] (h : Placed next home get) (hl : Past next get x (home x) l)
    (hstop : Stop get x l) (hget : ∀ k, get' k = if k = l then some x else get k) :
    Placed next home get' := by
  have hkept : ∀ k y, get k = some y → get' k = some y := by
    intro k y hy
    rw [hget]
    split
    case isTrue hk =>
      subst hk
      rcases hstop with hstop | hstop
      · exact absurd (hy.symm.trans hstop) (Option.some_ne_none y)
      · exact hstop.symm.trans hy
    case isFalse => exact hy
  intro k y hy
  rw [hget] at hy
  split at hy
  case isTrue hk =>
    obtain rfl := Option.some.inj hy
    exact hk ▸ hl.mono hkept
  case isFalse => exact (h k y hy).mono hkept

section Search

variable [DecidableEq ν]

theorem past_of_probe {left : Nat} (h : probe next get x left k = some l) :
    Past next get x k l ∧ Stop get x l := by
  induction left generalizing k with
  | zero => cases h
  | succ left ih =>
      rw [probe] at h
      split at h
      case h_1 hnone =>
        obtain rfl := Option.some.inj h
        exact ⟨.here k, .inl hnone⟩
      case h_2 y hy =>
        split at h
        case isTrue hyx =>
          obtain rfl := Option.some.inj h
          exact ⟨.here k, .inr (hyx ▸ hy)⟩
        case isFalse hne =>
          obtain ⟨hpast, hstop⟩ := ih h
          exact ⟨.past hy hne hpast, hstop⟩

theorem probe_of_stop {left : Nat} (h : Stop get x k) (hleft : 0 < left) :
    probe next get x left k = some k := by
  obtain ⟨left, rfl⟩ := Nat.exists_eq_succ_of_ne_zero (Nat.ne_of_gt hleft)
  rw [probe]
  rcases h with h | h
  · rw [h]
  · rw [h]
    exact if_pos rfl

/-- A search that does not end in time has not been where it may stop. -/
theorem not_stop_of_probe_none {left i : Nat} (h : probe next get x left k = none) (hi : i < left) :
    ¬Stop get x (next^[i] k) := by
  induction left generalizing k i with
  | zero => omega
  | succ left ih =>
      rw [probe] at h
      split at h
      case h_1 => cases h
      case h_2 y hy =>
        split at h
        case isTrue => cases h
        case isFalse hne =>
          cases i with
          | zero =>
              intro hstop
              rcases hstop with hstop | hstop
              · exact absurd (hy.symm.trans hstop) (Option.some_ne_none y)
              · exact hne (Option.some.inj (hy.symm.trans hstop))
          | succ i =>
              rw [Function.iterate_succ_apply]
              exact ih h (by omega)

/-- What is in the table is found, where the search comes past its place. -/
theorem Placed.probe_eq {left i : Nat} (h : Placed next home get) (hl : get l = some x)
    (hi : i < left) (hil : next^[i] (home x) = l) : probe next get x left (home x) = some l := by
  cases hprobe : probe next get x left (home x) with
  | none => exact absurd (.inr (hil ▸ hl)) (not_stop_of_probe_none hprobe hi)
  | some l' =>
      obtain ⟨hpast, hstop⟩ := past_of_probe hprobe
      rw [hpast.unique (h l x hl) hstop (.inr hl)]

/-- The search ends where there are more places on its way than there are names in the table. -/
theorem Placed.probe_ends {left : Nat} {names : Finset ν} (h : Placed next home get)
    (hnames : ∀ k y, get k = some y → y ∈ names) (hleft : names.card < left)
    (hdistinct : ∀ i j, i < left → j < left → next^[i] k = next^[j] k → i = j) :
    ∃ l, probe next get x left k = some l := by
  cases hprobe : probe next get x left k with
  | some l => exact ⟨l, rfl⟩
  | none =>
      have htaken : ∀ i < left, ∃ y ∈ names, get (next^[i] k) = some y := by
        intro i hi
        have hstop := not_stop_of_probe_none hprobe hi
        obtain ⟨y, hy⟩ := Option.ne_none_iff_exists'.mp fun hnone => hstop (.inl hnone)
        exact ⟨y, hnames _ y hy, hy⟩
      have hcard : ((Finset.range left).image fun i => get (next^[i] k)).card ≤
          (names.image some).card := by
        refine Finset.card_le_card fun y hy => ?_
        obtain ⟨i, hi, rfl⟩ := Finset.mem_image.mp hy
        obtain ⟨y, hy, hget⟩ := htaken i (Finset.mem_range.mp hi)
        exact hget ▸ Finset.mem_image_of_mem some hy
      have himage := Finset.card_image_le (s := names) (f := some)
      rw [Finset.card_image_of_injOn, Finset.card_range] at hcard
      · omega
      · intro i hi j hj hij
        have hi := Finset.mem_range.mp hi
        have hj := Finset.mem_range.mp hj
        obtain ⟨y, -, hy⟩ := htaken i hi
        exact hdistinct i j hi hj (h.unique hy (hij.symm.trans hy))

end Search
end Probing
end Library
