import Cmw.Library.Run
import Mathlib.Data.List.Count
import Mathlib.Data.List.Perm.Basic
import Mathlib.Logic.Function.Basic

/-!
# Parties that tell each other everything

Every party acts on what it says at once, and sends it to all parties.  On its way from one party
to another a message may be lost, but nothing overtakes; otherwise messages come in any order.  A
party passes over what it hears from itself.

`View` is a part of the state that is told by the messages of one party alone.  What is held
of a party anywhere is then what the party comes to by those of its messages that have been
heard, so nothing has to be said of the order in which messages of several parties come.
-/

namespace Library

structure Broadcast (ι σ μ : Type*) where
  party : ι → σ
  /-- from one party to another, the oldest first -/
  onWay : ι → ι → List μ
  said : ι → List μ
  /-- of one party, what has come to another -/
  heard : ι → ι → List μ

/-- What `Of` gives to a party, and when two states agree on what is held of it. -/
structure View (ι : Type*) {σ μ : Type*} (apply : σ → μ → σ) where
  Of : ι → μ → Prop
  Agree : ι → σ → σ → Prop
  own : ∀ {i s t m}, Of i m → Agree i s t → Agree i (apply s m) (apply t m)
  other : ∀ {i j s t m}, j ≠ i → Of j m → Agree i s t → Agree i (apply s m) t

namespace View

variable {ι σ μ : Type*} {apply : σ → μ → σ} (v : View ι apply)

theorem own_exec {i : ι} {s t : σ} {ms : List μ} (hms : ∀ m ∈ ms, v.Of i m)
    (h : v.Agree i s t) : v.Agree i (Run.exec apply s ms) (Run.exec apply t ms) := by
  induction ms generalizing s t with
  | nil => exact h
  | cons m ms ih =>
      obtain ⟨hm, hms⟩ := List.forall_mem_cons.mp hms
      exact ih hms (v.own hm h)

theorem other_exec {i j : ι} (hne : j ≠ i) {s t : σ} {ms : List μ} (hms : ∀ m ∈ ms, v.Of j m)
    (h : v.Agree i s t) : v.Agree i (Run.exec apply s ms) t := by
  induction ms generalizing s with
  | nil => exact h
  | cons m ms ih =>
      obtain ⟨hm, hms⟩ := List.forall_mem_cons.mp hms
      exact ih hms (v.other hne hm h)

end View

namespace Broadcast

variable {ι σ μ : Type*} [DecidableEq ι] {apply : σ → μ → σ}

def start (blank : ι → σ) : Broadcast ι σ μ :=
  { party := blank, onWay := fun _ _ => [], said := fun _ => [], heard := fun _ _ => [] }

def say (apply : σ → μ → σ) (b : Broadcast ι σ μ) (i : ι) (ms : List μ) : Broadcast ι σ μ :=
  { b with
    party := Function.update b.party i (Run.exec apply (b.party i) ms)
    onWay := fun j k => if j = i then b.onWay j k ++ ms else b.onWay j k
    said := Function.update b.said i (b.said i ++ ms) }

def hear (apply : σ → μ → σ) (b : Broadcast ι σ μ) (i k : ι) : Broadcast ι σ μ :=
  match b.onWay i k with
  | [] => b
  | m :: ms =>
      { b with
        party := if i = k then b.party else Function.update b.party k (apply (b.party k) m)
        onWay := fun j l => if j = i ∧ l = k then ms else b.onWay j l
        heard := fun j l => if j = i ∧ l = k then b.heard j l ++ [m] else b.heard j l }

/-- What is the oldest on its way from one party to another is lost. -/
def lose (b : Broadcast ι σ μ) (i k : ι) : Broadcast ι σ μ :=
  { b with onWay := fun j l => if j = i ∧ l = k then (b.onWay j l).tail else b.onWay j l }

/-- What a party knows to have been said by another, or by itself. -/
def known (b : Broadcast ι σ μ) (i k : ι) : List μ := if i = k then b.said i else b.heard i k

section Steps

variable {b : Broadcast ι σ μ}

theorem said_say (i : ι) (ms : List μ) (j : ι) :
    (b.say apply i ms).said j = if j = i then b.said i ++ ms else b.said j :=
  Function.update_apply ..

theorem party_say (i : ι) (ms : List μ) (k : ι) : (b.say apply i ms).party k =
    if k = i then Run.exec apply (b.party i) ms else b.party k :=
  Function.update_apply ..

theorem known_say (i : ι) (ms : List μ) (j k : ι) :
    (b.say apply i ms).known j k = b.known j k ++ if j = k ∧ k = i then ms else [] := by
  rw [known, known, said_say]
  by_cases hjk : j = k
  · subst hjk
    rw [if_pos rfl, if_pos rfl]
    by_cases hji : j = i
    · rw [if_pos hji, if_pos ⟨rfl, hji⟩, hji]
    · rw [if_neg hji, if_neg fun h => hji h.2, List.append_nil]
  · rw [if_neg hjk, if_neg hjk, if_neg fun h => hjk h.1, List.append_nil]
    rfl

theorem hear_of_nil {i k : ι} (hway : b.onWay i k = []) : b.hear apply i k = b := by
  rw [Broadcast.hear, hway]

theorem said_hear (i k : ι) : (b.hear apply i k).said = b.said := by
  rw [Broadcast.hear]
  split
  · rfl
  · rfl

variable {i k : ι} {m : μ} {ms : List μ}

theorem onWay_hear (hway : b.onWay i k = m :: ms) (j l : ι) :
    (b.hear apply i k).onWay j l = if j = i ∧ l = k then ms else b.onWay j l := by
  rw [Broadcast.hear, hway]

theorem heard_hear (hway : b.onWay i k = m :: ms) (j l : ι) : (b.hear apply i k).heard j l =
    if j = i ∧ l = k then b.heard j l ++ [m] else b.heard j l := by
  rw [Broadcast.hear, hway]

theorem party_hear (hway : b.onWay i k = m :: ms) (l : ι) : (b.hear apply i k).party l =
    if l = k ∧ i ≠ l then apply (b.party l) m else b.party l := by
  rw [Broadcast.hear, hway]
  dsimp only
  by_cases hl : l = k ∧ i ≠ l
  · obtain ⟨rfl, hi⟩ := hl
    rw [if_neg hi, if_pos ⟨rfl, hi⟩, Function.update_self]
  · rw [if_neg hl]
    split
    · rfl
    case isFalse hi =>
      exact Function.update_of_ne (fun hlk => hl ⟨hlk, fun hil => hi (hil.trans hlk)⟩) ..

theorem known_hear (hway : b.onWay i k = m :: ms) (j l : ι) : (b.hear apply i k).known j l =
    b.known j l ++ if j = i ∧ l = k ∧ i ≠ l then [m] else [] := by
  rw [known, known, said_hear, heard_hear hway]
  by_cases hjl : j = l
  · subst hjl
    rw [if_pos rfl, if_pos rfl, if_neg fun h => h.2.2 h.1.symm, List.append_nil]
  · rw [if_neg hjl, if_neg hjl]
    by_cases hboth : j = i ∧ l = k
    · rw [if_pos hboth, if_pos ⟨hboth.1, hboth.2, fun hil => hjl (hboth.1.trans hil)⟩]
    · rw [if_neg hboth, if_neg fun h => hboth ⟨h.1, h.2.1⟩, List.append_nil]

end Steps

/-- What is held of every party everywhere is what its messages tell. -/
structure Kept (v : View ι apply) (blank : σ) (b : Broadcast ι σ μ) : Prop where
  ofParty : ∀ i, ∀ m ∈ b.said i, v.Of i m
  sub : ∀ i k, (b.heard i k ++ b.onWay i k).Sublist (b.said i)
  agree : ∀ i k, v.Agree i (b.party k) (Run.exec apply blank (b.known i k))

variable {v : View ι apply} {blank : σ} {b : Broadcast ι σ μ}

theorem kept_start (party : ι → σ) (h : ∀ i k, v.Agree i (party k) blank) :
    (start party : Broadcast ι σ μ).Kept v blank where
  ofParty := fun _ _ hm => absurd hm List.not_mem_nil
  sub := fun _ _ => List.Sublist.refl _
  agree i k := by
    have hnil : (start party : Broadcast ι σ μ).known i k = [] := ite_self []
    rw [hnil]
    exact h i k

theorem Kept.onWay (h : b.Kept v blank) {i k : ι} : ∀ m ∈ b.onWay i k, v.Of i m := fun m hm =>
  h.ofParty i m ((h.sub i k).subset (List.mem_append_right _ hm))

theorem forall_said_say {P : ι → μ → Prop} {i : ι} {ms : List μ} (hms : ∀ m ∈ ms, P i m)
    (h : ∀ j, ∀ m ∈ b.said j, P j m) : ∀ j, ∀ m ∈ (b.say apply i ms).said j, P j m := by
  intro j m hm
  rw [said_say] at hm
  split at hm
  case isTrue hj => exact hj ▸ (List.mem_append.mp hm).elim (h i m) (hms m)
  case isFalse => exact h j m hm

theorem Kept.say (h : b.Kept v blank) {i : ι} {ms : List μ} (hms : ∀ m ∈ ms, v.Of i m) :
    (b.say apply i ms).Kept v blank := by
  refine ⟨forall_said_say hms h.ofParty, fun j k => ?_, fun j k => ?_⟩
  · have hsub := h.sub j k
    rw [said_say]
    show (b.heard j k ++ if j = i then b.onWay j k ++ ms else b.onWay j k).Sublist _
    by_cases hj : j = i
    · rw [if_pos hj, if_pos hj, ← List.append_assoc, ← hj]
      exact hsub.append (List.Sublist.refl ms)
    · rwa [if_neg hj, if_neg hj]
  · have hagree := h.agree j k
    rw [party_say, known_say]
    by_cases hk : k = i
    · subst hk
      rw [if_pos rfl]
      by_cases hj : j = k
      · rw [if_pos ⟨hj, rfl⟩, Run.exec_append]
        exact v.own_exec (hj ▸ hms) hagree
      · rw [if_neg fun h => hj h.1, List.append_nil]
        exact v.other_exec (Ne.symm hj) hms hagree
    · rwa [if_neg hk, if_neg fun h => hk h.2, List.append_nil]

theorem Kept.hear (h : b.Kept v blank) (i k : ι) : (b.hear apply i k).Kept v blank := by
  cases hway : b.onWay i k with
  | nil => rwa [hear_of_nil hway]
  | cons m ms =>
      have hm : v.Of i m := h.onWay m (by rw [hway]; exact List.mem_cons_self)
      refine ⟨fun j => ?_, fun j l => ?_, fun j l => ?_⟩
      · rw [said_hear]
        exact h.ofParty j
      · have hsub := h.sub j l
        rw [said_hear, heard_hear hway, onWay_hear hway]
        by_cases hjl : j = i ∧ l = k
        · obtain ⟨rfl, rfl⟩ := hjl
          rw [if_pos ⟨rfl, rfl⟩, if_pos ⟨rfl, rfl⟩, List.append_assoc, List.singleton_append, ← hway]
          exact hsub
        · rwa [if_neg hjl, if_neg hjl]
      · have hagree := h.agree j l
        rw [party_hear hway, known_hear hway]
        by_cases hl : l = k ∧ i ≠ l
        · rw [if_pos hl]
          by_cases hj : j = i
          · rw [if_pos ⟨hj, hl⟩, Run.exec_append]
            exact v.own (hj ▸ hm) hagree
          · rw [if_neg fun h => hj h.1, List.append_nil]
            exact v.other (Ne.symm hj) hm hagree
        · rwa [if_neg hl, if_neg fun h => hl h.2, List.append_nil]

theorem Kept.lose (h : b.Kept v blank) (i k : ι) : (b.lose i k).Kept v blank where
  ofParty := h.ofParty
  sub j l := by
    refine List.Sublist.trans (List.Sublist.append (List.Sublist.refl _) ?_) (h.sub j l)
    show (if j = i ∧ l = k then (b.onWay j l).tail else b.onWay j l).Sublist _
    split
    · exact List.tail_sublist _
    · exact List.Sublist.refl _
  agree := h.agree

/-- What a party holds of itself, and of another that it has heard all of. -/
theorem Kept.agree_of_all (h : b.Kept v blank) {i k : ι} (hall : i = k ∨ b.heard i k = b.said i) :
    v.Agree i (b.party k) (Run.exec apply blank (b.said i)) := by
  have hagree := h.agree i k
  rw [known] at hagree
  rcases hall with rfl | hall
  · rwa [if_pos rfl] at hagree
  · rwa [hall, ite_self] at hagree

/-- What every message of every party keeps. -/
def Always (I : σ → Prop) (b : Broadcast ι σ μ) : Prop := ∀ k, I (b.party k)

theorem Always.say {I : σ → Prop} (hI : ∀ i s m, v.Of i m → I s → I (apply s m))
    (h : b.Always I) {i : ι} {ms : List μ} (hms : ∀ m ∈ ms, v.Of i m) :
    (b.say apply i ms).Always I := by
  have hexec : ∀ s, I s → I (Run.exec apply s ms) := by
    induction ms with
    | nil => exact fun s hs => hs
    | cons m ms ih =>
        obtain ⟨hm, hms⟩ := List.forall_mem_cons.mp hms
        exact fun s hs => ih hms _ (hI i s m hm hs)
  intro k
  rw [party_say]
  split
  · exact hexec _ (h i)
  · exact h k

theorem Always.lose {I : σ → Prop} (h : b.Always I) (i k : ι) : (b.lose i k).Always I := h

theorem Always.hear {I : σ → Prop} (hI : ∀ i s m, v.Of i m → I s → I (apply s m))
    (h : b.Always I) (hkept : b.Kept v blank) (i k : ι) : (b.hear apply i k).Always I := by
  cases hway : b.onWay i k with
  | nil => rwa [hear_of_nil hway]
  | cons m ms =>
      have hm : v.Of i m := hkept.onWay m (by rw [hway]; exact List.mem_cons_self)
      intro l
      rw [party_hear hway]
      split
      · exact hI i _ m hm (h l)
      · exact h l

end Broadcast

/-! ## Collections that agree class by class -/

/-- Two lists with the same members of every class. -/
theorem perm_of_filter {α κ : Type*} [DecidableEq κ] (f : α → κ) {l l' : List α}
    (h : ∀ c, (l.filter fun a => f a = c) = l'.filter fun a => f a = c) : l.Perm l' := by
  classical
  refine List.perm_iff_count.mpr fun a => ?_
  have hcount : ∀ l : List α, l.count a = (l.filter fun b => f b = f a).count a := fun l =>
    (List.count_filter (p := fun b => decide (f b = f a)) (decide_eq_true rfl)).symm
  rw [hcount l, hcount l', h]

/-- A list without repetitions: of two entries one is of the same class, or the classes have nothing
in common. -/
theorem nodup_of_filter {α κ β : Type*} [DecidableEq κ] (f : α → κ) (g : α → β) {l : List α}
    (hsame : ∀ c, ((l.filter fun a => f a = c).map g).Nodup)
    (hother : ∀ a ∈ l, ∀ b ∈ l, f a ≠ f b → g a ≠ g b) : (l.map g).Nodup := by
  refine List.pairwise_map.mpr (List.pairwise_iff_forall_sublist.mpr fun {a b} hab => ?_)
  have ha : a ∈ l := hab.subset List.mem_cons_self
  have hb : b ∈ l := hab.subset (List.mem_cons_of_mem _ List.mem_cons_self)
  by_cases hclass : f a = f b
  · have hpair : [a, b].Sublist (l.filter fun x => f x = f b) := by
      have hfilter := hab.filter fun x => decide (f x = f b)
      simpa [hclass] using hfilter
    exact List.pairwise_iff_forall_sublist.mp (List.pairwise_map.mp (hsame (f b))) hpair
  · exact hother a ha b hb hclass

/-! ## In what order a party has acted -/

namespace Broadcast

variable {ι σ μ : Type*} [DecidableEq ι] {apply : σ → μ → σ}

/-- A party has acted on these messages, each with the party that has said it: on all that it has
said itself, and of every other on what has come. -/
structure Acted (apply : σ → μ → σ) (blank : ι → σ) (b : Broadcast ι σ μ) (k : ι)
    (acts : List (ι × μ)) : Prop where
  party : b.party k = Run.exec apply (blank k) (acts.map Prod.snd)
  known : ∀ i, ((acts.filter fun e => e.1 = i).map Prod.snd) = b.known i k

variable {blank : ι → σ} {b : Broadcast ι σ μ}

theorem acted_start (k : ι) : (start blank : Broadcast ι σ μ).Acted apply blank k [] where
  party := rfl
  known i := (ite_self (c := i = k) ([] : List μ)).symm

theorem map_snd_filter (i j : ι) (ms : List μ) :
    ((ms.map fun m => (j, m)).filter fun e => e.1 = i).map Prod.snd = if j = i then ms else [] := by
  split
  case isTrue hij =>
    subst hij
    rw [List.filter_eq_self.mpr fun e he => ?_, List.map_map]
    · exact List.map_id ms
    · obtain ⟨m, -, rfl⟩ := List.mem_map.mp he
      exact decide_eq_true rfl
  case isFalse hij =>
    rw [List.filter_eq_nil_iff.mpr fun e he => ?_, List.map_nil]
    obtain ⟨m, -, rfl⟩ := List.mem_map.mp he
    simpa using hij

theorem exists_acted_say (h : ∀ k, ∃ acts, b.Acted apply blank k acts) (i : ι) (ms : List μ)
    (k : ι) : ∃ acts, (b.say apply i ms).Acted apply blank k acts := by
  obtain ⟨acts, hacts⟩ := h k
  by_cases hk : k = i
  · subst hk
    refine ⟨acts ++ ms.map fun m => (k, m), ?_, fun j => ?_⟩
    · rw [party_say, if_pos rfl, hacts.party, List.map_append, List.map_map, Run.exec_append]
      congr 1
      exact (List.map_id ms).symm
    · rw [known_say, List.filter_append, List.map_append, map_snd_filter, hacts.known]
      congr 1
      exact if_congr ⟨fun h => ⟨h.symm, rfl⟩, fun h => h.1.symm⟩ rfl rfl
  · refine ⟨acts, ?_, fun j => ?_⟩
    · rw [party_say, if_neg hk, hacts.party]
    · rw [known_say, if_neg fun h => hk h.2, List.append_nil, hacts.known]

theorem exists_acted_hear (h : ∀ k, ∃ acts, b.Acted apply blank k acts) (i j k : ι) :
    ∃ acts, (b.hear apply i j).Acted apply blank k acts := by
  obtain ⟨acts, hacts⟩ := h k
  cases hway : b.onWay i j with
  | nil =>
      rw [hear_of_nil hway]
      exact ⟨acts, hacts⟩
  | cons m ms =>
      by_cases hk : k = j ∧ i ≠ k
      · refine ⟨acts ++ [(i, m)], ?_, fun l => ?_⟩
        · rw [party_hear hway, if_pos hk, hacts.party, List.map_append, Run.exec_append]
          rfl
        · rw [known_hear hway, List.filter_append, List.map_append, hacts.known]
          congr 1
          refine (map_snd_filter l i [m]).trans (if_congr ?_ rfl rfl)
          exact ⟨fun h => ⟨h.symm, hk⟩, fun h => h.1.symm⟩
      · refine ⟨acts, ?_, fun l => ?_⟩
        · rw [party_hear hway, if_neg hk, hacts.party]
        · rw [known_hear hway, if_neg fun h => hk h.2, List.append_nil, hacts.known]

theorem Acted.lose {k : ι} {acts : List (ι × μ)} (h : b.Acted apply blank k acts) (i j : ι) :
    (b.lose i j).Acted apply blank k acts :=
  ⟨h.party, h.known⟩

/-- What a party has acted on that has heard everything. -/
theorem Acted.filter_eq {k : ι} {acts : List (ι × μ)} (h : b.Acted apply blank k acts)
    (hall : ∀ i, i = k ∨ b.heard i k = b.said i) (i : ι) :
    (acts.filter fun e => e.1 = i) = (b.said i).map fun m => (i, m) := by
  have hknown : b.known i k = b.said i := by
    rw [Broadcast.known]
    split
    · rfl
    case isFalse hne => exact (hall i).resolve_left hne
  rw [← hknown, ← h.known, List.map_map]
  refine (List.map_id _).symm.trans (List.map_congr_left fun e he => ?_)
  have hi : e.1 = i := by simpa using (List.mem_filter.mp he).2
  exact Prod.ext hi rfl

end Broadcast

end Library
