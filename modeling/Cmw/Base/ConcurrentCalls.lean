import Cmw.Base.Buckets

/-!
# What the functions of the hash map keep to

Each atomic step of `Has`, `Get` and `Set` keeps the lists of the buckets, and each function ends
with its call having taken effect, whatever the other threads do.
-/

namespace Cmw
namespace Base
namespace Concurrent

open AtomicHashMap (index index_lt)
open Library
open Library.Thread

/-! ### The operations -/

section Operations

variable {ι K V : Type} [DecidableEq ι] [Integral K]
variable {m x : Nat} {i : ι} {k : Shared ι K V} {e p : Nat} {entry : Entry K} {value : V}

omit [Integral K] in
theorem key_alloc {s : Memory K V} {a : Entry K} (h : (s.entries.cell e).isSome) :
    Memory.key { s with entries := s.entries.alloc x a } e = s.key e := by
  obtain ⟨entry, hcell⟩ := Option.isSome_iff_exists.mp h
  rw [Memory.key, Memory.key, Heap.alloc_of_some hcell, hcell]

theorem noted_loadNext (h : k.1.entries.cell e = some entry) :
    noted m i (.loadNext e) x k =
      (some entry.next, k.1, k.2.reach i ((k.1.next e).bind k.1.entries.cell)) := by
  simp only [noted, exec, Memory.next, h]
  rfl

theorem noted_key (h : k.1.entries.cell e = some entry) :
    noted m i (.key e) x k = (some entry.key, k) := by
  simp only [noted, exec, h]
  rfl

theorem noted_loadValue (h : k.1.pointer e = some (some p))
    (hvalue : k.1.values.cell p = some value) :
    noted m i (.loadValue e) x k = (some (some p), k.1, k.2.see i p value) := by
  obtain ⟨entry, hcell, hp⟩ := Option.map_eq_some_iff.mp h
  simp only [noted, exec, hcell, Option.map_some, hp, note, hvalue]

theorem noted_storeNext {next : Option Nat} (h : k.1.entries.cell e = some entry) :
    noted m i (.storeNext e next) x k = (some (),
      { k.1 with entries := k.1.entries.modify e fun entry => { entry with next } }, k.2) := by
  simp only [noted, exec, h]
  rfl

theorem noted_casNext {target : Option Nat} {new : Nat} (h : k.1.entries.cell e = some entry) :
    (k.1.next e = target ∧ noted m i (.casNext e target new) x k = (some true,
      { k.1 with entries := k.1.entries.modify e fun entry => { entry with next := some new } },
      (k.2.link m i e new).put i)) ∨
    noted m i (.casNext e target new) x k = (some false, k) := by
  by_cases hnext : entry.next = target
  · refine .inl ⟨?_, ?_⟩
    · rw [Memory.next, h]
      exact hnext
    · simp only [noted, exec, Memory.exchange, h, hnext, if_true]
      rfl
  · refine .inr ?_
    simp only [noted, exec, Memory.exchange, h, hnext, if_false]
    rfl

theorem noted_casValue {old : Option Nat} {new : Nat} (h : k.1.entries.cell e = some entry) :
    (k.1.pointer e = some old ∧ noted m i (.casValue e old new) x k = (some true,
      { k.1 with entries := k.1.entries.modify e fun entry =>
          { entry with valuePtr := some new } }, (k.2.replace i e new old).put i)) ∨
    noted m i (.casValue e old new) x k = (some false, k) := by
  by_cases hold : entry.valuePtr = old
  · refine .inl ⟨?_, ?_⟩
    · rw [Memory.pointer, h]
      exact congrArg some hold
    · simp only [noted, exec, Memory.exchange, h, hold, if_true]
      rfl
  · refine .inr ?_
    simp only [noted, exec, Memory.exchange, h, hold, if_false]
    rfl

theorem noted_deleteValue (h : k.1.values.cell p = some value) :
    noted m i (.deleteValue p) x k =
      (some (), { k.1 with values := k.1.values.delete p }, k.2) := by
  simp only [noted, exec, h]
  rfl

theorem noted_deleteEntry (h : k.1.entries.cell e = some entry) :
    noted m i (.deleteEntry e) x k =
      (some (), { k.1 with entries := k.1.entries.delete e }, k.2) := by
  simp only [noted, exec, h]
  rfl

theorem noted_read (h : k.1.values.cell p = some value) :
    noted m i (.read p) x k =
      (some value, k.1, k.2.setOwn i { k.2.own i with seen := none }) := by
  simp only [noted, exec, h]
  rfl

end Operations

/-! ### What the operations keep -/

section Keeps

variable {ι K V : Type} [DecidableEq ι] [Integral K] [Inhabited V]
variable {m x : Nat} {i : ι} {k : Shared ι K V} {q : Request K V} {e p : Nat} {value : V}

theorem Before.cell (h : Before m k q.key e) (hk : Inv m k) :
    ∃ entry, k.1.entries.cell e = some entry :=
  Option.isSome_iff_exists.mp (hk.kept _ (index_lt m q.key) e h.1).1

theorem keeps_loadNext (hk : Inv m k) (hq : (k.2.own i).requests.head? = some q)
    (heffect : (k.2.own i).effect = none) (he : Before m k q.key e) :
    Inv m (noted m i (.loadNext e) x k).2 ∧
      ∀ j, j ≠ i → Rely m j k (noted m i (.loadNext e) x k).2 := by
  obtain ⟨entry, hcell⟩ := he.cell hk
  rw [noted_loadNext hcell]
  rcases reach_cases hk hq he with ⟨hreach, habsent, _⟩ | ⟨t, _, hat, hreach⟩ | ⟨t, _, _, _, hreach⟩
  · rw [hreach]
    exact keeps_take hk hq heffect fun a ha => apply_missing ha (state_eq_none hk habsent)
  · rw [hreach]
    obtain ⟨value, hstate⟩ := hat.state hk
    exact keeps_take hk hq heffect fun a ha => apply_found ha hstate
  · rw [hreach]
    exact ⟨hk, fun j _ => Rely.refl m j k⟩

omit [Integral K] [Inhabited V] in
theorem see_none {h : History ι K V} (hq : (h.own i).requests.head? = some q)
    (hsees : q.sees value = none) : h.see i p value = h := by
  simp only [History.see, hq, hsees]

omit [Integral K] [Inhabited V] in
theorem see_some {h : History ι K V} {a : Answer V} (hq : (h.own i).requests.head? = some q)
    (hsees : q.sees value = some a) :
    h.see i p value = { h.setOwn i { h.own i with effect := some a, seen := some (p, value) } with
      log := (i, q, a) :: h.log } := by
  simp only [History.see, hq, hsees]

omit [DecidableEq ι] [Integral K] in
theorem sees_of_value {w : V} (h : q.value = some w) : q.sees value = none := by
  cases q <;> first | rfl | cases h

theorem keeps_loadValue (hk : Inv m k) (hp : k.1.pointer e = some (some p))
    (hvalue : k.1.values.cell p = some value) (hq : (k.2.own i).requests.head? = some q)
    (hat : q.value = none → (k.2.own i).effect = none ∧ At m k q.key e) :
    Inv m (noted m i (.loadValue e) x k).2 ∧
      ∀ j, j ≠ i → Rely m j k (noted m i (.loadValue e) x k).2 := by
  rw [noted_loadValue hp hvalue]
  cases hsees : q.sees value with
  | none =>
      rw [see_none hq hsees]
      exact ⟨hk, fun j _ => Rely.refl m j k⟩
  | some a =>
      have hnone : q.value = none := by
        cases hw : q.value with
        | none => rfl
        | some w => exact absurd (hsees.symm.trans (sees_of_value hw)) (Option.some_ne_none a)
      obtain ⟨heffect, hat⟩ := hat hnone
      obtain ⟨p', value', hstored⟩ := hat.stored hk
      obtain rfl : p' = p := Option.some.inj (Option.some.inj (hstored.pointer.symm.trans hp))
      obtain rfl : value' = value := Option.some.inj (hstored.value.symm.trans hvalue)
      exact keeps_answer (o := { k.2.own i with effect := some a, seen := some (p', value') }) hk hq
        heffect ⟨rfl, rfl⟩ (apply_sees hsees hstored.state) (congrArg _ (see_some hq hsees))

theorem keeps_casNext {target : Option Nat} {new : Nat} (hk : Inv m k)
    (hq : (k.2.own i).requests.head? = some q) (heffect : (k.2.own i).effect = none)
    (hv : q.value = some value) (hprev : Before m k q.key e)
    (htarget : ∀ t ∈ target, After m k q.key t) (hdraft : Draft i k new q.key value target) :
    Inv m (noted m i (.casNext e target new) x k).2 ∧
      ∀ j, j ≠ i → Rely m j k (noted m i (.casNext e target new) x k).2 := by
  obtain ⟨entry, hcell⟩ := hprev.cell hk
  rcases noted_casNext hcell with ⟨hnext, h⟩ | h
  · rw [h]
    refine keeps_link hk hq heffect hv hprev htarget hdraft hnext ?_
    have hlink : (k.2.link m i e new).own = k.2.own := by
      rw [History.link, hq]
    rw [History.put, hlink, hq, History.link, hq]
    rfl
  · rw [h]
    exact ⟨hk, fun j _ => Rely.refl m j k⟩

theorem keeps_casValue {old : Option Nat} {new : Nat} (hk : Inv m k)
    (hq : (k.2.own i).requests.head? = some q) (heffect : (k.2.own i).effect = none)
    (hv : q.value = some value) (hat : At m k q.key e) (hnew : k.2.owner new = .thread i)
    (hvalue : k.1.values.cell new = some value) :
    Inv m (noted m i (.casValue e old new) x k).2 ∧
      ∀ j, j ≠ i → Rely m j k (noted m i (.casValue e old new) x k).2 := by
  obtain ⟨p, w, hstored⟩ := hat.stored hk
  obtain ⟨entry, hcell⟩ := Option.isSome_iff_exists.mp (hk.kept _ (index_lt m q.key) e hat.1).1
  rcases noted_casValue hcell with ⟨hold, h⟩ | h
  · obtain rfl : some p = old := Option.some.inj (hstored.pointer.symm.trans hold)
    rw [h]
    refine keeps_replace hk hq heffect hv hat hstored hnew hvalue ?_
    have hreplace : (k.2.replace i e new (some p)).own = k.2.own := rfl
    rw [History.put, hreplace, hq]
    rfl
  · rw [h]
    exact ⟨hk, fun j _ => Rely.refl m j k⟩

theorem keeps_newValue (hk : Inv m k) :
    Inv m (noted m i (.newValue value) x k).2 ∧
      ∀ j, j ≠ i → Rely m j k (noted m i (.newValue value) x k).2 := by
  refine keeps_private hk rfl rfl rfl (fun e entry _ hcell => ⟨rfl, hcell⟩)
    (fun p v _ hv => ⟨Function.update_of_ne ?_ _ _, Heap.alloc_of_some hv⟩)
    (fun j p v _ _ hv => Heap.alloc_of_some hv)
  exact Heap.ne_place hv

theorem keeps_newEntry {key : K} (hk : Inv m k) (hp : k.2.owner p = .thread i) :
    Inv m (noted m i (.newEntry key p) x k).2 ∧
      ∀ j, j ≠ i → Rely m j k (noted m i (.newEntry key p) x k).2 := by
  refine keeps_private hk rfl rfl rfl
    (fun e entry _ hcell => ⟨Function.update_of_ne ?_ _ _, Heap.alloc_of_some hcell⟩)
    (fun p' v hp' hv => ⟨Function.update_of_ne ?_ _ _, hv⟩) (fun j p v _ _ hv => hv)
  · exact Heap.ne_place hcell
  · rintro rfl
    exact hp' (.inl hp)

theorem keeps_storeNext {next : Option Nat} (hk : Inv m k) (he : k.2.holder e = some i)
    (hcell : (k.1.entries.cell e).isSome) :
    Inv m (noted m i (.storeNext e next) x k).2 ∧
      ∀ j, j ≠ i → Rely m j k (noted m i (.storeNext e next) x k).2 := by
  obtain ⟨entry, hcell⟩ := Option.isSome_iff_exists.mp hcell
  rw [noted_storeNext hcell]
  refine keeps_private hk rfl rfl rfl (fun e' entry' he' hcell' => ⟨rfl, ?_⟩)
    (fun p v _ hv => ⟨rfl, hv⟩) (fun j p v _ _ hv => hv)
  refine (Heap.modify_of_ne ?_).trans hcell'
  rintro rfl
  exact he' he

theorem keeps_deleteEntry (hk : Inv m k) (he : k.2.holder e = some i)
    (hcell : (k.1.entries.cell e).isSome) :
    Inv m (noted m i (.deleteEntry e) x k).2 ∧
      ∀ j, j ≠ i → Rely m j k (noted m i (.deleteEntry e) x k).2 := by
  obtain ⟨entry, hcell⟩ := Option.isSome_iff_exists.mp hcell
  rw [noted_deleteEntry hcell]
  refine keeps_private hk rfl rfl rfl (fun e' entry' he' hcell' => ⟨rfl, ?_⟩)
    (fun p v _ hv => ⟨rfl, hv⟩) (fun j p v _ _ hv => hv)
  refine (Heap.delete_of_ne ?_).trans hcell'
  rintro rfl
  exact he' he

theorem keeps_deleteValue (hk : Inv m k) (hp : Mine i k p) (hcell : (k.1.values.cell p).isSome)
    (hfree : ∀ j, ¬ Copying (k.2.own j) p) :
    Inv m (noted m i (.deleteValue p) x k).2 ∧
      ∀ j, j ≠ i → Rely m j k (noted m i (.deleteValue p) x k).2 := by
  obtain ⟨value, hcell⟩ := Option.isSome_iff_exists.mp hcell
  rw [noted_deleteValue hcell]
  refine keeps_private hk rfl rfl rfl (fun e entry _ hcell => ⟨rfl, hcell⟩)
    (fun p' v hp' hv => ⟨rfl, (Heap.delete_of_ne ?_).trans hv⟩)
    (fun j p' v _ hj hv => (Heap.delete_of_ne ?_).trans hv)
  · rintro rfl
    exact hp' hp
  · rintro rfl
    exact hfree j hj

theorem keeps {o : Op K V} {r : Unit} (hk : Inv m k) (hpre : Pre m i r o k)
    (hcond : Cond i r o x k) :
    Inv m (noted m i o x k).2 ∧ ∀ j, j ≠ i → Rely m j k (noted m i o x k).2 := by
  cases o with
  | loadNext e =>
      obtain ⟨q, hq, heffect, he⟩ := hpre
      exact keeps_loadNext hk hq heffect he
  | key e =>
      obtain ⟨entry, hcell⟩ := Option.isSome_iff_exists.mp hpre
      rw [noted_key hcell]
      exact ⟨hk, fun j _ => Rely.refl m j k⟩
  | loadValue e =>
      obtain ⟨⟨p, value, hp, hvalue⟩, q, hq, hat⟩ := hpre
      exact keeps_loadValue hk hp hvalue hq hat
  | read p =>
      obtain ⟨value, hcell⟩ := Option.isSome_iff_exists.mp hpre
      rw [noted_read hcell]
      exact keeps_forget (o := { k.2.own i with seen := none }) hk ⟨rfl, rfl⟩ rfl
  | newValue value => exact keeps_newValue hk
  | newEntry key p => exact keeps_newEntry hk hpre
  | storeNext e next => exact keeps_storeNext hk hpre.1 hpre.2
  | casNext e target new =>
      obtain ⟨q, value, hq, heffect, hv, hprev, htarget, hdraft⟩ := hpre
      exact keeps_casNext hk hq heffect hv hprev htarget hdraft
  | casValue e old new =>
      obtain ⟨q, value, hq, heffect, hv, hat, hnew, hvalue⟩ := hpre
      exact keeps_casValue hk hq heffect hv hat hnew hvalue
  | deleteValue p => exact keeps_deleteValue hk hpre.1 hpre.2 hcond
  | deleteEntry e => exact keeps_deleteEntry hk hpre.1 hpre.2

variable (ι K V) in
/-- Nobody touches memory that is free. -/
def protocol (m : Nat) : Protocol (sig K V) ι Unit (Shared ι K V) Nat (noted m) where
  Inv := Inv m
  Rely := Rely m
  Cond := Cond
  Pre := Pre m
  Crash := False
  Hang _ _ := True
  refl := Rely.refl m
  trans := Rely.trans
  hang_stable h _ := h
  keeps hk hpre hcond := keeps hk hpre hcond

end Keeps

/-! ### What `Has` and `Find` keep to -/

section Lookup

variable {ι K V : Type} [DecidableEq ι] [Integral K] [Inhabited V]
variable {m : Nat} {i : ι} {k l : Shared ι K V} {q : Request K V} {o : Own K V}
variable {b e t : Nat} {key : K} {target : Option Nat} {F : Shared ι K V → Prop} {R : Prop}

theorem op_safe {op : Op K V} {Q : Unit → Yield op → Shared ι K V → Prop}
    (hpre : ∀ l, Rely m i k l → Inv m l → Pre m i () op l)
    (hQ : ∀ x l, Rely m i k l → Inv m l → Inv m (noted m i op x l).2 →
      ∃ a, (noted m i op x l).1 = some a ∧ Q () a (noted m i op x l).2) :
    (protocol ι K V m).Safe i Q (op.get ()) k := by
  rw [Op.get, Protocol.safe_seq]
  refine Protocol.safe_ask fun l hkl hl => ⟨hpre l hkl hl, fun x hx => ?_⟩
  obtain ⟨a, ha, hQ⟩ := hQ x l hkl hl ((protocol ι K V m).keeps hl (hpre l hkl hl) hx).1
  rw [Protocol.safe_deref, ha]
  exact ⟨fun a' ha' => Option.some.inj ha' ▸ hQ, fun h => absurd h (Option.some_ne_none a)⟩

theorem key_safe {Q : Unit → K → Shared ι K V → Prop} (hb : b < 2 ^ m) (hmem : t ∈ k.2.nodes b)
    (hkey : k.1.key t = some key) (hQ : ∀ l, Rely m i k l → Inv m l → Q () key l) :
    (protocol ι K V m).Safe i Q ((Op.key t).get ()) k := by
  refine op_safe (fun l hkl hl => (hl.kept b hb t (hkl.nodes b hmem)).1) fun x l hkl hl _ => ?_
  obtain ⟨entry, hcell, rfl⟩ := Option.map_eq_some_iff.mp ((hkl.key b hb t hmem).trans hkey)
  rw [noted_key hcell]
  exact ⟨entry.key, rfl, hQ l hkl hl⟩

omit [Integral K] [Inhabited V] in
theorem own_take {h : History ι K V} {a : Option (Answer V)} (heffect : (h.own i).effect = none) :
    (h.take i q a).own i = { h.own i with effect := a } := by
  cases a with
  | none =>
      show h.own i = { requests := (h.own i).requests, effect := none, seen := (h.own i).seen }
      rw [← heffect]
  | some a => exact Function.update_self ..

omit [Integral K] [Inhabited V] in
theorem subset_take {h : History ι K V} {a : Option (Answer V)} :
    h.nodes b ⊆ (h.take i q a).nodes b := by
  cases a <;> exact List.Subset.refl _

variable (m i q F R) in
/-- What the caller of a search knows, `F`, and what it can tell from it, `R`, where the key is
missing. -/
structure Frame : Prop where
  rely : ∀ k l, F k → Rely m i k l → F l
  take : ∀ k a, a = q.missing ∨ a = q.found → F k → F (k.1, k.2.take i q a)
  absent : ∀ k, F k → (∀ e, ¬ At m k q.key e) → R

variable (m i q o R) in
/-- What a thread knows when it has loaded a pointer behind an entry that comes before its key. -/
inductive Look (k : Shared ι K V) : Option Nat → Prop
  | missing {target : Option Nat} (own : k.2.own i = { o with effect := q.missing })
      (absent : R) (after : ∀ t ∈ target, After m k q.key t) : Look k target
  | found {t : Nat} (own : k.2.own i = { o with effect := q.found }) (here : At m k q.key t) :
      Look k (some t)
  | before {t : Nat} (own : k.2.own i = o) (before : Before m k q.key t)
      (ne : t ≠ index m q.key) : Look k (some t)

theorem Look.cases (h : Look m i q o R k (some t)) (hk : Inv m k) :
    ∃ key, t ∈ k.2.nodes (index m q.key) ∧ k.1.key t = some key ∧
      (q.key < key ∧ R ∧ k.2.own i = { o with effect := q.missing } ∧ After m k q.key t ∨
        key = q.key ∧ k.2.own i = { o with effect := q.found } ∧ At m k q.key t ∨
        key < q.key ∧ k.2.own i = o ∧ Before m k q.key t) := by
  cases h with
  | missing hown habsent hafter =>
      have hafter := hafter t rfl
      have hne : t ≠ index m q.key := by
        rintro rfl
        exact not_lt_bot (rank_head (s := k.1) ▸ hafter.2)
      obtain ⟨key, hrank⟩ := exists_rank hk (index_lt m q.key) hafter.1 hne
      refine ⟨key, hafter.1, (rank_eq_coe.mp hrank).2, .inl ⟨?_, habsent, hown, hafter⟩⟩
      exact WithBot.coe_lt_coe.mp (hafter.2.trans_eq hrank)
  | found hown hat =>
      exact ⟨q.key, hat.1, (rank_eq_coe.mp hat.2).2, .inr (.inl ⟨rfl, hown, hat⟩)⟩
  | before hown hbefore hne =>
      obtain ⟨key, hrank⟩ := exists_rank hk (index_lt m q.key) hbefore.1 hne
      refine ⟨key, hbefore.1, (rank_eq_coe.mp hrank).2, .inr (.inr ⟨?_, hown, hbefore⟩)⟩
      exact WithBot.coe_lt_coe.mp (hrank.symm.trans_lt hbefore.2)

theorem loadNext_safe {Q : Unit → Option Nat → Shared ι K V → Prop} (hF : Frame m i q F R)
    (hk : F k) (hown : k.2.own i = o) (hq : o.requests.head? = some q) (heffect : o.effect = none)
    (he : Before m k q.key e)
    (hQ : ∀ target l, Inv m l → F l → Before m l q.key e → Look m i q o R l target →
      Q () target l) :
    (protocol ι K V m).Safe i Q ((Op.loadNext e).get ()) k := by
  have hpre : ∀ l, Rely m i k l → (l.2.own i).requests.head? = some q ∧
      (l.2.own i).effect = none ∧ Before m l q.key e := by
    intro l hkl
    rw [hkl.own, hown]
    exact ⟨hq, heffect, hkl.before he⟩
  refine op_safe (fun l hkl hl => ⟨q, hpre l hkl⟩) fun x l hkl hl hl' => ?_
  obtain ⟨hq', heffect', he'⟩ := hpre l hkl
  have hown' : l.2.own i = o := hkl.own.trans hown
  have hl₀ : F l := hF.rely k l hk hkl
  obtain ⟨entry, hcell⟩ := he'.cell hl
  have hnext : l.1.next e = entry.next := by
    rw [Memory.next, hcell]
    rfl
  have htake : ∀ a, (l.2.take i q a).own i = { o with effect := a } := fun a => by
    rw [own_take heffect', hown']
  rw [noted_loadNext hcell] at hl' ⊢
  refine ⟨entry.next, rfl, ?_⟩
  rcases reach_cases hl hq' he' with ⟨hreach, habsent, hafter⟩ | ⟨t, ht, hat, hreach⟩ |
    ⟨t, ht, hbefore, hne, hreach⟩
  · rw [hreach] at hl' ⊢
    refine hQ _ _ hl' (hF.take l _ (.inl rfl) hl₀) (he'.congr subset_take rfl)
      (.missing (htake _) (hF.absent l hl₀ habsent) fun t ht => ?_)
    exact (hafter t (hnext ▸ ht)).congr subset_take rfl
  · rw [hreach] at hl' ⊢
    rw [← hnext, ht]
    exact hQ _ _ hl' (hF.take l _ (.inr rfl) hl₀) (he'.congr subset_take rfl)
      (.found (htake _) (hat.congr subset_take rfl))
  · rw [hreach] at hl' ⊢
    rw [← hnext, ht]
    exact hQ _ _ hl' hl₀ he' (.before hown' hbefore hne)

omit [Inhabited V] in
/-- Who knows nothing. -/
theorem frame_true : Frame m i q (fun _ => True) True :=
  ⟨fun _ _ _ _ => trivial, fun _ _ _ _ => trivial, fun _ _ _ => trivial⟩

theorem hasFrom_safe {left : Nat} {Q : Unit → Bool → Shared ι K V → Prop} (hk : Inv m k)
    (hq : o.requests.head? = some (.has key)) (heffect : o.effect = none)
    (hlook : Look m i (.has key) o True k target)
    (hQ : ∀ b l, l.2.own i = { o with effect := some (.has b) } → Q () b l) :
    (protocol ι K V m).Safe i Q (hasFrom key left target ()) k := by
  induction left generalizing target k with
  | zero => trivial
  | succ left ih =>
      cases target with
      | none =>
          cases hlook with
          | missing hown _ _ => exact hQ false k hown
      | some t =>
          obtain ⟨kt, hmem, hkey, hcases⟩ := hlook.cases hk
          simp only [hasFrom, Protocol.safe_seq]
          refine key_safe (index_lt m key) hmem hkey fun l hkl hl => ?_
          simp only [Protocol.safe_ite, Protocol.safe_seq, Protocol.safe_pure]
          refine ⟨fun hlt => ?_, fun hge => ?_⟩
          · rcases hcases with ⟨hgt, _⟩ | ⟨heq, _⟩ | ⟨_, hown, hbefore⟩
            · exact absurd hlt hgt.not_gt
            · exact absurd heq hlt.ne
            · exact loadNext_safe frame_true trivial (hkl.own.trans hown) hq heffect
                (hkl.before hbefore) fun target l' hl' _ _ hlook => ih hl' hlook
          · rcases hcases with ⟨hgt, _, hown, _⟩ | ⟨heq, hown, _⟩ | ⟨hlt, _⟩
            · have hne : (kt == key) = false := beq_eq_false_iff_ne.mpr hgt.ne'
              rw [hne]
              exact hQ false l (hkl.own.trans hown)
            · have heq : (kt == key) = true := beq_iff_eq.mpr heq
              rw [heq]
              exact hQ true l (hkl.own.trans hown)
            · exact absurd hlt hge

theorem head_before (hk : Inv m k) : Before m k key (index m key) :=
  ⟨head_mem hk (index_lt m key), by rw [rank_head]; exact WithBot.bot_lt_coe key⟩

theorem has_safe {left : Nat} {Q : Unit → Bool → Shared ι K V → Prop} (hk : Inv m k)
    (hown : k.2.own i = o) (hq : o.requests.head? = some (.has key)) (heffect : o.effect = none)
    (hQ : ∀ b l, l.2.own i = { o with effect := some (.has b) } → Q () b l) :
    (protocol ι K V m).Safe i Q (has left (index m key) key ()) k := by
  simp only [has, Protocol.safe_seq]
  exact loadNext_safe frame_true trivial hown hq heffect (head_before hk)
    fun target l hl _ _ hlook => hasFrom_safe hl hq heffect hlook hQ

theorem findFrom_safe {left prev : Nat} {Q : Unit → Bool × Nat × Option Nat → Shared ι K V → Prop}
    (hF : Frame m i q F R) (hk : Inv m k) (hFk : F k) (hq : o.requests.head? = some q)
    (heffect : o.effect = none) (hprev : Before m k q.key prev) (hlook : Look m i q o R k target)
    (hmissing : ∀ prev target l, Inv m l → F l → R → l.2.own i = { o with effect := q.missing } →
      Before m l q.key prev → (∀ t ∈ target, After m l q.key t) → Q () (false, prev, target) l)
    (hfound : ∀ prev t l, Inv m l → F l → l.2.own i = { o with effect := q.found } →
      At m l q.key t → Q () (true, prev, some t) l) :
    (protocol ι K V m).Safe i Q (findFrom q.key left prev target ()) k := by
  induction left generalizing prev target k with
  | zero => trivial
  | succ left ih =>
      cases target with
      | none =>
          cases hlook with
          | missing hown habsent hafter =>
              exact hmissing prev none k hk hFk habsent hown hprev hafter
      | some t =>
          obtain ⟨kt, hmem, hkey, hcases⟩ := hlook.cases hk
          simp only [findFrom, Protocol.safe_seq]
          refine key_safe (index_lt m q.key) hmem hkey fun l hkl hl => ?_
          have hFl : F l := hF.rely k l hFk hkl
          simp only [Protocol.safe_ite, Protocol.safe_seq, Protocol.safe_pure]
          rcases hcases with ⟨hgt, habsent, hown, hafter⟩ | ⟨heq, hown, hat⟩ | ⟨hlt, hown, hbefore⟩
          · refine ⟨fun heq => absurd heq hgt.ne', fun _ => ⟨fun _ => ?_, fun h => absurd hgt h⟩⟩
            refine hmissing prev (some t) l hl hFl habsent (hkl.own.trans hown) (hkl.before hprev)
              fun x hx => ?_
            obtain rfl := Option.some.inj hx
            exact hkl.after hafter
          · exact ⟨fun _ => hfound prev t l hl hFl (hkl.own.trans hown) (hkl.at hat),
              fun h => absurd heq h⟩
          · refine ⟨fun heq => absurd heq hlt.ne,
              fun _ => ⟨fun h => absurd hlt h.not_gt, fun _ => ?_⟩⟩
            exact loadNext_safe hF hFl (hkl.own.trans hown) hq heffect (hkl.before hbefore)
              fun target l' hl' hFl' hprev' hlook' => ih hl' hFl' hprev' hlook'

theorem find_safe {left : Nat} {Q : Unit → Bool × Nat × Option Nat → Shared ι K V → Prop}
    (hF : Frame m i q F R) (hk : Inv m k) (hFk : F k) (hown : k.2.own i = o)
    (hq : o.requests.head? = some q) (heffect : o.effect = none)
    (hmissing : ∀ prev target l, Inv m l → F l → R → l.2.own i = { o with effect := q.missing } →
      Before m l q.key prev → (∀ t ∈ target, After m l q.key t) → Q () (false, prev, target) l)
    (hfound : ∀ prev t l, Inv m l → F l → l.2.own i = { o with effect := q.found } →
      At m l q.key t → Q () (true, prev, some t) l) :
    (protocol ι K V m).Safe i Q (find left (index m q.key) q.key ()) k := by
  simp only [find, Protocol.safe_seq]
  exact loadNext_safe hF hFk hown hq heffect (head_before hk) fun target l hl hFl hprev hlook =>
    findFrom_safe hF hl hFl hq heffect hprev hlook hmissing hfound

end Lookup

/-! ### What `Get` keeps to -/

section Gets

variable {ι K V : Type} [DecidableEq ι] [Integral K] [Inhabited V]
variable {m : Nat} {i : ι} {k l : Shared ι K V} {q : Request K V} {o : Own K V}
variable {e t : Nat} {key : K} {left : Nat}

theorem At.pointer (h : At m k q.key e) (hk : Inv m k) :
    ∃ p value, k.1.pointer e = some (some p) ∧ k.1.values.cell p = some value := by
  obtain ⟨p, value, hstored⟩ := h.stored hk
  exact ⟨p, value, hstored.pointer, hstored.value⟩

omit [DecidableEq ι] [Integral K] [Inhabited V] in
/-- Nothing is known yet. -/
theorem own_none (heffect : o.effect = none) : { o with effect := none } = o := by
  show Own.mk o.requests none o.seen = o
  rw [← heffect]

theorem getPtr_safe {Q : Unit → Option (Option Nat) → Shared ι K V → Prop} (hk : Inv m k)
    (hown : k.2.own i = o) (hq : o.requests.head? = some q) (heffect : o.effect = none)
    (hfound : q.found = none) (hmissing : q.missing = some (.got none))
    (hsees : ∀ value, q.sees value = some (.got (some value)))
    (hnone : ∀ l, l.2.own i = { o with effect := some (.got none) } → Q () none l)
    (hsome : ∀ p value l, l.1.values.cell p = some value →
      l.2.own i = { o with effect := some (.got (some value)), seen := some (p, value) } →
      Q () (some (some p)) l) :
    (protocol ι K V m).Safe i Q (getPtr left (index m q.key) q.key ()) k := by
  simp only [getPtr, Protocol.safe_seq]
  refine find_safe frame_true hk trivial hown hq heffect
    (fun prev target l _ _ _ hown _ _ => ?_) fun prev t l hl _ hown hat => ?_
  · rw [hmissing] at hown
    exact hnone l hown
  · rw [hfound, own_none heffect] at hown
    simp only [if_true, Protocol.safe_seq, Protocol.safe_deref, Protocol.safe_pure]
    refine ⟨fun t' ht => ?_, fun h => absurd h (Option.some_ne_none t)⟩
    obtain rfl := Option.some.inj ht
    refine op_safe (fun n hln hn => ⟨(hln.at hat).pointer hn, q, ?_, fun _ => ⟨?_, hln.at hat⟩⟩)
      fun x n hln hn _ => ?_
    · rw [hln.own, hown, hq]
    · rw [hln.own, hown, heffect]
    · obtain ⟨p, value, hp, hvalue⟩ := (hln.at hat).pointer hn
      have hq' : (n.2.own i).requests.head? = some q := by rw [hln.own, hown, hq]
      rw [noted_loadValue hp hvalue, see_some hq' (hsees value)]
      refine ⟨some p, rfl, hsome p value _ hvalue ?_⟩
      show Function.update n.2.own i _ i = _
      rw [Function.update_self, hln.own, hown]

theorem get_safe {Q : Unit → Option V → Shared ι K V → Prop} (hk : Inv m k)
    (hown : k.2.own i = o) (hq : o.requests.head? = some (.get key)) (heffect : o.effect = none)
    (hQ : ∀ value l, (l.2.own i).effect = some (.got value) → Q () value l) :
    (protocol ι K V m).Safe i Q (get left (index m key) key ()) k := by
  simp only [get, Protocol.safe_seq]
  refine getPtr_safe (q := .get key) hk hown hq heffect rfl rfl (fun _ => rfl)
    (fun l hown => hQ none l (by rw [hown])) fun p value l hvalue hown => ?_
  simp only [Protocol.safe_seq, Protocol.safe_deref, Protocol.safe_pure]
  refine ⟨fun p' hp => ?_, fun h => absurd h (Option.some_ne_none p)⟩
  obtain rfl := Option.some.inj hp
  -- nothing is deleted that is not yet copied
  have hcopying : Copying (l.2.own i) p := by
    rw [hown]
    exact ⟨⟨value, rfl⟩, key, hq⟩
  have hcell : ∀ n, Rely m i l n → n.1.values.cell p = some value := fun n hln =>
    hln.seen p value hcopying hvalue
  refine op_safe (fun n hln _ => by rw [Pre, hcell n hln]; rfl) fun x n hln _ _ => ?_
  rw [noted_read (hcell n hln)]
  refine ⟨value, rfl, hQ (some value) _ ?_⟩
  show (Function.update n.2.own i { n.2.own i with seen := none } i).effect = _
  rw [Function.update_self, hln.own, hown]

end Gets

/-! ### What `Set` keeps to -/

section Sets

variable {ι K V : Type} [DecidableEq ι] [Integral K] [Inhabited V]
variable {m : Nat} {i : ι} {k l : Shared ι K V} {q : Request K V} {o : Own K V}
variable {e p : Nat} {key : K} {value : V} {next : Option Nat}
variable {newEntry newValue : Option Nat}

omit [DecidableEq ι] [Integral K] [Inhabited V] in
theorem Draft.congr (h : Draft i k e key value next)
    (hcell : l.1.entries.cell e = k.1.entries.cell e) (hholder : l.2.holder e = k.2.holder e)
    (hvalue : ∀ p, k.2.owner p = .entry e → k.1.values.cell p = some value →
      l.2.owner p = .entry e ∧ l.1.values.cell p = some value) : Draft i l e key value next := by
  obtain ⟨p, hentry, howner, hcell'⟩ := h.cell
  exact ⟨⟨p, hcell.trans hentry, hvalue p howner hcell'⟩, hholder.trans h.holder⟩

/-- What a `Set` has made and not yet put in the map: once there is a new value, the key has
been found. -/
structure Holding (m : Nat) (i : ι) (k : Shared ι K V) (q : Request K V) (value : V)
    (newEntry newValue : Option Nat) : Prop where
  entry : ∀ e ∈ newEntry, ∃ next, Draft i k e q.key value next
  value : ∀ p ∈ newValue, k.2.owner p = .thread i ∧ k.1.values.cell p = some value
  found : newValue.isSome → ∃ x, At m k q.key x

omit [DecidableEq ι] [Inhabited V] in
theorem Rely.holding (h : Rely m i k l) (hk : Holding m i k q value newEntry newValue) :
    Holding m i l q value newEntry newValue where
  entry e he := by
    obtain ⟨next, hdraft⟩ := hk.entry e he
    exact ⟨next, h.draft hdraft⟩
  value p hp := by
    obtain ⟨howner, hvalue⟩ := hk.value p hp
    obtain ⟨hvalue, howner'⟩ := h.value p value (.inl howner) hvalue
    exact ⟨howner'.trans howner, hvalue⟩
  found hp := by
    obtain ⟨x, hx⟩ := hk.found hp
    exact ⟨x, h.at hx⟩

theorem deleteValue_safe {Q : Unit → Unit → Shared ι K V → Prop}
    (hp : Mine i k p) (hcell : (k.1.values.cell p).isSome)
    (hQ : ∀ l, Rely m i k l → Inv m ({ l.1 with values := l.1.values.delete p }, l.2) →
      Q () () ({ l.1 with values := l.1.values.delete p }, l.2)) :
    (protocol ι K V m).Safe i Q (deleteValue (some p) ()) k := by
  obtain ⟨value, hcell⟩ := Option.isSome_iff_exists.mp hcell
  have hvalue : ∀ l, Rely m i k l → l.1.values.cell p = some value := fun l hkl =>
    (hkl.value p value hp hcell).1
  refine op_safe (fun l hkl _ => ⟨hkl.mine hp hcell, by rw [hvalue l hkl]; rfl⟩)
    fun x l hkl _ hl' => ?_
  rw [noted_deleteValue (hvalue l hkl)] at hl' ⊢
  exact ⟨(), rfl, hQ l hkl hl'⟩

/-- A new entry that is not needed is deleted, with its value. -/
theorem deleteEntry_safe {Q : Unit → Unit → Shared ι K V → Prop} (hown : k.2.own i = o)
    (hq : o.requests.head? = some q) (hv : q.value = some value)
    (hdraft : ∀ e ∈ newEntry, ∃ next, Draft i k e q.key value next)
    (hQ : ∀ l, l.2.own i = o → Q () () l) :
    (protocol ι K V m).Safe i Q (deleteEntry newEntry ()) k := by
  cases newEntry with
  | none => exact hQ k hown
  | some e =>
      obtain ⟨next, hdraft⟩ := hdraft e rfl
      simp only [deleteEntry, Protocol.safe_seq]
      have hpointer : ∀ l, Rely m i k l → ∃ p, l.1.pointer e = some (some p) ∧
          l.1.values.cell p = some value ∧ Mine i l p ∧ l.2.owner p = .entry e := by
        intro l hkl
        obtain ⟨p, hcell, howner, hvalue, hmine⟩ := (hkl.draft hdraft).mine
        exact ⟨p, by rw [Memory.pointer, hcell]; rfl, hvalue, hmine, howner⟩
      have hrequest : ∀ l, Rely m i k l → (l.2.own i).requests.head? = some q := fun l hkl => by
        rw [hkl.own, hown, hq]
      refine op_safe (fun l hkl _ => ?_) fun x l hkl _ _ => ?_
      · obtain ⟨p, hp, hvalue, _⟩ := hpointer l hkl
        refine ⟨⟨p, value, hp, hvalue⟩, q, hrequest l hkl, fun hnone => ?_⟩
        exact absurd (hv.symm.trans hnone) (Option.some_ne_none value)
      · obtain ⟨p, hp, hvalue, hmine, howner⟩ := hpointer l hkl
        rw [noted_loadValue hp hvalue, see_none (hrequest l hkl) (sees_of_value hv)]
        refine ⟨some p, rfl, ?_⟩
        refine deleteValue_safe hmine (by rw [hvalue]; rfl) fun n hln _ => ?_
        have hentry : ∀ s, Rely m i ({ n.1 with values := n.1.values.delete p }, n.2) s →
            s.2.holder e = some i ∧ (s.1.entries.cell e).isSome := by
          intro s hns
          have hdraft := hln.draft (hkl.draft hdraft)
          obtain ⟨p', hcell, _⟩ := hdraft.cell
          obtain ⟨hholder, hcell⟩ := hns.entry e _ hdraft.holder hcell
          exact ⟨hholder, by rw [hcell]; rfl⟩
        refine op_safe (fun s hns _ => hentry s hns) fun x s hns _ _ => ?_
        obtain ⟨entry, hcell⟩ := Option.isSome_iff_exists.mp (hentry s hns).2
        rw [noted_deleteEntry hcell]
        exact ⟨(), rfl, hQ _ (hns.own.trans (hln.own.trans (hkl.own.trans hown)))⟩

theorem makeValue_safe {after : V → V} {rest : V} {Q : Unit → Nat × V → Shared ι K V → Prop}
    (hk : Inv m k) (hold : Holding m i k q value newEntry newValue)
    (hat : At m k q.key e) (hrest : newValue = none → rest = value)
    (hQ : ∀ p rest' l, Inv m l → l.2.own i = k.2.own i → At m l q.key e →
      Holding m i l q value newEntry (some p) → Q () (p, rest') l) :
    (protocol ι K V m).Safe i Q (makeValue after rest newValue ()) k := by
  cases newValue with
  | some p => exact hQ p rest k hk rfl hat hold
  | none =>
      obtain rfl := hrest rfl
      simp only [makeValue, Protocol.safe_seq, Protocol.safe_pure]
      refine op_safe (fun _ _ _ => trivial) fun x l hkl hl hl' => ?_
      have hat' := (hkl.at hat)
      refine ⟨l.1.values.place x, rfl, hQ _ _ _ hl' hkl.own (hat'.congr (List.Subset.refl _) rfl)
        ⟨fun d hd => ?_, fun p hp => ?_, fun _ => ⟨e, hat'.congr (List.Subset.refl _) rfl⟩⟩⟩
      · obtain ⟨next, hdraft⟩ := (hkl.holding hold).entry d hd
        refine ⟨next, hdraft.congr rfl rfl fun p howner hvalue => ⟨?_, Heap.alloc_of_some hvalue⟩⟩
        exact (Function.update_of_ne (Heap.ne_place hvalue) _ _).trans howner
      · obtain rfl := Option.some.inj hp
        exact ⟨Function.update_self .., Heap.alloc_self⟩

theorem makeEntry_safe {Q : Unit → Nat → Shared ι K V → Prop}
    (hk : Inv m k) (hdraft : ∀ e ∈ newEntry, ∃ next, Draft i k e q.key value next)
    {prev : Nat} {target : Option Nat} (hprev : Before m k q.key prev)
    (hafter : ∀ t ∈ target, After m k q.key t)
    (hQ : ∀ e next l, Inv m l → l.2.own i = k.2.own i → Before m l q.key prev →
      (∀ t ∈ target, After m l q.key t) → Draft i l e q.key value next → Q () e l) :
    (protocol ι K V m).Safe i Q (makeEntry q.key value newEntry ()) k := by
  cases newEntry with
  | some e =>
      obtain ⟨next, hdraft⟩ := hdraft e rfl
      exact hQ e next k hk rfl hprev hafter hdraft
  | none =>
      simp only [makeEntry, Protocol.safe_seq]
      refine op_safe (fun _ _ _ => trivial) fun x l hkl _ _ => ⟨l.1.values.place x, rfl, ?_⟩
      have hmade : ∀ n, Rely m i (noted m i (.newValue value) x l).2 n →
          n.1.values.cell (l.1.values.place x) = some value ∧
            n.2.owner (l.1.values.place x) = .thread i := by
        intro n hln
        have howner : (noted m i (.newValue value) x l).2.2.owner (l.1.values.place x) =
            .thread i := Function.update_self ..
        obtain ⟨hvalue, howner'⟩ := hln.value _ value (.inl howner) Heap.alloc_self
        exact ⟨hvalue, howner'.trans howner⟩
      refine op_safe (fun n hln _ => (hmade n hln).2) fun y n hln hn hn' => ?_
      have hprev' : Before m n q.key prev :=
        hln.before ((hkl.before hprev).congr (List.Subset.refl _) rfl)
      have hafter' : ∀ t ∈ target, After m n q.key t := fun t ht =>
        hln.after ((hkl.after (hafter t ht)).congr (List.Subset.refl _) rfl)
      have hkept := fun z hz => (hn.kept _ (index_lt m q.key) z hz).1
      refine ⟨n.1.entries.place y, rfl, hQ _ none _ hn' (hln.own.trans hkl.own)
        (hprev'.congr (List.Subset.refl _) (key_alloc (hkept prev hprev'.1)))
        (fun t ht => (hafter' t ht).congr (List.Subset.refl _)
          (key_alloc (hkept t (hafter' t ht).1)))
        ⟨⟨l.1.values.place x, Heap.alloc_self, Function.update_self .., (hmade n hln).1⟩,
          Function.update_self ..⟩⟩

theorem storeNext_safe {Q : Unit → Unit → Shared ι K V → Prop} {prev : Nat} {target : Option Nat}
    (hprev : Before m k q.key prev) (hafter : ∀ t ∈ target, After m k q.key t)
    (hdraft : Draft i k e q.key value next)
    (hQ : ∀ l, l.2.own i = k.2.own i → Before m l q.key prev → (∀ t ∈ target, After m l q.key t) →
      Draft i l e q.key value target → Q () () l) :
    (protocol ι K V m).Safe i Q ((Op.storeNext e target).get ()) k := by
  have hcell : ∀ l, Rely m i k l → l.2.holder e = some i ∧ (l.1.entries.cell e).isSome := by
    intro l hkl
    have hdraft := hkl.draft hdraft
    obtain ⟨p, hcell, _⟩ := hdraft.cell
    exact ⟨hdraft.holder, by rw [hcell]; rfl⟩
  refine op_safe (fun l hkl _ => hcell l hkl) fun x l hkl _ _ => ?_
  obtain ⟨entry, hentry⟩ := Option.isSome_iff_exists.mp (hcell l hkl).2
  have hdraft := hkl.draft hdraft
  obtain ⟨p, hcell, howner, hvalue⟩ := hdraft.cell
  have hkey : ∀ z, Memory.key { l.1 with entries := l.1.entries.modify e fun entry =>
      { entry with next := target } } z = l.1.key z := fun z => Heap.map_modify fun _ => rfl
  rw [noted_storeNext hentry]
  refine ⟨(), rfl, hQ _ hkl.own ((hkl.before hprev).congr (List.Subset.refl _) (hkey prev))
    (fun t ht => (hkl.after (hafter t ht)).congr (List.Subset.refl _) (hkey t))
    ⟨⟨p, Heap.modify_self hcell, howner, hvalue⟩, hdraft.holder⟩⟩

theorem casNext_safe {Q : Unit → Bool → Shared ι K V → Prop} {prev : Nat} {target : Option Nat}
    (hown : k.2.own i = o) (hq : o.requests.head? = some q) (heffect : o.effect = none)
    (hv : q.value = some value) (hprev : Before m k q.key prev)
    (hafter : ∀ t ∈ target, After m k q.key t) (hdraft : Draft i k e q.key value target)
    (hswapped : ∀ l, l.2.own i = { o with effect := some .set } → Q () true l)
    (hfailed : ∀ l, Inv m l → l.2.own i = o → Draft i l e q.key value target → Q () false l) :
    (protocol ι K V m).Safe i Q ((Op.casNext prev target e).get ()) k := by
  have hown' : ∀ l, Rely m i k l → l.2.own i = o := fun l hkl => hkl.own.trans hown
  refine op_safe (fun l hkl _ => ⟨q, value, ?_, ?_, hv, hkl.before hprev,
    fun t ht => hkl.after (hafter t ht), hkl.draft hdraft⟩) fun x l hkl hl hl' => ?_
  · rw [hown' l hkl, hq]
  · rw [hown' l hkl, heffect]
  · have hq' : (l.2.own i).requests.head? = some q := by rw [hown' l hkl, hq]
    obtain ⟨entry, hcell⟩ := (hkl.before hprev).cell hl
    rcases noted_casNext hcell with ⟨_, h⟩ | h
    · rw [h]
      refine ⟨true, rfl, hswapped _ ?_⟩
      show ((l.2.link m i prev e).put i).own i = _
      have hlink : (l.2.link m i prev e).own = l.2.own := by rw [History.link, hq']
      rw [History.put, hlink, hq', own_take (by rw [hlink, hown' l hkl, heffect]), hlink,
        hown' l hkl]
    · rw [h]
      exact ⟨false, rfl, hfailed l hl (hown' l hkl) (hkl.draft hdraft)⟩

/-- The value that an entry had is the thread's, where the exchange succeeds. -/
theorem casValue_safe {Q : Unit → Bool → Shared ι K V → Prop} {old : Option Nat} {new : Nat}
    (hown : k.2.own i = o) (hq : o.requests.head? = some q) (heffect : o.effect = none)
    (hv : q.value = some value) (hat : At m k q.key e)
    (hold : Holding m i k q value newEntry (some new))
    (hswapped : ∀ p l, old = some p → l.2.own i = { o with effect := some .set } →
      l.2.owner p = .thread i → (l.1.values.cell p).isSome →
      (∀ e ∈ newEntry, ∃ next, Draft i l e q.key value next) → Q () true l)
    (hfailed : ∀ l, Inv m l → l.2.own i = o → Holding m i l q value newEntry (some new) →
      Q () false l) :
    (protocol ι K V m).Safe i Q ((Op.casValue e old new).get ()) k := by
  have hown' : ∀ l, Rely m i k l → l.2.own i = o := fun l hkl => hkl.own.trans hown
  refine op_safe (fun l hkl _ => ⟨q, value, ?_, ?_, hv, hkl.at hat,
    (hkl.holding hold).value new rfl⟩) fun x l hkl hl hl' => ?_
  · rw [hown' l hkl, hq]
  · rw [hown' l hkl, heffect]
  · have hq' : (l.2.own i).requests.head? = some q := by rw [hown' l hkl, hq]
    obtain ⟨p, w, hstored⟩ := (hkl.at hat).stored hl
    obtain ⟨hsome, hnone⟩ := hl.kept _ (index_lt m q.key) e (hkl.at hat).1
    obtain ⟨entry, hcell⟩ := Option.isSome_iff_exists.mp hsome
    rcases noted_casValue hcell with ⟨hpointer, h⟩ | h
    · obtain rfl : some p = old := Option.some.inj (hstored.pointer.symm.trans hpointer)
      obtain ⟨hnew, _⟩ := (hkl.holding hold).value new rfl
      have hne : p ≠ new := by
        rintro rfl
        cases hnew.symm.trans hstored.owner
      have hput : (l.2.replace i e new (some p)).put i =
          (l.2.replace i e new (some p)).take i q (some .set) := by
        rw [History.put, show (l.2.replace i e new (some p)).own = l.2.own from rfl, hq']
      rw [h, hput]
      refine ⟨true, rfl, hswapped p _ rfl ?_ ?_ ?_ fun d hd => ?_⟩
      · show Function.update l.2.own i { l.2.own i with effect := some .set } i = _
        rw [Function.update_self, hown' l hkl]
      · show Function.update (Function.update l.2.owner p (.thread i)) new (.entry e) p = _
        rw [Function.update_of_ne hne, Function.update_self]
      · exact hstored.value ▸ rfl
      · obtain ⟨next, hdraft⟩ := (hkl.holding hold).entry d hd
        have hde : d ≠ e := by
          rintro rfl
          exact Option.some_ne_none i (hdraft.holder.symm.trans hnone)
        refine ⟨next, hdraft.congr (Heap.modify_of_ne hde) rfl fun p' howner hvalue => ⟨?_, hvalue⟩⟩
        have hp' : p' ≠ p := by
          rintro rfl
          exact hde (Owner.entry.inj (howner.symm.trans hstored.owner))
        have hnew' : p' ≠ new := by
          rintro rfl
          cases howner.symm.trans hnew
        show Function.update (Function.update l.2.owner p (.thread i)) new (.entry e) p' = _
        rw [Function.update_of_ne hnew', Function.update_of_ne hp', howner]
    · rw [h]
      exact ⟨false, rfl, hfailed l hl (hown' l hkl) (hkl.holding hold)⟩

omit [Integral K] in
theorem missing_of_value (hv : q.value = some value) : q.missing = none := by
  cases q <;> first | rfl | cases hv

omit [Integral K] in
theorem found_of_value (hv : q.value = some value) : q.found = none := by
  cases q <;> first | rfl | cases hv

/-- A search of a `Set` leaves what it holds; where it does not find the key, there is no new
value. -/
theorem frame_holding (hv : q.value = some value) :
    Frame m i q (fun l => Holding m i l q value newEntry newValue) (newValue = none) where
  rely _ _ hk hkl := hkl.holding hk
  take l a ha hl := by
    have hnone : a = none := by
      rcases ha with rfl | rfl
      · exact missing_of_value hv
      · exact found_of_value hv
    rw [hnone]
    exact hl
  absent l hl habsent := by
    cases hnew : newValue with
    | none => rfl
    | some p =>
        obtain ⟨x, hx⟩ := hl.found (by rw [hnew]; rfl)
        exact absurd hx (habsent x)

/-- The induction is on the rounds of the loop: each of them starts with what the `Set` holds. -/
theorem insertFrom_safe {after : V → V} {bound left : Nat} {rest : V}
    {Q : Unit → Unit → Shared ι K V → Prop} (hk : Inv m k) (hown : k.2.own i = o)
    (hq : o.requests.head? = some q) (heffect : o.effect = none) (hv : q.value = some value)
    (hold : Holding m i k q value newEntry newValue) (hrest : newValue = none → rest = value)
    (hQ : ∀ l, l.2.own i = { o with effect := some .set } → Q () () l) :
    (protocol ι K V m).Safe i Q
      (insertFrom after bound (index m q.key) q.key left rest newEntry newValue ()) k := by
  induction left generalizing k rest newEntry newValue with
  | zero => trivial
  | succ left ih =>
      simp only [insertFrom, Protocol.safe_seq]
      refine find_safe (frame_holding hv) hk hold hown hq heffect
        (fun prev target l hl hold hnone hown hprev hafter => ?_)
        fun prev t l hl hold hown hat => ?_
      · rw [missing_of_value hv, own_none heffect] at hown
        obtain rfl := hrest hnone
        subst hnone
        simp only [Bool.false_eq_true, if_false, Protocol.safe_seq]
        refine makeEntry_safe hl hold.entry hprev hafter
          fun e next n hn hown' hprev hafter hdraft => ?_
        refine storeNext_safe hprev hafter hdraft fun s hown'' hprev hafter hdraft => ?_
        have hown : s.2.own i = o := hown''.trans (hown'.trans hown)
        refine casNext_safe hown hq heffect hv hprev hafter hdraft (fun t hown => ?_)
          fun t ht hown hdraft => ?_
        · simp only [if_true]
          exact hQ t hown
        · simp only [Bool.false_eq_true, if_false]
          refine ih ht hown ⟨fun e' he => ?_, fun p hp => ?_, fun h => ?_⟩ fun _ => rfl
          · obtain rfl := Option.some.inj he
            exact ⟨target, hdraft⟩
          · cases hp
          · cases h
      · rw [found_of_value hv, own_none heffect] at hown
        simp only [if_true, Protocol.safe_seq, Protocol.safe_deref]
        refine ⟨fun t' ht => ?_, fun h => absurd h (Option.some_ne_none t)⟩
        obtain rfl := Option.some.inj ht
        refine makeValue_safe hl hold hat hrest fun p rest n hn hown' hat hold => ?_
        have hown : n.2.own i = o := hown'.trans hown
        dsimp only
        refine op_safe (fun s hns hs => ⟨(hns.at hat).pointer hs, q, ?_, fun hnone => ?_⟩)
          fun x s hns hs hs' => ?_
        · rw [hns.own, hown, hq]
        · exact absurd (hv.symm.trans hnone) (Option.some_ne_none value)
        obtain ⟨old, w, hpointer, hcell⟩ := (hns.at hat).pointer hs
        have hq' : (s.2.own i).requests.head? = some q := by rw [hns.own, hown, hq]
        rw [noted_loadValue hpointer hcell, see_none hq' (sees_of_value hv)]
        refine ⟨some old, rfl, ?_⟩
        refine casValue_safe (hns.own.trans hown) hq heffect hv (hns.at hat) (hns.holding hold)
          (fun old' u hold hown howner hsome hdraft => ?_) fun u hu hown hold => ?_
        · obtain rfl := Option.some.inj hold
          simp only [if_true, Protocol.safe_seq]
          refine deleteValue_safe (.inl howner) hsome fun v huv _ => ?_
          refine deleteEntry_safe (huv.own.trans hown) hq hv (fun d hd => ?_) hQ
          obtain ⟨next, hdraft⟩ := hdraft d hd
          obtain ⟨w', hw⟩ := Option.isSome_iff_exists.mp hsome
          have howner' := (huv.value old w' (.inl howner) hw).2.trans howner
          refine ⟨next, (huv.draft hdraft).congr rfl rfl fun p' hp' hcell => ⟨hp', ?_⟩⟩
          refine (Heap.delete_of_ne ?_).trans hcell
          rintro rfl
          cases hp'.symm.trans howner'
        · simp only [Bool.false_eq_true, if_false]
          exact ih hu hown hold fun h => absurd h (Option.some_ne_none p)

omit [DecidableEq ι] [Inhabited V] in
theorem holding_none : Holding m i k q value none none :=
  ⟨fun e he => absurd he (Option.not_mem_none e), fun p hp => absurd hp (Option.not_mem_none p),
    fun h => absurd h Bool.false_ne_true⟩

end Sets

end Concurrent
end Base
end Cmw
