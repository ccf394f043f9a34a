import Cmw.Base.ConcurrentMap
import Mathlib.Order.WithBot
import Mathlib.Data.List.Basic
import Mathlib.Data.List.Pairwise

/-!
# The lists of the buckets, step by step

Any number of `Has`, `Get` and `Set`, in any order of their steps.  An entry that is in a
list stays in it, with its key, and is not freed; what is freed is owned by the thread that
frees it.  A new entry is linked in behind an entry with a smaller key, where the next one is
still the one with a greater key that was found there.
-/

namespace Cmw
namespace Base
namespace Concurrent

open AtomicHashMap (index index_lt)
open Library
open Library.Thread

section Defs

variable {ι K V : Type} [DecidableEq ι] [Integral K] [Inhabited V]

omit [Integral K] in
def Memory.next (s : Memory K V) (e : Nat) : Option Nat :=
  ((s.entries.cell e).map Entry.next).join

def Memory.key (s : Memory K V) (e : Nat) : Option K := (s.entries.cell e).map Entry.key

def Memory.pointer (s : Memory K V) (e : Nat) : Option (Option Nat) :=
  (s.entries.cell e).map Entry.valuePtr

/-- Where an entry is in the list of bucket `b`: its head is the first one. -/
def Memory.rank (s : Memory K V) (b e : Nat) : WithBot K :=
  if e = b then ⊥
  else
    match s.key e with
    | some key => key
    | none => ⊥

/-- What the calls that have taken effect leave. -/
def History.state (h : History ι K V) : K → Option V :=
  (finiteMap K V).replay (h.log.map Prod.snd)

/-- The calls of thread `i` that have taken effect. -/
def History.took (h : History ι K V) (i : ι) : List (Request K V × Answer V) :=
  (h.log.filter fun e => e.1 = i).map Prod.snd

/-- The calls of a thread have taken effect in their order, and the last one has its answer. -/
def Once (o : Own K V) (took : List (Request K V × Answer V)) : Prop :=
  match o.effect with
  | none => took.map Prod.fst = o.requests.tail
  | some a => ∃ q rest, took = (q, a) :: rest ∧ o.requests = q :: rest.map Prod.fst

/-- The entry `e` of bucket `b` has a key and a value, those of the map. -/
structure Stored (m b : Nat) (k : Shared ι K V) (e : Nat) (key : K) (p : Nat) (val : V) :
    Prop where
  index : index m key = b
  state : k.2.state key = some val
  owner : k.2.owner p = .entry e
  value : k.1.values.cell p = some val
  pointer : k.1.pointer e = some (some p)
  key : k.1.key e = some key

/-- The entry `e` has the key. -/
def At (m : Nat) (k : Shared ι K V) (key : K) (e : Nat) : Prop :=
  e ∈ k.2.nodes (index m key) ∧ k.1.rank (index m key) e = key

/-- The entry `e` comes before those with the key. -/
def Before (m : Nat) (k : Shared ι K V) (key : K) (e : Nat) : Prop :=
  e ∈ k.2.nodes (index m key) ∧ k.1.rank (index m key) e < key

def After (m : Nat) (k : Shared ι K V) (key : K) (e : Nat) : Prop :=
  e ∈ k.2.nodes (index m key) ∧ key < k.1.rank (index m key) e

structure Inv (m : Nat) (k : Shared ι K V) : Prop where
  legal : (finiteMap K V).Legal (k.2.log.map Prod.snd)
  once : ∀ i, Once (k.2.own i) (k.2.took i)
  linked : ∀ b < 2 ^ m, Linked k.1.next (some b) (k.2.nodes b)
  sorted : ∀ b < 2 ^ m, (k.2.nodes b).Pairwise fun x y => k.1.rank b x < k.1.rank b y
  kept : ∀ b < 2 ^ m, ∀ e ∈ k.2.nodes b, (k.1.entries.cell e).isSome ∧ k.2.holder e = none
  head : ∀ b < 2 ^ m, k.1.pointer b = some none
  stored : ∀ b < 2 ^ m, ∀ e ∈ k.2.nodes b, e ≠ b → ∃ key p value, Stored m b k e key p value
  present : ∀ key, (k.2.state key).isSome → ∃ e, At m k key e

/-- A value that is thread `i`'s, or is that of an entry of its own. -/
def Mine (i : ι) (k : Shared ι K V) (p : Nat) : Prop :=
  k.2.owner p = .thread i ∨
    ∃ e, k.2.owner p = .entry e ∧ k.2.holder e = some i ∧ (k.1.entries.cell e).isSome

/-- A `Get(key, V *value)` has found its value at `p`, and has not yet copied it. -/
def Copying (o : Own K V) (p : Nat) : Prop :=
  (∃ value, o.seen = some (p, value)) ∧ ∃ key, o.requests.head? = some (.get key)

/-- What the others leave to thread `i`: what it owns, and the value that it copies. -/
structure Rely (m : Nat) (i : ι) (k l : Shared ι K V) : Prop where
  own : l.2.own i = k.2.own i
  nodes : ∀ b, k.2.nodes b ⊆ l.2.nodes b
  key : ∀ b < 2 ^ m, ∀ e ∈ k.2.nodes b, l.1.key e = k.1.key e
  entry : ∀ e entry, k.2.holder e = some i → k.1.entries.cell e = some entry →
    l.2.holder e = some i ∧ l.1.entries.cell e = some entry
  value : ∀ p value, Mine i k p → k.1.values.cell p = some value →
    l.1.values.cell p = some value ∧ l.2.owner p = k.2.owner p
  seen : ∀ p value, Copying (k.2.own i) p → k.1.values.cell p = some value →
    l.1.values.cell p = some value

/-- No value is deleted that a `Get` has loaded and not yet copied. -/
def Cond (_ : ι) (_ : Unit) (o : Op K V) (_ : Nat) (k : Shared ι K V) : Prop :=
  match o with
  | .deleteValue p => ∀ j, ¬ Copying (k.2.own j) p
  | _ => True

/-- A new entry of thread `i`, that is not yet in a list. -/
structure Draft (i : ι) (k : Shared ι K V) (e : Nat) (key : K) (value : V)
    (next : Option Nat) : Prop where
  cell : ∃ p, k.1.entries.cell e = some { key, valuePtr := some p, next } ∧
    k.2.owner p = .entry e ∧ k.1.values.cell p = some value
  holder : k.2.holder e = some i

/-- What a thread knows when it performs an operation. -/
def Pre (m : Nat) (i : ι) (_ : Unit) (o : Op K V) (k : Shared ι K V) : Prop :=
  match o with
  | .loadNext e => ∃ q, (k.2.own i).requests.head? = some q ∧ (k.2.own i).effect = none ∧
      Before m k q.key e
  | .key e => (k.1.entries.cell e).isSome
  | .loadValue e => (∃ p value, k.1.pointer e = some (some p) ∧ k.1.values.cell p = some value) ∧
      ∃ q, (k.2.own i).requests.head? = some q ∧
        (q.value = none → (k.2.own i).effect = none ∧ At m k q.key e)
  | .read p => (k.1.values.cell p).isSome
  | .newValue _ => True
  | .newEntry _ p => k.2.owner p = .thread i
  | .storeNext e _ => k.2.holder e = some i ∧ (k.1.entries.cell e).isSome
  | .casNext prev target e => ∃ q value, (k.2.own i).requests.head? = some q ∧
      (k.2.own i).effect = none ∧ q.value = some value ∧ Before m k q.key prev ∧
      (∀ t ∈ target, After m k q.key t) ∧ Draft i k e q.key value target
  | .casValue e _ new => ∃ q value, (k.2.own i).requests.head? = some q ∧
      (k.2.own i).effect = none ∧ q.value = some value ∧ At m k q.key e ∧
      k.2.owner new = .thread i ∧ k.1.values.cell new = some value
  | .deleteValue p => Mine i k p ∧ (k.1.values.cell p).isSome
  | .deleteEntry e => k.2.holder e = some i ∧ (k.1.entries.cell e).isSome

end Defs

/-! ### Entries in their list -/

section Lists

variable {ι K V : Type} [DecidableEq ι] [Integral K] [Inhabited V]
variable {m b e : Nat} {s : Memory K V} {k l : Shared ι K V} {key : K}

omit [Integral K] [Inhabited V] in
@[simp] theorem rank_head : s.rank b b = ⊥ := if_pos rfl

omit [Integral K] [Inhabited V] in
theorem key_isSome : (s.key e).isSome = (s.entries.cell e).isSome := Option.isSome_map

omit [Integral K] [Inhabited V] in
theorem rank_eq_coe : s.rank b e = key ↔ e ≠ b ∧ s.key e = some key := by
  unfold Memory.rank
  by_cases he : e = b
  · rw [if_pos he]
    exact iff_of_false WithBot.bot_ne_coe fun h => h.1 he
  · rw [if_neg he, and_iff_right he]
    cases s.key e with
    | none => exact iff_of_false WithBot.bot_ne_coe (Option.some_ne_none key ·.symm)
    | some key' => exact WithBot.coe_inj.trans (Option.some_inj).symm

omit [Integral K] [Inhabited V] in
theorem rank_congr {t : Memory K V} (h : t.key e = s.key e) : t.rank b e = s.rank b e := by
  unfold Memory.rank
  rw [h]

theorem head_mem (hk : Inv m k) (hb : b < 2 ^ m) : b ∈ k.2.nodes b :=
  List.mem_of_mem_head? (hk.linked b hb).head_eq.symm

/-- An entry that is not the head has a key. -/
theorem exists_rank (hk : Inv m k) (hb : b < 2 ^ m) (he : e ∈ k.2.nodes b) (hne : e ≠ b) :
    ∃ key : K, k.1.rank b e = key := by
  obtain ⟨key, p, value, hstored⟩ := hk.stored b hb e he hne
  exact ⟨key, rank_eq_coe.mpr ⟨hne, hstored.key⟩⟩

omit [DecidableEq ι] in
theorem Stored.congr {p : Nat} {value : V} (h : Stored m b k e key p value)
    (hkey : l.1.key e = k.1.key e) (hpointer : l.1.pointer e = k.1.pointer e)
    (hvalue : l.1.values.cell p = k.1.values.cell p) (howner : l.2.owner p = k.2.owner p)
    (hstate : l.2.state key = k.2.state key) : Stored m b l e key p value where
  key := hkey.trans h.key
  pointer := hpointer.trans h.pointer
  index := h.index
  value := hvalue.trans h.value
  owner := howner.trans h.owner
  state := hstate.trans h.state

/-- The value of an entry with the key. -/
theorem At.stored (h : At m k key e) (hk : Inv m k) :
    ∃ p value, Stored m (index m key) k e key p value := by
  obtain ⟨hmem, hrank⟩ := h
  obtain ⟨hne, hkey⟩ := rank_eq_coe.mp hrank
  obtain ⟨key', p, value, hstored⟩ := hk.stored _ (index_lt m key) e hmem hne
  obtain rfl := Option.some.inj (hkey.symm.trans hstored.key)
  exact ⟨p, value, hstored⟩

theorem At.state (h : At m k key e) (hk : Inv m k) : ∃ value, k.2.state key = some value := by
  obtain ⟨p, value, hstored⟩ := h.stored hk
  exact ⟨value, hstored.state⟩

omit [DecidableEq ι] [Inhabited V] in
theorem At.congr (h : At m k key e) (hnodes : k.2.nodes (index m key) ⊆ l.2.nodes (index m key))
    (hkey : l.1.key e = k.1.key e) : At m l key e :=
  ⟨hnodes h.1, (rank_congr hkey).trans h.2⟩

omit [DecidableEq ι] [Inhabited V] in
theorem Before.congr (h : Before m k key e)
    (hnodes : k.2.nodes (index m key) ⊆ l.2.nodes (index m key))
    (hkey : l.1.key e = k.1.key e) : Before m l key e :=
  ⟨hnodes h.1, (rank_congr hkey).trans_lt h.2⟩

omit [DecidableEq ι] [Inhabited V] in
theorem After.congr (h : After m k key e)
    (hnodes : k.2.nodes (index m key) ⊆ l.2.nodes (index m key))
    (hkey : l.1.key e = k.1.key e) : After m l key e :=
  ⟨hnodes h.1, h.2.trans_eq (rank_congr hkey).symm⟩

theorem state_eq_none (hk : Inv m k) (h : ∀ e, ¬ At m k key e) : k.2.state key = none := by
  cases hstate : k.2.state key with
  | none => rfl
  | some value =>
      obtain ⟨e, he⟩ := hk.present key (by rw [hstate]; rfl)
      exact absurd he (h e)

/-- The entry behind one that comes before the key. -/
theorem next_after (hk : Inv m k) (he : Before m k key e) {t : Nat} (ht : k.1.next e = some t) :
    t ∈ k.2.nodes (index m key) ∧ t ≠ index m key := by
  have hlinked := hk.linked _ (index_lt m key)
  have hrank := hlinked.next_rel (hk.sorted _ (index_lt m key)) he.1 ht
  refine ⟨hlinked.next_mem he.1 ht, ?_⟩
  rintro rfl
  rw [rank_head] at hrank
  exact not_lt_bot hrank

/-- A key is in one entry at most. -/
theorem At.unique (h : At m k key e) (hk : Inv m k) {x : Nat} (hx : At m k key x) : x = e := by
  by_contra hne
  have hsorted := (hk.sorted _ (index_lt m key)).imp fun h => ne_of_lt h
  have : Std.Symm fun x y => k.1.rank (index m key) x ≠ k.1.rank (index m key) y :=
    ⟨fun _ _ => Ne.symm⟩
  exact hsorted.forall hx.1 h.1 hne (hx.2.trans h.2.symm)

theorem Stored.ne_head {p : Nat} {value : V} {b' : Nat} (h : Stored m b k e key p value)
    (hk : Inv m k) (hb : b' < 2 ^ m) : e ≠ b' := by
  rintro rfl
  exact Option.some_ne_none p (Option.some.inj (h.pointer.symm.trans (hk.head e hb)))

/-- An entry is in one list at most. -/
theorem bucket_unique (hk : Inv m k) {b' : Nat} (hb : b < 2 ^ m) (hb' : b' < 2 ^ m)
    (he : e ∈ k.2.nodes b) (he' : e ∈ k.2.nodes b') : b = b' := by
  by_cases heb : e = b
  · by_contra hne
    obtain ⟨key, p, value, hstored⟩ := hk.stored b' hb' e he' (by rwa [heb])
    exact hstored.ne_head hk hb heb
  · obtain ⟨key, p, value, hstored⟩ := hk.stored b hb e he heb
    obtain ⟨key', p', value', hstored'⟩ := hk.stored b' hb' e he' (hstored.ne_head hk hb')
    have hkey : key = key' := Option.some.inj (hstored.key.symm.trans hstored'.key)
    rw [← hstored.index, ← hstored'.index, hkey]

/-- The key is missing where nothing lies between an entry before it and one behind it. -/
theorem absent (hk : Inv m k) (he : Before m k key e)
    (hnext : ∀ t ∈ k.1.next e, key < k.1.rank (index m key) t) (x : Nat) :
    ¬ At m k key x := by
  intro hx
  have hlt : k.1.rank (index m key) e < k.1.rank (index m key) x :=
    he.2.trans_eq hx.2.symm
  have hlinked := hk.linked _ (index_lt m key)
  obtain ⟨t, ht, hxt⟩ := hlinked.next_le (fun y => lt_irrefl (k.1.rank _ y))
    (fun y z => lt_asymm) (hk.sorted _ (index_lt m key)) he.1 hx.1 hlt
  have hkey := hnext t ht
  rcases hxt with rfl | hxt
  · exact absurd hx.2 hkey.ne'
  · exact absurd (hx.2 ▸ hxt) hkey.le.not_gt

/-- The lists stay as they are, where the entries keep their keys and what comes next. -/
theorem lists_congr (hk : Inv m k) (hnodes : l.2.nodes = k.2.nodes)
    (hnext : ∀ b < 2 ^ m, ∀ e ∈ k.2.nodes b, l.1.next e = k.1.next e)
    (hkey : ∀ b < 2 ^ m, ∀ e ∈ k.2.nodes b, l.1.key e = k.1.key e) (hb : b < 2 ^ m) :
    Linked l.1.next (some b) (l.2.nodes b) ∧
      (l.2.nodes b).Pairwise fun x y => l.1.rank b x < l.1.rank b y := by
  rw [hnodes]
  refine ⟨(hk.linked b hb).congr fun e he => hnext b hb e he, ?_⟩
  refine (hk.sorted b hb).imp_of_mem fun {x y} hx hy hxy => ?_
  rw [rank_congr (hkey b hb x hx), rank_congr (hkey b hb y hy)]
  exact hxy

end Lists

/-! ### What stays -/

section Stays

variable {ι K V : Type} {m : Nat} {i : ι} {j k l : Shared ι K V} {key : K} {value : V} {e p : Nat}

theorem Draft.mine {next : Option Nat} (h : Draft i k e key value next) :
    ∃ p, k.1.entries.cell e = some { key, valuePtr := some p, next } ∧ k.2.owner p = .entry e ∧
      k.1.values.cell p = some value ∧ Mine i k p := by
  obtain ⟨p, hcell, howner, hvalue⟩ := h.cell
  exact ⟨p, hcell, howner, hvalue, .inr ⟨e, howner, h.holder, by rw [hcell]; rfl⟩⟩

theorem Rely.mine (h : Rely m i k l) (hp : Mine i k p) (hvalue : k.1.values.cell p = some value) :
    Mine i l p := by
  have howner := (h.value p value hp hvalue).2
  rcases hp with hp | ⟨e, hp, hholder, hcell⟩
  · exact .inl (howner.trans hp)
  · obtain ⟨entry, hcell⟩ := Option.isSome_iff_exists.mp hcell
    obtain ⟨hholder, hcell⟩ := h.entry e entry hholder hcell
    exact .inr ⟨e, howner.trans hp, hholder, by rw [hcell]; rfl⟩

theorem Rely.draft (h : Rely m i k l) {next : Option Nat} (he : Draft i k e key value next) :
    Draft i l e key value next := by
  obtain ⟨p, hcell, howner, hvalue, hmine⟩ := he.mine
  obtain ⟨hholder, hcell⟩ := h.entry e _ he.holder hcell
  obtain ⟨hvalue, howner'⟩ := h.value p value hmine hvalue
  exact ⟨⟨p, hcell, howner'.trans howner, hvalue⟩, hholder⟩

theorem Rely.refl (m : Nat) (i : ι) (k : Shared ι K V) : Rely m i k k where
  own := rfl
  nodes _ := List.Subset.refl _
  key _ _ _ _ := rfl
  entry _ _ hholder hcell := ⟨hholder, hcell⟩
  value _ _ _ hvalue := ⟨hvalue, rfl⟩
  seen _ _ _ hvalue := hvalue

theorem Rely.trans (h : Rely m i j k) (h' : Rely m i k l) : Rely m i j l where
  own := h'.own.trans h.own
  nodes b := List.Subset.trans (h.nodes b) (h'.nodes b)
  key b hb e he := (h'.key b hb e (h.nodes b he)).trans (h.key b hb e he)
  entry e entry hholder hcell := by
    obtain ⟨hholder, hcell⟩ := h.entry e entry hholder hcell
    exact h'.entry e entry hholder hcell
  value p value hp hvalue := by
    obtain ⟨hvalue', howner⟩ := h.value p value hp hvalue
    obtain ⟨hvalue'', howner'⟩ := h'.value p value (h.mine hp hvalue) hvalue'
    exact ⟨hvalue'', howner'.trans howner⟩
  seen p value hp hvalue := h'.seen p value (h.own ▸ hp) (h.seen p value hp hvalue)

variable [Integral K]

theorem Rely.at (h : Rely m i k l) (he : At m k key e) : At m l key e :=
  he.congr (h.nodes _) (h.key _ (index_lt m key) e he.1)

theorem Rely.before (h : Rely m i k l) (he : Before m k key e) : Before m l key e :=
  he.congr (h.nodes _) (h.key _ (index_lt m key) e he.1)

theorem Rely.after (h : Rely m i k l) (he : After m k key e) : After m l key e :=
  he.congr (h.nodes _) (h.key _ (index_lt m key) e he.1)

end Stays

/-! ### The log -/

section Log

variable {ι K V : Type} [DecidableEq ι]
variable {i : ι} {h h' : History ι K V} {q : Request K V} {a : Answer V} {o : Own K V}

/-- A call of thread `i` takes effect. -/
theorem once_take (honce : ∀ j, Once (h.own j) (h.took j)) (heffect : (h.own i).effect = none)
    (hq : (h.own i).requests.head? = some q) (hlog : h'.log = (i, q, a) :: h.log)
    (ho : o.requests = (h.own i).requests ∧ o.effect = some a)
    (hown : h'.own = Function.update h.own i o) (j : ι) : Once (h'.own j) (h'.took j) := by
  by_cases hj : j = i
  · subst hj
    have hprev := honce j
    rw [Once, heffect] at hprev
    have htook : h'.took j = (q, a) :: h.took j := by
      rw [History.took, hlog, List.filter_cons_of_pos (by simp)]
      rfl
    obtain ⟨rest, hrequests⟩ := List.head?_eq_some_iff.mp hq
    rw [hown, Function.update_self, Once, ho.1, ho.2]
    refine ⟨q, h.took j, htook, ?_⟩
    rw [hprev, hrequests]
    rfl
  · have htook : h'.took j = h.took j := by
      rw [History.took, hlog, List.filter_cons_of_neg (by simpa using Ne.symm hj)]
      rfl
    rw [hown, Function.update_of_ne hj, htook]
    exact honce j

/-- Nothing is taken that was not. -/
theorem once_congr (honce : ∀ j, Once (h.own j) (h.took j)) (hlog : h'.log = h.log)
    (hown : ∀ j, (h'.own j).requests = (h.own j).requests ∧ (h'.own j).effect = (h.own j).effect)
    (j : ι) : Once (h'.own j) (h'.took j) := by
  rw [Once, (hown j).1, (hown j).2, History.took, hlog]
  exact honce j

end Log

section State

variable {ι K V : Type} [Integral K] [Inhabited V]
variable {i : ι} {h : History ι K V} {q : Request K V} {a : Answer V} {key : K} {value : V}

theorem state_cons {log : List (ι × Request K V × Answer V)} (hlog : h.log = (i, q, a) :: log) :
    h.state = ((finiteMap K V).apply q ((finiteMap K V).replay (log.map Prod.snd))).2 := by
  rw [History.state, hlog]
  rfl

/-- What is answered of a key that is missing. -/
theorem apply_missing {f : K → Option V} (ha : q.missing = some a) (hf : f q.key = none) :
    (finiteMap K V).apply q f = (a, f) := by
  cases q with
  | has key =>
      obtain rfl := Option.some.inj ha
      show (Answer.has (f key).isSome, f) = _
      rw [show f key = none from hf]
      rfl
  | get key =>
      obtain rfl := Option.some.inj ha
      exact congrArg (fun v => (Answer.got v, f)) hf
  | getPtr key =>
      obtain rfl := Option.some.inj ha
      exact congrArg (fun v => (Answer.got v, f)) hf
  | _ => cases ha

theorem apply_found {f : K → Option V} (ha : q.found = some a) (hf : f q.key = some value) :
    (finiteMap K V).apply q f = (a, f) := by
  cases q with
  | has key =>
      obtain rfl := Option.some.inj ha
      show (Answer.has (f key).isSome, f) = _
      rw [show f key = some value from hf]
      rfl
  | _ => cases ha

theorem apply_sees {f : K → Option V} (ha : q.sees value = some a) (hf : f q.key = some value) :
    (finiteMap K V).apply q f = (a, f) := by
  cases q with
  | get key =>
      obtain rfl := Option.some.inj ha
      exact congrArg (fun v => (Answer.got v, f)) hf
  | getPtr key =>
      obtain rfl := Option.some.inj ha
      exact congrArg (fun v => (Answer.got v, f)) hf
  | _ => cases ha

theorem apply_value {f : K → Option V} (hv : q.value = some value) :
    (finiteMap K V).apply q f = (.set, Function.update f q.key (some value)) := by
  cases q with
  | set key =>
      obtain rfl := Option.some.inj hv
      rfl
  | setCopy key v =>
      obtain rfl := Option.some.inj hv
      rfl
  | setMove key v =>
      obtain rfl := Option.some.inj hv
      rfl
  | _ => cases hv

end State

/-! ### What the operations keep -/

section Links

variable {ι K V : Type} [Integral K] {m : Nat} {k l : Shared ι K V} {key : K} {prev e : Nat}

/-- Entry `e` has been linked in behind `prev`, in the bucket of the key. -/
structure Links (m : Nat) (k l : Shared ι K V) (key : K) (prev e : Nat) : Prop where
  entries : l.1.entries = k.1.entries.modify prev fun entry => { entry with next := some e }
  nodes : l.2.nodes = Function.update k.2.nodes (index m key)
    (Linked.insertAfter prev e (k.2.nodes (index m key)))

theorem Links.key_eq (h : Links m k l key prev e) (x : Nat) : l.1.key x = k.1.key x := by
  rw [Memory.key, h.entries]
  exact Heap.map_modify fun _ => rfl

theorem Links.pointer (h : Links m k l key prev e) (x : Nat) :
    l.1.pointer x = k.1.pointer x := by
  rw [Memory.pointer, h.entries]
  exact Heap.map_modify fun _ => rfl

theorem Links.cell (h : Links m k l key prev e) {x : Nat} (hx : x ≠ prev) :
    l.1.entries.cell x = k.1.entries.cell x := by
  rw [h.entries]
  exact Heap.modify_of_ne hx

theorem Links.next (h : Links m k l key prev e) {x : Nat} (hx : x ≠ prev) :
    l.1.next x = k.1.next x :=
  congrArg (fun c => (Option.map Entry.next c).join) (h.cell hx)

theorem Links.next_self (h : Links m k l key prev e) (hprev : (k.1.entries.cell prev).isSome) :
    l.1.next prev = some e := by
  obtain ⟨entry, hentry⟩ := Option.isSome_iff_exists.mp hprev
  rw [Memory.next, h.entries, Heap.modify_self hentry]
  rfl

theorem Links.nodes_self (h : Links m k l key prev e) :
    l.2.nodes (index m key) = Linked.insertAfter prev e (k.2.nodes (index m key)) := by
  rw [h.nodes, Function.update_self]

theorem Links.nodes_of_ne (h : Links m k l key prev e) {b : Nat} (hb : b ≠ index m key) :
    l.2.nodes b = k.2.nodes b := by
  rw [h.nodes, Function.update_of_ne hb]

theorem Links.mem (h : Links m k l key prev e) (hprev : prev ∈ k.2.nodes (index m key)) {b x : Nat} :
    x ∈ l.2.nodes b ↔ x = e ∧ b = index m key ∨ x ∈ k.2.nodes b := by
  by_cases hb : b = index m key
  · subst hb
    rw [h.nodes_self, Linked.mem_insertAfter hprev, and_iff_left rfl]
  · rw [h.nodes_of_ne hb]
    exact (or_iff_right fun hx => hb hx.2).symm

variable [DecidableEq ι] [Inhabited V]

/-- The list of the bucket is still linked, and sorted. -/
theorem Links.bucket (h : Links m k l key prev e) (hk : Inv m k) (hprev : Before m k key prev)
    (hafter : ∀ t ∈ k.1.next prev, After m k key t) (hne : e ≠ prev)
    (hrank : k.1.rank (index m key) e = key) (hnext : k.1.next e = k.1.next prev) :
    Linked l.1.next (some (index m key)) (l.2.nodes (index m key)) ∧
      (l.2.nodes (index m key)).Pairwise
        fun x y => l.1.rank (index m key) x < l.1.rank (index m key) y := by
  have hb := index_lt m key
  rw [h.nodes_self]
  refine ⟨(hk.linked _ hb).link hprev.1 ?_ ?_ (h.next_self (hk.kept _ hb prev hprev.1).1)
    fun x _ hx => h.next hx, ?_⟩
  · exact (hk.sorted _ hb).imp fun hxy heq => hxy.ne (congrArg _ heq)
  · rw [h.next hne, hnext]
  · refine (Linked.pairwise_insertAfter hprev.1 (hk.sorted _ hb) ?_ ?_ ?_).imp fun {x y} hxy => ?_
    · rw [hrank]
      exact hprev.2
    · intro x _ hx
      rw [hrank]
      exact hx.trans hprev.2
    · intro x hx hlt
      obtain ⟨t, ht, hxt⟩ := (hk.linked _ hb).next_le (fun y => lt_irrefl (k.1.rank _ y))
        (fun y z => lt_asymm) (hk.sorted _ hb) hprev.1 hx hlt
      have hkt := (hafter t ht).2
      rw [hrank]
      rcases hxt with rfl | hxt
      · exact hkt
      · exact hkt.trans hxt
    · rw [rank_congr (h.key_eq x), rank_congr (h.key_eq y)]
      exact hxy

/-- The lists of the others are as they were. -/
theorem Links.bucket_of_ne (h : Links m k l key prev e) (hk : Inv m k)
    (hprev : prev ∈ k.2.nodes (index m key)) {b : Nat} (hb : b < 2 ^ m) (hne : b ≠ index m key) :
    Linked l.1.next (some b) (l.2.nodes b) ∧
      (l.2.nodes b).Pairwise fun x y => l.1.rank b x < l.1.rank b y := by
  rw [h.nodes_of_ne hne]
  refine ⟨(hk.linked b hb).congr fun x hx => h.next ?_, ?_⟩
  · rintro rfl
    exact hne (bucket_unique hk hb (index_lt m key) hx hprev)
  · refine (hk.sorted b hb).imp fun {x y} hxy => ?_
    rw [rank_congr (h.key_eq x), rank_congr (h.key_eq y)]
    exact hxy

end Links

section Keeps

variable {ι K V : Type} [DecidableEq ι] [Integral K] [Inhabited V]
variable {m : Nat} {i : ι} {k l : Shared ι K V} {q : Request K V} {value : V} {e p : Nat}

/-- The value of an entry in a list is nobody's. -/
theorem Stored.not_mine {b : Nat} {key : K} (h : Stored m b k e key p value) (hk : Inv m k)
    (hb : b < 2 ^ m) (he : e ∈ k.2.nodes b) : ¬ Mine i k p := by
  rintro (hp | ⟨e', hp, hholder, _⟩)
  · cases hp.symm.trans h.owner
  · obtain rfl := Owner.entry.inj (hp.symm.trans h.owner)
    exact Option.some_ne_none i (hholder.symm.trans (hk.kept b hb e' he).2)

omit [DecidableEq ι] [Integral K] [Inhabited V] in
/-- What is one thread's is no other's. -/
theorem Mine.not_mine {j : ι} (h : Mine j k p) (hj : j ≠ i) : ¬ Mine i k p := by
  rintro (hi | ⟨e, hi, hholder, _⟩) <;> rcases h with hp | ⟨e', hp, hholder', _⟩
  · exact hj (Owner.thread.inj (hp.symm.trans hi))
  · cases hp.symm.trans hi
  · cases hp.symm.trans hi
  · obtain rfl := Owner.entry.inj (hp.symm.trans hi)
    exact hj (Option.some.inj (hholder'.symm.trans hholder))

/-- What a thread does to entries and values of its own, or to free ones. -/
theorem keeps_private (hk : Inv m k) (hlog : l.2.log = k.2.log) (hown : l.2.own = k.2.own)
    (hnodes : l.2.nodes = k.2.nodes)
    (hentry : ∀ e entry, k.2.holder e ≠ some i → k.1.entries.cell e = some entry →
      l.2.holder e = k.2.holder e ∧ l.1.entries.cell e = some entry)
    (hvalue : ∀ p value, ¬ Mine i k p → k.1.values.cell p = some value →
      l.2.owner p = k.2.owner p ∧ l.1.values.cell p = some value)
    (hseen : ∀ j p value, j ≠ i → Copying (k.2.own j) p → k.1.values.cell p = some value →
      l.1.values.cell p = some value) :
    Inv m l ∧ ∀ j, j ≠ i → Rely m j k l := by
  have hstate : l.2.state = k.2.state := by
    rw [History.state, hlog]
    rfl
  have hcell : ∀ b < 2 ^ m, ∀ e ∈ k.2.nodes b,
      l.2.holder e = k.2.holder e ∧ l.1.entries.cell e = k.1.entries.cell e := by
    intro b hb e he
    obtain ⟨hsome, hholder⟩ := hk.kept b hb e he
    obtain ⟨entry, hcell⟩ := Option.isSome_iff_exists.mp hsome
    rw [hcell]
    exact hentry e entry (by rw [hholder]; exact (Option.some_ne_none i).symm) hcell
  have hkey : ∀ b < 2 ^ m, ∀ e ∈ k.2.nodes b, l.1.key e = k.1.key e := fun b hb e he =>
    congrArg (Option.map Entry.key) (hcell b hb e he).2
  have hpointer : ∀ b < 2 ^ m, ∀ e ∈ k.2.nodes b, l.1.pointer e = k.1.pointer e :=
    fun b hb e he => congrArg (Option.map Entry.valuePtr) (hcell b hb e he).2
  have hnext : ∀ b < 2 ^ m, ∀ e ∈ k.2.nodes b, l.1.next e = k.1.next e := fun b hb e he =>
    congrArg (fun c => (Option.map Entry.next c).join) (hcell b hb e he).2
  refine ⟨⟨?_, ?_, fun b hb => (lists_congr hk hnodes hnext hkey hb).1,
    fun b hb => (lists_congr hk hnodes hnext hkey hb).2, fun b hb e he => ?_, fun b hb => ?_,
    fun b hb e he hne => ?_, fun key hpresent => ?_⟩, fun j hj => ⟨?_, fun b => ?_, hkey,
    fun e entry hholder hcell => ?_, fun p value hp hvalue' => ?_,
    fun p value => hseen j p value hj⟩⟩
  · rw [hlog]
    exact hk.legal
  · exact once_congr hk.once hlog fun j => by rw [hown]; exact ⟨rfl, rfl⟩
  · rw [hnodes] at he
    rw [(hcell b hb e he).1, (hcell b hb e he).2]
    exact hk.kept b hb e he
  · exact (hpointer b hb b (head_mem hk hb)).trans (hk.head b hb)
  · rw [hnodes] at he
    obtain ⟨key, p, value, hstored⟩ := hk.stored b hb e he hne
    obtain ⟨howner, hvalue⟩ := hvalue p value (hstored.not_mine hk hb he) hstored.value
    exact ⟨key, p, value, hstored.congr (hkey b hb e he) (hpointer b hb e he)
      (hvalue.trans hstored.value.symm) howner (by rw [hstate])⟩
  · rw [hstate] at hpresent
    obtain ⟨e, hmem, hrank⟩ := hk.present key hpresent
    refine ⟨e, hnodes ▸ hmem, ?_⟩
    rw [rank_congr (hkey _ (index_lt m key) e hmem)]
    exact hrank
  · rw [hown]
  · rw [hnodes]
    exact List.Subset.refl _
  · have hne : k.2.holder e ≠ some i := fun h => hj (Option.some.inj (hholder.symm.trans h))
    obtain ⟨hholder', hcell'⟩ := hentry e entry hne hcell
    exact ⟨hholder'.trans hholder, hcell'⟩
  · obtain ⟨howner, hvalue⟩ := hvalue p value (hp.not_mine hj) hvalue'
    exact ⟨hvalue, howner⟩

/-- A call that changes nothing in the map takes effect. -/
theorem keeps_answer {a : Answer V} {o : Own K V} (hk : Inv m k)
    (hq : (k.2.own i).requests.head? = some q) (heffect : (k.2.own i).effect = none)
    (ho : o.requests = (k.2.own i).requests ∧ o.effect = some a)
    (happly : (finiteMap K V).apply q k.2.state = (a, k.2.state))
    (hl : l = (k.1, { k.2.setOwn i o with log := (i, q, a) :: k.2.log })) :
    Inv m l ∧ ∀ j, j ≠ i → Rely m j k l := by
  have hstate : l.2.state = k.2.state := by
    rw [state_cons (by rw [hl])]
    exact congrArg Prod.snd happly
  subst hl
  refine ⟨{ hk with
    legal := ⟨(congrArg Prod.fst happly).symm, hk.legal⟩
    once := once_take hk.once heffect hq rfl ho rfl
    stored := fun b hb e he hne => ?_
    present := fun key hpresent => ?_ }, fun j hj => { Rely.refl m j k with
    own := Function.update_of_ne hj _ _ }⟩
  · obtain ⟨key, p, value, hstored⟩ := hk.stored b hb e he hne
    exact ⟨key, p, value, hstored.congr rfl rfl rfl rfl (by rw [hstate])⟩
  · rw [hstate] at hpresent
    exact hk.present key hpresent

/-- A thread forgets where it has found its value. -/
theorem keeps_forget {o : Own K V} (hk : Inv m k)
    (ho : o.requests = (k.2.own i).requests ∧ o.effect = (k.2.own i).effect)
    (hl : l = (k.1, k.2.setOwn i o)) : Inv m l ∧ ∀ j, j ≠ i → Rely m j k l := by
  subst hl
  refine ⟨{ hk with
    once := once_congr hk.once rfl fun j => ?_
    stored := fun b hb e he hne => ?_ }, fun j hj => { Rely.refl m j k with
    own := Function.update_of_ne hj _ _ }⟩
  rotate_left
  · obtain ⟨key, p, value, hstored⟩ := hk.stored b hb e he hne
    exact ⟨key, p, value, hstored.congr rfl rfl rfl rfl rfl⟩
  show (Function.update k.2.own i o j).requests = _ ∧ (Function.update k.2.own i o j).effect = _
  by_cases hj : j = i
  · subst hj
    rw [Function.update_self]
    exact ho
  · rw [Function.update_of_ne hj]
    exact ⟨rfl, rfl⟩

omit [DecidableEq ι] in
/-- The map after a `Set`. -/
theorem state_set {h : History ι K V} {a : Answer V} (hv : q.value = some value)
    (hlog : h.log = (i, q, a) :: k.2.log) :
    h.state = Function.update k.2.state q.key (some value) := by
  rw [state_cons hlog]
  exact congrArg Prod.snd (apply_value hv)

omit [DecidableEq ι] in
theorem state_set_of_ne {h : History ι K V} {a : Answer V} (hv : q.value = some value)
    (hlog : h.log = (i, q, a) :: k.2.log) {key : K} (hkey : key ≠ q.key) :
    h.state key = k.2.state key := by
  rw [state_set hv hlog]
  exact Function.update_of_ne hkey _ _

/-- A `Set` takes effect: the entry `e` has the key, and its value. -/
theorem keeps_put (hk : Inv m k) (hq : (k.2.own i).requests.head? = some q)
    (heffect : (k.2.own i).effect = none) (hv : q.value = some value)
    (hlog : l.2.log = (i, q, .set) :: k.2.log)
    (hown : l.2.own = Function.update k.2.own i { k.2.own i with effect := some .set })
    (hlists : ∀ b < 2 ^ m, Linked l.1.next (some b) (l.2.nodes b) ∧
      (l.2.nodes b).Pairwise fun x y => l.1.rank b x < l.1.rank b y)
    (hsubset : ∀ b, k.2.nodes b ⊆ l.2.nodes b)
    (hmem : ∀ b < 2 ^ m, ∀ x ∈ l.2.nodes b, x ∈ k.2.nodes b ∧ x ≠ e ∨ x = e ∧ b = index m q.key)
    (hat : At m l q.key e) (hunique : ∀ x, At m k q.key x → x = e)
    (hkey : ∀ x, l.1.key x = k.1.key x) (hpointer : ∀ x, x ≠ e → l.1.pointer x = k.1.pointer x)
    (hentry : ∀ j x, j ≠ i → k.2.holder x = some j → l.1.entries.cell x = k.1.entries.cell x)
    (hvalues : l.1.values = k.1.values)
    (howner : ∀ x, k.2.owner x ≠ .entry e → k.2.owner x ≠ .thread i → l.2.owner x = k.2.owner x)
    (hholder : ∀ x, x ≠ e → l.2.holder x = k.2.holder x) (hnone : l.2.holder e = none)
    (hfree : k.2.holder e = none ∨ k.2.holder e = some i) (hhead : ∀ b < 2 ^ m, b ≠ e)
    (hstored : ∃ p, Stored m (index m q.key) l e q.key p value) :
    Inv m l ∧ ∀ j, j ≠ i → Rely m j k l := by
  obtain ⟨p, hstored⟩ := hstored
  have honce : ∀ j, Once (l.2.own j) (l.2.took j) :=
    once_take (o := { k.2.own i with effect := some .set }) hk.once heffect hq hlog ⟨rfl, rfl⟩ hown
  have hheld : ∀ j, j ≠ i → k.2.holder e ≠ some j := by
    intro j hj hheld
    rcases hfree with hfree | hfree
    · exact Option.some_ne_none j (hheld.symm.trans hfree)
    · exact hj (Option.some.inj (hheld.symm.trans hfree))
  refine ⟨⟨?_, honce, fun b hb => (hlists b hb).1, fun b hb => (hlists b hb).2,
    fun b hb x hx => ?_, fun b hb => ?_, fun b hb x hx hne => ?_, fun key hpresent => ?_⟩,
    fun j hj => ⟨?_, hsubset, fun _ _ x _ => hkey x, fun x entry hx hcell => ?_,
      fun x v hx hv => ?_, fun x v _ hv => ?_⟩⟩
  · rw [hlog]
    exact ⟨(congrArg Prod.fst (apply_value hv)).symm, hk.legal⟩
  · rcases hmem b hb x hx with ⟨hx, hxe⟩ | ⟨rfl, _⟩
    · obtain ⟨hsome, hprivate⟩ := hk.kept b hb x hx
      exact ⟨by rwa [← key_isSome, hkey, key_isSome], (hholder x hxe).trans hprivate⟩
    · exact ⟨by rw [← key_isSome, hstored.key]; rfl, hnone⟩
  · rw [hpointer b (hhead b hb)]
    exact hk.head b hb
  · rcases hmem b hb x hx with ⟨hx, hxe⟩ | ⟨rfl, rfl⟩
    · obtain ⟨key, p', value', hstored'⟩ := hk.stored b hb x hx hne
      have hne' : key ≠ q.key := by
        rintro rfl
        obtain rfl := hstored'.index
        exact hxe (hunique x ⟨hx, rank_eq_coe.mpr ⟨hne, hstored'.key⟩⟩)
      refine ⟨key, p', value', hstored'.congr (hkey x) (hpointer x hxe) (by rw [hvalues])
        (howner p' ?_ ?_) (state_set_of_ne hv hlog hne')⟩
      · rw [hstored'.owner]
        exact fun h => hxe (Owner.entry.inj h)
      · rw [hstored'.owner]
        exact fun h => by cases h
    · exact ⟨q.key, p, value, hstored⟩
  · by_cases hkey' : key = q.key
    · rw [hkey']
      exact ⟨e, hat⟩
    · rw [state_set_of_ne hv hlog hkey'] at hpresent
      obtain ⟨x, hx⟩ := hk.present key hpresent
      exact ⟨x, hx.congr (hsubset _) (hkey x)⟩
  · rw [hown]
    exact Function.update_of_ne hj _ _
  · have hxe : x ≠ e := by
      rintro rfl
      exact hheld j hj hx
    rw [hholder x hxe, hentry j x hj hx]
    exact ⟨hx, hcell⟩
  · refine ⟨by rw [hvalues, hv], howner x (fun hxe => ?_) fun hxi => ?_⟩
    · rcases hx with hx | ⟨y, hx, hy, _⟩
      · cases hx.symm.trans hxe
      · obtain rfl := Owner.entry.inj (hx.symm.trans hxe)
        exact hheld j hj hy
    · exact hx.not_mine hj (.inl hxi)
  · rw [hvalues, hv]

/-- An entry gets another value, and the thread gets the one that it had. -/
theorem keeps_replace {new : Nat} {w : V} (hk : Inv m k)
    (hq : (k.2.own i).requests.head? = some q) (heffect : (k.2.own i).effect = none)
    (hv : q.value = some value) (hat : At m k q.key e)
    (hstored : Stored m (index m q.key) k e q.key p w)
    (hnew : k.2.owner new = .thread i) (hvalue : k.1.values.cell new = some value)
    (hl : l = ({ k.1 with entries := k.1.entries.modify e fun entry =>
        { entry with valuePtr := some new } },
      { k.2.setOwn i { k.2.own i with effect := some .set } with
        log := (i, q, .set) :: k.2.log
        owner := Function.update (Function.update k.2.owner p (.thread i)) new (.entry e) })) :
    Inv m l ∧ ∀ j, j ≠ i → Rely m j k l := by
  subst hl
  have hnone := (hk.kept _ (index_lt m q.key) e hat.1).2
  have hkey : ∀ x, Memory.key { k.1 with entries := k.1.entries.modify e fun entry =>
      { entry with valuePtr := some new } } x = k.1.key x :=
    fun x => Heap.map_modify fun _ => rfl
  have hnext : ∀ x, Memory.next { k.1 with entries := k.1.entries.modify e fun entry =>
      { entry with valuePtr := some new } } x = k.1.next x :=
    fun x => congrArg Option.join (Heap.map_modify fun _ => rfl)
  refine keeps_put (e := e) hk hq heffect hv rfl rfl
    (fun b hb => lists_congr hk rfl (fun _ _ x _ => hnext x) (fun _ _ x _ => hkey x) hb)
    (fun b => List.Subset.refl _) (fun b hb x hx => ?_) (hat.congr (List.Subset.refl _) (hkey e))
    (fun x hx => hat.unique hk hx) hkey (fun x hx => ?_) (fun j x hj hx => ?_) rfl
    (fun x hx hi => ?_) (fun x hx => rfl) hnone (.inl hnone)
    (fun b hb => (hstored.ne_head hk hb).symm) ?_
  · by_cases hxe : x = e
    · subst hxe
      exact .inr ⟨rfl, bucket_unique hk hb (index_lt m q.key) hx hat.1⟩
    · exact .inl ⟨hx, hxe⟩
  · exact congrArg (Option.map Entry.valuePtr) (Heap.modify_of_ne hx)
  · refine Heap.modify_of_ne ?_
    rintro rfl
    exact Option.some_ne_none j (hx.symm.trans hnone)
  · have hxp : x ≠ p := fun h => hx (h ▸ hstored.owner)
    have hxn : x ≠ new := fun h => hi (h ▸ hnew)
    show Function.update (Function.update k.2.owner p _) new _ x = _
    rw [Function.update_of_ne hxn, Function.update_of_ne hxp]
  · refine ⟨new, rfl, ?_, Function.update_self .., hvalue, ?_, (hkey e).trans hstored.key⟩
    · rw [state_set hv rfl, Function.update_self]
    · obtain ⟨entry, hcell, _⟩ := Option.map_eq_some_iff.mp hstored.pointer
      exact congrArg (Option.map Entry.valuePtr) (Heap.modify_self hcell)

/-- A new entry is linked in behind the one that comes before its key. -/
theorem keeps_link {prev : Nat} {target : Option Nat} (hk : Inv m k)
    (hq : (k.2.own i).requests.head? = some q) (heffect : (k.2.own i).effect = none)
    (hv : q.value = some value) (hprev : Before m k q.key prev)
    (htarget : ∀ t ∈ target, After m k q.key t) (hdraft : Draft i k e q.key value target)
    (hnext : k.1.next prev = target)
    (hl : l = ({ k.1 with entries := k.1.entries.modify prev fun entry =>
        { entry with next := some e } },
      { k.2.setOwn i { k.2.own i with effect := some .set } with
        log := (i, q, .set) :: k.2.log
        nodes := Function.update k.2.nodes (index m q.key)
          (Linked.insertAfter prev e (k.2.nodes (index m q.key)))
        holder := Function.update k.2.holder e none })) :
    Inv m l ∧ ∀ j, j ≠ i → Rely m j k l := by
  obtain ⟨p, hcell, howner, hvalue⟩ := hdraft.cell
  have hb := index_lt m q.key
  have hfree : ∀ b < 2 ^ m, e ∉ k.2.nodes b := fun b hb he =>
    Option.some_ne_none i (hdraft.holder.symm.trans (hk.kept b hb e he).2)
  have hne : e ≠ prev := by
    rintro rfl
    exact hfree _ hb hprev.1
  have hrank : k.1.rank (index m q.key) e = q.key :=
    rank_eq_coe.mpr ⟨(ne_of_mem_of_not_mem (head_mem hk hb) (hfree _ hb)).symm,
      by rw [Memory.key, hcell]; rfl⟩
  have hafter : ∀ t ∈ k.1.next prev, After m k q.key t := hnext ▸ htarget
  have hlinks : Links m k l q.key prev e := by
    rw [hl]
    exact ⟨rfl, rfl⟩
  have hholder : l.2.holder = Function.update k.2.holder e none := by rw [hl]
  have hlists : ∀ b < 2 ^ m, Linked l.1.next (some b) (l.2.nodes b) ∧
      (l.2.nodes b).Pairwise fun x y => l.1.rank b x < l.1.rank b y := by
    intro b hb'
    by_cases hbq : b = index m q.key
    · subst hbq
      refine hlinks.bucket hk hprev hafter hne hrank ?_
      rw [hnext, Memory.next, hcell]
      rfl
    · exact hlinks.bucket_of_ne hk hprev.1 hb' hbq
  have hlog : l.2.log = (i, q, .set) :: k.2.log := by rw [hl]
  have hvalues : l.1.values = k.1.values := by rw [hl]
  have howners : l.2.owner = k.2.owner := by
    rw [hl]
    rfl
  refine keeps_put (e := e) hk hq heffect hv hlog (by rw [hl]; rfl) hlists
    (fun b x hx => (hlinks.mem hprev.1).mpr (.inr hx)) (fun b hb' x hx => ?_)
    ⟨(hlinks.mem hprev.1).mpr (.inl ⟨rfl, rfl⟩), (rank_congr (hlinks.key_eq e)).trans hrank⟩
    (fun x hx => ?_) hlinks.key_eq (fun x _ => hlinks.pointer x)
    (fun j x hj hx => hlinks.cell ?_) hvalues
    (fun x _ _ => congrFun howners x) (fun x hx => ?_) ?_ (.inr hdraft.holder) (fun b hb' => ?_)
    ⟨p, rfl, ?_, ?_, ?_, ?_, ?_⟩
  · rcases (hlinks.mem hprev.1).mp hx with hx | hx
    · exact .inr hx
    · exact .inl ⟨hx, ne_of_mem_of_not_mem hx (hfree b hb')⟩
  · exact absurd hx (absent hk hprev (fun t ht => (hafter t ht).2) x)
  · rintro rfl
    exact Option.some_ne_none j (hx.symm.trans (hk.kept _ hb x hprev.1).2)
  · rw [hholder, Function.update_of_ne hx]
  · rw [hholder, Function.update_self]
  · rintro rfl
    exact hfree b hb' (head_mem hk hb')
  · rw [state_set hv hlog, Function.update_self]
  · rw [howners, howner]
  · rw [hvalues, hvalue]
  · rw [hlinks.pointer, Memory.pointer, hcell]
    rfl
  · rw [hlinks.key_eq, Memory.key, hcell]
    rfl

/-- A call that changes nothing takes effect, where it has an answer. -/
theorem keeps_take {a : Option (Answer V)} (hk : Inv m k)
    (hq : (k.2.own i).requests.head? = some q) (heffect : (k.2.own i).effect = none)
    (happly : ∀ b, a = some b → (finiteMap K V).apply q k.2.state = (b, k.2.state)) :
    Inv m (k.1, k.2.take i q a) ∧ ∀ j, j ≠ i → Rely m j k (k.1, k.2.take i q a) := by
  cases a with
  | none => exact ⟨hk, fun j _ => Rely.refl m j k⟩
  | some a =>
      exact keeps_answer (o := { k.2.own i with effect := some a }) hk hq heffect ⟨rfl, rfl⟩
        (happly a rfl) rfl

/-- What a thread has found when it has loaded the pointer behind `e`: that the key is missing,
or the entry of the key, or one that comes before it. -/
theorem reach_cases (hk : Inv m k) (hq : (k.2.own i).requests.head? = some q)
    (he : Before m k q.key e) :
    (k.2.reach i ((k.1.next e).bind k.1.entries.cell) = k.2.take i q q.missing ∧
      (∀ x, ¬ At m k q.key x) ∧ ∀ t ∈ k.1.next e, After m k q.key t) ∨
    (∃ t, k.1.next e = some t ∧ At m k q.key t ∧
      k.2.reach i ((k.1.next e).bind k.1.entries.cell) = k.2.take i q q.found) ∨
    ∃ t, k.1.next e = some t ∧ Before m k q.key t ∧ t ≠ index m q.key ∧
      k.2.reach i ((k.1.next e).bind k.1.entries.cell) = k.2 := by
  cases ht : k.1.next e with
  | none =>
      refine .inl ⟨?_, absent hk he fun t ht' => ?_, fun t ht' => ?_⟩
      · rw [History.reach, hq]
        rfl
      · rw [ht] at ht'
        cases ht'
      · cases ht'
  | some t =>
      obtain ⟨hmem, hne⟩ := next_after hk he ht
      obtain ⟨key, hrank⟩ := exists_rank hk (index_lt m q.key) hmem hne
      obtain ⟨entry, hcell, rfl⟩ := Option.map_eq_some_iff.mp (rank_eq_coe.mp hrank).2
      have hreach : k.2.reach i ((some t).bind k.1.entries.cell) =
          if entry.key < q.key then k.2 else if entry.key = q.key then k.2.take i q q.found
          else k.2.take i q q.missing := by
        rw [History.reach, hq, Option.bind_some, hcell]
      rcases lt_trichotomy entry.key q.key with hlt | heq | hgt
      · refine .inr (.inr ⟨t, rfl, ⟨hmem, ?_⟩, hne, ?_⟩)
        · rw [hrank]
          exact WithBot.coe_lt_coe.mpr hlt
        · rw [hreach, if_pos hlt]
      · refine .inr (.inl ⟨t, rfl, ⟨hmem, hrank.trans (congrArg _ heq)⟩, ?_⟩)
        rw [hreach, if_neg heq.not_lt, if_pos heq]
      · have hafter : ∀ x ∈ k.1.next e, After m k q.key x := by
          intro x hx
          obtain rfl := Option.some.inj (ht.symm.trans hx)
          refine ⟨hmem, ?_⟩
          rw [hrank]
          exact WithBot.coe_lt_coe.mpr hgt
        refine .inl ⟨?_, absent hk he fun x hx => (hafter x hx).2, ht ▸ hafter⟩
        rw [hreach, if_neg hgt.not_gt, if_neg hgt.ne']

end Keeps

end Concurrent
end Base
end Cmw
