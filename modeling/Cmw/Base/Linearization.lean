import Cmw.Base.ConcurrentCalls

/-!
# The hash map takes its calls one after another

In every run, as long as no value is deleted that a `Get` has loaded and not yet copied, each
call takes effect at one of its own steps, and answers what a map answers that is used by one
call after another.
-/

namespace Cmw
namespace Base
namespace Concurrent

open AtomicHashMap (index index_lt)
open Library
open Library.Thread

/-! ### Every run -/

section Runs

variable {ι K V : Type} [DecidableEq ι] [Integral K] [Inhabited V]
variable {m : Nat} {i : ι} {k : Shared ι K V}

/-- What a call has returned, and what it answers in the order in which the calls take effect:
a `Get(key, V **value)` returns where it has found its value. -/
def Agrees (o : Own K V) : Answer V → Answer V → Prop
  | .pointer none, b => b = .got none
  | .pointer (some p), b => ∃ n value, p = some n ∧ o.seen = some (n, value) ∧ b = .got (some value)
  | a, b => a = b

def Rest (i : ι) (_ : Unit) (a : Answer V) (k : Shared ι K V) : Prop :=
  (k.2.own i).requests = [] ∨ ∃ b, (k.2.own i).effect = some b ∧ Agrees (k.2.own i) a b

theorem keeps_enter {c : Call K V} {a : Answer V} (hk : Inv m k) (hrest : Rest i () a k) :
    Inv m (enter i c k) ∧ ∀ j, j ≠ i → Rely m j k (enter i c k) := by
  refine ⟨{ hk with
    once := fun j => ?_
    stored := fun b hb e he hne => ?_ }, fun j hj => { Rely.refl m j k with
    own := Function.update_of_ne hj _ _ }⟩
  · show Once (Function.update k.2.own i { requests := c.request :: (k.2.own i).requests } j)
      (k.2.took j)
    by_cases hj : j = i
    · subst hj
      rw [Function.update_self]
      show (k.2.took j).map Prod.fst = (k.2.own j).requests
      have honce := hk.once j
      unfold Once at honce
      cases heffect : (k.2.own j).effect with
      | none =>
          rw [heffect] at honce
          rcases hrest with hrest | ⟨b, hb, _⟩
          · rw [hrest] at honce ⊢
            exact honce
          · exact absurd (hb.symm.trans heffect) (Option.some_ne_none b)
      | some b =>
          rw [heffect] at honce
          obtain ⟨q, rest, htook, hrequests⟩ := honce
          rw [htook, hrequests]
          rfl
    · rw [Function.update_of_ne hj]
      exact hk.once j
  · obtain ⟨key, p, value, hstored⟩ := hk.stored b hb e he hne
    exact ⟨key, p, value, hstored.congr rfl rfl rfl rfl rfl⟩

theorem body_safe {moved : V → V} {c : Call K V} (hk : Inv m (enter i c k)) :
    (protocol ι K V m).Safe i (Rest i) (c.body moved m ()) (enter i c k) := by
  obtain ⟨left, q⟩ := c
  have hown : (enter i { left, request := q } k).2.own i =
      { requests := q :: (k.2.own i).requests } := Function.update_self ..
  have hset : ∀ l : Shared ι K V,
      l.2.own i = { requests := q :: (k.2.own i).requests, effect := some .set } →
        Rest i () .set l := fun l hl => .inr ⟨.set, by rw [hl], rfl⟩
  cases q with
  | has key =>
      simp only [Call.body, Protocol.safe_seq, Protocol.safe_pure]
      exact has_safe hk hown rfl rfl fun b l hl => .inr ⟨.has b, by rw [hl], rfl⟩
  | get key =>
      simp only [Call.body, Protocol.safe_seq, Protocol.safe_pure]
      exact get_safe hk hown rfl rfl fun value l hl => .inr ⟨.got value, hl, rfl⟩
  | getPtr key =>
      simp only [Call.body, Protocol.safe_seq, Protocol.safe_pure]
      exact getPtr_safe (q := .getPtr key) hk hown rfl rfl rfl rfl (fun _ => rfl)
        (fun l hl => .inr ⟨.got none, by rw [hl], rfl⟩)
        fun p value l _ hl => .inr ⟨.got (some value), by rw [hl], p, value, rfl, by rw [hl], rfl⟩
  | set key =>
      simp only [Call.body, insertDefault, Protocol.safe_seq, Protocol.safe_pure]
      exact insertFrom_safe (q := .set key) hk hown rfl rfl rfl holding_none (fun _ => rfl) hset
  | setCopy key value =>
      simp only [Call.body, insertCopy, Protocol.safe_seq, Protocol.safe_pure]
      exact insertFrom_safe (q := .setCopy key value) hk hown rfl rfl rfl holding_none
        (fun _ => rfl) hset
  | setMove key value =>
      simp only [Call.body, insertMove, Protocol.safe_seq, Protocol.safe_pure]
      exact insertFrom_safe (q := .setMove key value) hk hown rfl rfl rfl holding_none
        (fun _ => rfl) hset

omit [DecidableEq ι] in
/-- What the map holds: the value of the last `Set` of the key that has taken effect. -/
theorem replay_eq_find? (log : List (Request K V × Answer V)) (key : K) :
    (finiteMap K V).replay log key =
      (log.find? fun e => e.1.value.isSome && e.1.key == key).bind fun e => e.1.value := by
  induction log with
  | nil => rfl
  | cons e log ih =>
      obtain ⟨q, a⟩ := e
      rw [List.find?_cons]
      cases hv : q.value with
      | none =>
          have happly : ((finiteMap K V).apply q ((finiteMap K V).replay log)).2 =
              (finiteMap K V).replay log := by
            cases q <;> first | rfl | cases hv
          show ((finiteMap K V).apply q ((finiteMap K V).replay log)).2 key = _
          rw [happly, ih]
          simp
      | some value =>
          show ((finiteMap K V).apply q ((finiteMap K V).replay log)).2 key = _
          rw [apply_value hv]
          dsimp only
          by_cases hkey : q.key = key
          · rw [← hkey, Function.update_self]
            simp [hv]
          · rw [Function.update_of_ne (Ne.symm hkey), ih, beq_eq_false_iff_ne.mpr hkey,
              Bool.and_false]

theorem nodes_eq (hk : Inv m k) {b : Nat} (hb : b < 2 ^ m) :
    ∃ es, k.2.nodes b = b :: es ∧ ∀ e ∈ es, e ≠ b := by
  obtain ⟨es, hes, _⟩ := (hk.linked b hb).exists_cons
  refine ⟨es, hes, fun e he => ?_⟩
  have hsorted := hk.sorted b hb
  rw [hes] at hsorted
  rintro rfl
  exact lt_irrefl _ (List.rel_of_pairwise_cons hsorted he)

/-- The key is in the list of its bucket. -/
def Memory.Contains (m : Nat) (s : Memory K V) (key : K) : Prop :=
  ∃ es, Linked s.next (some (index m key)) (index m key :: es) ∧ ∃ e ∈ es, s.key e = some key

theorem contains_iff (hk : Inv m k) {key : K} :
    k.1.Contains m key ↔ (k.2.state key).isSome := by
  have hb := index_lt m key
  constructor
  · rintro ⟨es, hlinked, e, he, hkey⟩
    obtain ⟨es', hnodes, hne⟩ := nodes_eq hk hb
    have heq : index m key :: es = k.2.nodes (index m key) := hlinked.unique (hk.linked _ hb)
    have hes : es = es' := List.tail_eq_of_cons_eq (heq.trans hnodes)
    have hmem : e ∈ k.2.nodes (index m key) := heq ▸ List.mem_cons_of_mem _ he
    have hat : At m k key e := ⟨hmem, rank_eq_coe.mpr ⟨hne e (hes ▸ he), hkey⟩⟩
    obtain ⟨value, hstate⟩ := hat.state hk
    rw [hstate]
    rfl
  · intro hstate
    obtain ⟨e, hmem, hrank⟩ := hk.present key hstate
    obtain ⟨es, hnodes, _⟩ := nodes_eq hk hb
    obtain ⟨hne, hkey⟩ := rank_eq_coe.mp hrank
    refine ⟨es, hnodes ▸ hk.linked _ hb, e, ?_, hkey⟩
    exact (List.mem_cons.mp (hnodes ▸ hmem)).resolve_left hne

omit [Integral K] [Inhabited V] in
theorem map_key_eq {s : Memory K V} {es : List Nat} (h : ∀ e ∈ es, ∃ key, s.key e = some key) :
    ∃ keys : List K, es.map s.key = keys.map some := by
  induction es with
  | nil => exact ⟨[], rfl⟩
  | cons e es ih =>
      obtain ⟨key, hkey⟩ := h e List.mem_cons_self
      obtain ⟨keys, hkeys⟩ := ih fun x hx => h x (List.mem_cons_of_mem e hx)
      exact ⟨key :: keys, by rw [List.map_cons, List.map_cons, hkey, hkeys]⟩

/-- The keys of a bucket, in their order. -/
theorem exists_keys (hk : Inv m k) {b : Nat} (hb : b < 2 ^ m) :
    ∃ (es : List Nat) (keys : List K), Linked k.1.next (some b) (b :: es) ∧
      es.map k.1.key = keys.map some ∧ keys.Pairwise (· < ·) ∧ ∀ key ∈ keys, index m key = b := by
  obtain ⟨es, hnodes, hne⟩ := nodes_eq hk hb
  have hstored : ∀ e ∈ es, ∃ key p value, Stored m b k e key p value := fun e he =>
    hk.stored b hb e (hnodes ▸ List.mem_cons_of_mem b he) (hne e he)
  obtain ⟨keys, hkeys⟩ := map_key_eq fun e he => by
    obtain ⟨key, p, value, hstored⟩ := hstored e he
    exact ⟨key, hstored.key⟩
  refine ⟨es, keys, hnodes ▸ hk.linked b hb, hkeys, ?_, fun key hkey => ?_⟩
  · have hpairs : (keys.map some).Pairwise fun a b => ∀ x ∈ a, ∀ y ∈ b, x < y := by
      have hsorted := hk.sorted b hb
      rw [hnodes] at hsorted
      rw [← hkeys, List.pairwise_map]
      refine (List.pairwise_cons.mp hsorted).2.imp_of_mem fun {x y} hx hy hxy kx hkx ky hky => ?_
      rw [rank_eq_coe.mpr ⟨hne x hx, hkx⟩, rank_eq_coe.mpr ⟨hne y hy, hky⟩] at hxy
      exact WithBot.coe_lt_coe.mp hxy
    exact (List.pairwise_map.mp hpairs).imp fun h => h _ rfl _ rfl
  · have hmem : some key ∈ es.map k.1.key := hkeys.symm ▸ List.mem_map_of_mem hkey
    obtain ⟨e, he, hkey⟩ := List.mem_map.mp hmem
    obtain ⟨key', p, value, hstored⟩ := hstored e he
    obtain rfl := Option.some.inj (hkey.symm.trans hstored.key)
    exact hstored.index

/-! #### The log only grows -/

omit [Integral K] [Inhabited V] in
theorem suffix_take {h : History ι K V} {q : Request K V} {a : Option (Answer V)} :
    h.log <:+ (h.take i q a).log := by
  cases a with
  | none => exact List.suffix_rfl
  | some a => exact List.suffix_cons _ _

omit [Integral K] [Inhabited V] in
theorem suffix_put {h h' : History ι K V} (hlog : h'.log = h.log) : h.log <:+ (h'.put i).log := by
  rw [← hlog, History.put]
  split
  · exact suffix_take
  · exact List.suffix_rfl

omit [Inhabited V] in
theorem suffix_note {s : Memory K V} {o : Op K V} {a : Option (Yield o)} {h : History ι K V} :
    h.log <:+ (note m i s o a h).log := by
  unfold note
  split
  · rw [History.reach]
    split
    · split
      · exact suffix_take
      · split
        · exact List.suffix_rfl
        · split <;> exact suffix_take
    · exact List.suffix_rfl
  · split
    · rw [History.see]
      split
      · split
        · exact List.suffix_cons _ _
        · exact List.suffix_rfl
      · exact List.suffix_rfl
    · exact List.suffix_rfl
  · exact List.suffix_rfl
  · exact List.suffix_rfl
  · exact List.suffix_rfl
  · refine suffix_put ?_
    rw [History.link]
    split <;> rfl
  · refine suffix_put ?_
    unfold History.replace
    split <;> rfl
  · exact List.suffix_rfl

theorem suffix_step {moved : V → V} (t : State ι K V) (e : Step ι K V) :
    t.shared.2.log <:+ (step moved m t e).shared.2.log := by
  cases e with
  | call i c =>
      cases hi : t.threads i with
      | done r a => simp [step, Thread.step, hi, enter, History.setOwn]
      | _ => simp [step, Thread.step, hi]
  | act i x =>
      cases hi : t.threads i with
      | call r o k => simpa [step, Thread.step, hi, noted] using suffix_note
      | _ => simp [step, Thread.step, hi]

theorem suffix_exec {moved : V → V} (t : State ι K V) (es : List (Step ι K V)) :
    t.shared.2.log <:+ (Run.exec (step moved m) t es).shared.2.log :=
  Run.invariant_always (I := fun s : State ι K V => t.shared.2.log <:+ s.shared.2.log)
    (fun s e hs => hs.trans (suffix_step s e)) List.suffix_rfl _ (Run.exec_mem_states _ t es)

omit [DecidableEq ι] in
/-- No key is taken out. -/
theorem state_mono {h h' : History ι K V} (hlog : h.log <:+ h'.log) {key : K}
    (hstate : (h.state key).isSome) : (h'.state key).isSome := by
  obtain ⟨es, hes⟩ := hlog
  rw [History.state, replay_eq_find?] at hstate ⊢
  rw [← hes, List.map_append, List.find?_append]
  cases hfind : (es.map Prod.snd).find? fun e => e.1.value.isSome && e.1.key == key with
  | none => simpa using hstate
  | some e =>
      have hvalue := List.find?_some hfind
      rw [Bool.and_eq_true] at hvalue
      exact hvalue.1

/-! #### What a run comes to -/

/-- The calls take effect one after another, each at one of its own steps, and answer what a map
answers; the lists of the buckets are those of the keys that have been set. -/
structure Linearizes (m : Nat) (t : State ι K V) : Prop where
  legal : (finiteMap K V).Legal (t.shared.2.log.map Prod.snd)
  once : ∀ i, (t.shared.2.took i).map Prod.fst = (t.shared.2.own i).requests ∨
    (t.shared.2.took i).map Prod.fst = (t.shared.2.own i).requests.tail
  returned : ∀ i a, t.threads i = .done () a → (t.shared.2.own i).requests ≠ [] →
    ∃ q b rest, t.shared.2.took i = (q, b) :: rest ∧
      (t.shared.2.own i).requests = q :: rest.map Prod.fst ∧ Agrees (t.shared.2.own i) a b
  buckets : ∀ b < 2 ^ m, ∃ (es : List Nat) (keys : List K),
    Linked t.shared.1.next (some b) (b :: es) ∧ es.map t.shared.1.key = keys.map some ∧
      keys.Pairwise (· < ·) ∧ ∀ key ∈ keys, index m key = b
  contains : ∀ key, t.shared.1.Contains m key ↔ (t.shared.2.state key).isSome
  alive : ∀ i, t.threads i ≠ .crash

/-- No value is deleted that a `Get(key, V *value)` has found and not yet copied. -/
def Careful (t : State ι K V) : Step ι K V → Prop
  | .call _ _ => True
  | .act i _ =>
      match t.threads i with
      | .call _ (.deleteValue p) _ => ∀ j, ¬ Copying (t.shared.2.own j) p
      | _ => True

theorem linearizes_of_holds {t : State ι K V} (h : (protocol ι K V m).Holds Rest t) :
    Linearizes m t where
  legal := h.inv.legal
  once i := by
    have honce := h.inv.once i
    unfold Once at honce
    split at honce
    · exact .inr honce
    · obtain ⟨q, rest, htook, hrequests⟩ := honce
      rw [htook, hrequests]
      exact .inl rfl
  returned i a hi hne := by
    have honce := h.inv.once i
    rcases h.rest hi with hnil | ⟨b, hb, hagrees⟩
    · exact absurd hnil hne
    · unfold Once at honce
      rw [hb] at honce
      obtain ⟨q, rest, htook, hrequests⟩ := honce
      exact ⟨q, b, rest, htook, hrequests, hagrees⟩
  buckets b hb := exists_keys h.inv hb
  contains key := contains_iff h.inv
  alive i := h.not_crash not_false

variable [OfNat K 0]

theorem holds_start : (protocol ι K V m).Holds Rest (start ι K V m) where
  inv :=
    { legal := trivial
      once := fun _ => rfl
      linked := fun b hb => ⟨rfl, by simp [start, Config.start, Memory.next, hb, Linked]⟩
      sorted := fun b _ => List.pairwise_singleton _ b
      kept := fun b hb e he => by
        obtain rfl := List.mem_singleton.mp he
        exact ⟨by simp [start, Config.start, hb], rfl⟩
      head := fun b hb => by simp [start, Config.start, Memory.pointer, hb]
      stored := fun b _ e he hne => absurd (List.mem_singleton.mp he) hne
      present := fun key hstate => absurd hstate Bool.false_ne_true }
  safe _ := .inl rfl

theorem holds_of_careful {moved : V → V} {es : List (Step ι K V)}
    (h : Run.Along (step moved m) Careful (start ι K V m) es) :
    ∀ t ∈ Run.states (step moved m) (start ι K V m) es, (protocol ι K V m).Holds Rest t := by
  have hes : Run.Along (step moved m) ((protocol ι K V m).Meets fun _ _ _ _ => True)
      (start ι K V m) es := by
    refine Run.along_mono (fun t e he => ?_) h
    cases e with
    | call i c => exact fun _ _ _ => trivial
    | act i x =>
        intro r o k hi
        rw [Careful, hi] at he
        cases o with
        | deleteValue p => exact he
        | _ => trivial
  refine Protocol.sound ?_ ?_ ?_ holds_start hes
  · intro i r a k l hrest hkl _
    rw [Rest, hkl.own]
    exact hrest
  · exact fun i c r a k hk hrest _ => keeps_enter hk hrest
  · exact fun i c r a k hk hrest _ => body_safe (keeps_enter hk hrest).1

/-- In a run of any number of calls, whose steps delete no value that is being copied, the calls
take effect one after another, and no key is lost. -/
theorem linearizes_of_careful {moved : V → V} {es : List (Step ι K V)}
    (h : Run.Along (step moved m) Careful (start ι K V m) es) :
    (∀ t ∈ Run.states (step moved m) (start ι K V m) es, Linearizes m t) ∧
      ∀ bs cs, es = bs ++ cs →
        (Run.exec (step moved m) (start ι K V m) bs).shared.2.log <:+
          (Run.exec (step moved m) (start ι K V m) es).shared.2.log ∧
        ∀ key, (Run.exec (step moved m) (start ι K V m) bs).shared.1.Contains m key →
          (Run.exec (step moved m) (start ι K V m) es).shared.1.Contains m key := by
  refine ⟨fun t ht => linearizes_of_holds (holds_of_careful h t ht), fun bs cs hes => ?_⟩
  have hlog : (Run.exec (step moved m) (start ι K V m) bs).shared.2.log <:+
      (Run.exec (step moved m) (start ι K V m) es).shared.2.log := by
    rw [hes, Run.exec_append]
    exact suffix_exec _ cs
  refine ⟨hlog, fun key hkey => ?_⟩
  have hbs := (Run.along_append.mp (hes ▸ h)).1
  have hend := holds_of_careful h _ (Run.exec_mem_states _ _ _)
  have hbegin := holds_of_careful hbs _ (Run.exec_mem_states _ _ _)
  exact (contains_iff hend.inv).mpr (state_mono hlog ((contains_iff hbegin.inv).mp hkey))

/-- The calls answer what the code answers as one thread uses it. -/
theorem oneThread_of_careful {moved : V → V} {es : List (Step ι K V)}
    (h : Run.Along (step moved m) Careful (start ι K V m) es) :
    ∀ t ∈ Run.states (step moved m) (start ι K V m) es,
      (oneThread K V m).Legal (t.shared.2.log.map Prod.snd) := fun t ht =>
  (oneThread_legal_iff m _).mpr (holds_of_careful h t ht).inv.legal

end Runs

/-! ### A value that is deleted too early -/

/-- Thread `i` takes `n` steps, and is given cell `x` where it allocates. -/
def acts (i : Bool) (n x : Nat) : List (Step Bool (BitVec 64) Nat) := List.replicate n (.act i x)

/-- A value is replaced and deleted after it has been copied. -/
def replaced : List (Step Bool (BitVec 64) Nat) :=
  .call false { left := 5, request := .setCopy 1 10 } :: acts false 5 0 ++
    .call true { left := 5, request := .get 1 } :: acts true 4 0 ++
    .call false { left := 5, request := .setCopy 1 20 } :: acts false 6 1

theorem careful_replaced :
    Run.Along (step id 0) Careful (start Bool (BitVec 64) Nat 0) replaced := by
  refine ⟨trivial, trivial, trivial, trivial, trivial, trivial, trivial, trivial, trivial, trivial,
    trivial, trivial, trivial, trivial, trivial, trivial, trivial, fun j hj => ?_, trivial⟩
  obtain ⟨⟨value, hseen⟩, _⟩ := hj
  cases j <;> cases hseen

theorem linearizes_of_careful_replaced :
    Linearizes 0 (Run.exec (step id 0) (start Bool (BitVec 64) Nat 0) replaced) :=
  (linearizes_of_careful careful_replaced).1 _ (Run.exec_mem_states _ _ _)

/-- It is deleted before it has been copied, and the value of another key is put in its place. -/
def replacedEarly : List (Step Bool (BitVec 64) Nat) :=
  .call false { left := 5, request := .setCopy 1 10 } :: acts false 5 0 ++
    .call true { left := 5, request := .get 1 } :: acts true 3 0 ++
    .call false { left := 5, request := .setCopy 1 20 } :: acts false 6 1 ++
    .call false { left := 5, request := .setCopy 2 30 } :: acts false 7 0 ++ acts true 1 0

/-- `Get` returns the value of a key that it was not called with. -/
theorem replacedEarly_not_linearizes :
    ¬ Linearizes 0 (Run.exec (step id 0) (start Bool (BitVec 64) Nat 0) replacedEarly) := by
  intro h
  obtain ⟨q, b, rest, htook, -, hagrees⟩ :=
    h.returned true (.got (some 30)) rfl (List.cons_ne_nil _ _)
  have htook : [(Request.get 1, Answer.got (some 10))] = (q, b) :: rest := htook
  have hb : Answer.got (some 10) = b := congrArg Prod.snd (List.cons.inj htook).1
  have hreturned : Answer.got (some 30) = b := hagrees
  cases hb.trans hreturned.symm

end Concurrent
end Base
end Cmw
