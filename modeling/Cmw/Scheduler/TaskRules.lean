import Cmw.Scheduler.Tasks
import Mathlib.Data.List.Nodup

/-!
# What is kept while tasks are made and removed

Who has the mutex of an id is the only one that changes what `id_cr_` and the queues say of
it, and leaves them in agreement.  A routine is acquired only where it is in a queue, and taken
out of the queue only by the one that has acquired it.
-/

namespace Cmw
namespace Scheduler
namespace Tasks

open Library
open Library.Thread

variable {τ ι κ : Type}

namespace Memory

def Listed (m : Memory τ ι κ) (p : Nat) : Prop := ∃ k, p ∈ m.crGroup k

/-- `id_cr_` and the queues agree on the routines of this id. -/
def Settled (m : Memory τ ι κ) (x : ι) : Prop :=
  ∀ p, m.idCr x = some p ↔ m.idOf p = some x ∧ m.Listed p

end Memory

open Memory

structure Inv (m : Memory τ ι κ) : Prop where
  made : ∀ p x, m.idOf p = some x → p < m.made
  own : ∀ x p, m.idCr x = some p → m.idOf p = some x
  placed : ∀ k p, p ∈ m.crGroup k → m.queueOf p = some k
  known : ∀ p, m.Listed p → ∃ x, m.idOf p = some x
  alone : ∀ p q, m.Listed p → m.Listed q → m.idOf p = m.idOf q → p = q
  nodup : ∀ k, (m.crGroup k).Nodup
  settled : ∀ x, m.mutex x = none → m.Settled x
  reading : ∀ k t, m.writer k = some t → m.readers k = []
  running : ∀ t p, m.running t = some p → m.lock p = some t ∧ m.Listed p
  removed : ∀ p, m.removed p = true →
    (∃ x, m.idOf p = some x) ∧ (∀ x, m.idCr x ≠ some p) ∧ ¬ m.Listed p ∧ m.lock p = none

/-- What is kept of an id whose mutex one has. -/
structure Guarded (x : ι) (m n : Memory τ ι κ) : Prop where
  idCr : n.idCr x = m.idCr x
  ids : ∀ p, n.idOf p = some x ↔ m.idOf p = some x
  queue : ∀ p, m.idOf p = some x → n.queueOf p = m.queueOf p
  listed : ∀ p, m.idOf p = some x → ∀ k, p ∈ n.crGroup k ↔ p ∈ m.crGroup k
  free : ∀ p, m.idOf p = some x → ¬ m.Listed p → m.lock p = none → n.lock p = none

structure Rely (i : τ) (m n : Memory τ ι κ) : Prop where
  mutex : ∀ x, m.mutex x = some i → n.mutex x = some i
  guarded : ∀ x, m.mutex x = some i → Guarded x m n
  ids : ∀ p x, m.idOf p = some x → n.idOf p = some x
  reads : ∀ k, i ∈ m.readers k → i ∈ n.readers k ∧ n.crGroup k = m.crGroup k
  writes : ∀ k, m.writer k = some i → n.writer k = some i ∧ n.crGroup k = m.crGroup k
  lock : ∀ p, m.lock p = some i → n.lock p = some i
  held : ∀ p k, m.lock p = some i → p ∈ m.crGroup k → p ∈ n.crGroup k
  running : n.running i = m.running i

def Pre (i : τ) (o : Op ι κ) (m : Memory τ ι κ) : Prop :=
  match o with
  | .unlockMutex x gone => m.mutex x = some i ∧ m.Settled x ∧
      ∀ p, gone = some p → m.idOf p = some x ∧ ¬ m.Listed p ∧ m.lock p = none
  | .insertId x => m.mutex x = some i
  | .eraseId x => m.mutex x = some i
  | .setQueue p _ => ∃ x, m.idOf p = some x ∧ m.mutex x = some i ∧ ¬ m.Listed p
  | .unlockWrite k => m.writer k = some i
  | .emplaceBack k p => m.writer k = some i ∧ m.queueOf p = some k ∧
      ∃ x, m.idCr x = some p ∧ m.mutex x = some i ∧ ∀ q, m.idOf q = some x → ¬ m.Listed q
  | .erase k p => m.writer k = some i ∧ m.lock p = some i ∧ m.running i ≠ some p ∧
      ∃ x, m.idOf p = some x ∧ m.mutex x = some i
  | .acquire p => m.Listed p
  | .release p => m.lock p = some i ∧ m.running i ≠ some p
  | .enter p => m.lock p = some i ∧ m.Listed p
  | _ => True

theorem Guarded.refl (x : ι) (m : Memory τ ι κ) : Guarded x m m :=
  ⟨rfl, fun _ => Iff.rfl, fun _ _ => rfl, fun _ _ _ => Iff.rfl, fun _ _ _ h => h⟩

theorem Guarded.not_listed {x : ι} {m n : Memory τ ι κ} (h : Guarded x m n) {p : Nat}
    (hp : m.idOf p = some x) : n.Listed p ↔ m.Listed p :=
  exists_congr (h.listed p hp)

theorem Guarded.trans {x : ι} {m n l : Memory τ ι κ} (h : Guarded x m n) (h' : Guarded x n l) :
    Guarded x m l where
  idCr := h'.idCr.trans h.idCr
  ids p := (h'.ids p).trans (h.ids p)
  queue p hp := (h'.queue p ((h.ids p).mpr hp)).trans (h.queue p hp)
  listed p hp k := (h'.listed p ((h.ids p).mpr hp) k).trans (h.listed p hp k)
  free p hp hl hfree := h'.free p ((h.ids p).mpr hp) (fun hn => hl ((h.not_listed hp).mp hn))
    (h.free p hp hl hfree)

theorem Guarded.settled {x : ι} {m n : Memory τ ι κ} (h : Guarded x m n) (hm : m.Settled x) :
    n.Settled x := by
  intro p
  rw [h.idCr, hm p, h.ids p]
  exact and_congr_right fun hp => (h.not_listed hp).symm

theorem Rely.refl (i : τ) (m : Memory τ ι κ) : Rely i m m :=
  ⟨fun _ h => h, fun x _ => Guarded.refl x m, fun _ _ h => h, fun _ h => ⟨h, rfl⟩,
    fun _ h => ⟨h, rfl⟩, fun _ h => h, fun _ _ _ h => h, rfl⟩

theorem Rely.trans {i : τ} {m n l : Memory τ ι κ} (h : Rely i m n) (h' : Rely i n l) :
    Rely i m l where
  mutex x hx := h'.mutex x (h.mutex x hx)
  guarded x hx := (h.guarded x hx).trans (h'.guarded x (h.mutex x hx))
  ids p x hp := h'.ids p x (h.ids p x hp)
  reads k hk := by
    obtain ⟨hn, hqueue⟩ := h.reads k hk
    exact ⟨(h'.reads k hn).1, (h'.reads k hn).2.trans hqueue⟩
  writes k hk := by
    obtain ⟨hn, hqueue⟩ := h.writes k hk
    exact ⟨(h'.writes k hn).1, (h'.writes k hn).2.trans hqueue⟩
  lock p hp := h'.lock p (h.lock p hp)
  held p k hp hk := h'.held p k (h.lock p hp) (h.held p k hp hk)
  running := h'.running.trans h.running

/-! ## What the operations keep -/

section Alter

variable {m : Memory τ ι κ} {p q : Nat} {f : CRoutine τ ι κ → CRoutine τ ι κ}

theorem routine_alter : (m.alter p f).routine q =
    if q = p then (m.routine p).map f else m.routine q := Function.update_apply ..

theorem idOf_alter (hf : ∀ r, (f r).id = r.id) : (m.alter p f).idOf q = m.idOf q := by
  rw [idOf, routine_alter]
  split
  · case isTrue h =>
      rw [h, idOf, Option.map_map]
      exact Option.map_congr fun r _ => hf r
  · rfl

theorem queueOf_alter (hf : ∀ r, (f r).queue = r.queue) :
    (m.alter p f).queueOf q = m.queueOf q := by
  rw [queueOf, routine_alter]
  split
  · case isTrue h =>
      rw [h, queueOf, Option.bind_map]
      exact Option.bind_congr fun r _ => hf r
  · rfl

theorem lock_alter (hf : ∀ r, (f r).lock = r.lock) : (m.alter p f).lock q = m.lock q := by
  rw [lock, routine_alter]
  split
  · case isTrue h =>
      rw [h, lock, Option.bind_map]
      exact Option.bind_congr fun r _ => hf r
  · rfl

end Alter

/-- Nothing that the rules speak of is changed. -/
structure Same (m n : Memory τ ι κ) : Prop where
  made : n.made = m.made
  idCr : n.idCr = m.idCr
  mutex : n.mutex = m.mutex
  crGroup : n.crGroup = m.crGroup
  writer : n.writer = m.writer
  readers : n.readers = m.readers
  running : n.running = m.running
  removed : n.removed = m.removed
  idOf : ∀ p, n.idOf p = m.idOf p
  queueOf : ∀ p, n.queueOf p = m.queueOf p
  lock : ∀ p, n.lock p = m.lock p

theorem same_alter (m : Memory τ ι κ) (p : Nat) (f : CRoutine τ ι κ → CRoutine τ ι κ)
    (hid : ∀ r, (f r).id = r.id) (hqueue : ∀ r, (f r).queue = r.queue)
    (hlock : ∀ r, (f r).lock = r.lock) : Same m (m.alter p f) :=
  ⟨rfl, rfl, rfl, rfl, rfl, rfl, rfl, rfl, fun _ => idOf_alter hid, fun _ => queueOf_alter hqueue,
    fun _ => lock_alter hlock⟩

variable {i : τ} {m n : Memory τ ι κ}

theorem Same.keeps (h : Same m n) (hm : Inv m) : Inv n ∧ ∀ j, j ≠ i → Rely j m n := by
  have hlisted : ∀ p, n.Listed p ↔ m.Listed p := fun p => by rw [Listed, Listed, h.crGroup]
  refine ⟨⟨?_, ?_, ?_, ?_, ?_, ?_, ?_, ?_, ?_, ?_⟩, fun j _ => ⟨?_, ?_, ?_, ?_, ?_, ?_, ?_, ?_⟩⟩
  · simpa only [h.idOf, h.made] using hm.made
  · simpa only [h.idCr, h.idOf] using hm.own
  · simpa only [h.crGroup, h.queueOf] using hm.placed
  · simpa only [hlisted, h.idOf] using hm.known
  · simpa only [hlisted, h.idOf] using hm.alone
  · simpa only [h.crGroup] using hm.nodup
  · simpa only [h.mutex, Settled, h.idCr, h.idOf, hlisted] using hm.settled
  · simpa only [h.writer, h.readers] using hm.reading
  · simpa only [h.running, h.lock, hlisted] using hm.running
  · simpa only [h.removed, h.idOf, h.idCr, hlisted, h.lock] using hm.removed
  · simp only [h.mutex, imp_self, implies_true]
  · exact fun x _ => ⟨by rw [h.idCr], fun p => by rw [h.idOf], fun p _ => h.queueOf p,
      fun p _ k => by rw [h.crGroup], fun p _ _ hp => (h.lock p).trans hp⟩
  · simp only [h.idOf, imp_self, implies_true]
  · exact fun k hk => ⟨by rwa [h.readers], by rw [h.crGroup]⟩
  · exact fun k hk => ⟨by rwa [h.writer], by rw [h.crGroup]⟩
  · simp only [h.lock, imp_self, implies_true]
  · exact fun p k _ hk => by rwa [h.crGroup]
  · rw [h.running]

/-- A lock is taken, or given back. -/
theorem rely_of_locks {j : τ} (hroutine : n.routine = m.routine) (hidCr : n.idCr = m.idCr)
    (hcrGroup : n.crGroup = m.crGroup) (hrunning : n.running = m.running)
    (hmutex : ∀ x, m.mutex x = some j → n.mutex x = some j)
    (hreaders : ∀ k, j ∈ m.readers k → j ∈ n.readers k)
    (hwriter : ∀ k, m.writer k = some j → n.writer k = some j) : Rely j m n where
  mutex := hmutex
  guarded x _ := ⟨by rw [hidCr], fun p => by rw [idOf, idOf, hroutine], fun p _ => by
    rw [queueOf, queueOf, hroutine], fun p _ k => by rw [hcrGroup], fun p _ _ h => by
    rwa [lock, hroutine]⟩
  ids p x h := by rwa [idOf, hroutine]
  reads k hk := ⟨hreaders k hk, by rw [hcrGroup]⟩
  writes k hk := ⟨hwriter k hk, by rw [hcrGroup]⟩
  lock p h := by rwa [lock, hroutine]
  held p k _ hk := by rwa [hcrGroup]
  running := by rw [hrunning]

section Locks

variable {x : ι} {k : κ}

theorem keeps_lockMutex [DecidableEq ι] (hm : Inv m) (hfree : m.mutex x = none) :
    Inv { m with mutex := Function.update m.mutex x (some i) } ∧
      ∀ j, j ≠ i → Rely j m { m with mutex := Function.update m.mutex x (some i) } := by
  refine ⟨{ hm with settled := fun y hy => ?_ }, fun j _ => rely_of_locks rfl rfl rfl rfl
    (fun y hy => ?_) (fun _ h => h) fun _ h => h⟩
  · dsimp only at hy
    have hne : y ≠ x := by
      rintro rfl
      rw [Function.update_self] at hy
      cases hy
    rw [Function.update_of_ne hne] at hy
    exact hm.settled y hy
  · have hne : y ≠ x := by
      rintro rfl
      rw [hfree] at hy
      cases hy
    dsimp only
    rwa [Function.update_of_ne hne]

theorem keeps_unlockMutex [DecidableEq ι] {gone : Option Nat} (hm : Inv m)
    (hpre : Pre i (.unlockMutex x gone : Op ι κ) m) :
    let n := { m with
      mutex := Function.update m.mutex x none
      removed := fun p => m.removed p || gone == some p }
    Inv n ∧ ∀ j, j ≠ i → Rely j m n := by
  obtain ⟨hx, hsettled, hgone⟩ := hpre
  refine ⟨{ hm with settled := fun y hy => ?_, removed := fun p hp => ?_ },
    fun j hj => rely_of_locks rfl rfl rfl rfl (fun y hy => ?_) (fun _ h => h) fun _ h => h⟩
  · by_cases hne : y = x
    · rw [hne]
      exact hsettled
    · dsimp only at hy
      rw [Function.update_of_ne hne] at hy
      exact hm.settled y hy
  · rcases (Bool.or_eq_true _ _).mp hp with hp | hp
    · exact hm.removed p hp
    · obtain ⟨hid, hlisted, hlock⟩ := hgone p (beq_iff_eq.mp hp)
      refine ⟨⟨x, hid⟩, fun y hy => ?_, hlisted, hlock⟩
      obtain rfl : x = y := Option.some.inj (hid.symm.trans (hm.own y p hy))
      exact hlisted ((hsettled p).mp hy).2
  · have hne : y ≠ x := by
      rintro rfl
      exact hj (Option.some.inj (hy.symm.trans hx))
    dsimp only
    rwa [Function.update_of_ne hne]

theorem keeps_lockRead [DecidableEq κ] (hm : Inv m) (hfree : m.writer k = none) :
    Inv { m with readers := Function.update m.readers k (i :: m.readers k) } ∧
      ∀ j, j ≠ i → Rely j m { m with readers := Function.update m.readers k (i :: m.readers k) } := by
  refine ⟨{ hm with reading := fun y t hy => ?_ }, fun j _ => rely_of_locks rfl rfl rfl rfl
    (fun _ h => h) (fun y hy => ?_) fun _ h => h⟩
  · have hne : y ≠ k := by
      rintro rfl
      rw [hfree] at hy
      cases hy
    dsimp only
    rw [Function.update_of_ne hne]
    exact hm.reading y t hy
  · by_cases hne : y = k
    · subst hne
      dsimp only
      rw [Function.update_self]
      exact List.mem_cons_of_mem i hy
    · dsimp only
      rwa [Function.update_of_ne hne]

theorem keeps_unlockRead [DecidableEq κ] [DecidableEq τ] (hm : Inv m) :
    Inv { m with readers := Function.update m.readers k ((m.readers k).erase i) } ∧ ∀ j, j ≠ i →
      Rely j m { m with readers := Function.update m.readers k ((m.readers k).erase i) } := by
  refine ⟨{ hm with reading := fun y t hy => ?_ }, fun j hj => rely_of_locks rfl rfl rfl rfl
    (fun _ h => h) (fun y hy => ?_) fun _ h => h⟩
  · by_cases hne : y = k
    · subst hne
      dsimp only
      rw [Function.update_self, hm.reading y t hy]
      rfl
    · dsimp only
      rw [Function.update_of_ne hne]
      exact hm.reading y t hy
  · by_cases hne : y = k
    · subst hne
      dsimp only
      rw [Function.update_self]
      exact (List.mem_erase_of_ne hj).mpr hy
    · dsimp only
      rwa [Function.update_of_ne hne]

theorem keeps_lockWrite [DecidableEq κ] (hm : Inv m) (hfree : m.writer k = none)
    (hreaders : m.readers k = []) :
    Inv { m with writer := Function.update m.writer k (some i) } ∧
      ∀ j, j ≠ i → Rely j m { m with writer := Function.update m.writer k (some i) } := by
  refine ⟨{ hm with reading := fun y t hy => ?_ }, fun j _ => rely_of_locks rfl rfl rfl rfl
    (fun _ h => h) (fun _ h => h) fun y hy => ?_⟩
  · by_cases hne : y = k
    · exact hne ▸ hreaders
    · dsimp only at hy
      rw [Function.update_of_ne hne] at hy
      exact hm.reading y t hy
  · have hne : y ≠ k := by
      rintro rfl
      rw [hfree] at hy
      cases hy
    dsimp only
    rwa [Function.update_of_ne hne]

theorem keeps_unlockWrite [DecidableEq κ] (hm : Inv m) (hk : m.writer k = some i) :
    Inv { m with writer := Function.update m.writer k none } ∧
      ∀ j, j ≠ i → Rely j m { m with writer := Function.update m.writer k none } := by
  refine ⟨{ hm with reading := fun y t hy => ?_ }, fun j hj => rely_of_locks rfl rfl rfl rfl
    (fun _ h => h) (fun _ h => h) fun y hy => ?_⟩
  · dsimp only at hy
    have hne : y ≠ k := by
      rintro rfl
      rw [Function.update_self] at hy
      cases hy
    rw [Function.update_of_ne hne] at hy
    exact hm.reading y t hy
  · have hne : y ≠ k := by
      rintro rfl
      exact hj (Option.some.inj (hy.symm.trans hk))
    dsimp only
    rwa [Function.update_of_ne hne]

end Locks

/-! ### The map of the ids -/

section Ids

variable [DecidableEq ι] {x : ι} {p : Nat}

/-- The memory in which a routine has been made for an id. -/
def Memory.inserted (m : Memory τ ι κ) (x : ι) : Memory τ ι κ :=
  { m with
    routine := Function.update m.routine m.made (some { id := x })
    made := m.made + 1
    idCr := Function.update m.idCr x (some m.made) }

section Inserted

variable {q : Nat}

theorem routine_inserted (hq : q ≠ m.made) : (m.inserted x).routine q = m.routine q :=
  Function.update_of_ne hq _ _

theorem idOf_inserted (hq : q ≠ m.made) : (m.inserted x).idOf q = m.idOf q := by
  rw [idOf, idOf, routine_inserted hq]

theorem lock_inserted (hq : q ≠ m.made) : (m.inserted x).lock q = m.lock q := by
  rw [lock, lock, routine_inserted hq]

theorem queueOf_inserted (hq : q ≠ m.made) : (m.inserted x).queueOf q = m.queueOf q := by
  rw [queueOf, queueOf, routine_inserted hq]

theorem idOf_inserted_self : (m.inserted x).idOf m.made = some x := by
  have hroutine : (m.inserted x).routine m.made = some { id := x } := Function.update_self ..
  rw [idOf, hroutine]
  rfl

theorem idCr_inserted {y : ι} (hy : y ≠ x) : (m.inserted x).idCr y = m.idCr y :=
  Function.update_of_ne hy _ _

theorem idCr_inserted_self : (m.inserted x).idCr x = some m.made := Function.update_self ..

omit [DecidableEq ι] in
theorem Inv.routine_made (hm : Inv m) : m.routine m.made = none := by
  cases h : m.routine m.made with
  | none => rfl
  | some r => exact absurd (hm.made m.made r.id (congrArg _ h)) (Nat.lt_irrefl _)

omit [DecidableEq ι] in
theorem Inv.ne_made (hm : Inv m) {y : ι} (hq : m.idOf q = some y) : q ≠ m.made :=
  Nat.ne_of_lt (hm.made q y hq)

omit [DecidableEq ι] in
theorem Inv.ne_made_of_listed (hm : Inv m) (hq : m.Listed q) : q ≠ m.made := by
  obtain ⟨y, hy⟩ := hm.known q hq
  exact hm.ne_made hy

theorem inv_inserted (hm : Inv m) (hx : m.mutex x = some i) : Inv (m.inserted x) where
  made q y hq := by
    by_cases h : q = m.made
    · exact h ▸ Nat.lt_succ_self _
    · rw [idOf_inserted h] at hq
      exact Nat.lt_succ_of_lt (hm.made q y hq)
  own y q hq := by
    by_cases h : y = x
    · rw [h, idCr_inserted_self] at hq
      cases hq
      exact h ▸ idOf_inserted_self
    · rw [idCr_inserted h] at hq
      have hown := hm.own y q hq
      exact (idOf_inserted (hm.ne_made hown)).trans hown
  placed k q hq := (queueOf_inserted (hm.ne_made_of_listed ⟨k, hq⟩)).trans (hm.placed k q hq)
  known q hq := by
    obtain ⟨y, hy⟩ := hm.known q hq
    exact ⟨y, (idOf_inserted (hm.ne_made hy)).trans hy⟩
  alone q r hq hr h := by
    rw [idOf_inserted (hm.ne_made_of_listed hq), idOf_inserted (hm.ne_made_of_listed hr)] at h
    exact hm.alone q r hq hr h
  nodup := hm.nodup
  settled y hy q := by
    have hyx : y ≠ x := by
      rintro rfl
      cases hx.symm.trans hy
    rw [idCr_inserted hyx, hm.settled y hy q]
    refine and_congr_left fun hq => ?_
    rw [idOf_inserted (hm.ne_made_of_listed hq)]
  reading := hm.reading
  running t q hq := by
    obtain ⟨hheld, hin⟩ := hm.running t q hq
    exact ⟨(lock_inserted (hm.ne_made_of_listed hin)).trans hheld, hin⟩
  removed q hq := by
    obtain ⟨⟨y, hy⟩, hidCr, hnot, hfree⟩ := hm.removed q hq
    have hqne := hm.ne_made hy
    refine ⟨⟨y, (idOf_inserted hqne).trans hy⟩, fun z hz => ?_, hnot,
      (lock_inserted hqne).trans hfree⟩
    by_cases h : z = x
    · rw [h, idCr_inserted_self] at hz
      exact hqne (Option.some.inj hz).symm
    · rw [idCr_inserted h] at hz
      exact hidCr z hz

/-- The mutex of the id keeps the others from looking at it. -/
theorem rely_inserted (hm : Inv m) (hx : m.mutex x = some i) {j : τ} (hj : j ≠ i) :
    Rely j m (m.inserted x) := by
  have hne : ∀ y, m.mutex y = some j → y ≠ x := by
    rintro y hy rfl
    exact hj (Option.some.inj (hy.symm.trans hx))
  refine ⟨fun _ h => h, fun y hy => ⟨idCr_inserted (hne y hy), fun q => ?_,
    fun q hq => queueOf_inserted (hm.ne_made hq), fun _ _ _ => Iff.rfl,
    fun q hq _ h => (lock_inserted (hm.ne_made hq)).trans h⟩,
    fun q y hq => (idOf_inserted (hm.ne_made hq)).trans hq, fun _ h => ⟨h, rfl⟩,
    fun _ h => ⟨h, rfl⟩, fun q hq => ?_, fun _ _ _ h => h, rfl⟩
  · by_cases h : q = m.made
    · rw [h, idOf_inserted_self, idOf, hm.routine_made]
      exact iff_of_false (fun heq => hne y hy (Option.some.inj heq).symm) nofun
    · rw [idOf_inserted h]
  · have hq' : q ≠ m.made := by
      rintro rfl
      rw [lock, hm.routine_made] at hq
      cases hq
    exact (lock_inserted hq').trans hq

end Inserted

theorem keeps_eraseId (hm : Inv m) (hx : m.mutex x = some i) :
    Inv { m with idCr := Function.update m.idCr x none } ∧
      ∀ j, j ≠ i → Rely j m { m with idCr := Function.update m.idCr x none } := by
  have hle : ∀ y q, Function.update m.idCr x none y = some q → m.idCr y = some q := by
    intro y q hq
    by_cases h : y = x
    · rw [h, Function.update_self] at hq
      cases hq
    · rwa [Function.update_of_ne h] at hq
  refine ⟨{ hm with
      own := fun y q hq => hm.own y q (hle y q hq)
      settled := fun y hy => ?_
      removed := fun q hq => ?_ },
    fun j hj => { Rely.refl j m with guarded := fun y hy => { Guarded.refl y m with idCr := ?_ } }⟩
  · have hyx : y ≠ x := by
      rintro rfl
      rw [show m.mutex y = none from hy] at hx
      cases hx
    intro q
    refine Iff.trans ?_ (hm.settled y hy q)
    exact (congrArg (· = some q) (Function.update_of_ne hyx _ _)).to_iff
  · obtain ⟨hid, hidCr, hrest⟩ := hm.removed q hq
    exact ⟨hid, fun y hy => hidCr y (hle y q hy), hrest⟩
  · have hyx : y ≠ x := by
      rintro rfl
      exact hj (Option.some.inj (hy.symm.trans hx))
    exact Function.update_of_ne hyx _ _

end Ids

/-! ### The routines -/

section Routines

variable {p : Nat} {k : κ}

theorem keeps_setQueue (hm : Inv m) (hpre : Pre i (.setQueue p k : Op ι κ) m) :
    Inv (m.alter p fun r => { r with queue := some k }) ∧
      ∀ j, j ≠ i → Rely j m (m.alter p fun r => { r with queue := some k }) := by
  obtain ⟨x, hid, hx, hlisted⟩ := hpre
  have hids : ∀ q, (m.alter p fun r => { r with queue := some k }).idOf q = m.idOf q := fun q =>
    idOf_alter fun _ => rfl
  have hlocks : ∀ q, (m.alter p fun r => { r with queue := some k }).lock q = m.lock q := fun q =>
    lock_alter fun _ => rfl
  have hqueue : ∀ q, q ≠ p →
      (m.alter p fun r => { r with queue := some k }).queueOf q = m.queueOf q := fun q hq => by
    rw [queueOf, routine_alter, if_neg hq, queueOf]
  refine ⟨{ hm with
      made := fun q y hq => hm.made q y (hids q ▸ hq)
      own := fun y q hq => (hids q).trans (hm.own y q hq)
      placed := fun k' q hq => ?_
      known := fun q hq => ?_
      alone := fun q r hq hr h => hm.alone q r hq hr ?_
      settled := fun y hy q => ?_
      running := fun t q hq => ?_
      removed := fun q hq => ?_ },
    fun j hj => { Rely.refl j m with
      guarded := fun y hy => { Guarded.refl y m with
        ids := fun q => by rw [hids]
        queue := fun q hq => hqueue q ?_
        free := fun q _ _ hfree => (hlocks q).trans hfree }
      ids := fun q y hq => (hids q).trans hq
      lock := fun q hq => (hlocks q).trans hq }⟩
  · exact (hqueue q fun h => hlisted (h ▸ ⟨k', hq⟩)).trans (hm.placed k' q hq)
  · rw [hids]
    exact hm.known q hq
  · rw [← hids q, ← hids r]
    exact h
  · rw [hids]
    exact hm.settled y hy q
  · rw [hlocks]
    exact hm.running t q hq
  · rw [hids, hlocks]
    exact hm.removed q hq
  · rintro rfl
    obtain rfl : y = x := Option.some.inj (hq.symm.trans hid)
    exact hj (Option.some.inj (hy.symm.trans hx))

/-- Who has acquired a routine. -/
theorem keeps_lock (hm : Inv m) {lock : Option τ}
    (hrunning : ∀ t, m.running t = some p → lock = some t)
    (hremoved : m.removed p = true → lock = none)
    (hothers : ∀ j, j ≠ i → m.lock p = some j → lock = some j)
    (hfree : ¬ m.Listed p → m.lock p = none → lock = none) :
    Inv (m.alter p fun r => { r with lock }) ∧
      ∀ j, j ≠ i → Rely j m (m.alter p fun r => { r with lock }) := by
  have hids : ∀ q, (m.alter p fun r => { r with lock }).idOf q = m.idOf q := fun q =>
    idOf_alter fun _ => rfl
  have hqueues : ∀ q, (m.alter p fun r => { r with lock }).queueOf q = m.queueOf q := fun q =>
    queueOf_alter fun _ => rfl
  have hlocks : ∀ q, q ≠ p → (m.alter p fun r => { r with lock }).lock q = m.lock q :=
    fun q hq => by rw [Memory.lock, routine_alter, if_neg hq, Memory.lock]
  have hself : ∀ x, m.idOf p = some x → (m.alter p fun r => { r with lock }).lock p = lock := by
    intro x hx
    obtain ⟨r, hr, -⟩ := Option.map_eq_some_iff.mp hx
    rw [Memory.lock, routine_alter, if_pos rfl, hr]
    rfl
  refine ⟨{ hm with
      made := fun q y hq => hm.made q y (hids q ▸ hq)
      own := fun y q hq => (hids q).trans (hm.own y q hq)
      placed := fun k' q hq => (hqueues q).trans (hm.placed k' q hq)
      known := fun q hq => ?_
      alone := fun q r hq hr h => hm.alone q r hq hr ?_
      settled := fun y hy q => ?_
      running := fun t q hq => ?_
      removed := fun q hq => ?_ },
    fun j hj => { Rely.refl j m with
      guarded := fun y hy => { Guarded.refl y m with
        ids := fun q => by rw [hids]
        queue := fun q _ => hqueues q
        free := fun q hq hlisted hlock => ?_ }
      ids := fun q y hq => (hids q).trans hq
      lock := fun q hq => ?_ }⟩
  · rw [hids]
    exact hm.known q hq
  · rw [← hids q, ← hids r]
    exact h
  · rw [hids]
    exact hm.settled y hy q
  · obtain ⟨hheld, hlisted⟩ := hm.running t q hq
    refine ⟨?_, hlisted⟩
    by_cases hqp : q = p
    · subst hqp
      obtain ⟨x, hx⟩ := hm.known q hlisted
      rw [hself x hx]
      exact hrunning t hq
    · rw [hlocks q hqp]
      exact hheld
  · obtain ⟨⟨x, hx⟩, hidCr, hlisted, hlock⟩ := hm.removed q hq
    refine ⟨⟨x, (hids q).trans hx⟩, hidCr, hlisted, ?_⟩
    by_cases hqp : q = p
    · subst hqp
      rw [hself x hx]
      exact hremoved hq
    · rw [hlocks q hqp]
      exact hlock
  · by_cases hqp : q = p
    · subst hqp
      rw [hself y hq]
      exact hfree hlisted hlock
    · rw [hlocks q hqp]
      exact hlock
  · by_cases hqp : q = p
    · subst hqp
      obtain ⟨r, hr, -⟩ := Option.bind_eq_some_iff.mp hq
      rw [hself r.id (Option.map_eq_some_iff.mpr ⟨r, hr, rfl⟩)]
      exact hothers j hj hq
    · rw [hlocks q hqp]
      exact hq

variable [DecidableEq κ]

theorem mem_emplaceBack {k' : κ} {q : Nat} :
    q ∈ Function.update m.crGroup k (m.crGroup k ++ [p]) k' ↔
      q ∈ m.crGroup k' ∨ k' = k ∧ q = p := by
  by_cases h : k' = k
  · rw [h, Function.update_self, List.mem_append, List.mem_singleton, and_iff_right rfl]
  · rw [Function.update_of_ne h, or_iff_left fun hand => h hand.1]

theorem listed_emplaceBack {q : Nat} : Memory.Listed { m with
    crGroup := Function.update m.crGroup k (m.crGroup k ++ [p]) } q ↔ m.Listed q ∨ q = p := by
  constructor
  · rintro ⟨k', hq⟩
    exact (mem_emplaceBack.mp hq).imp (fun h => ⟨k', h⟩) And.right
  · rintro (⟨k', hq⟩ | rfl)
    · exact ⟨k', mem_emplaceBack.mpr (.inl hq)⟩
    · exact ⟨k, mem_emplaceBack.mpr (.inr ⟨rfl, rfl⟩)⟩

theorem keeps_emplaceBack (hm : Inv m) (hpre : Pre i (.emplaceBack k p : Op ι κ) m) :
    Inv { m with crGroup := Function.update m.crGroup k (m.crGroup k ++ [p]) } ∧ ∀ j, j ≠ i →
      Rely j m { m with crGroup := Function.update m.crGroup k (m.crGroup k ++ [p]) } := by
  obtain ⟨hk, hqueue, x, hidCr, hx, halone⟩ := hpre
  have hid := hm.own x p hidCr
  refine ⟨{ hm with
      placed := fun k' q hq => ?_
      known := fun q hq => ?_
      alone := fun q r hq hr h => ?_
      nodup := fun k' => ?_
      settled := fun y hy q => ?_
      running := fun t q hq => ?_
      removed := fun q hq => ?_ },
    fun j hj => { Rely.refl j m with
      guarded := fun y hy => { Guarded.refl y m with
        listed := fun q hq k' => ?_
        free := fun q _ _ h => h }
      reads := fun k' hk' => ⟨hk', Function.update_of_ne ?_ _ _⟩
      writes := fun k' hk' => ⟨hk', Function.update_of_ne ?_ _ _⟩
      held := fun q k' _ hq => mem_emplaceBack.mpr (.inl hq) }⟩
  · rcases mem_emplaceBack.mp hq with hq | ⟨rfl, rfl⟩
    · exact hm.placed k' q hq
    · exact hqueue
  · rcases listed_emplaceBack.mp hq with hq | rfl
    · exact hm.known q hq
    · exact ⟨x, hid⟩
  · have h : m.idOf q = m.idOf r := h
    rcases listed_emplaceBack.mp hq with hin | rfl
    · rcases listed_emplaceBack.mp hr with hin' | rfl
      · exact hm.alone q r hin hin' h
      · exact absurd hin (halone q (h.trans hid))
    · rcases listed_emplaceBack.mp hr with hin' | rfl
      · exact absurd hin' (halone r (h.symm.trans hid))
      · rfl
  · dsimp only
    by_cases h : k' = k
    · rw [h, Function.update_self]
      refine List.Nodup.append (hm.nodup k) (List.nodup_singleton p) fun q hq hqp => ?_
      rw [List.mem_singleton.mp hqp] at hq
      exact halone p hid ⟨k, hq⟩
    · rw [Function.update_of_ne h]
      exact hm.nodup k'
  · rw [listed_emplaceBack]
    have hsettled : m.idCr y = some q ↔ m.idOf q = some y ∧ m.Listed q := hm.settled y hy q
    have hne : m.idOf q = some y → q ≠ p := by
      rintro hq rfl
      obtain rfl : y = x := Option.some.inj (hq.symm.trans hid)
      exact absurd (hx.symm.trans hy) nofun
    exact hsettled.trans (and_congr_right fun hq => (or_iff_left (hne hq)).symm)
  · obtain ⟨hheld, hin⟩ := hm.running t q hq
    exact ⟨hheld, listed_emplaceBack.mpr (.inl hin)⟩
  · obtain ⟨hknown, hnot, hin, hfree⟩ := hm.removed q hq
    refine ⟨hknown, hnot, fun h => ?_, hfree⟩
    rcases listed_emplaceBack.mp h with h | rfl
    · exact hin h
    · exact hnot x hidCr
  · refine mem_emplaceBack.trans (or_iff_left ?_)
    rintro ⟨-, rfl⟩
    obtain rfl : y = x := Option.some.inj (hq.symm.trans hid)
    exact hj (Option.some.inj (hy.symm.trans hx))
  · rintro rfl
    rw [hm.reading k' i hk] at hk'
    exact List.not_mem_nil hk'
  · rintro rfl
    exact hj (Option.some.inj (hk'.symm.trans hk))

theorem mem_of_erase {k' : κ} {q : Nat}
    (hq : q ∈ Function.update m.crGroup k ((m.crGroup k).erase p) k') : q ∈ m.crGroup k' := by
  by_cases h : k' = k
  · rw [h, Function.update_self] at hq
    exact h ▸ List.mem_of_mem_erase hq
  · rwa [Function.update_of_ne h] at hq

theorem listed_of_erase {q : Nat} (hq : Memory.Listed { m with
    crGroup := Function.update m.crGroup k ((m.crGroup k).erase p) } q) : m.Listed q := by
  obtain ⟨k', hq⟩ := hq
  exact ⟨k', mem_of_erase hq⟩

theorem keeps_erase (hm : Inv m) (hpre : Pre i (.erase k p : Op ι κ) m) :
    Inv { m with crGroup := Function.update m.crGroup k ((m.crGroup k).erase p) } ∧ ∀ j, j ≠ i →
      Rely j m { m with crGroup := Function.update m.crGroup k ((m.crGroup k).erase p) } := by
  obtain ⟨hk, hlock, hrun, x, hid, hx⟩ := hpre
  have hkeep : ∀ k' q, q ≠ p → q ∈ m.crGroup k' →
      q ∈ Function.update m.crGroup k ((m.crGroup k).erase p) k' := by
    intro k' q hqp hq
    by_cases h : k' = k
    · rw [h, Function.update_self]
      exact (List.mem_erase_of_ne hqp).mpr (h ▸ hq)
    · rwa [Function.update_of_ne h]
  refine ⟨{ hm with
      placed := fun k' q hq => hm.placed k' q (mem_of_erase hq)
      known := fun q hq => hm.known q (listed_of_erase hq)
      alone := fun q r hq hr h => hm.alone q r (listed_of_erase hq) (listed_of_erase hr) h
      nodup := fun k' => ?_
      settled := fun y hy q => ?_
      running := fun t q hq => ?_
      removed := fun q hq => ?_ },
    fun j hj => { Rely.refl j m with
      guarded := fun y hy => { Guarded.refl y m with
        listed := fun q hq k' => ⟨mem_of_erase, hkeep k' q ?_⟩
        free := fun q _ _ h => h }
      reads := fun k' hk' => ⟨hk', Function.update_of_ne ?_ _ _⟩
      writes := fun k' hk' => ⟨hk', Function.update_of_ne ?_ _ _⟩
      held := fun q k' hq hin => hkeep k' q ?_ hin }⟩
  · dsimp only
    by_cases h : k' = k
    · rw [h, Function.update_self]
      exact (hm.nodup k).erase p
    · rw [Function.update_of_ne h]
      exact hm.nodup k'
  · have hsettled : m.idCr y = some q ↔ m.idOf q = some y ∧ m.Listed q := hm.settled y hy q
    refine hsettled.trans (and_congr_right fun hq => ⟨fun ⟨k', hin⟩ => ⟨k', hkeep k' q ?_ hin⟩,
      listed_of_erase⟩)
    rintro rfl
    obtain rfl : y = x := Option.some.inj (hq.symm.trans hid)
    exact absurd (hx.symm.trans hy) nofun
  · obtain ⟨hheld, k', hin⟩ := hm.running t q hq
    refine ⟨hheld, k', hkeep k' q ?_ hin⟩
    rintro rfl
    obtain rfl : t = i := Option.some.inj (hheld.symm.trans hlock)
    exact hrun hq
  · obtain ⟨hknown, hnot, hin, hfree⟩ := hm.removed q hq
    exact ⟨hknown, hnot, fun h => hin (listed_of_erase h), hfree⟩
  · rintro rfl
    obtain rfl : y = x := Option.some.inj (hq.symm.trans hid)
    exact hj (Option.some.inj (hy.symm.trans hx))
  · rintro rfl
    rw [hm.reading k' i hk] at hk'
    exact List.not_mem_nil hk'
  · rintro rfl
    exact hj (Option.some.inj (hk'.symm.trans hk))
  · rintro rfl
    exact hj (Option.some.inj (hq.symm.trans hlock))

end Routines

section Running

variable [DecidableEq τ] {p : Nat}

theorem keeps_running (hm : Inv m) {running : Option Nat}
    (hrun : ∀ p, running = some p → m.lock p = some i ∧ m.Listed p) :
    Inv { m with running := Function.update m.running i running } ∧
      ∀ j, j ≠ i → Rely j m { m with running := Function.update m.running i running } := by
  refine ⟨{ hm with running := fun t q hq => ?_ }, fun j hj => { Rely.refl j m with
    guarded := fun y _ => { Guarded.refl y m with }
    running := Function.update_of_ne hj _ _ }⟩
  dsimp only at hq
  by_cases h : t = i
  · rw [h, Function.update_self] at hq
    exact h ▸ hrun q hq
  · rw [Function.update_of_ne h] at hq
    exact hm.running t q hq

end Running

/-! ### Every operation -/

section Every

variable [DecidableEq τ] [DecidableEq ι] [DecidableEq κ]

omit [DecidableEq τ] [DecidableEq ι] in
theorem not_listed_erase {p : Nat} {k : κ} (hm : Inv m) (hk : m.queueOf p = some k) :
    ¬ Memory.Listed { m with
      crGroup := Function.update m.crGroup k ((m.crGroup k).erase p) } p := by
  rintro ⟨k', hp⟩
  dsimp only at hp
  by_cases h : k' = k
  · rw [h, Function.update_self] at hp
    exact (hm.nodup k).not_mem_erase hp
  · rw [Function.update_of_ne h] at hp
    exact h (Option.some.inj ((hm.placed k' p hp).symm.trans hk))

theorem keeps {o : Op ι κ} {x : RoutineState} (hm : Inv m) (hpre : Pre i o m) :
    Inv (exec i o x m).2 ∧ ∀ j, j ≠ i → Rely j m (exec i o x m).2 := by
  have hrefl : Inv m ∧ ∀ j, j ≠ i → Rely j m m := ⟨hm, fun j _ => Rely.refl j m⟩
  cases o with
  | lockMutex y =>
      rw [exec]
      split
      · case isTrue hfree => exact keeps_lockMutex hm hfree
      · exact hrefl
  | unlockMutex y gone => exact keeps_unlockMutex hm hpre
  | insertId y =>
      rw [exec]
      split
      · exact ⟨inv_inserted hm hpre, fun j hj => rely_inserted hm hpre hj⟩
      · exact hrefl
  | eraseId y =>
      rw [exec]
      split
      · case h_1 p hp =>
          have hsame : Same m (m.alter p fun r => { r with forceStop := true }) :=
            same_alter m p _ (fun _ => rfl) (fun _ => rfl) fun _ => rfl
          obtain ⟨hinv, hrely⟩ := hsame.keeps (i := i) hm
          obtain ⟨hinv, hrely'⟩ := keeps_eraseId hinv hpre
          exact ⟨hinv, fun j hj => (hrely j hj).trans (hrely' j hj)⟩
      · exact hrefl
  | setQueue p k => exact keeps_setQueue hm hpre
  | lockRead k =>
      rw [exec]
      split
      · case isTrue hfree => exact keeps_lockRead hm hfree
      · exact hrefl
  | unlockRead k => exact keeps_unlockRead hm
  | lockWrite k =>
      rw [exec]
      split
      · case isTrue hfree => exact keeps_lockWrite hm hfree.1 hfree.2
      · exact hrefl
  | unlockWrite k => exact keeps_unlockWrite hm hpre
  | emplaceBack k p => exact keeps_emplaceBack hm hpre
  | erase k p => exact keeps_erase hm hpre
  | acquire p =>
      rw [exec]
      split
      · case isTrue hfree =>
          refine keeps_lock hm (fun t ht => ?_) (fun hp => ?_) (fun j _ hj => ?_)
            fun hlisted => absurd hpre hlisted
          · rw [(hm.running t p ht).1] at hfree
            cases hfree
          · exact absurd hpre (hm.removed p hp).2.2.1
          · rw [hfree] at hj
            cases hj
      · exact hrefl
  | release p =>
      obtain ⟨hlock, hrun⟩ := hpre
      refine keeps_lock hm (fun t ht => ?_) (fun _ => rfl) (fun j hj hlock' => ?_) fun _ _ => rfl
      · obtain rfl : t = i := Option.some.inj ((hm.running t p ht).1.symm.trans hlock)
        exact absurd ht hrun
      · exact absurd (Option.some.inj (hlock'.symm.trans hlock)) hj
  | stop p =>
      exact (same_alter m p (fun r => { r with forceStop := true }) (fun _ => rfl) (fun _ => rfl)
        fun _ => rfl).keeps hm
  | updateState p =>
      exact (same_alter m p (fun r => { r with state := x }) (fun _ => rfl) (fun _ => rfl)
        fun _ => rfl).keeps hm
  | setState p state =>
      exact (same_alter m p (fun r => { r with state }) (fun _ => rfl) (fun _ => rfl)
        fun _ => rfl).keeps hm
  | enter p => exact keeps_running hm fun q hq => Option.some.inj hq ▸ hpre
  | leave => exact keeps_running hm nofun
  | queue | «at» | id | forceStop | state => exact hrefl

variable (τ ι κ) in
def protocol : Protocol (sig ι κ) τ Unit (Memory τ ι κ) RoutineState exec where
  Inv := Inv
  Rely := Rely
  Cond _ _ _ _ _ := True
  Pre i _ o m := Pre i o m
  Crash := False
  Hang _ _ := True
  refl := Rely.refl
  trans := Rely.trans
  hang_stable h _ := h
  keeps hm hpre _ := keeps hm hpre

end Every

end Tasks
end Scheduler
end Cmw
