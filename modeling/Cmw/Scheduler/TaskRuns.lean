import Cmw.Scheduler.TaskRules

/-!
# A task that has been removed does not run again

`RemoveCRoutine` takes a routine out of its queue when it has acquired it, and so it waits for
the processor that runs it.  A routine that removes itself waits for itself.
-/

namespace Cmw
namespace Scheduler
namespace Tasks

open Library
open Library.Thread
open Memory

variable {τ ι κ : Type}

section Stages

variable {i : τ} {x : ι} {k : κ} {p : Nat} {m n : Memory τ ι κ} {ro : Option Nat}

/-- The thread runs this routine, and has the mutex of this id. -/
structure Has (i : τ) (ro : Option Nat) (x : ι) (m : Memory τ ι κ) : Prop where
  running : m.running i = ro
  mutex : m.mutex x = some i

theorem Has.of_rely (h : Has i ro x m) (hmn : Rely i m n) : Has i ro x n :=
  ⟨hmn.running.trans h.running, hmn.mutex x h.mutex⟩

/-- The routine is in `id_cr_`, and no routine of its id is in a queue. -/
structure Inserted (x : ι) (p : Nat) (m : Memory τ ι κ) : Prop where
  idCr : m.idCr x = some p
  id : m.idOf p = some x
  unlisted : ∀ q, m.idOf q = some x → ¬ m.Listed q

theorem Inserted.of_guarded (h : Inserted x p m) (hmn : Guarded x m n) : Inserted x p n where
  idCr := hmn.idCr.trans h.idCr
  id := (hmn.ids p).mpr h.id
  unlisted q hq hn := by
    have hq := (hmn.ids q).mp hq
    exact h.unlisted q hq ((hmn.not_listed hq).mp hn)

/-- The routine is out of `id_cr_`, and the only one of its id in a queue. -/
structure Erased (x : ι) (k : κ) (p : Nat) (m : Memory τ ι κ) : Prop where
  idCr : m.idCr x = none
  id : m.idOf p = some x
  queue : m.queueOf p = some k
  listed : p ∈ m.crGroup k
  only : ∀ q, m.idOf q = some x → m.Listed q → q = p

theorem Erased.of_guarded (h : Erased x k p m) (hmn : Guarded x m n) : Erased x k p n where
  idCr := hmn.idCr.trans h.idCr
  id := (hmn.ids p).mpr h.id
  queue := (hmn.queue p h.id).trans h.queue
  listed := (hmn.listed p h.id k).mpr h.listed
  only q hq hn := by
    have hq := (hmn.ids q).mp hq
    exact h.only q hq ((hmn.not_listed hq).mp hn)

/-- No routine of the id is in `id_cr_` or in a queue. -/
structure Gone (x : ι) (p : Nat) (m : Memory τ ι κ) : Prop where
  idCr : m.idCr x = none
  id : m.idOf p = some x
  unlisted : ∀ q, m.idOf q = some x → ¬ m.Listed q

theorem Gone.of_guarded (h : Gone x p m) (hmn : Guarded x m n) : Gone x p n where
  idCr := hmn.idCr.trans h.idCr
  id := (hmn.ids p).mpr h.id
  unlisted q hq hn := by
    have hq := (hmn.ids q).mp hq
    exact h.unlisted q hq ((hmn.not_listed hq).mp hn)

theorem Gone.settled (h : Gone x p m) : m.Settled x := by
  intro q
  rw [h.idCr]
  exact iff_of_false nofun fun hq => h.unlisted q hq.1 hq.2

/-- The thread is about to take the routine out of its queue. -/
structure Removing (i : τ) (ro : Option Nat) (x : ι) (k : κ) (p : Nat) (m : Memory τ ι κ) : Prop where
  has : Has i ro x m
  erased : Erased x k p m
  writer : m.writer k = some i

theorem Removing.of_rely (h : Removing i ro x k p m) (hmn : Rely i m n) : Removing i ro x k p n where
  has := h.has.of_rely hmn
  erased := h.erased.of_guarded (hmn.guarded x h.has.mutex)
  writer := (hmn.writes k h.writer).1

end Stages

variable [DecidableEq τ] [DecidableEq ι] [DecidableEq κ]

section Functions

variable {i : τ} {x : ι} {k : κ} {p : Nat} {r : Unit} {m : Memory τ ι κ} {ro : Option Nat}

theorem spin_safe {o : TaskCode ι κ Bool} {F : Memory τ ι κ → Prop}
    {Q : Unit → Unit → Memory τ ι κ → Prop}
    (ho : ∀ r m, F m → (protocol τ ι κ).Safe i
      (fun r got n => (got = true → Q r () n) ∧ (got = false → F n)) (o r) m)
    (hF : F m) (fuel : Nat) : (protocol τ ι κ).Safe i Q (spin o fuel r) m := by
  induction fuel generalizing r m with
  | zero => trivial
  | succ fuel ih =>
      simp only [spin, Protocol.safe_seq, Protocol.safe_ite, Protocol.safe_pure]
      refine (ho r m hF).imp fun r got n hn => ⟨hn.1, fun hgot => ih (hn.2 ?_)⟩
      exact (Bool.not_eq_true _).mp hgot

/-- The mutex of an id is taken where the map and the queues agree on it. -/
theorem lockMutex_safe (h : m.running i = ro) (fuel : Nat) :
    (protocol τ ι κ).Safe i (fun _ _ n => Has i ro x n ∧ n.Settled x)
      (spin (Op.lockMutex x).get fuel r) m := by
  refine spin_safe (F := fun m => m.running i = ro)
    (fun r m h => Protocol.safe_ask fun n hmn hn => ?_) h fuel
  refine ⟨trivial, fun _ _ => ?_⟩
  have h := hmn.running.trans h
  rw [exec]
  split
  · case isTrue hfree =>
      exact ⟨fun _ => ⟨⟨h, Function.update_self ..⟩, hn.settled x hfree⟩, by rintro ⟨⟩⟩
  · exact ⟨by rintro ⟨⟩, fun _ => h⟩

theorem insertId_safe (h : Has i ro x m) (hsettled : m.Settled x) :
    (protocol τ ι κ).Safe i
      (fun _ fresh n => Has i ro x n ∧ (∀ p, fresh = some p → Inserted x p n) ∧
        (fresh = none → n.Settled x))
      ((Op.insertId x).get r) m := by
  refine Protocol.safe_ask fun n hmn hn => ⟨(h.of_rely hmn).mutex, fun _ _ => ?_⟩
  have hsettled := (hmn.guarded x h.mutex).settled hsettled
  have h := h.of_rely hmn
  rw [exec]
  split
  · case isTrue hnone =>
      refine ⟨⟨h.running, h.mutex⟩, ?_, by rintro ⟨⟩⟩
      rintro _ ⟨⟩
      have hnew : ∀ q, n.Listed q → q ≠ n.made := by
        rintro q hq rfl
        obtain ⟨y, hy⟩ := hn.known _ hq
        exact absurd (hn.made _ y hy) (Nat.lt_irrefl _)
      refine ⟨Function.update_self .., ?_, fun q hq hlisted => ?_⟩
      · rw [idOf]
        dsimp only
        rw [Function.update_self]
        rfl
      · have hlisted : n.Listed q := hlisted
        rw [idOf] at hq
        dsimp only at hq
        rw [Function.update_of_ne (hnew q hlisted)] at hq
        have hidCr := (hsettled q).mpr ⟨hq, hlisted⟩
        rw [hnone] at hidCr
        cases hidCr
  · exact ⟨⟨h.running, h.mutex⟩, by rintro _ ⟨⟩, fun _ => hsettled⟩

/-- The write lock of a queue, while `F` is kept by the others. -/
theorem lockWrite_safe {F : Memory τ ι κ → Prop} (hF : ∀ m n, F m → Rely i m n → F n)
    (hlock : ∀ m, F m → F { m with writer := Function.update m.writer k (some i) }) (h : F m)
    (fuel : Nat) :
    (protocol τ ι κ).Safe i (fun _ _ n => F n ∧ n.writer k = some i)
      (spin (Op.lockWrite k).get fuel r) m := by
  refine spin_safe (F := F) (fun r m h => Protocol.safe_ask fun n hmn hn =>
    ⟨trivial, fun _ _ => ?_⟩) h fuel
  have h := hF m n h hmn
  rw [exec]
  split
  · exact ⟨fun _ => ⟨hlock n h, Function.update_self ..⟩, by rintro ⟨⟩⟩
  · exact ⟨by rintro ⟨⟩, fun _ => h⟩

/-- Where no routine of the id is left, the thread does not run one. -/
theorem unlockMutex_safe {gone : Option Nat} (h : Has i ro x m) (hsettled : m.Settled x)
    (hgone : ∀ p, gone = some p → m.idOf p = some x ∧ ¬ m.Listed p ∧ m.lock p = none) :
    (protocol τ ι κ).Safe i
      (fun _ _ n => n.running i = ro ∧ (m.idCr x = none → ∀ q, ro = some q → n.idOf q ≠ some x))
      ((Op.unlockMutex x gone).get r) m := by
  refine Protocol.safe_ask fun n hmn hn => ?_
  have hguarded := hmn.guarded x h.mutex
  have hsettled := hguarded.settled hsettled
  have h := h.of_rely hmn
  refine ⟨⟨h.mutex, hsettled, fun p hp => ?_⟩, fun _ _ => ⟨h.running, fun hnone q hq hid => ?_⟩⟩
  · obtain ⟨hid, hlisted, hlock⟩ := hgone p hp
    exact ⟨(hguarded.ids p).mpr hid, fun hn => hlisted ((hguarded.not_listed hid).mp hn),
      hguarded.free p hid hlisted hlock⟩
  · have hidCr := (hsettled q).mpr ⟨hid, (hn.running i q (h.running.trans hq)).2⟩
    rw [hguarded.idCr, hnone] at hidCr
    cases hidCr

theorem dispatchTask_safe (h : m.running i = ro) (fuel : Nat) (x : ι) (k : κ) :
    (protocol τ ι κ).Safe i (fun _ _ n => n.running i = ro) (dispatchTask fuel x k r) m := by
  simp only [dispatchTask, Protocol.safe_seq]
  refine (lockMutex_safe h fuel).imp fun r _ m hm => ?_
  obtain ⟨h, hsettled⟩ := hm
  refine (insertId_safe h hsettled).imp fun r fresh m hm => ?_
  obtain ⟨h, hfresh, hnone⟩ := hm
  cases fresh with
  | none =>
      simp only [Protocol.safe_seq, Protocol.safe_pure]
      exact (unlockMutex_safe h (hnone rfl) fun _ hq => by cases hq).imp fun _ _ _ => And.left
  | some p =>
      simp only [Protocol.safe_seq, Protocol.safe_pure]
      have hp := hfresh p rfl
      have hset : (protocol τ ι κ).Safe i
          (fun _ _ n => Has i ro x n ∧ Inserted x p n ∧ n.queueOf p = some k)
          ((Op.setQueue p k).get r) m := by
        refine Protocol.safe_ask fun n hmn hn => ?_
        have hp := hp.of_guarded (hmn.guarded x h.mutex)
        have h := h.of_rely hmn
        have hids : ∀ q, (n.alter p fun r => { r with queue := some k }).idOf q = n.idOf q :=
          fun q => idOf_alter fun _ => rfl
        refine ⟨⟨x, hp.id, h.mutex, hp.unlisted p hp.id⟩, fun _ _ => ⟨⟨h.running, h.mutex⟩,
          ⟨hp.idCr, (hids p).trans hp.id, fun q hq => ?_⟩, ?_⟩⟩
        · exact hp.unlisted q ((hids q).symm.trans hq)
        · obtain ⟨cr, hcr, -⟩ := Option.map_eq_some_iff.mp hp.id
          rw [exec, queueOf, routine_alter, if_pos rfl, hcr]
          rfl
      refine hset.imp fun r _ m hm => ?_
      refine (lockWrite_safe (F := fun n => Has i ro x n ∧ Inserted x p n ∧ n.queueOf p = some k)
        (fun m n hm hmn => ?_) (fun m hm => ?_) hm fuel).imp fun r _ m hm => ?_
      · have hguarded := hmn.guarded x hm.1.mutex
        exact ⟨hm.1.of_rely hmn, hm.2.1.of_guarded hguarded,
          (hguarded.queue p hm.2.1.id).trans hm.2.2⟩
      · exact ⟨⟨hm.1.running, hm.1.mutex⟩, ⟨hm.2.1.idCr, hm.2.1.id, hm.2.1.unlisted⟩, hm.2.2⟩
      obtain ⟨⟨h, hp, hk⟩, hwriter⟩ := hm
      have hback : (protocol τ ι κ).Safe i
          (fun _ _ n => Has i ro x n ∧ n.Settled x ∧ n.writer k = some i)
          ((Op.emplaceBack k p).get r) m := by
        refine Protocol.safe_ask fun n hmn hn => ?_
        have hguarded := hmn.guarded x h.mutex
        have hp := hp.of_guarded hguarded
        have h := h.of_rely hmn
        have hwriter := (hmn.writes k hwriter).1
        refine ⟨⟨hwriter, (hguarded.queue p ((hguarded.ids p).mp hp.id)).trans hk, x, hp.idCr,
          h.mutex, hp.unlisted⟩, fun _ _ => ⟨⟨h.running, h.mutex⟩, fun q => ?_, hwriter⟩⟩
        refine Iff.trans ?_ (and_congr_right fun _ => listed_emplaceBack.symm)
        show n.idCr x = some q ↔ n.idOf q = some x ∧ (n.Listed q ∨ q = p)
        rw [hp.idCr]
        constructor
        · rintro ⟨⟩
          exact ⟨hp.id, .inr rfl⟩
        · rintro ⟨hq, hlisted | rfl⟩
          · exact absurd hlisted (hp.unlisted q hq)
          · rfl
      refine hback.imp fun r _ m hm => ?_
      obtain ⟨h, hsettled, hwriter⟩ := hm
      have hunlock : (protocol τ ι κ).Safe i (fun _ _ n => Has i ro x n ∧ n.Settled x)
          ((Op.unlockWrite k).get r) m := by
        refine Protocol.safe_ask fun n hmn hn => ⟨(hmn.writes k hwriter).1, fun _ _ => ?_⟩
        have h' := h.of_rely hmn
        exact ⟨⟨h'.running, h'.mutex⟩, (hmn.guarded x h.mutex).settled hsettled⟩
      refine hunlock.imp fun r _ m hm => ?_
      obtain ⟨h, hsettled⟩ := hm
      exact (unlockMutex_safe h hsettled fun _ hq => by cases hq).imp fun _ _ _ => And.left

theorem eraseId_safe (h : Has i ro x m) (hsettled : m.Settled x) :
    (protocol τ ι κ).Safe i
      (fun _ found n => Has i ro x n ∧ (∀ p, found = some p → ∃ k, Erased x k p n) ∧
        (found = none → n.idCr x = none ∧ n.Settled x))
      ((Op.eraseId x).get r) m := by
  refine Protocol.safe_ask fun n hmn hn => ⟨(h.of_rely hmn).mutex, fun _ _ => ?_⟩
  have hsettled := (hmn.guarded x h.mutex).settled hsettled
  have h := h.of_rely hmn
  rw [exec]
  split
  · case h_1 p hp =>
      obtain ⟨hid, k, hk⟩ := (hsettled p).mp hp
      have hids : ∀ q, (n.alter p fun r => { r with forceStop := true }).idOf q = n.idOf q :=
        fun q => idOf_alter fun _ => rfl
      refine ⟨⟨h.running, h.mutex⟩, ?_, by rintro ⟨⟩⟩
      rintro _ ⟨⟩
      have hqueue : (n.alter p fun r => { r with forceStop := true }).queueOf p = n.queueOf p :=
        queueOf_alter fun _ => rfl
      refine ⟨k, Function.update_self .., (hids p).trans hid, hqueue.trans (hn.placed k p hk), hk,
        fun q hq hlisted => ?_⟩
      exact hn.alone q p hlisted ⟨k, hk⟩ (((hids q).symm.trans hq).trans hid.symm)
  · case h_2 hnone => exact ⟨⟨h.running, h.mutex⟩, by rintro _ ⟨⟩, fun _ => ⟨hnone, hsettled⟩⟩

/-- It waits until the routine has been released; not for one that the thread runs itself. -/
theorem acquire_safe (h : Removing i ro x k p m) (fuel : Nat) :
    (protocol τ ι κ).Safe i
      (fun _ _ n => Removing i ro x k p n ∧ n.lock p = some i ∧ ro ≠ some p)
      (spin (Op.acquire p).get fuel r) m := by
  refine spin_safe (F := fun m => Removing i ro x k p m)
    (fun r m h => Protocol.safe_ask fun n hmn hn => ?_) h fuel
  have h := h.of_rely hmn
  refine ⟨⟨k, h.erased.listed⟩, fun _ _ => ?_⟩
  rw [exec]
  split
  · case isTrue hfree =>
      obtain ⟨cr, hcr, -⟩ := Option.map_eq_some_iff.mp h.erased.id
      have hids : ∀ q, (n.alter p fun r => { r with lock := some i }).idOf q = n.idOf q :=
        fun q => idOf_alter fun _ => rfl
      have hqueue : (n.alter p fun r => { r with lock := some i }).queueOf p = n.queueOf p :=
        queueOf_alter fun _ => rfl
      refine ⟨fun _ => ⟨⟨⟨h.has.running, h.has.mutex⟩, ⟨h.erased.idCr, (hids p).trans h.erased.id,
        hqueue.trans h.erased.queue, h.erased.listed,
        fun q hq => h.erased.only q ((hids q).symm.trans hq)⟩, h.writer⟩, ?_, ?_⟩, by rintro ⟨⟩⟩
      · rw [Memory.lock, routine_alter, if_pos rfl, hcr]
        rfl
      · rintro rfl
        rw [(hn.running i p h.has.running).1] at hfree
        cases hfree
  · exact ⟨by rintro ⟨⟩, fun _ => h⟩

theorem erase_safe (h : Removing i ro x k p m) (hlock : m.lock p = some i) (hro : ro ≠ some p) :
    (protocol τ ι κ).Safe i
      (fun _ _ n => Has i ro x n ∧ Gone x p n ∧ n.writer k = some i ∧ n.lock p = some i)
      ((Op.erase k p).get r) m := by
  refine Protocol.safe_ask fun n hmn hn => ?_
  have h := h.of_rely hmn
  have hlock := hmn.lock p hlock
  refine ⟨⟨h.writer, hlock, h.has.running ▸ hro, x, h.erased.id, h.has.mutex⟩,
    fun _ _ => ⟨⟨h.has.running, h.has.mutex⟩, ⟨h.erased.idCr, h.erased.id, fun q hq hlisted => ?_⟩,
      h.writer, hlock⟩⟩
  obtain rfl := h.erased.only q hq (listed_of_erase hlisted)
  exact not_listed_erase hn h.erased.queue hlisted

theorem release_safe (h : Has i ro x m) (hp : Gone x p m) (hwriter : m.writer k = some i)
    (hlock : m.lock p = some i) (hro : ro ≠ some p) :
    (protocol τ ι κ).Safe i
      (fun _ _ n => Has i ro x n ∧ Gone x p n ∧ n.writer k = some i ∧ n.lock p = none)
      ((Op.release p).get r) m := by
  refine Protocol.safe_ask fun n hmn hn => ?_
  have hp := hp.of_guarded (hmn.guarded x h.mutex)
  have h := h.of_rely hmn
  have hids : ∀ q, (n.alter p fun r => { r with lock := none }).idOf q = n.idOf q :=
    fun q => idOf_alter fun _ => rfl
  refine ⟨⟨hmn.lock p hlock, h.running ▸ hro⟩, fun _ _ => ⟨⟨h.running, h.mutex⟩,
    ⟨hp.idCr, (hids p).trans hp.id, fun q hq => hp.unlisted q ((hids q).symm.trans hq)⟩,
    (hmn.writes k hwriter).1, ?_⟩⟩
  obtain ⟨cr, hcr, -⟩ := Option.map_eq_some_iff.mp hp.id
  rw [exec, Memory.lock, routine_alter, if_pos rfl, hcr]
  rfl

theorem at_safe (h : Removing i ro x k p m) (index : Nat) :
    (protocol τ ι κ).Safe i
      (fun _ it n => Removing i ro x k p n ∧ n.crGroup k = m.crGroup k ∧
        it = (m.crGroup k)[index]?)
      ((Op.at k index).get r) m := by
  refine Protocol.safe_ask fun n hmn hn => ⟨trivial, fun _ _ => ?_⟩
  have hqueue := (hmn.writes k h.writer).2
  refine ⟨h.of_rely hmn, hqueue, ?_⟩
  rw [← hqueue]
  rfl

/-- The id of a routine in the queue. -/
theorem id_safe (h : Removing i ro x k p m) {q : Nat} (hq : q ∈ m.crGroup k) :
    (protocol τ ι κ).Safe i
      (fun _ id n => Removing i ro x k p n ∧ n.crGroup k = m.crGroup k ∧ (id = some x ↔ q = p))
      ((Op.id q).get r) m := by
  refine Protocol.safe_ask fun n hmn hn => ⟨trivial, fun _ _ => ?_⟩
  have hqueue := (hmn.writes k h.writer).2
  have h := h.of_rely hmn
  refine ⟨h, hqueue, fun hid => h.erased.only q hid ⟨k, hqueue ▸ hq⟩, ?_⟩
  rintro rfl
  exact h.erased.id

theorem stop_safe (h : Removing i ro x k p m) (q : Nat) :
    (protocol τ ι κ).Safe i (fun _ _ n => Removing i ro x k p n) ((Op.stop q).get r) m := by
  refine Protocol.safe_ask fun n hmn hn => ⟨trivial, fun _ _ => ?_⟩
  have h := h.of_rely hmn
  have hids : ∀ q', (n.alter q fun r => { r with forceStop := true }).idOf q' = n.idOf q' :=
    fun q' => idOf_alter fun _ => rfl
  have hqueue : (n.alter q fun r => { r with forceStop := true }).queueOf p = n.queueOf p :=
    queueOf_alter fun _ => rfl
  exact ⟨⟨h.has.running, h.has.mutex⟩, ⟨h.erased.idCr, (hids p).trans h.erased.id,
    hqueue.trans h.erased.queue, h.erased.listed,
    fun q' hq => h.erased.only q' ((hids q').symm.trans hq)⟩, h.writer⟩

/-- The loop comes to the routine. -/
theorem removeFrom_safe (h : Removing i ro x k p m) {turns index : Nat}
    (hbefore : ∀ j q, j < index → (m.crGroup k)[j]? = some q → q ≠ p) (fuel : Nat) :
    (protocol τ ι κ).Safe i
      (fun _ removed n => removed = true ∧ ro ≠ some p ∧ Has i ro x n ∧ Gone x p n ∧
        n.writer k = some i ∧ n.lock p = none)
      (removeFrom fuel x k turns index r) m := by
  induction turns generalizing m index r with
  | zero => trivial
  | succ turns ih =>
      simp only [removeFrom, Protocol.safe_seq]
      refine (at_safe h index).imp fun r it n hn => ?_
      obtain ⟨h, hqueue, hit⟩ := hn
      rw [← hqueue] at hbefore hit
      cases it with
      | none =>
          obtain ⟨j, hj⟩ := List.mem_iff_getElem?.mp h.erased.listed
          have hlt : j < index := Nat.lt_of_lt_of_le (List.getElem?_eq_some_iff.mp hj).1
            (List.getElem?_eq_none_iff.mp hit.symm)
          exact absurd rfl (hbefore j p hlt hj)
      | some q =>
          simp only [Protocol.safe_seq, Protocol.safe_ite, Protocol.safe_pure]
          refine (id_safe h (List.mem_of_getElem? hit.symm)).imp fun r id l hl => ?_
          obtain ⟨h, hqueue, hid⟩ := hl
          refine ⟨fun hqx => ?_, fun hqx => ?_⟩
          · obtain rfl := hid.mp hqx
            refine (stop_safe h q).imp fun r _ m h => ?_
            refine (acquire_safe h fuel).imp fun r _ m hm => ?_
            obtain ⟨h, hlock, hro⟩ := hm
            refine (erase_safe h hlock hro).imp fun r _ m hm => ?_
            obtain ⟨h, hgone, hwriter, hlock⟩ := hm
            exact (release_safe h hgone hwriter hlock hro).imp
              fun r _ m hm => ⟨trivial, hro, hm⟩
          · refine ih h fun j q' hj hq' => ?_
            rw [hqueue] at hq'
            rcases Nat.lt_succ_iff_lt_or_eq.mp hj with hj | rfl
            · exact hbefore j q' hj hq'
            · rw [← hit] at hq'
              rw [← Option.some.inj hq']
              exact fun hqp => hqx (hid.mpr hqp)

/-- A call that returns was not made by the routine of this id. -/
theorem removeCRoutine_safe (h : m.running i = ro) (fuel : Nat) (x : ι) :
    (protocol τ ι κ).Safe i
      (fun _ _ n => n.running i = ro ∧ ∀ q, ro = some q → n.idOf q ≠ some x)
      (removeCRoutine (κ := κ) fuel x r) m := by
  simp only [removeCRoutine, Protocol.safe_seq]
  refine (lockMutex_safe h fuel).imp fun r _ m hm => ?_
  obtain ⟨h, hsettled⟩ := hm
  refine (eraseId_safe h hsettled).imp fun r found m hm => ?_
  obtain ⟨h, hfound, hnone⟩ := hm
  cases found with
  | none =>
      simp only [Protocol.safe_seq, Protocol.safe_pure]
      obtain ⟨hnone, hsettled⟩ := hnone rfl
      exact (unlockMutex_safe h hsettled fun _ hq => by cases hq).imp fun _ _ _ hn => ⟨hn.1, hn.2 hnone⟩
  | some p =>
      obtain ⟨k, hp⟩ := hfound p rfl
      simp only [Protocol.safe_seq, Protocol.safe_deref, Protocol.safe_pure]
      refine Protocol.safe_ask fun n hmn hn => ⟨trivial, fun _ _ => ?_⟩
      have hp := hp.of_guarded (hmn.guarded x h.mutex)
      have h := h.of_rely hmn
      have hqueue : (exec i (.queue p) ‹_› n).1 = some k := hp.queue
      rw [hqueue]
      refine ⟨?_, by rintro ⟨⟩⟩
      rintro _ ⟨⟩
      refine (lockWrite_safe (F := fun n => Has i ro x n ∧ Erased x k p n) (fun m n hm hmn => ?_)
        (fun m hm => ?_) ⟨h, hp⟩ fuel).imp fun r _ m hm => ?_
      · exact ⟨hm.1.of_rely hmn, hm.2.of_guarded (hmn.guarded x hm.1.mutex)⟩
      · exact ⟨⟨hm.1.running, hm.1.mutex⟩,
          ⟨hm.2.idCr, hm.2.id, hm.2.queue, hm.2.listed, hm.2.only⟩⟩
      obtain ⟨⟨h, hp⟩, hwriter⟩ := hm
      refine (removeFrom_safe ⟨h, hp, hwriter⟩ (fun j q hj => absurd hj (Nat.not_lt_zero j)) fuel).imp
        fun r removed m hm => ?_
      obtain ⟨hremoved, hro, h, hgone, hwriter, hlock⟩ := hm
      rw [hremoved]
      have hunlock : (protocol τ ι κ).Safe i
          (fun _ _ n => Has i ro x n ∧ Gone x p n ∧ n.lock p = none)
          ((Op.unlockWrite k).get r) m := by
        refine Protocol.safe_ask fun n hmn hn => ⟨(hmn.writes k hwriter).1, fun _ _ => ?_⟩
        have hguarded := hmn.guarded x h.mutex
        have hgone' := hgone.of_guarded hguarded
        have h := h.of_rely hmn
        exact ⟨⟨h.running, h.mutex⟩, ⟨hgone'.idCr, hgone'.id, hgone'.unlisted⟩,
          hguarded.free p hgone.id (hgone.unlisted p hgone.id) hlock⟩
      refine hunlock.imp fun r _ m hm => ?_
      obtain ⟨h, hgone, hlock⟩ := hm
      refine (unlockMutex_safe h hgone.settled fun q hq => ?_).imp fun _ _ _ hn =>
        ⟨hn.1, hn.2 hgone.idCr⟩
      obtain rfl : p = q := Option.some.inj hq
      exact ⟨hgone.id, hgone.unlisted p hgone.id, hlock⟩

/-! ### A processor -/

theorem inner_safe (h : m.running i = ro) (fuel : Nat) (c : Inner ι κ) :
    (protocol τ ι κ).Safe i (fun _ _ n => n.running i = ro) (c.body fuel r) m := by
  cases c with
  | createTask x k => exact dispatchTask_safe h fuel x k
  | removeTask x => exact (removeCRoutine_safe h fuel x).imp fun _ _ _ => And.left

theorem inners_safe (h : m.running i = ro) (fuel : Nat) (cs : List (Inner ι κ)) :
    (protocol τ ι κ).Safe i (fun _ _ n => n.running i = ro) (inners fuel cs r) m := by
  induction cs generalizing m r with
  | nil => exact h
  | cons c cs ih =>
      simp only [inners, Protocol.safe_seq]
      exact (inner_safe h fuel c).imp fun _ _ _ h => ih h

/-- The thread has acquired a routine that is in a queue, and runs none. -/
def Holding (i : τ) (p : Nat) (m : Memory τ ι κ) : Prop :=
  m.running i = none ∧ m.lock p = some i ∧ m.Listed p

omit [DecidableEq τ] [DecidableEq ι] [DecidableEq κ] in
theorem Holding.of_rely {n : Memory τ ι κ} (h : Holding i p m) (hmn : Rely i m n) :
    Holding i p n := by
  obtain ⟨hrun, hlock, k, hk⟩ := h
  exact ⟨hmn.running.trans hrun, hmn.lock p hlock, k, hmn.held p k hlock hk⟩

theorem scan_safe (hrun : m.running i = none) (hreads : i ∈ m.readers k) (turns index : Nat) :
    (protocol τ ι κ).Safe i
      (fun _ found n => n.running i = none ∧ ∀ p, found = some p → Holding i p n)
      (scan k turns index r) m := by
  induction turns generalizing m index r with
  | zero => trivial
  | succ turns ih =>
      simp only [scan, Protocol.safe_seq]
      refine Protocol.safe_ask fun n hmn hn => ⟨trivial, fun _ _ => ?_⟩
      have hrun := hmn.running.trans hrun
      have hreads := (hmn.reads k hreads).1
      have hat : (exec i (.at k index) ‹_› n).1 = (n.crGroup k)[index]? := rfl
      rw [hat]
      cases hit : (n.crGroup k)[index]? with
      | none => exact ⟨hrun, by rintro _ ⟨⟩⟩
      | some p =>
          simp only [Protocol.safe_seq, Protocol.safe_ite, Protocol.safe_pure]
          have hp : p ∈ n.crGroup k := List.mem_of_getElem? hit
          have hacquire : (protocol τ ι κ).Safe i
              (fun _ got n => n.running i = none ∧ i ∈ n.readers k ∧
                (got = true → n.lock p = some i ∧ p ∈ n.crGroup k))
              ((Op.acquire p).get r) n := by
            refine Protocol.safe_ask fun l hnl hl => ?_
            obtain ⟨hreads, hqueue⟩ := hnl.reads k hreads
            rw [← hqueue] at hp
            refine ⟨⟨k, hp⟩, fun _ _ => ?_⟩
            rw [exec]
            split
            · obtain ⟨x, hx⟩ := hl.known p ⟨k, hp⟩
              obtain ⟨cr, hcr, -⟩ := Option.map_eq_some_iff.mp hx
              refine ⟨hnl.running.trans hrun, hreads, fun _ => ⟨?_, hp⟩⟩
              rw [Memory.lock, routine_alter, if_pos rfl, hcr]
              rfl
            · exact ⟨hnl.running.trans hrun, hreads, by rintro ⟨⟩⟩
          refine hacquire.imp fun r got m hm => ?_
          obtain ⟨hrun, hreads, hgot⟩ := hm
          refine ⟨fun hacquired => ?_, fun _ => ?_⟩
          · obtain ⟨hlock, hp⟩ := hgot hacquired
            have hupdate : (protocol τ ι κ).Safe i
                (fun _ _ n => i ∈ n.readers k ∧ Holding i p n)
                ((Op.updateState p).get r) m := by
              refine Protocol.safe_ask fun n hmn hn => ⟨trivial, fun x _ => ?_⟩
              obtain ⟨hrun, hlock, hlisted⟩ := Holding.of_rely ⟨hrun, hlock, k, hp⟩ hmn
              have hsame : (n.alter p fun r => { r with state := x }).lock p = n.lock p :=
                lock_alter fun _ => rfl
              exact ⟨(hmn.reads k hreads).1, hrun, hsame.trans hlock, hlisted⟩
            refine hupdate.imp fun r state m hm => ?_
            obtain ⟨hreads, h⟩ := hm
            refine ⟨fun _ => ?_, fun _ => ?_⟩
            · refine ⟨h.1, ?_⟩
              rintro _ ⟨⟩
              exact h
            · have hrelease : (protocol τ ι κ).Safe i
                  (fun _ _ n => n.running i = none ∧ i ∈ n.readers k)
                  ((Op.release p).get r) m := by
                refine Protocol.safe_ask fun n hmn hn => ?_
                have h := h.of_rely hmn
                exact ⟨⟨h.2.1, by rw [h.1]; rintro ⟨⟩⟩, fun _ _ => ⟨h.1, (hmn.reads k hreads).1⟩⟩
              exact hrelease.imp fun r _ m hm => ih hm.1 hm.2 (index + 1)
          · exact ih hrun hreads (index + 1)

theorem nextRoutine_safe (hrun : m.running i = none) (fuel : Nat) (ks : List κ) :
    (protocol τ ι κ).Safe i
      (fun _ found n => n.running i = none ∧ ∀ p, found = some p → Holding i p n)
      (nextRoutine (ι := ι) fuel ks r) m := by
  induction ks generalizing m r with
  | nil => exact ⟨hrun, by rintro _ ⟨⟩⟩
  | cons k ks ih =>
      simp only [nextRoutine, Protocol.safe_seq]
      have hread : (protocol τ ι κ).Safe i (fun _ _ n => n.running i = none ∧ i ∈ n.readers k)
          (spin (Op.lockRead k).get fuel r) m := by
        refine spin_safe (F := fun m => m.running i = none)
          (fun r m h => Protocol.safe_ask fun n hmn hn => ⟨trivial, fun _ _ => ?_⟩) hrun fuel
        have hrun := hmn.running.trans h
        rw [exec]
        split
        · refine ⟨fun _ => ⟨hrun, ?_⟩, by rintro ⟨⟩⟩
          dsimp only
          rw [Function.update_self]
          exact List.mem_cons_self
        · exact ⟨by rintro ⟨⟩, fun _ => hrun⟩
      refine hread.imp fun r _ m hm => ?_
      obtain ⟨hrun, hreads⟩ := hm
      refine (scan_safe hrun hreads fuel 0).imp fun r found m hm => ?_
      obtain ⟨hrun, hfound⟩ := hm
      have hunlock : (protocol τ ι κ).Safe i
          (fun _ _ n => n.running i = none ∧ ∀ p, found = some p → Holding i p n)
          ((Op.unlockRead k).get r) m := by
        refine Protocol.safe_ask fun n hmn hn => ⟨trivial, fun _ _ => ⟨hmn.running.trans hrun, fun p hp => ?_⟩⟩
        have h : Holding i p n := (hfound p hp).of_rely hmn
        exact ⟨h.1, h.2.1, h.2.2⟩
      refine hunlock.imp fun r _ m hm => ?_
      obtain ⟨hrun, hfound⟩ := hm
      cases found with
      | some p => exact ⟨hrun, hfound⟩
      | none => exact ih hrun

theorem turn_safe (hrun : m.running i = none) (fuel : Nat) (ks : List κ) (calls : List (Inner ι κ))
    (yields : RoutineState) :
    (protocol τ ι κ).Safe i (fun _ _ n => n.running i = none) (turn fuel ks calls yields r) m := by
  simp only [turn, Protocol.safe_seq]
  refine (nextRoutine_safe hrun fuel ks).imp fun r found m hm => ?_
  obtain ⟨hrun, hfound⟩ := hm
  cases found with
  | none => exact hrun
  | some p =>
      have hrelease : ∀ {r : Unit} {m : Memory τ ι κ}, m.running i = none → m.lock p = some i →
          (protocol τ ι κ).Safe i (fun _ _ n => n.running i = none) ((Op.release p).get r) m := by
        intro r m hrun hlock
        refine Protocol.safe_ask fun n hmn hn => ⟨⟨hmn.lock p hlock, ?_⟩, fun _ _ => hmn.running.trans hrun⟩
        rw [hmn.running, hrun]
        rintro ⟨⟩
      simp only [Protocol.safe_seq, Protocol.safe_ite]
      refine Protocol.safe_ask fun n hmn hn => ⟨trivial, fun _ _ => ?_⟩
      have h : Holding i p n := (hfound p rfl).of_rely hmn
      refine ⟨fun _ => ?_, fun _ => ?_⟩
      · refine Protocol.safe_ask fun l hnl hl => ⟨trivial, fun _ _ => ?_⟩
        have h : Holding i p l := h.of_rely hnl
        have hsame : (l.alter p fun r => { r with state := .finished }).lock p = l.lock p :=
          lock_alter fun _ => rfl
        exact hrelease h.1 (hsame.trans h.2.1)
      · refine Protocol.safe_ask fun l hnl hl => ⟨trivial, fun _ _ => ⟨fun _ => ?_, fun _ => ?_⟩⟩
        · have h : Holding i p l := h.of_rely hnl
          refine Protocol.safe_ask fun m hlm hm => ?_
          have h := h.of_rely hlm
          refine ⟨⟨h.2.1, h.2.2⟩, fun _ _ => ?_⟩
          have hself : (exec i (.enter p) ‹_› m).2.running i = some p := Function.update_self ..
          refine (inners_safe hself fuel calls).imp fun r _ m hrun => ?_
          refine Protocol.safe_ask fun n hmn hn => ⟨trivial, fun _ _ => ?_⟩
          have hrun : n.running i = some p := hmn.running.trans hrun
          refine Protocol.safe_ask fun l hnl hl => ⟨trivial, fun _ _ => ?_⟩
          have hrun : l.running i = some p := hnl.running.trans hrun
          exact hrelease (Function.update_self ..) (hl.running i p hrun).1
        · have h : Holding i p l := h.of_rely hnl
          exact hrelease h.1 h.2.1

theorem body_safe (hrun : m.running i = none) (fuel : Nat) (c : Call ι κ) :
    (protocol τ ι κ).Safe i (fun _ _ n => n.running i = none) (c.body fuel r) m := by
  cases c with
  | turn ks calls yields => exact turn_safe hrun fuel ks calls yields
  | inner c =>
      simp only [Call.body, Protocol.safe_seq, Protocol.safe_pure]
      exact inner_safe hrun fuel c

end Functions

/-! ## Every run -/

omit [DecidableEq τ] [DecidableEq ι] [DecidableEq κ] in
theorem inv_start : Inv ({} : Memory τ ι κ) where
  made _ _ h := by cases h
  own _ _ h := by cases h
  placed _ _ h := absurd h List.not_mem_nil
  known _ h := absurd h.choose_spec List.not_mem_nil
  alone _ _ h := absurd h.choose_spec List.not_mem_nil
  nodup _ := List.nodup_nil
  settled _ _ p := iff_of_false nofun fun h => absurd h.2.choose_spec List.not_mem_nil
  reading _ _ h := by cases h
  running _ _ h := by cases h
  removed _ h := by cases h

/-- A thread that is at rest runs no routine. -/
def Rest (i : τ) (_ _ : Unit) (m : Memory τ ι κ) : Prop := m.running i = none

theorem rest_stable (i : τ) : (protocol τ ι κ).Stable i (Rest i) :=
  fun _ _ _ _ h hmn _ => hmn.running.trans h

variable (fuel : Nat)

omit [DecidableEq τ] [DecidableEq ι] [DecidableEq κ] in
theorem enter_keeps (i : τ) (_ : Call ι κ) (r a : Unit) (m : Memory τ ι κ)
    (hm : Inv m) (_ : Rest i r a m) (_ : True) : Inv m ∧ ∀ j, j ≠ i → Rely j m m :=
  ⟨hm, fun j _ => Rely.refl j m⟩

theorem call_safe (i : τ) (c : Call ι κ) (r a : Unit) (m : Memory τ ι κ) (_ : Inv m)
    (h : Rest i r a m) (_ : True) : (protocol τ ι κ).Safe i (Rest i) (c.body fuel r) m :=
  body_safe h fuel c

theorem meets (s : State τ ι κ) (es : List (TaskStep τ ι κ)) :
    Run.Along (step fuel) ((protocol τ ι κ).Meets fun _ _ _ _ => True) s es :=
  Run.along_of_forall_mem fun e _ cfg => by
    cases e with
    | call i c => exact fun _ _ _ => trivial
    | act i x => exact fun _ _ _ _ => trivial

theorem holds_from {s : State τ ι κ} (h : (protocol τ ι κ).Holds Rest s)
    (es : List (TaskStep τ ι κ)) :
    ∀ s' ∈ Run.states (step fuel) s es, (protocol τ ι κ).Holds Rest s' :=
  Protocol.sound rest_stable enter_keeps (call_safe fuel) h (meets fuel s es)

theorem holds (es : List (TaskStep τ ι κ)) : ∀ s ∈ Run.states (step fuel) (start τ ι κ) es,
    (protocol τ ι κ).Holds Rest s := by
  have hstart : (protocol τ ι κ).Holds Rest (start τ ι κ) :=
    { inv := inv_start, safe := fun _ => rfl }
  exact holds_from fuel hstart es

theorem removed_exec {i : τ} {o : Op ι κ} {y : RoutineState} {m : Memory τ ι κ} {p : Nat}
    (h : m.removed p = true) : (exec i o y m).2.removed p = true := by
  cases o with
  | unlockMutex x gone => exact (Bool.or_eq_true _ _).mpr (.inl h)
  | lockMutex | insertId | lockRead | lockWrite | acquire =>
      rw [exec]
      split
      · exact h
      · exact h
  | eraseId =>
      rw [exec]
      split
      · exact h
      · exact h
  | _ => exact h

theorem removed_step {s : State τ ι κ} {p : Nat} (h : s.shared.removed p = true)
    (e : TaskStep τ ι κ) : (step fuel s e).shared.removed p = true := by
  cases e with
  | call i c =>
      rw [step, Thread.step]
      split
      · exact h
      · exact h
  | act i y =>
      rw [step, Thread.step]
      split
      · exact removed_exec h
      · exact h

/-- A routine that `RemoveCRoutine` has removed is run by nobody, then and later. -/
theorem removed_never_runs (es es' : List (TaskStep τ ι κ)) {p : Nat}
    (hp : (Run.exec (step fuel) (start τ ι κ) es).shared.removed p = true) :
    ∀ s ∈ Run.states (step fuel) (Run.exec (step fuel) (start τ ι κ) es) es',
      (∀ t, s.shared.running t ≠ some p) ∧ ¬ s.shared.Listed p ∧ ∀ x, s.shared.idCr x ≠ some p := by
  intro s hs
  have hholds := holds_from fuel (holds fuel es _ (Run.exec_mem_states ..)) es' s hs
  have hremoved := Run.invariant_always (I := fun s : State τ ι κ => s.shared.removed p = true)
    (fun s e h => removed_step fuel h e) hp s hs
  obtain ⟨-, hidCr, hlisted, -⟩ := hholds.inv.removed p hremoved
  exact ⟨fun t ht => hlisted (hholds.inv.running t p ht).2, hlisted, hidCr⟩

/-- A task is made, run and removed. -/
def removal : List (TaskStep Bool Unit Unit) :=
  .call false (.inner (.createTask () ())) :: List.replicate 8 (.act false .ready) ++
    .call true (.turn [()] [] .dataWait) :: List.replicate 12 (.act true .ready) ++
      .call false (.inner (.removeTask ())) :: List.replicate 12 (.act false .ready)

theorem removed_never_runs_again :
    (Run.exec (step 3) (start Bool Unit Unit) removal).shared.removed 0 = true ∧
      ∀ s ∈ Run.states (step 3) (Run.exec (step 3) (start Bool Unit Unit) removal) removal,
        (∀ t, s.shared.running t ≠ some 0) ∧ ¬ s.shared.Listed 0 ∧
          ∀ x, s.shared.idCr x ≠ some 0 := by
  have hremoved : (Run.exec (step 3) (start Bool Unit Unit) removal).shared.removed 0 = true := by
    decide +kernel
  exact ⟨hremoved, removed_never_runs 3 removal removal hremoved⟩

/-- One routine is run by one thread, and the map and the queues agree on every id that no
call is at work on. -/
structure Orderly (m : Memory τ ι κ) : Prop where
  alone : ∀ t t' p, m.running t = some p → m.running t' = some p → t = t'
  settled : ∀ x, m.mutex x = none → ∀ p, m.idCr x = some p ↔ m.idOf p = some x ∧ m.Listed p
  place : ∀ k k' p, p ∈ m.crGroup k → p ∈ m.crGroup k' → k = k'
  once : ∀ k, (m.crGroup k).Nodup

theorem orderly (es : List (TaskStep τ ι κ)) :
    ∀ s ∈ Run.states (step fuel) (start τ ι κ) es, Orderly s.shared := by
  intro s hs
  have hm := (holds fuel es s hs).inv
  refine ⟨fun t t' p ht ht' => ?_, hm.settled, fun k k' p hk hk' => ?_, hm.nodup⟩
  · exact Option.some.inj ((hm.running t p ht).1.symm.trans (hm.running t' p ht').1)
  · exact Option.some.inj ((hm.placed k p hk).symm.trans (hm.placed k' p hk'))

theorem orderly_removal :
    Orderly (Run.exec (step 3) (start Bool Unit Unit) removal).shared :=
  orderly 3 removal _ (Run.exec_mem_states ..)

/-! ## A routine that removes itself -/

theorem idOf_exec {i : τ} {o : Op ι κ} {y : RoutineState} {m : Memory τ ι κ} {p : Nat} {x : ι}
    (hm : Inv m) (hp : m.idOf p = some x) : (exec i o y m).2.idOf p = some x := by
  cases o with
  | insertId z =>
      rw [exec]
      split
      · have hne : p ≠ m.made := Nat.ne_of_lt (hm.made p x hp)
        rw [idOf]
        dsimp only
        rwa [Function.update_of_ne hne]
      · exact hp
  | eraseId z =>
      rw [exec]
      split
      · case h_1 q _ =>
          have hids : (m.alter q fun r => { r with forceStop := true }).idOf p = m.idOf p :=
            idOf_alter fun _ => rfl
          exact hids.trans hp
      · exact hp
  | acquire q =>
      rw [exec]
      split
      · refine (idOf_alter ?_).trans hp
        exact fun _ => rfl
      · exact hp
  | lockMutex | lockRead | lockWrite =>
      rw [exec]
      split
      · exact hp
      · exact hp
  | setQueue | release | stop | updateState | setState =>
      refine (idOf_alter ?_).trans hp
      exact fun _ => rfl
  | _ => exact hp

/-- Not `SwapContext`, to a routine or back. -/
def Op.Stays : Op ι κ → Prop
  | .enter _ | .leave => False
  | _ => True

theorem running_exec {i j : τ} {o : Op ι κ} {y : RoutineState} {m : Memory τ ι κ}
    (ho : o.Stays) : (exec i o y m).2.running j = m.running j := by
  cases o with
  | enter | leave => exact ho.elim
  | lockMutex | insertId | lockRead | lockWrite | acquire | eraseId =>
      rw [exec]
      split
      · rfl
      · rfl
  | _ => rfl

section Asks

variable {C : Op ι κ → Prop} {r : Unit}

omit [DecidableEq ι] [DecidableEq κ] in
theorem spin_asks {o : TaskCode ι κ Bool} (ho : ∀ r, (o r).Asks C) (fuel : Nat) :
    (spin o fuel r).Asks C := by
  induction fuel generalizing r with
  | zero => trivial
  | succ fuel ih =>
      refine Code.asks_seq (ho r) fun r got => ?_
      cases got with
      | true => trivial
      | false => exact ih

omit [DecidableEq κ] in
theorem removeFrom_asks (fuel : Nat) (x : ι) (k : κ) (turns index : Nat) :
    (removeFrom fuel x k turns index r).Asks Op.Stays := by
  induction turns generalizing index r with
  | zero => trivial
  | succ turns ih =>
      refine Code.asks_seq (Code.asks_ask trivial r) fun r it => ?_
      cases it with
      | none => trivial
      | some q =>
          refine Code.asks_seq (Code.asks_ask trivial r) fun r id => ?_
          split
          · refine Code.asks_seq (Code.asks_ask trivial r) fun r _ => ?_
            refine Code.asks_seq (spin_asks (Code.asks_ask trivial) fuel) fun r _ => ?_
            refine Code.asks_seq (Code.asks_ask trivial r) fun r _ => ?_
            exact Code.asks_seq (Code.asks_ask trivial r) fun _ _ => trivial
          · exact ih _

omit [DecidableEq κ] in
/-- `RemoveCRoutine` does not switch to another routine, and not back from its own. -/
theorem removeCRoutine_asks (fuel : Nat) (x : ι) :
    (removeCRoutine (κ := κ) fuel x r).Asks Op.Stays := by
  refine Code.asks_seq (spin_asks (Code.asks_ask trivial) fuel) fun r _ => ?_
  refine Code.asks_seq (Code.asks_ask trivial r) fun r found => ?_
  cases found with
  | none => exact Code.asks_seq (Code.asks_ask trivial r) fun _ _ => trivial
  | some p =>
      refine Code.asks_seq (Code.asks_ask trivial r) fun r queue => ?_
      cases queue with
      | none => trivial
      | some k =>
          refine Code.asks_seq trivial fun r k => ?_
          refine Code.asks_seq (spin_asks (Code.asks_ask trivial) fuel) fun r _ => ?_
          refine Code.asks_seq (removeFrom_asks fuel x k fuel 0) fun r removed => ?_
          refine Code.asks_seq (Code.asks_ask trivial r) fun r _ => ?_
          exact Code.asks_seq (Code.asks_ask trivial r) fun _ _ => trivial

end Asks

/-- The thread is inside the call that removes the id `x`, followed by `k`.  It has the lock of
its routine, which is in its queue. -/
structure WaitsForItself (t : τ) (p : Nat) (x : ι) (k : Unit → Bool → Prog (sig ι κ) Unit Unit)
    (s : State τ ι κ) : Prop where
  inside : ∃ c, (removeCRoutine fuel x ()).Remains c ∧ (∀ r b, c ≠ .done r b) ∧
    s.threads t = c.bind k
  running : s.shared.running t = some p
  lock : s.shared.lock p = some t
  listed : s.shared.Listed p

/-- A routine that removes the task of its own id stays in that call for ever, and in its
queue. -/
theorem removes_itself_forever (es es' : List (TaskStep τ ι κ)) {t : τ} {p : Nat} {x : ι}
    {k : Unit → Bool → Prog (sig ι κ) Unit Unit}
    (hcode : (Run.exec (step fuel) (start τ ι κ) es).threads t =
      (removeCRoutine fuel x ()).bind k)
    (hrun : (Run.exec (step fuel) (start τ ι κ) es).shared.running t = some p)
    (hid : (Run.exec (step fuel) (start τ ι κ) es).shared.idOf p = some x) :
    ∀ s ∈ Run.states (step fuel) (Run.exec (step fuel) (start τ ι κ) es) es',
      WaitsForItself fuel t p x k s := by
  generalize hcfg : Run.exec (step fuel) (start τ ι κ) es = cfg at *
  have hholds : (protocol τ ι κ).Holds Rest cfg :=
    holds fuel es cfg (hcfg ▸ Run.exec_mem_states ..)
  have hinside : (protocol τ ι κ).Inside Op.Stays t (removeCRoutine fuel x ()) k cfg
      (removeCRoutine fuel x ()) := by
    refine ⟨.all, removeCRoutine_asks fuel x, ?_, hcode⟩
    have hids : ∀ m n : Memory τ ι κ, m.idOf p = some x → Rely t m n → Inv n →
        n.idOf p = some x := fun m n h hmn _ => hmn.ids p x h
    have hremove := (removeCRoutine_safe (κ := κ) (r := ()) hrun fuel x).frame
      (F := fun m => m.idOf p = some x) hids (fun _ _ m hm h => idOf_exec hm h) hid
    exact hremove.imp fun r b n hn => absurd hn.2 (hn.1.2 p rfl)
  intro s hs
  obtain ⟨hstate, ⟨c, hc⟩, hruns⟩ := Protocol.stays (F := fun m => m.running t = some p)
    rest_stable enter_keeps (call_safe fuel) (fun m n h hmn _ => hmn.running.trans h)
    (fun o y m ho _ h => (running_exec ho).trans h) hholds hinside hrun (meets fuel cfg es') s hs
  obtain ⟨hlock, hlisted⟩ := hstate.inv.running t p hruns
  exact ⟨⟨c, hc.remains, hc.not_done, hc.code⟩, hruns, hlock, hlisted⟩

/-- A task is made, and a processor comes to the call in which its routine removes it. -/
def selfRemoval : List (TaskStep Bool Unit Unit) :=
  .call false (.inner (.createTask () ())) :: List.replicate 8 (.act false .ready) ++
    .call true (.turn [()] [.removeTask ()] .dataWait) :: List.replicate 8 (.act true .ready)

/-- What is left of the turn after that call. -/
def selfRemovalRest (r : Unit) (_ : Bool) : Prog (sig Unit Unit) Unit Unit :=
  (do
    inners 3 []
    (Op.setState 0 .dataWait).get
    Op.leave.get
    (Op.release 0).get : TaskCode Unit Unit Unit) r

theorem selfRemoval_code : (Run.exec (step 3) (start Bool Unit Unit) selfRemoval).threads true =
    (removeCRoutine 3 () ()).bind selfRemovalRest := by
  have hcode : (Run.exec (step 3) (start Bool Unit Unit) selfRemoval).threads true =
      ((removeCRoutine 3 () ()).bind fun r _ => inners 3 [] r).bind fun r _ =>
        (do
          (Op.setState 0 .dataWait).get
          Op.leave.get
          (Op.release 0).get : TaskCode Unit Unit Unit) r := by
    rfl
  exact hcode.trans Prog.bind_assoc

theorem selfRemoval_forever :
    (Run.exec (step 3) (start Bool Unit Unit) selfRemoval).shared.running true = some 0 ∧
      ∀ s ∈ Run.states (step 3) (Run.exec (step 3) (start Bool Unit Unit) selfRemoval) removal,
        WaitsForItself 3 true 0 () selfRemovalRest s := by
  have hrun : (Run.exec (step 3) (start Bool Unit Unit) selfRemoval).shared.running true = some 0 := by
    decide +kernel
  exact ⟨hrun, removes_itself_forever 3 selfRemoval removal selfRemoval_code hrun
    (by decide +kernel)⟩

end Tasks
end Scheduler
end Cmw
