import Cmw.Base.QueueOrder
import Cmw.Task.Pools
import Mathlib.Data.List.Nodup

/-!
# Where the tasks are

`Enqueue` does not look at what the queue returns: a task that finds the queue full is
dropped, and its future is valid.  As long as no `Enqueue` finds the queue full, a task
whose future is valid is in the queue, in the hands of one worker, or it has been run once.
-/

namespace Cmw
namespace Pools

open Library
open Library.Thread
open Base

variable {ι : Type} [DecidableEq ι]

/-- The tasks, as the history of the queue has them: no task is reserved twice, and what
was dequeued is in the hands of the one thread that has claimed it, or has been run. -/
structure Tasks (h : Queue.History ι Nat) (made : Nat) (executed : List Nat) : Prop where
  lt : ∀ n ∈ h.reserved, n < made
  element : ∀ i n, (h.own i).element = some n → n < made
  fresh : ∀ i n, (h.own i).element = some n → (h.own i).reserved = none → n ∉ h.reserved
  distinct : ∀ i j n, (h.own i).element = some n → (h.own j).element = some n → i = j
  nodup : h.reserved.Nodup
  claimed : ∀ i k, (h.own i).claimed = some k → ∃ n, h.dequeued[k]? = some n ∧ n ∉ executed
  unique : ∀ i j k, (h.own i).claimed = some k → (h.own j).claimed = some k → i = j
  taken : ∀ k n, h.dequeued[k]? = some n → n ∈ executed ∨ ∃ i, (h.own i).claimed = some k
  once : executed.Nodup
  dequeued : ∀ n ∈ executed, n ∈ h.dequeued

section Tasks

variable {h : Queue.History ι Nat} {made : Nat} {executed : List Nat} {i : ι}

theorem own_setOwn {o : Queue.Own Nat} {j : ι} : (h.setOwn i o).own j = if j = i then o else h.own j :=
  Function.update_apply ..

/-- A change of what is known of thread `i` that leaves its task, and what it has reserved
and claimed. -/
theorem Tasks.setOwn (ht : Tasks h made executed) {o : Queue.Own Nat}
    (helement : o.element = (h.own i).element) (hreserved : o.reserved = (h.own i).reserved)
    (hclaimed : o.claimed = (h.own i).claimed) : Tasks (h.setOwn i o) made executed := by
  have hown : ∀ j, ((h.setOwn i o).own j).element = (h.own j).element ∧
      ((h.setOwn i o).own j).reserved = (h.own j).reserved ∧
      ((h.setOwn i o).own j).claimed = (h.own j).claimed := by
    intro j
    rw [own_setOwn]
    split
    case isTrue hj => exact hj ▸ ⟨helement, hreserved, hclaimed⟩
    case isFalse => exact ⟨rfl, rfl, rfl⟩
  refine { ht with
    element := ?_, fresh := ?_, distinct := ?_, claimed := ?_, unique := ?_, taken := ?_ }
  · intro j n hn
    exact ht.element j n ((hown j).1 ▸ hn)
  · intro j n hn hnone
    exact ht.fresh j n ((hown j).1 ▸ hn) ((hown j).2.1 ▸ hnone)
  · intro j j' n hn hn'
    exact ht.distinct j j' n ((hown j).1 ▸ hn) ((hown j').1 ▸ hn')
  · intro j k hk
    exact ht.claimed j k ((hown j).2.2 ▸ hk)
  · intro j j' k hk hk'
    exact ht.unique j j' k ((hown j).2.2 ▸ hk) ((hown j').2.2 ▸ hk')
  · intro k n hn
    rcases ht.taken k n hn with hn | ⟨j, hj⟩
    · exact .inl hn
    · exact .inr ⟨j, (hown j).2.2.symm ▸ hj⟩

/-- A thread with nothing claimed makes a new task, or has none. -/
theorem Tasks.renew (ht : Tasks h made executed) (hclaimed : (h.own i).claimed = none)
    {made' : Nat} {e : Option Nat} (hmade : made ≤ made')
    (he : ∀ n, e = some n → made ≤ n ∧ n < made') :
    Tasks (h.setOwn i { element := e }) made' executed := by
  have hnone : ∀ j k, ((h.setOwn i { element := e }).own j).claimed = some k →
      (h.own j).claimed = some k := by
    intro j k hk
    rw [own_setOwn] at hk
    split at hk
    case isTrue => cases hk
    case isFalse => exact hk
  have helement : ∀ j n, ((h.setOwn i { element := e }).own j).element = some n →
      j = i ∧ made ≤ n ∧ n < made' ∨ j ≠ i ∧ (h.own j).element = some n := by
    intro j n hn
    rw [own_setOwn] at hn
    split at hn
    case isTrue hj => exact .inl ⟨hj, he n hn⟩
    case isFalse hj => exact .inr ⟨hj, hn⟩
  refine { ht with
    lt := ?_, element := ?_, fresh := ?_, distinct := ?_, claimed := ?_, unique := ?_, taken := ?_ }
  · exact fun n hn => (ht.lt n hn).trans_le hmade
  · intro j n hn
    rcases helement j n hn with ⟨_, _, hlt⟩ | ⟨_, hn⟩
    · exact hlt
    · exact (ht.element j n hn).trans_le hmade
  · intro j n hn hreserved hmem
    rcases helement j n hn with ⟨_, hle, _⟩ | ⟨hj, hn⟩
    · exact Nat.not_lt.mpr hle (ht.lt n hmem)
    · rw [own_setOwn, if_neg hj] at hreserved
      exact ht.fresh j n hn hreserved hmem
  · intro j j' n hn hn'
    rcases helement j n hn with ⟨hj, hle, _⟩ | ⟨_, hn⟩ <;>
      rcases helement j' n hn' with ⟨hj', hle', _⟩ | ⟨_, hn'⟩
    · exact hj.trans hj'.symm
    · exact absurd (ht.element j' n hn') (Nat.not_lt.mpr hle)
    · exact absurd (ht.element j n hn) (Nat.not_lt.mpr hle')
    · exact ht.distinct j j' n hn hn'
  · exact fun j k hk => ht.claimed j k (hnone j k hk)
  · exact fun j j' k hk hk' => ht.unique j j' k (hnone j k hk) (hnone j' k hk')
  · intro k n hn
    rcases ht.taken k n hn with hn | ⟨j, hj⟩
    · exact .inl hn
    · refine .inr ⟨j, ?_⟩
      rw [own_setOwn, if_neg]
      · exact hj
      · rintro rfl
        rw [hclaimed] at hj
        cases hj

/-- A thread reserves its task. -/
theorem Tasks.reserve (ht : Tasks h made executed) {n : Nat} (hn : (h.own i).element = some n)
    (hreserved : (h.own i).reserved = none) {t : Option Nat} :
    Tasks { h.setOwn i { h.own i with ticket := t, reserved := some h.reserved.length } with
      reserved := h.reserved ++ [n] } made executed := by
  have hsame : ∀ j, ((h.setOwn i { h.own i with ticket := t, reserved := some h.reserved.length }).own
      j).element = (h.own j).element ∧ ((h.setOwn i { h.own i with
        ticket := t, reserved := some h.reserved.length }).own j).claimed = (h.own j).claimed := by
    intro j
    rw [own_setOwn]
    split
    case isTrue hj => exact hj ▸ ⟨rfl, rfl⟩
    case isFalse => exact ⟨rfl, rfl⟩
  have hfresh := ht.fresh i n hn hreserved
  refine { ht with
    lt := ?_, element := ?_, fresh := ?_, distinct := ?_, nodup := ?_, claimed := ?_, unique := ?_,
    taken := ?_ }
  · intro m hm
    rcases List.mem_append.mp hm with hm | hm
    · exact ht.lt m hm
    · rw [List.mem_singleton.mp hm]
      exact ht.element i n hn
  · exact fun j m hm => ht.element j m ((hsame j).1 ▸ hm)
  · intro j m hm hnone hmem
    have hm : (h.own j).element = some m := (hsame j).1 ▸ hm
    have hj : j ≠ i := by
      rintro rfl
      have hnone : ((h.setOwn j { h.own j with
        ticket := t, reserved := some h.reserved.length }).own j).reserved = none := hnone
      rw [own_setOwn, if_pos rfl] at hnone
      cases hnone
    have hnone : ((h.setOwn i { h.own i with
        ticket := t, reserved := some h.reserved.length }).own j).reserved = none := hnone
    rw [own_setOwn, if_neg hj] at hnone
    rcases List.mem_append.mp hmem with hmem | hmem
    · exact ht.fresh j m hm hnone hmem
    · rw [List.mem_singleton.mp hmem] at hm
      exact hj (ht.distinct j i n hm hn)
  · exact fun j j' m hm hm' => ht.distinct j j' m ((hsame j).1 ▸ hm) ((hsame j').1 ▸ hm')
  · exact List.nodup_append.mpr ⟨ht.nodup, List.nodup_singleton n, fun a ha b hb hab =>
      hfresh (List.mem_singleton.mp hb ▸ hab ▸ ha)⟩
  · exact fun j k hk => ht.claimed j k ((hsame j).2 ▸ hk)
  · exact fun j j' k hk hk' => ht.unique j j' k ((hsame j).2 ▸ hk) ((hsame j').2 ▸ hk')
  · intro k m hm
    rcases ht.taken k m hm with hm | ⟨j, hj⟩
    · exact .inl hm
    · exact .inr ⟨j, (hsame j).2.symm ▸ hj⟩

/-- A thread claims the task after the ones that were dequeued. -/
theorem Tasks.claim (ht : Tasks h made executed) {n : Nat} (hclaimed : (h.own i).claimed = none)
    (hmore : h.dequeued ++ [n] <+: h.reserved) :
    Tasks { h.setOwn i { h.own i with claimed := some h.dequeued.length } with
      dequeued := h.dequeued ++ [n] } made executed := by
  have hsame : ∀ j, ((h.setOwn i { h.own i with claimed := some h.dequeued.length }).own j).element =
      (h.own j).element ∧ ((h.setOwn i { h.own i with claimed := some h.dequeued.length }).own
        j).reserved = (h.own j).reserved := by
    intro j
    rw [own_setOwn]
    split
    case isTrue hj => exact hj ▸ ⟨rfl, rfl⟩
    case isFalse => exact ⟨rfl, rfl⟩
  have hclaims : ∀ j k, ((h.setOwn i { h.own i with claimed := some h.dequeued.length }).own
      j).claimed = some k → j = i ∧ k = h.dequeued.length ∨ j ≠ i ∧ (h.own j).claimed = some k := by
    intro j k hk
    rw [own_setOwn] at hk
    split at hk
    case isTrue hj => exact .inl ⟨hj, (Option.some.inj hk).symm⟩
    case isFalse hj => exact .inr ⟨hj, hk⟩
  have hlt : ∀ j k, (h.own j).claimed = some k → k < h.dequeued.length := by
    intro j k hk
    obtain ⟨m, hm, _⟩ := ht.claimed j k hk
    exact (List.getElem?_eq_some_iff.mp hm).1
  have hnew : n ∉ executed := by
    intro hmem
    have hnodup := List.nodup_append.mp (ht.nodup.sublist hmore.sublist)
    exact hnodup.2.2 n (ht.dequeued n hmem) n (List.mem_singleton_self n) rfl
  refine { ht with
    element := ?_, fresh := ?_, distinct := ?_, claimed := ?_, unique := ?_, taken := ?_,
    dequeued := ?_ }
  · exact fun j m hm => ht.element j m ((hsame j).1 ▸ hm)
  · exact fun j m hm hnone => ht.fresh j m ((hsame j).1 ▸ hm) ((hsame j).2 ▸ hnone)
  · exact fun j j' m hm hm' => ht.distinct j j' m ((hsame j).1 ▸ hm) ((hsame j').1 ▸ hm')
  · intro j k hk
    rcases hclaims j k hk with ⟨_, rfl⟩ | ⟨_, hk⟩
    · exact ⟨n, List.getElem?_concat_length, hnew⟩
    · obtain ⟨m, hm, hexecuted⟩ := ht.claimed j k hk
      exact ⟨m, Ring.getElem?_of_prefix (List.prefix_append _ _) hm, hexecuted⟩
  · intro j j' k hk hk'
    rcases hclaims j k hk with ⟨hj, hlast⟩ | ⟨_, hk⟩ <;>
      rcases hclaims j' k hk' with ⟨hj', hlast'⟩ | ⟨_, hk'⟩
    · exact hj.trans hj'.symm
    · exact absurd (hlt j' k hk') (by omega)
    · exact absurd (hlt j k hk) (by omega)
    · exact ht.unique j j' k hk hk'
  · intro k m hm
    by_cases hk : k = h.dequeued.length
    · refine .inr ⟨i, ?_⟩
      rw [hk]
      exact congrArg Queue.Own.claimed (own_setOwn.trans (if_pos rfl))
    · have hm : (h.dequeued ++ [n])[k]? = some m := hm
      have hlt' := (List.getElem?_eq_some_iff.mp hm).1
      rw [List.length_append, List.length_singleton] at hlt'
      rw [List.getElem?_append_left (by omega)] at hm
      rcases ht.taken k m hm with hm | ⟨j, hj⟩
      · exact .inl hm
      · have hne : j ≠ i := by
          rintro rfl
          rw [hclaimed] at hj
          cases hj
        refine .inr ⟨j, ?_⟩
        exact (congrArg Queue.Own.claimed (own_setOwn.trans (if_neg hne))).trans hj
  · exact fun m hm => List.mem_append_left _ (ht.dequeued m hm)

/-- A thread runs the task that it has claimed. -/
theorem Tasks.run (ht : Tasks h made executed) {k n : Nat} (hclaimed : (h.own i).claimed = some k)
    (hn : h.dequeued[k]? = some n) (hnodup : h.dequeued.Nodup) :
    Tasks (h.setOwn i {}) made (n :: executed) := by
  have hlt := (List.getElem?_eq_some_iff.mp hn).1
  have hown : ∀ j, j ≠ i → (h.setOwn i {}).own j = h.own j := fun j hj => own_setOwn.trans (if_neg hj)
  have hself : (h.setOwn i {}).own i = {} := own_setOwn.trans (if_pos rfl)
  have hnot : n ∉ executed := by
    obtain ⟨m, hm, hexecuted⟩ := ht.claimed i k hclaimed
    rw [hn] at hm
    exact Option.some.inj hm ▸ hexecuted
  refine ⟨ht.lt, fun j m hm => ?_, fun j m hm hnone => ?_, fun j j' m hm hm' => ?_, ht.nodup,
    fun j k' hk' => ?_, fun j j' k' hk hk' => ?_, fun k' m hm => ?_,
    List.nodup_cons.mpr ⟨hnot, ht.once⟩, fun m hm => ?_⟩
  · by_cases hj : j = i
    · rw [hj, hself] at hm
      cases hm
    · exact ht.element j m (hown j hj ▸ hm)
  · by_cases hj : j = i
    · rw [hj, hself] at hm
      cases hm
    · exact ht.fresh j m (hown j hj ▸ hm) (hown j hj ▸ hnone)
  · by_cases hj : j = i
    · rw [hj, hself] at hm
      cases hm
    · by_cases hj' : j' = i
      · rw [hj', hself] at hm'
        cases hm'
      · exact ht.distinct j j' m (hown j hj ▸ hm) (hown j' hj' ▸ hm')
  · by_cases hj : j = i
    · rw [hj, hself] at hk'
      cases hk'
    · rw [hown j hj] at hk'
      obtain ⟨m, hm, hexecuted⟩ := ht.claimed j k' hk'
      refine ⟨m, hm, List.not_mem_cons_of_ne_of_not_mem ?_ hexecuted⟩
      rintro rfl
      obtain rfl := (List.getElem?_inj hlt hnodup).mp (hn.trans hm.symm)
      exact hj (ht.unique j i k hk' hclaimed)
  · by_cases hj : j = i
    · rw [hj, hself] at hk
      cases hk
    · by_cases hj' : j' = i
      · rw [hj', hself] at hk'
        cases hk'
      · exact ht.unique j j' k' (hown j hj ▸ hk) (hown j' hj' ▸ hk')
  · rcases ht.taken k' m hm with hm' | ⟨j, hj⟩
    · exact .inl (List.mem_cons_of_mem _ hm')
    · by_cases hji : j = i
      · rw [hji, hclaimed] at hj
        obtain rfl := Option.some.inj hj
        have hm : h.dequeued[k]? = some m := hm
        rw [hn] at hm
        exact .inl (Option.some.inj hm ▸ List.mem_cons_self)
      · exact .inr ⟨j, by rw [hown j hji]; exact hj⟩
  · rcases List.mem_cons.mp hm with rfl | hm
    · exact List.mem_of_getElem? hn
    · exact ht.dequeued m hm

end Tasks

/-! ### The protocol -/

structure Inv (p : Nat) (s : Shared ι) : Prop where
  queue : Queue.Inv p s.queue
  tasks : Tasks s.queue.2 s.made s.executed

structure Rely (p : Nat) (i : ι) (s t : Shared ι) : Prop where
  queue : Queue.Rely p i s.queue t.queue
  stop : s.stop = true → t.stop = true

/-- No `Enqueue` finds the queue full, and `tail_` does not wrap around. -/
def Room (p : Nat) (r : Queue.Locals) (o : Queue.Op Nat) (k : Queue.Shared ι Nat) : Prop :=
  match o with
  | .loadHead => ∀ old, r.oldTail = some old → ¬ Queue.LooksFull p old k
  | .casTail _ _ => k.1.tail + 1 < 2 ^ 64
  | _ => True

def Cond (p : Nat) (_ : ι) (r : Queue.Locals) (o : sig.Op) (_ : Bool) (s : Shared ι) : Prop :=
  match o with
  | .inl o => Room p r o s.queue
  | .inr _ => True

/-- A thread that has nothing in its hands. -/
def Idle (i : ι) (s : Shared ι) : Prop :=
  (s.queue.2.own i).ticket = none ∧ (s.queue.2.own i).claimed = none

/-- A thread that has claimed a task, and not yet run it. -/
def Holds (i : ι) (n : Nat) (h : Queue.History ι Nat) : Prop :=
  ∃ k, (h.own i).claimed = some k ∧ h.dequeued[k]? = some n

def Pre (p : Nat) (i : ι) (r : Queue.Locals) (o : sig.Op) (s : Shared ι) : Prop :=
  match o with
  | .inl o => Queue.Pre p i r o s.queue
  | .inr .makeTask => Idle i s
  | .inr (.run n) => (s.queue.2.own i).ticket = none ∧ Holds i n s.queue.2
  | .inr _ => True

section Keeps

variable {p : Nat} {i : ι} {r : Queue.Locals} {x : Bool} {k : Queue.Shared ι Nat} {s : Shared ι}

theorem reserved_lt (hk : Queue.Inv p k) {o : Queue.Op Nat} (hroom : Room p r o k) :
    (Queue.noted i o x k).2.2.reserved.length + 1 < 2 ^ 64 := by
  have htail := hk.tail
  have hbound := hk.bound
  rw [htail] at hbound
  cases o with
  | casTail old new =>
      have hroom : k.1.tail + 1 < 2 ^ 64 := hroom
      rcases Queue.casTail_cases i old new x k with ⟨_, h⟩ | h
      · rw [h]
        cases (k.2.own i).element with
        | none => simpa using hbound
        | some n =>
            rw [htail] at hroom
            simpa using hroom
      · rw [h]
        exact hbound
  | casHead old new =>
      rcases Queue.casHead_cases i old new x k with ⟨_, h⟩ | h
      · rw [h]
        exact hbound
      · rw [h]
        exact hbound
  | casCommit old new =>
      rcases Queue.casCommit_cases i old new x k with ⟨_, h⟩ | h
      · rw [h]
        exact hbound
      · rw [h]
        exact hbound
  | _ => exact hbound

theorem tasks_noted {made : Nat} {executed : List Nat} (ht : Tasks k.2 made executed)
    (hk : Queue.Inv p k) {o : Queue.Op Nat} (hpre : Queue.Pre p i r o k) :
    Tasks (Queue.noted i o x k).2.2 made executed := by
  cases o with
  | casTail old new =>
      obtain ⟨_, hreserved, helement, _, _⟩ := hpre
      obtain ⟨n, hn⟩ := Option.isSome_iff_exists.mp helement
      rcases Queue.casTail_cases i old new x k with ⟨_, h⟩ | h
      · rw [h, hn]
        exact ht.reserve hn hreserved
      · rw [h]
        exact ht
  | casHead old new =>
      obtain ⟨hclaimed, _, hhead⟩ := hpre
      rcases Queue.casHead_cases i old new x k with ⟨hold, h⟩ | h
      · obtain ⟨_, n, hcopy, hn⟩ := hhead hold
        rw [← hold, hk.head] at hn
        rw [h, hcopy]
        exact ht.claim hclaimed (Ring.concat_prefix hk.fifo hn)
      · rw [h]
        exact ht
  | casCommit old new =>
      rcases Queue.casCommit_cases i old new x k with ⟨_, h⟩ | h
      · rw [h]
        exact ht.setOwn rfl rfl rfl
      · rw [h]
        exact ht
  | read idx => exact ht.setOwn rfl rfl rfl
  | _ => exact ht

omit [DecidableEq ι] in
theorem nodup_dequeued (hs : Inv p s) : s.queue.2.dequeued.Nodup :=
  hs.tasks.nodup.sublist hs.queue.fifo.sublist

/-- To the queue it does not matter which task a thread has. -/
theorem keeps_renew (hs : Inv p s) {o : Queue.Own Nat} (ho : o.ticket = none) : Queue.Inv p (s.queue.1, s.queue.2.setOwn i o) ∧
      ∀ j, j ≠ i → Queue.Rely p j s.queue (s.queue.1, s.queue.2.setOwn i o) :=
  Queue.keeps_of_own hs.queue (fun t ht => by rw [ho] at ht; cases ht) rfl

theorem keeps {o : sig.Op} (hs : Inv p s) (hpre : Pre p i r o s) (hcond : Cond p i r o x s) :
    Inv p (exec i o x s).2 ∧ ∀ j, j ≠ i → Rely p j s (exec i o x s).2 := by
  have hrefl : Inv p s ∧ ∀ j, j ≠ i → Rely p j s s :=
    ⟨hs, fun j _ => ⟨Queue.Rely.refl p j s.queue, fun h => h⟩⟩
  rcases o with o | o
  · obtain ⟨hinv, hrely⟩ := Queue.keeps hs.queue hpre
      (⟨reserved_lt hs.queue hcond, hcond⟩ : Queue.Cond (Room p) i r o x s.queue)
    exact ⟨⟨hinv, tasks_noted (r := r) hs.tasks hs.queue hpre⟩, fun j hj => ⟨hrely j hj, fun h => h⟩⟩
  · cases o with
    | makeTask =>
        obtain ⟨_, hclaimed⟩ := hpre
        have hrenew := keeps_renew (i := i) (o := { element := some s.made }) hs rfl
        refine ⟨⟨hrenew.1, hs.tasks.renew hclaimed (Nat.le_succ _) fun n hn => ?_⟩,
          fun j hj => ⟨hrenew.2 j hj, fun h => h⟩⟩
        rw [← Option.some.inj hn]
        exact ⟨le_refl _, Nat.lt_succ_self _⟩
    | run n =>
        obtain ⟨_, k, hclaimed, hn⟩ := hpre
        have hrenew := keeps_renew (i := i) (o := {}) hs rfl
        exact ⟨⟨hrenew.1, hs.tasks.run hclaimed hn (nodup_dequeued hs)⟩,
          fun j hj => ⟨hrenew.2 j hj, fun h => h⟩⟩
    | exchangeStop =>
        exact ⟨⟨hs.queue, hs.tasks⟩, fun j _ => ⟨Queue.Rely.refl p j s.queue, fun _ => rfl⟩⟩
    | breakAllWait =>
        exact ⟨⟨hs.queue, hs.tasks⟩, fun j _ => ⟨Queue.Rely.refl p j s.queue, fun h => h⟩⟩
    | _ => exact hrefl

end Keeps

variable (ι) in
def protocol (p : Nat) : Protocol sig ι Queue.Locals (Shared ι) Bool exec where
  Inv := Inv p
  Rely := Rely p
  Cond := Cond p
  Pre := Pre p
  Crash := True
  Hang _ _ := True
  refl i s := ⟨Queue.Rely.refl p i s.queue, fun h => h⟩
  trans h h' := ⟨h.queue.trans h'.queue, fun hs => h'.stop (h.stop hs)⟩
  hang_stable h _ := h
  keeps hs hpre hcond := keeps hs hpre hcond

variable (ι) in
/-- The pools keep to the protocol of the queue. -/
theorem lifts (p : Nat) : (Queue.protocol ι Nat p (Room p)).Lifts (protocol ι p) Shared.queue where
  rely h := h.queue
  inv h := h.queue
  pre _ h := h
  cond hs h := ⟨reserved_lt hs.queue h, h⟩
  answer := rfl
  memory := rfl
  crash h := h
  hang h := h

/-! ### What the functions keep to -/

/-- A task that has been given to the queue, and committed. -/
def Stored (n : Nat) (k : Queue.Shared ι Nat) : Prop :=
  ∃ t, k.2.reserved[t]? = some n ∧ t + 1 < k.1.commit

omit [DecidableEq ι] in
theorem Stored.of_rely {p n : Nat} {i : ι} {k l : Queue.Shared ι Nat} (h : Stored n k)
    (hkl : Queue.Rely p i k l) : Stored n l := by
  obtain ⟨t, hn, hcommit⟩ := h
  exact ⟨t, Ring.getElem?_of_prefix hkl.reserved hn, lt_of_lt_of_le hcommit hkl.commit⟩

/-- A thread at rest; a task whose future is valid has been stored, unless the pool has
been shut down. -/
def Rest (i : ι) (_ : Queue.Locals) (a : Answer) (s : Shared ι) : Prop :=
  Idle i s ∧ ∀ n, a = .future n true → s.stop = true ∨ Stored n s.queue

section Functions

variable {p : Nat} {i : ι} {r : Queue.Locals} {s : Shared ι}

omit [DecidableEq ι] in
theorem Idle.of_rely {t : Shared ι} (h : Idle i s) (hst : Rely p i s t) : Idle i t := by
  rw [Idle, hst.queue.own]
  exact h

omit [DecidableEq ι] in
theorem rest_of_rely {a : Answer} {t : Shared ι} (h : Rest i r a s) (hst : Rely p i s t) :
    Rest i r a t := by
  refine ⟨h.1.of_rely hst, fun n hn => ?_⟩
  rcases h.2 n hn with hstop | hstored
  · exact .inl (hst.stop hstop)
  · exact .inr (hstored.of_rely hst.queue)

/-- An operation that changes nothing. -/
theorem quiet_safe {o : Op} {Q : Queue.Locals → Ans o → Shared ι → Prop}
    (hquiet : ∀ x t, (exec i (.inr o) x t).2 = t) (hpre : ∀ t, Pre p i r (.inr o) t)
    (hQ : ∀ x t, Rely p i s t → Inv p t → Q r (exec i (.inr o) x t).1 t) :
    (protocol ι p).Safe i Q (o.get r) s := by
  refine Protocol.safe_ask fun t hst ht => ⟨hpre t, fun x _ => ?_⟩
  rw [hquiet]
  exact hQ x t hst ht

theorem loadStop_safe {Q : Queue.Locals → Bool → Shared ι → Prop}
    (hQ : ∀ t, Rely p i s t → Inv p t → Q r t.stop t) :
    (protocol ι p).Safe i Q (Op.loadStop.get r) s :=
  quiet_safe (fun _ _ => rfl) (fun _ => trivial) fun _ t hst ht => hQ t hst ht

/-- A call of the queue. -/
theorem queue_safe {α : Type} {m : Queue.QueueCode Nat α}
    {Q : Queue.Locals → α → Queue.Shared ι Nat → Prop} {Q' : Queue.Locals → α → Shared ι → Prop}
    (hs : Inv p s) (hm : (Queue.protocol ι Nat p (Room p)).Safe i Q (m r) s.queue)
    (hQ : ∀ r a t, Inv p t → Q r a t.queue → Q' r a t) : (protocol ι p).Safe i Q' (m.lift r) s := by
  have hlift := Protocol.Safe.lift (lifts ι p) (F := fun _ => True) (fun _ _ h _ => h)
    (fun _ _ _ h => h) trivial hm
  exact hlift.mono hs fun r a t ht h => hQ r a t ht h.2

/-- The queue has room: the task is stored. -/
theorem enqueued_safe {left n : Nat} {Q : Queue.Locals → Bool → Shared ι → Prop} (hs : Inv p s)
    (hown : s.queue.2.own i = { element := some n })
    (hQ : ∀ r a t, Inv p t → Idle i t → Stored n t.queue → Q r a t) :
    (protocol ι p).Safe i Q ((Queue.enqueue p left n).lift r) s := by
  refine queue_safe (Q := fun _ _ k => ((k.2.own i).ticket = none ∧ (k.2.own i).claimed = none) ∧
    Stored n k) hs ?_ fun r a t ht h => hQ r a t ht h.1 h.2
  refine Queue.enqueue_safe hown rfl rfl rfl (fun x old l _ hfull hroom => ?_)
    fun x t l hl hn hcommit => ?_
  · exact absurd hfull (hroom old rfl)
  · rw [hl]
    exact ⟨⟨rfl, rfl⟩, t, hn, hcommit⟩

/-- What is dequeued is in the hands of the thread. -/
theorem dequeued_safe {left : Nat} {Q : Queue.Locals → Option Nat → Shared ι → Prop}
    (hs : Inv p s) (hidle : Idle i s) (hnone : ∀ r t, Inv p t → Idle i t → Q r none t)
    (hsome : ∀ r n t, Inv p t → (t.queue.2.own i).ticket = none → Holds i n t.queue.2 →
      Q r (some n) t) :
    (protocol ι p).Safe i Q ((Queue.dequeue p left).lift r) s := by
  refine queue_safe (Q := fun _ a k => (k.2.own i).ticket = none ∧
    (a = none → (k.2.own i).claimed = none) ∧ ∀ n, a = some n → Holds i n k.2) hs ?_ ?_
  · refine Queue.dequeue_safe rfl hidle.1 hidle.2 (fun o l hl hticket hclaimed => ?_)
      fun o m n l hl hticket hclaimed hn => ?_
    · rw [hl]
      exact ⟨hticket, fun _ => hclaimed, fun n h => absurd h.symm (Option.some_ne_none n)⟩
    · rw [hl]
      refine ⟨hticket, fun h => absurd h (Option.some_ne_none n), fun n' h => ⟨m, ?_, ?_⟩⟩
      · rw [hl, hclaimed]
      · rw [← Option.some.inj h, hn]
  · intro r a t ht h
    obtain ⟨hticket, hclaimed, hholds⟩ := h
    cases a with
    | none => exact hnone r t ht ⟨hticket, hclaimed rfl⟩
    | some n => exact hsome r n t ht hticket (hholds n rfl)

theorem forWorkers_safe {f : Nat → PoolCode Unit} {n : Nat}
    {Q : Queue.Locals → Unit → Shared ι → Prop} (hs : Inv p s)
    (hf : ∀ m t {Q : Queue.Locals → Unit → Shared ι → Prop},
      (∀ u, Rely p i t u → Inv p u → Q r () u) → (protocol ι p).Safe i Q (f m r) t)
    (hQ : ∀ t, Rely p i s t → Inv p t → Q r () t) :
    (protocol ι p).Safe i Q (forWorkers f n r) s := by
  induction n generalizing Q with
  | zero => exact hQ s ((protocol ι p).refl i s) hs
  | succ n ih =>
      simp only [forWorkers, Protocol.safe_seq]
      refine ih fun t hst _ => hf n t fun u htu hu => ?_
      exact hQ u ((protocol ι p).trans hst htu) hu

theorem notifyTasks_safe {n : Nat} {Q : Queue.Locals → Unit → Shared ι → Prop} (hs : Inv p s)
    (hQ : ∀ t, Rely p i s t → Inv p t → Q r () t) :
    (protocol ι p).Safe i Q (notifyTasks n r) s :=
  forWorkers_safe hs (fun _ _ _ hQ => quiet_safe (fun _ _ => rfl) (fun _ => trivial) fun _ => hQ) hQ

theorem removeTasks_safe {n : Nat} {Q : Queue.Locals → Unit → Shared ι → Prop} (hs : Inv p s)
    (hQ : ∀ t, Rely p i s t → Inv p t → Q r () t) :
    (protocol ι p).Safe i Q (removeTasks n r) s :=
  forWorkers_safe hs (fun _ _ _ hQ => quiet_safe (fun _ _ => rfl) (fun _ => trivial) fun _ => hQ) hQ

theorem makeTask_safe {Q : Queue.Locals → Nat → Shared ι → Prop} (hidle : Idle i s)
    (hQ : ∀ n t, Inv p t → t.queue.2.own i = { element := some n } → Q r n t) :
    (protocol ι p).Safe i Q (Op.makeTask.get r) s := by
  refine Protocol.safe_ask fun t hst ht => ?_
  have hpre : Pre p i r (.inr .makeTask) t := hidle.of_rely hst
  refine ⟨hpre, fun x hx => hQ t.made _ (keeps (r := r) (x := x) ht hpre hx).1 ?_⟩
  exact Function.update_self ..

theorem run_safe {n : Nat} {Q : Queue.Locals → Unit → Shared ι → Prop}
    (hticket : (s.queue.2.own i).ticket = none) (hholds : Holds i n s.queue.2)
    (hQ : ∀ t, Inv p t → Idle i t → Q r () t) :
    (protocol ι p).Safe i Q ((Op.run n).get r) s := by
  refine Protocol.safe_ask fun t hst ht => ?_
  have hpre : Pre p i r (.inr (.run n)) t := by
    obtain ⟨k, hclaimed, hn⟩ := hholds
    refine ⟨by rw [hst.queue.own]; exact hticket, k, by rw [hst.queue.own]; exact hclaimed, ?_⟩
    exact Ring.getElem?_of_prefix hst.queue.dequeued hn
  refine ⟨hpre, fun x hx => hQ _ (keeps (r := r) (x := x) ht hpre hx).1 ?_⟩
  have hown : (exec i (.inr (.run n)) x t).2.queue.2.own i = {} := Function.update_self ..
  rw [Idle, hown]
  exact ⟨rfl, rfl⟩

/-- Where the queue has room, and the pool has not been shut down, the task is stored. -/
theorem enqueue_safe {kind : Kind} {left : Nat} {Q : Queue.Locals → Nat × Bool → Shared ι → Prop}
    (hidle : Idle i s)
    (hQ : ∀ r n valid t, Inv p t → Idle i t → (valid = true → t.stop = true ∨ Stored n t.queue) →
      Q r (n, valid) t) :
    (protocol ι p).Safe i Q (enqueue p left kind r) s := by
  have hnew : ∀ {n t u}, t.queue.2.own i = { element := some n } → Rely p i t u →
      u.queue.2.own i = { element := some n } := fun hown htu => htu.queue.own.trans hown
  cases kind with
  | taskManager numThreads =>
      simp only [enqueue, Protocol.safe_seq, Protocol.safe_ite, Protocol.safe_pure]
      refine makeTask_safe hidle fun n t _ hown => loadStop_safe fun u htu hu => ?_
      have hown := hnew hown htu
      refine ⟨fun hstop => hQ r n true u hu ?_ fun _ => .inl hstop, fun _ => ?_⟩
      · rw [Idle, hown]
        exact ⟨rfl, rfl⟩
      · refine enqueued_safe hu hown fun r' a v hv hidle hstored => notifyTasks_safe hv ?_
        intro w hvw hw
        exact hQ r' n true w hw (hidle.of_rely hvw) fun _ => .inr (hstored.of_rely hvw.queue)
  | threadPool =>
      simp only [enqueue, Protocol.safe_seq, Protocol.safe_ite, Protocol.safe_pure]
      refine makeTask_safe hidle fun n t _ hown => loadStop_safe fun u htu hu => ?_
      have hown := hnew hown htu
      refine ⟨fun _ => hQ r n false u hu ?_ fun hvalid => absurd hvalid Bool.false_ne_true,
        fun _ => ?_⟩
      · rw [Idle, hown]
        exact ⟨rfl, rfl⟩
      · exact enqueued_safe hu hown fun r' a v hv hidle hstored =>
          hQ r' n true v hv hidle fun _ => .inr hstored

theorem waitDequeue_safe {bound left : Nat} {Q : Queue.Locals → Option Nat → Shared ι → Prop}
    (hidle : Idle i s) (hnone : ∀ r t, Inv p t → Idle i t → Q r none t)
    (hsome : ∀ r n t, Inv p t → (t.queue.2.own i).ticket = none → Holds i n t.queue.2 →
      Q r (some n) t) :
    (protocol ι p).Safe i Q (waitDequeue p bound left r) s := by
  induction left generalizing s r with
  | zero => trivial
  | succ left ih =>
      simp only [waitDequeue, Protocol.safe_seq, Protocol.safe_ite, Protocol.safe_pure]
      refine quiet_safe (fun _ _ => rfl) (fun _ => trivial) fun x t hst ht => ?_
      have hidle := hidle.of_rely hst
      refine ⟨fun _ => hnone r t ht hidle, fun _ => ?_⟩
      refine dequeued_safe ht hidle (fun r' u hu hidle => ?_) fun r' n u hu hticket hholds => ?_
      · refine ⟨fun h => absurd h Bool.false_ne_true, fun _ => ?_⟩
        refine quiet_safe (fun _ _ => rfl) (fun _ => trivial) fun x v huv hv => ?_
        exact ⟨fun _ => ih (hidle.of_rely huv), fun _ => hnone r' v hv (hidle.of_rely huv)⟩
      · exact ⟨fun _ => hsome r' n u hu hticket hholds, fun hne => absurd rfl hne⟩

theorem work_safe {kind : Kind} {left : Nat} {Q : Queue.Locals → Unit → Shared ι → Prop}
    (hidle : Idle i s) (hQ : ∀ r t, Inv p t → Idle i t → Q r () t) :
    (protocol ι p).Safe i Q (work p left kind r) s := by
  cases kind with
  | taskManager numThreads =>
      simp only [work, Protocol.safe_seq, Protocol.safe_ite, Protocol.safe_pure, Protocol.safe_deref]
      refine loadStop_safe fun t hst ht => ?_
      have hidle := hidle.of_rely hst
      refine ⟨fun _ => hQ r t ht hidle, fun _ => ?_⟩
      refine dequeued_safe ht hidle (fun r' u hu hidle => ?_) fun r' n u hu hticket hholds => ?_
      · refine ⟨fun _ => ?_, fun hne => absurd rfl hne⟩
        exact quiet_safe (fun _ _ => rfl) (fun _ => trivial) fun _ v huv hv =>
          hQ r' v hv (hidle.of_rely huv)
      · refine ⟨fun h => absurd h Bool.false_ne_true, fun _ => ⟨fun m hm => ?_, fun _ => trivial⟩⟩
        obtain rfl := Option.some.inj hm
        exact run_safe hticket hholds fun v hv hidle => hQ r' v hv hidle
  | threadPool =>
      simp only [work, Protocol.safe_seq, Protocol.safe_ite, Protocol.safe_pure, Protocol.safe_deref]
      refine loadStop_safe fun t hst ht => ?_
      have hidle := hidle.of_rely hst
      refine ⟨fun _ => hQ r t ht hidle, fun _ => ?_⟩
      refine waitDequeue_safe hidle (fun r' u hu hidle => ?_) fun r' n u hu hticket hholds => ?_
      · exact ⟨fun h => absurd h Bool.false_ne_true, fun _ => hQ r' u hu hidle⟩
      · refine ⟨fun _ => ⟨fun m hm => ?_, fun _ => trivial⟩, fun hne => absurd rfl hne⟩
        obtain rfl := Option.some.inj hm
        exact run_safe hticket hholds fun v hv hidle => hQ r' v hv hidle

theorem shutdown_safe {kind : Kind} {Q : Queue.Locals → Unit → Shared ι → Prop} (hidle : Idle i s)
    (hQ : ∀ t, Inv p t → Idle i t → Q r () t) :
    (protocol ι p).Safe i Q (shutdown kind r) s := by
  have hexchange : ∀ {Q : Queue.Locals → Bool → Shared ι → Prop},
      (∀ x t, Inv p t → Idle i t → Q r x t) →
        (protocol ι p).Safe i Q (Op.exchangeStop.get r) s := by
    intro Q hQ
    refine Protocol.safe_ask fun t hst ht => ⟨trivial, fun x _ => ?_⟩
    have hidle : Idle i t := hidle.of_rely hst
    exact hQ t.stop _ ⟨ht.queue, ht.tasks⟩ hidle
  cases kind with
  | taskManager numThreads =>
      simp only [shutdown, Protocol.safe_seq, Protocol.safe_ite, Protocol.safe_pure]
      refine hexchange fun x t ht hidle => ⟨fun _ => hQ t ht hidle, fun _ => ?_⟩
      exact removeTasks_safe ht fun u htu hu => hQ u hu (hidle.of_rely htu)
  | threadPool =>
      simp only [shutdown, Protocol.safe_seq, Protocol.safe_ite, Protocol.safe_pure]
      refine hexchange fun x t ht hidle => ⟨fun _ => hQ t ht hidle, fun _ => ?_⟩
      refine Protocol.safe_ask fun u htu hu => ⟨trivial, fun _ _ => ?_⟩
      have hidle : Idle i u := hidle.of_rely htu
      exact hQ _ ⟨hu.queue, hu.tasks⟩ hidle

theorem body_safe {kind : Kind} {c : Call} (hidle : Idle i s) :
    (protocol ι p).Safe i (Rest i) (c.body p kind r) s := by
  cases c with
  | enqueue left =>
      simp only [Call.body, Protocol.safe_seq, Protocol.safe_pure]
      refine enqueue_safe hidle fun r' n valid t ht hidle hstored => ⟨hidle, fun m hm => ?_⟩
      obtain ⟨rfl, rfl⟩ := Answer.future.inj hm
      exact hstored rfl
  | work left =>
      simp only [Call.body, Protocol.safe_seq, Protocol.safe_pure]
      exact work_safe hidle fun r' t ht hidle => ⟨hidle, fun n h => by cases h⟩
  | shutdown =>
      simp only [Call.body, Protocol.safe_seq, Protocol.safe_pure]
      exact shutdown_safe hidle fun t ht hidle => ⟨hidle, fun n h => by cases h⟩

end Functions

/-! ### Every run -/

/-- The condition on the steps of a run. -/
def Roomy (size : BitVec 64) (t : State ι) : Step ι → Prop
  | .call _ _ => True
  | .act i _ =>
      match t.threads i with
      | .call r (.inl o) _ => Room (Queue.poolSize size) r o t.shared.queue
      | _ => True

theorem keeps_enter {p : Nat} {i : ι} {c : Call} {s : Shared ι} (hs : Inv p s) (hidle : Idle i s) :
    Inv p (enter i c s) ∧ ∀ j, j ≠ i → Rely p j s (enter i c s) := by
  have hrenew := keeps_renew (i := i) (o := {}) hs rfl
  refine ⟨⟨hrenew.1, hs.tasks.renew hidle.2 (Nat.le_refl _) fun n hn => by cases hn⟩,
    fun j hj => ⟨hrenew.2 j hj, fun h => h⟩⟩

theorem idle_enter {i : ι} {c : Call} {s : Shared ι} : Idle i (enter i c s) := by
  have hown : (enter i c s).queue.2.own i = {} := Function.update_self ..
  rw [Idle, hown]
  exact ⟨rfl, rfl⟩

theorem holds_start (p : Nat) : (protocol ι p).Holds Rest (start ι) where
  inv :=
    { queue := (Queue.holds_start p (Room p) 0).inv
      tasks :=
        { lt := nofun
          element := nofun
          fresh := nofun
          distinct := nofun
          nodup := List.nodup_nil
          claimed := nofun
          unique := nofun
          taken := nofun
          once := List.nodup_nil
          dequeued := nofun } }
  safe _ := ⟨⟨rfl, rfl⟩, nofun⟩

section Run

variable {kind : Kind} {size : BitVec 64} {n : Nat}

theorem meets_of_roomy {t : State ι} {e : Step ι} (he : Roomy size t e) :
    (protocol ι (Queue.poolSize size)).Meets (fun _ _ _ _ => True) t e := by
  cases e with
  | call i c => exact fun _ _ _ => trivial
  | act i x =>
      intro r o k hi
      cases o with
      | inl o =>
          simp only [Roomy, hi] at he
          exact he
      | inr o => trivial

variable (kind) in
theorem holds_step {t : State ι} {e : Step ι}
    (ht : (protocol ι (Queue.poolSize size)).Holds Rest t) (he : Roomy size t e) :
    (protocol ι (Queue.poolSize size)).Holds Rest (step kind size t e) := by
  refine Protocol.holds_step ?_ ?_ ?_ t e ht (meets_of_roomy he)
  · exact fun i r a s u h hsu _ => rest_of_rely h hsu
  · exact fun i c r a s hs h _ => keeps_enter hs h.1
  · exact fun i c r a s _ _ _ => body_safe idle_enter

/-- What is stored is stored for good. -/
theorem stored_noted {p : Nat} {i : ι} {r : Queue.Locals} {o : Queue.Op Nat} {x : Bool}
    {k : Queue.Shared ι Nat} (hk : Queue.Inv p k) (hpre : Queue.Pre p i r o k) (h : Stored n k) :
    Stored n (Queue.noted i o x k).2 := by
  obtain ⟨t, hn, hcommit⟩ := h
  cases o with
  | casTail old new =>
      rcases Queue.casTail_cases i old new x k with ⟨_, h⟩ | h
      · rw [h]
        exact ⟨t, Ring.getElem?_of_prefix (List.prefix_append _ _) hn, hcommit⟩
      · rw [h]
        exact ⟨t, hn, hcommit⟩
  | casCommit old new =>
      obtain ⟨hticket, rfl, _⟩ := hpre
      rcases Queue.casCommit_cases i old (plusOne old) x k with ⟨rfl, h⟩ | h
      · have hlt := (hk.ticket i _ hticket).2
        rw [h, plusOne_of_lt (lt_of_le_of_lt (Nat.succ_le_of_lt hlt) hk.bound)]
        exact ⟨t, hn, hcommit.trans (Nat.lt_succ_self _)⟩
      · rw [h]
        exact ⟨t, hn, hcommit⟩
  | casHead old new =>
      rcases Queue.casHead_cases i old new x k with ⟨_, h⟩ | h
      · rw [h]
        exact ⟨t, hn, hcommit⟩
      · rw [h]
        exact ⟨t, hn, hcommit⟩
  | _ => exact ⟨t, hn, hcommit⟩

theorem stored_step {t : State ι} {e : Step ι}
    (ht : (protocol ι (Queue.poolSize size)).Holds Rest t)
    (h : t.shared.stop = true ∨ Stored n t.shared.queue) :
    (step kind size t e).shared.stop = true ∨ Stored n (step kind size t e).shared.queue := by
  cases e with
  | call i c =>
      cases hi : t.threads i with
      | done r a =>
          have henter : (enter i c t.shared).stop = true ∨ Stored n (enter i c t.shared).queue := h
          simpa [step, Thread.step, hi] using henter
      | _ => simpa [step, Thread.step, hi] using h
  | act i x =>
      cases hi : t.threads i with
      | call r o k =>
          have hpre := ht.pre hi
          simp only [step, Thread.step, hi]
          rcases o with o | o
          · exact h.imp id fun h => stored_noted (r := r) ht.inv.queue hpre h
          · cases o with
            | exchangeStop => exact .inl rfl
            | _ => exact h
      | _ => simpa [step, Thread.step, hi] using h

end Run

/-- A task in a slot of the queue between the head and what is committed. -/
def Queued (p n : Nat) (q : Queue.BoundedQueue Nat) : Prop :=
  ∃ m, q.head < m ∧ m < q.commit ∧ q.pool (m % p) = n

/-- A task is in the queue, one thread has it, or it has been run once. -/
def Accounted (p n : Nat) (s : Shared ι) : Prop :=
  Queued p n s.queue.1 ∧ (∀ i, ¬ Holds i n s.queue.2) ∧ n ∉ s.executed ∨
    ¬ Queued p n s.queue.1 ∧ (∃! i, Holds i n s.queue.2) ∧ n ∉ s.executed ∨
    ¬ Queued p n s.queue.1 ∧ (∀ i, ¬ Holds i n s.queue.2) ∧ s.executed.count n = 1

section Accounted

variable {p n t : Nat} {s : Shared ι}

omit [DecidableEq ι] in
/-- A task has one place among those that were reserved. -/
theorem place_eq (hs : Inv p s) (hn : s.queue.2.reserved[t]? = some n) {k : Nat}
    (hk : s.queue.2.reserved[k]? = some n) : k = t :=
  (List.getElem?_inj (List.getElem?_eq_some_iff.mp hk).1 hs.tasks.nodup).mp (hk.trans hn.symm)

omit [DecidableEq ι] in
theorem queued_iff (hs : Inv p s) (hn : s.queue.2.reserved[t]? = some n)
    (hcommit : t + 1 < s.queue.1.commit) : Queued p n s.queue.1 ↔ s.queue.2.dequeued.length ≤ t := by
  have hhead := hs.queue.head
  constructor
  · intro h
    obtain ⟨m, hm, hm', hpool⟩ := h
    have hslot := hs.queue.slots m hm hm'
    rw [hpool] at hslot
    have := place_eq hs hn hslot
    omega
  · intro hle
    refine ⟨t + 1, by omega, hcommit, ?_⟩
    have hslot := hs.queue.slots (t + 1) (by omega) hcommit
    exact Option.some.inj (hslot.symm.trans hn)

omit [DecidableEq ι] in
theorem holds_iff (hs : Inv p s) (hn : s.queue.2.reserved[t]? = some n) (i : ι) :
    Holds i n s.queue.2 ↔ (s.queue.2.own i).claimed = some t := by
  constructor
  · intro h
    obtain ⟨k, hclaimed, hk⟩ := h
    rw [hclaimed, place_eq hs hn (Ring.getElem?_of_prefix hs.queue.fifo hk)]
  · intro hclaimed
    obtain ⟨m, hm, _⟩ := hs.tasks.claimed i t hclaimed
    have hreserved := Ring.getElem?_of_prefix hs.queue.fifo hm
    exact ⟨t, hclaimed, hm.trans (hreserved.symm.trans hn)⟩

omit [DecidableEq ι] in
theorem accounted_of_stored (hs : Inv p s) (h : Stored n s.queue) : Accounted p n s := by
  obtain ⟨t, hn, hcommit⟩ := h
  have hqueued := queued_iff hs hn hcommit
  have hholds := holds_iff hs hn
  rcases Nat.lt_or_ge t s.queue.2.dequeued.length with hlt | hle
  · -- it has been dequeued
    have hnot : ¬ Queued p n s.queue.1 := fun h => Nat.not_lt.mpr (hqueued.mp h) hlt
    have hdequeued : s.queue.2.dequeued[t]? = some n := by
      have hget := Ring.getElem?_of_prefix hs.queue.fifo (List.getElem?_eq_getElem hlt)
      rw [List.getElem?_eq_getElem hlt]
      exact hget.symm.trans hn
    have hfree : ∀ i, Holds i n s.queue.2 → n ∉ s.executed := by
      intro i hi
      obtain ⟨m, hm, hexecuted⟩ := hs.tasks.claimed i t ((hholds i).mp hi)
      rw [hdequeued] at hm
      exact Option.some.inj hm ▸ hexecuted
    rcases hs.tasks.taken t n hdequeued with hexecuted | ⟨i, hi⟩
    · exact .inr (.inr ⟨hnot, fun i hi => hfree i hi hexecuted,
        List.count_eq_one_of_mem hs.tasks.once hexecuted⟩)
    · refine .inr (.inl ⟨hnot, ⟨i, (hholds i).mpr hi, fun j hj => ?_⟩, hfree i ((hholds i).mpr hi)⟩)
      exact hs.tasks.unique j i t ((hholds j).mp hj) hi
  · -- it has not
    have hnot : ∀ k : Nat, s.queue.2.dequeued[k]? ≠ some n := by
      intro k hk
      have hlt := (List.getElem?_eq_some_iff.mp hk).1
      have := place_eq hs hn (Ring.getElem?_of_prefix hs.queue.fifo hk)
      omega
    refine .inl ⟨hqueued.mpr hle, fun i hi => ?_, fun hexecuted => ?_⟩
    · obtain ⟨k, _, hk⟩ := hi
      exact hnot k hk
    · obtain ⟨k, hk⟩ := List.getElem?_of_mem (hs.tasks.dequeued n hexecuted)
      exact hnot k hk

end Accounted

theorem accounted {kind : Kind} {size : BitVec 64} {es es' : List (Step ι)} {i : ι}
    {r : Queue.Locals} {n : Nat}
    (hes : Run.Along (step kind size) (Roomy size) (start ι) (es ++ es'))
    (hn : (Run.exec (step kind size) (start ι) es).threads i = .done r (.future n true))
    (hstop : (Run.exec (step kind size) (start ι) (es ++ es')).shared.stop = false) :
    Accounted (Queue.poolSize size) n (Run.exec (step kind size) (start ι) (es ++ es')).shared := by
  obtain ⟨hes, hes'⟩ := Run.along_append.mp hes
  have hholds := Run.invariant (I := (protocol ι (Queue.poolSize size)).Holds Rest)
    (fun t e ht he => holds_step kind ht he) (holds_start _) hes _
    (Run.exec_mem_states _ _ _)
  have hend := Run.invariant
    (I := fun t => (protocol ι (Queue.poolSize size)).Holds Rest t ∧
      (t.shared.stop = true ∨ Stored n t.shared.queue))
    (fun t e ht he => ⟨holds_step kind ht.1 he, stored_step ht.1 ht.2⟩)
    ⟨hholds, (hholds.rest hn).2 n rfl⟩ hes' _ (Run.exec_mem_states _ _ _)
  rw [← Run.exec_append] at hend
  rcases hend.2 with hstopped | hstored
  · rw [hstop] at hstopped
    cases hstopped
  · exact accounted_of_stored hend.1.inv hstored

/-- A call of `Enqueue` that nothing interrupts. -/
def giving (i : Nat) : List (Step Nat) := .call i (.enqueue 1) :: List.replicate 8 (.act i false)

/-- A worker that takes a task, and has not yet run it. -/
def taking (i : Nat) : List (Step Nat) := .call i (.work 1) :: List.replicate 6 (.act i false)

theorem accounted_taking :
    Accounted (Queue.poolSize 1) 0 (Run.exec (step .threadPool 1) (start Nat) (giving 0 ++ taking 1)).shared := by
  refine accounted (i := 0) (r := {}) ?_ rfl rfl
  have hfull : ¬ Queue.getIndex 3 2 = Queue.getIndex 3 0 := by decide
  have hroom : ∀ old, (some 1 : Option Nat) = some old →
      ¬ Queue.LooksFull 3 old (Run.exec (step .threadPool 1) (start Nat)
        (.call 0 (.enqueue 1) :: List.replicate 3 (.act 0 false))).shared.queue := by
    intro old hold
    exact Option.some.inj hold ▸ hfull
  have htail : (1 : Nat) + 1 < 2 ^ 64 := by decide
  exact ⟨trivial, trivial, trivial, trivial, hroom, htail, trivial, trivial, trivial, trivial,
    trivial, trivial, fun old hold => absurd hold.symm (Option.some_ne_none old), trivial, trivial,
    trivial, trivial⟩

/-- A pool for one task is given a second one, which it drops. -/
theorem not_accounted_of_full :
    ¬ ∀ (kind : Kind) (size : BitVec 64) (es es' : List (Step Nat)) (i : Nat) (r : Queue.Locals)
      (n : Nat), (Run.exec (step kind size) (start Nat) es).threads i = .done r (.future n true) →
        (Run.exec (step kind size) (start Nat) (es ++ es')).shared.stop = false →
          Accounted (Queue.poolSize size) n
            (Run.exec (step kind size) (start Nat) (es ++ es')).shared := by
  intro h
  rcases h .threadPool 1 (giving 0 ++ giving 0) [] 0 {} 1 rfl rfl with
    ⟨⟨m, hm, hm', hpool⟩, _⟩ | ⟨_, ⟨_, ⟨k, _, hk⟩, _⟩, _⟩ | ⟨_, _, hcount⟩
  · have hm : 0 < m := hm
    have hm' : m < 2 := hm'
    obtain rfl : m = 1 := by omega
    exact absurd (show (0 : Nat) = 1 from hpool) (by decide)
  · have hk : ([] : List Nat)[k]? = some 1 := hk
    cases hk
  · exact absurd (show (0 : Nat) = 1 from hcount) (by decide)

end Pools
end Cmw
