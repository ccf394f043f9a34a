import Cmw.Scheduler.Turns

/-!
# The workers of the TaskManager

task/task_manager.h and task/task_manager.cpp, before `Shutdown`.  A worker is a routine: it
takes tasks from the queue, and where it finds none it hangs up, which sets DATA_WAIT.
`Enqueue` stores a task, and then announces it to each of the workers.  The queue stores and
returns a task in one step here, and its result is not looked at by `Enqueue`.

A worker looks first, and announces DATA_WAIT afterwards.  An `Enqueue` that comes between
the two sees READY, and does not clear the flag.
-/

namespace Cmw
namespace Workers

open Library
open Library.Thread
open Scheduler

inductive Op (τ : Type)
  /-- `task_queue_->Enqueue` -/
  | push (task : τ)
  /-- `task_queue_->Dequeue` of a worker -/
  | pop (w : Nat)
  /-- `task()` -/
  | run (task : τ)

@[reducible] def Ans {τ : Type} : Op τ → Type
  | .push _ => Bool
  | .pop _ => Option τ
  | .run _ => Unit

@[reducible] def sig (τ : Type) : Sig := (Scheduler.sig Nat).sum { Op := Op τ, Ans }

abbrev WorkerCode (τ α : Type) := Code (sig τ) Unit α

open Code (ask deref hang)

def Op.get {τ : Type} (o : Op τ) : WorkerCode τ (Ans o) := ask (S := sig τ) (.inr o)

section Code

variable {τ : Type}

/-- `NotifyTask` for each of the workers -/
def notifyTasks : Nat → WorkerCode τ Unit
  | 0 => pure ()
  | n + 1 => do
      notifyTasks n
      let _ ← (notifyProcessor n).lift

def enqueue (numThreads : Nat) (task : τ) : WorkerCode τ Unit := do
  let _ ← (Op.push task).get
  notifyTasks numThreads

/-- A worker from where it was suspended to where it hangs up. -/
def work (w : Nat) : Nat → WorkerCode τ Unit
  | 0 => hang
  | left + 1 => do
      let task ← (Op.pop w).get
      if task.isNone then (Scheduler.Op.setState w .dataWait).get.lift
      else do
        let task ← deref task
        (Op.run task).get
        work w left

end Code

inductive Call (τ : Type)
  | enqueue (task : τ)
  /-- a processor comes to a worker, which runs no more than `left` tasks -/
  | turn (w left : Nat)

def Call.body {τ : Type} (numThreads : Nat) : Call τ → WorkerCode τ Unit
  | enqueue task => Workers.enqueue numThreads task
  | turn w left => Scheduler.turn w (work w left)

/-- The memory, and what the threads do. -/
structure Shared (ι τ : Type) where
  tasks : Memory ι Nat
  queue : List τ := []
  /-- a thread was last called to enqueue a task -/
  enqueuing : ι → Bool := fun _ => false
  /-- it has stored a task, and not yet reached a worker with it -/
  unheard : ι → Bool := fun _ => false

section Exec

variable {ι τ : Type} [DecidableEq ι] (numThreads size : Nat)

/-- The operation reaches a worker: it sees that the worker has yet to look for tasks, or
clears its flag. -/
def reaches : (o : Scheduler.Op Nat) → Scheduler.Ans o → Memory ι Nat → Bool
  | .state w, state, m => decide (w < numThreads) && state != .dataWait && m.2.due w
  | .setUpdateFlag w, _, _ => decide (w < numThreads)
  | _, _, _ => false

def exec (i : ι) : (o : (sig τ).Op) → Bool → Shared ι τ → (sig τ).Ans o × Shared ι τ
  | .inl o, x, s =>
      let r := noted i o x s.tasks
      let t := { s with tasks := r.2 }
      (r.1, if reaches numThreads o r.1 s.tasks then
        { t with unheard := Function.update t.unheard i false } else t)
  | .inr (.push task), _, s =>
      if s.queue.length < size then
        (true, { s with
          queue := s.queue ++ [task]
          unheard := Function.update s.unheard i true })
      else (false, s)
  | .inr (.pop w), _, s =>
      match s.queue with
      | [] => (none, { s with
          tasks := (s.tasks.1, { s.tasks.2 with due := Function.update s.tasks.2.due w false }) })
      | task :: queue => (some task, { s with queue })
  | .inr (.run _), _, s => ((), s)

def enter (i : ι) (c : Call τ) (s : Shared ι τ) : Shared ι τ :=
  { s with
    enqueuing := Function.update s.enqueuing i (match c with
      | .enqueue _ => true
      | .turn _ _ => false) }

abbrev State (ι τ : Type) := Config (sig τ) ι Unit Unit (Shared ι τ)

abbrev Step (ι τ : Type) := Event ι (Call τ) Bool

def step : State ι τ → Step ι τ → State ι τ :=
  Thread.step (exec numThreads size) enter (Call.body numThreads)

/-- The constructor has created the workers. -/
def registry : Registry Nat where
  idCr w := decide (w < numThreads)
  crGroup w := decide (w < numThreads)

omit [DecidableEq ι] in
def start (ι τ : Type) : State ι τ :=
  Config.start (fun _ => ()) () { tasks := (registry numThreads, {}) }

end Exec

/-! ### The protocol -/

variable {ι τ : Type} [DecidableEq ι]

/-- A task is in the queue, and a thread is on the way to reach a worker with one, or a
worker will look for tasks. -/
def Heard (n : Nat) (s : Shared ι τ) : Prop :=
  s.queue = [] ∨ (∃ i, s.unheard i = true) ∨ ∃ w, w < n ∧ Awake w s.tasks

structure Inv (n : Nat) (s : Shared ι τ) : Prop where
  tasks : Scheduler.Inv s.tasks
  ids : ∀ w, w < n → s.tasks.1.idCr w = true
  enqueuing : ∀ i, s.unheard i = true → s.enqueuing i = true
  heard : Heard n s

structure Rely (i : ι) (s t : Shared ι τ) : Prop where
  tasks : Scheduler.Rely i s.tasks t.tasks
  enqueuing : t.enqueuing i = s.enqueuing i
  unheard : t.unheard i = s.unheard i

/-- An `Enqueue` that has stored a task reaches a worker with it. -/
def Cond (n size : Nat) (i : ι) (o : (sig τ).Op) (s : Shared ι τ) : Prop :=
  match o with
  | .inl (.notifyGroup w) => w + 1 = n → s.unheard i = false
  | .inr (.push _) => n = 0 → size ≤ s.queue.length
  | _ => True

def Pre (i : ι) (o : (sig τ).Op) (s : Shared ι τ) : Prop :=
  match o with
  | .inl o => Scheduler.Pre i o s.tasks
  | .inr (.push _) => s.enqueuing i = true
  | .inr (.pop w) => Held i w .ready true s.tasks
  | .inr (.run _) => True

section Keeps

variable {n size : Nat} {i : ι} {s : Shared ι τ}

omit [DecidableEq ι] in
theorem Rely.refl (i : ι) (s : Shared ι τ) : Rely i s s := ⟨.refl i _, rfl, rfl⟩

/-- The operations of the routines. -/
theorem keeps_task {o : Scheduler.Op Nat} {x : Bool} (hs : Inv n s)
    (hpre : Scheduler.Pre i o s.tasks) :
    Inv n (exec n size i (.inl o) x s).2 ∧
      ∀ j, j ≠ i → Rely j s (exec n size i (.inl o) x s).2 := by
  obtain ⟨htasks, hrely⟩ := Scheduler.keeps (x := x) hs.tasks hpre
  have hids : ∀ w, w < n → (noted i o x s.tasks).2.1.idCr w = true := fun w hw =>
    idCr_noted (hs.ids w hw) o x
  simp only [exec]
  split
  case isFalse =>
    refine ⟨⟨htasks, hids, hs.enqueuing, ?_⟩, fun j hj => ⟨hrely j hj, rfl, rfl⟩⟩
    refine hs.heard.imp id fun h => h.imp id fun h => ?_
    obtain ⟨w, hw, hawake⟩ := h
    exact ⟨w, hw, hawake.noted o x⟩
  case isTrue hreaches =>
    refine ⟨⟨htasks, hids, fun j hj => ?_, .inr (.inr ?_)⟩, fun j hj => ⟨hrely j hj, rfl,
      Function.update_of_ne hj _ _⟩⟩
    · have hj : Function.update s.unheard i false j = true := hj
      rw [Function.update_apply] at hj
      split at hj
      · cases hj
      · exact hs.enqueuing j hj
    · cases o with
      | state w =>
          simp only [reaches, Bool.and_eq_true, decide_eq_true_eq] at hreaches
          exact ⟨w, hreaches.1.1, .inr hreaches.2⟩
      | setUpdateFlag w => exact ⟨w, of_decide_eq_true hreaches, awake_setUpdateFlag⟩
      | _ => cases hreaches

/-- A worker finds no task: there is none. -/
theorem keeps_pop {w : Nat} {x : Bool} (hs : Inv n s) (hpre : Held i w .ready true s.tasks) :
    Inv n (exec n size i (.inr (.pop w)) x s).2 ∧
      ∀ j, j ≠ i → Rely j s (exec n size i (.inr (.pop w)) x s).2 := by
  obtain ⟨hw, _, _⟩ := hpre
  simp only [exec]
  cases hqueue : s.queue with
  | cons task queue =>
      refine ⟨⟨hs.tasks, hs.ids, hs.enqueuing, ?_⟩, fun j _ => ⟨.refl j _, rfl, rfl⟩⟩
      refine .inr (hs.heard.resolve_left ?_)
      rw [hqueue]
      exact List.cons_ne_nil _ _
  | nil =>
      have hlocked := hs.tasks.locked i w hw
      have hdue : ∀ v, v ≠ w → Function.update s.tasks.2.due w false v = s.tasks.2.due v :=
        fun v hv => Function.update_of_ne hv _ _
      refine ⟨⟨⟨hs.tasks.locked, hs.tasks.unique, hs.tasks.state, fun v hlock => ?_⟩, hs.ids,
        hs.enqueuing, .inl rfl⟩, fun j hj => ⟨⟨fun _ h => h, rfl, fun _ _ => rfl, fun v hv => ?_⟩,
        rfl, rfl⟩⟩
      · have hvw : v ≠ w := by
          rintro rfl
          exact absurd (hlock.symm.trans hlocked) Bool.false_ne_true
        exact (congrArg (· = true) (hdue v hvw)).to_iff.trans (hs.tasks.settled v hlock)
      · exact hdue v (ne_of_holds hs.tasks hw hj hv)

theorem keeps {o : (sig τ).Op} {x : Bool} (hs : Inv n s) (hpre : Pre i o s) :
    Inv n (exec n size i o x s).2 ∧ ∀ j, j ≠ i → Rely j s (exec n size i o x s).2 := by
  rcases o with o | o
  · exact keeps_task hs hpre
  · cases o with
    | push task =>
        simp only [exec]
        split
        case isTrue =>
          refine ⟨⟨hs.tasks, hs.ids, fun j hj => ?_, .inr (.inl ⟨i, Function.update_self ..⟩)⟩,
            fun j hj => ⟨.refl j _, rfl, Function.update_of_ne hj _ _⟩⟩
          have hj : Function.update s.unheard i true j = true := hj
          rw [Function.update_apply] at hj
          split at hj
          case isTrue hji => exact hji ▸ hpre
          case isFalse => exact hs.enqueuing j hj
        case isFalse => exact ⟨hs, fun j _ => .refl j s⟩
    | pop w => exact keeps_pop hs hpre
    | run task => exact ⟨hs, fun j _ => .refl j s⟩

end Keeps

variable (ι τ) in
def protocol (n size : Nat) : Protocol (sig τ) ι Unit (Shared ι τ) Bool (exec n size) where
  Inv := Inv n
  Rely := Rely
  Cond i _ o _ s := Cond n size i o s
  Pre i _ o s := Pre i o s
  Crash := False
  Hang _ _ := True
  refl := Rely.refl
  trans h h' := ⟨h.tasks.trans h'.tasks, h'.enqueuing.trans h.enqueuing, h'.unheard.trans h.unheard⟩
  hang_stable h _ := h
  keeps hs hpre _ := keeps hs hpre

variable (ι τ) in
theorem lifts (n size : Nat) :
    (Scheduler.protocol ι Nat).Lifts (protocol ι τ n size) Shared.tasks where
  rely h := h.tasks
  inv h := h.tasks
  pre _ h := h
  cond _ _ := trivial
  answer := rfl
  memory {i o x s} := by
    simp only [exec]
    split <;> rfl
  crash h := h
  hang h := h

/-! ### What the functions keep to -/

section Functions

variable {n size : Nat} {i : ι} {r : Unit} {s : Shared ι τ}

theorem task_safe {o : Scheduler.Op Nat} {Q : Unit → Scheduler.Ans o → Shared ι τ → Prop}
    (hpre : ∀ t, Rely i s t → Scheduler.Pre i o t.tasks)
    (hQ : ∀ x t, Rely i s t → Inv n t → Cond n size i (.inl o : (sig τ).Op) t →
      Q r (noted i o x t.tasks).1 (exec n size i (.inl o) x t).2) :
    (protocol ι τ n size).Safe i Q (o.get.lift r) s :=
  Protocol.safe_ask (S := sig τ) (o := .inl o) fun t hst ht =>
    ⟨hpre t hst, fun x hcond => hQ x t hst ht hcond⟩

theorem tasks_exec (n size : Nat) (i : ι) (o : Scheduler.Op Nat) (x : Bool) (s : Shared ι τ) :
    (exec n size i (.inl o) x s).2.tasks = (noted i o x s.tasks).2 :=
  (lifts ι τ n size).memory

theorem unheard_exec {o : Scheduler.Op Nat} {x : Bool} (h : s.unheard i = false) :
    (exec n size i (.inl o) x s).2.unheard i = false := by
  simp only [exec]
  split
  case isTrue => exact Function.update_self ..
  case isFalse => exact h

/-- An operation of a thread that holds no routine. -/
theorem quiet_safe {o : Scheduler.Op Nat} {Q : Unit → Scheduler.Ans o → Shared ι τ → Prop}
    (hfree : s.tasks.2.holds i = none) (hpre : ∀ m, Scheduler.Pre i o m)
    (hholds : ∀ x m, (noted i o x m).2.2.holds = m.2.holds)
    (hQ : ∀ x t, t.tasks.2.holds i = none → Q r x t) :
    (protocol ι τ n size).Safe i Q (o.get.lift r) s := by
  refine task_safe (fun t _ => hpre t.tasks) fun x t hst _ _ => hQ _ _ ?_
  rw [tasks_exec, hholds]
  exact hst.tasks.holds.trans hfree

/-- The last worker is notified, and with it one that has been reached. -/
theorem notifyProcessor_safe {w : Nat} {Q : Unit → Bool → Shared ι τ → Prop} (hw : w < n)
    (hfree : s.tasks.2.holds i = none)
    (hQ : ∀ t, t.tasks.2.holds i = none → (w + 1 = n → t.unheard i = false) → Q r true t) :
    (protocol ι τ n size).Safe i Q ((notifyProcessor w).lift r) s := by
  simp only [notifyProcessor, isWaiting, Code.lift_seq, Code.lift_ite, Code.lift_pure,
    Protocol.safe_seq, Protocol.safe_ite, Protocol.safe_pure]
  have hend : ∀ t, t.tasks.2.holds i = none → (protocol ι τ n size).Safe i
      (fun x _ t => Q x true t) ((Scheduler.Op.notifyGroup w).get.lift r) t := by
    intro t hfree
    refine task_safe (fun _ _ => trivial) fun x u htu _ hcond => hQ _ ?_ fun hlast => ?_
    · exact htu.tasks.holds.trans hfree
    · exact unheard_exec (hcond hlast)
  have hclear : ∀ t, t.tasks.2.holds i = none → (protocol ι τ n size).Safe i
      (fun x _ t => (protocol ι τ n size).Safe i (fun x _ t => Q x true t)
        ((Scheduler.Op.notifyGroup w).get.lift x) t)
      ((Scheduler.Op.setUpdateFlag w).get.lift r) t := fun t hfree =>
    quiet_safe hfree (fun _ => trivial) (fun _ _ => rfl) fun _ u hu => hend u hu
  refine task_safe (fun _ _ => trivial) fun x t hst ht _ => ⟨fun _ => ?_, fun hno => ?_⟩
  · have hfree : (exec n size i (.inl (.findId w)) x t).2.tasks.2.holds i = none := by
      rw [tasks_exec]
      exact hst.tasks.holds.trans hfree
    refine quiet_safe hfree (fun _ => trivial) (fun _ _ => rfl) fun _ u hu => ⟨fun _ => ?_, fun _ => ?_⟩
    · exact ⟨fun _ => hclear u hu, fun _ => hend u hu⟩
    · refine quiet_safe hu (fun _ => trivial) (fun _ _ => rfl) fun _ v hv => ?_
      exact ⟨fun _ => hclear v hv, fun _ => hend v hv⟩
  · exact absurd (ht.ids w hw) hno

theorem notifyTasks_safe {m : Nat} {Q : Unit → Unit → Shared ι τ → Prop} (hm : m ≤ n)
    (hfree : s.tasks.2.holds i = none) (hheard : n = 0 → s.unheard i = false)
    (hQ : ∀ t, t.tasks.2.holds i = none → (m = n → t.unheard i = false) → Q r () t) :
    (protocol ι τ n size).Safe i Q (notifyTasks m r) s := by
  induction m generalizing Q with
  | zero => exact hQ s hfree fun h => hheard h.symm
  | succ m ih =>
      simp only [notifyTasks, Protocol.safe_seq, Protocol.safe_pure]
      refine ih (Nat.le_of_succ_le hm) fun t hfree _ => ?_
      exact notifyProcessor_safe hm hfree fun u hfree hlast => hQ u hfree hlast

/-- A thread that holds no routine, and has no task that nobody has heard of. -/
def Free (i : ι) (s : Shared ι τ) : Prop := s.unheard i = false ∧ s.tasks.2.holds i = none

omit [DecidableEq ι] in
theorem Free.of_rely {t : Shared ι τ} (h : Free i s) (hst : Rely i s t) : Free i t :=
  ⟨hst.unheard.trans h.1, hst.tasks.holds.trans h.2⟩

theorem enqueue_safe {task : τ} {Q : Unit → Unit → Shared ι τ → Prop} (h : Free i s)
    (henqueuing : s.enqueuing i = true) (hQ : ∀ t, Free i t → Q r () t) :
    (protocol ι τ n size).Safe i Q (enqueue n task r) s := by
  simp only [enqueue, Protocol.safe_seq]
  refine Protocol.safe_ask fun t hst _ => ⟨hst.enqueuing.trans henqueuing, fun x hcond => ?_⟩
  have h := h.of_rely hst
  refine notifyTasks_safe (Nat.le_refl n) ?_ (fun hn => ?_) fun u hfree hheard =>
    hQ u ⟨hheard rfl, hfree⟩
  · simp only [exec]
    split <;> exact h.2
  · simp only [exec]
    rw [if_neg (Nat.not_lt.mpr (hcond hn))]
    exact h.1

theorem work_safe {w left : Nat} {Q : Unit → Unit → Shared ι τ → Prop}
    (hheard : s.unheard i = false) (hheld : Held i w .ready true s.tasks)
    (hQ : ∀ t, t.unheard i = false → t.tasks.2.holds i = some w → Settled w t.tasks → Q r () t) :
    (protocol ι τ n size).Safe i Q (work w left r) s := by
  induction left generalizing s with
  | zero => trivial
  | succ left ih =>
      simp only [work, Protocol.safe_seq, Protocol.safe_ite, Protocol.safe_deref]
      refine Protocol.safe_ask fun t hst _ => ⟨hheld.of_rely hst.tasks, fun x _ => ?_⟩
      have hheard : t.unheard i = false := hst.unheard.trans hheard
      have hheld : Held i w .ready true t.tasks := hheld.of_rely hst.tasks
      simp only [exec]
      cases t.queue with
      | nil =>
          refine ⟨fun _ => ?_, fun hne => absurd rfl hne⟩
          refine task_safe (fun u htu => ?_) fun y u htu _ _ => hQ _ ?_ ?_ ?_
          · exact ⟨htu.tasks.holds.trans hheld.1, .inr rfl⟩
          · exact unheard_exec (htu.unheard.trans hheard)
          · rw [tasks_exec]
            exact htu.tasks.holds.trans hheld.1
          · rw [tasks_exec]
            have hdue : u.tasks.2.due w = false :=
              (htu.tasks.due w hheld.1).trans (Function.update_self ..)
            have hstate : ((noted i (.setState w .dataWait) y u.tasks).2.1.routine w).state =
                .dataWait := congrArg CRoutine.state (set_routine.trans (if_pos rfl))
            have hready : u.tasks.2.due w = true ↔ RoutineState.dataWait = .ready :=
              iff_of_false (fun h => absurd (hdue.symm.trans h) Bool.false_ne_true) (by decide)
            rw [Settled, hstate]
            exact hready
      | cons task queue =>
          refine ⟨fun h => absurd h Bool.false_ne_true, fun _ => ⟨fun a _ => ?_, fun h => ?_⟩⟩
          · refine Protocol.safe_ask fun u htu _ => ⟨trivial, fun y _ => ?_⟩
            exact ih (htu.unheard.trans hheard) (hheld.of_rely htu.tasks)
          · exact absurd h.symm (Option.some_ne_none task).symm

theorem body_safe {c : Call τ} (h : Free i s)
    (henqueuing : ∀ task, c = .enqueue task → s.enqueuing i = true) (hs : Inv n s) :
    (protocol ι τ n size).Safe i (fun _ _ t => Free i t) (c.body n r) s := by
  cases c with
  | enqueue task => exact enqueue_safe h (henqueuing task rfl) fun _ ht => ht
  | turn w left =>
      refine turn_safe (lifts ι τ n size) (F := fun t => t.unheard i = false)
        (fun s t h hst => hst.unheard.trans h) (fun o x s h => unheard_exec h) hs h.1 h.2
        (fun t _ hheard hheld => ?_) fun t _ hheard hholds => ⟨hheard, hholds⟩
      exact work_safe hheard hheld fun u hheard hholds hsettled => ⟨hheard, hholds, hsettled⟩

end Functions

/-! ### Every run -/

section Run

variable {n size : Nat}

/-- The condition on the steps of a run. -/
def Reaches (n size : Nat) (t : State ι τ) : Step ι τ → Prop
  | .call _ _ => True
  | .act i _ =>
      match t.threads i with
      | .call _ o _ => Cond n size i o t.shared
      | _ => True

theorem keeps_enter {i : ι} {c : Call τ} {s : Shared ι τ} (hs : Inv n s) (h : Free i s) :
    Inv n (enter i c s) ∧ ∀ j, j ≠ i → Rely j s (enter i c s) := by
  refine ⟨⟨hs.tasks, hs.ids, fun j hj => ?_, hs.heard⟩,
    fun j hj => ⟨.refl j _, Function.update_of_ne hj _ _, rfl⟩⟩
  have hji : j ≠ i := by
    rintro rfl
    exact absurd (h.1.symm.trans hj) Bool.false_ne_true
  exact (Function.update_of_ne hji _ _).trans (hs.enqueuing j hj)

omit [DecidableEq ι] in
theorem inv_start : Inv n (start n ι τ).shared where
  tasks := ⟨nofun, nofun, fun _ => .inl rfl, fun _ _ => ⟨fun _ => rfl, fun _ => rfl⟩⟩
  ids _ hw := decide_eq_true hw
  enqueuing := nofun
  heard := .inl rfl

theorem holds_of_reaches {es : List (Step ι τ)}
    (hes : Run.Along (step n size) (Reaches n size) (start n ι τ) es) :
    (protocol ι τ n size).Holds (fun i _ _ t => Free i t) (Run.exec (step n size) (start n ι τ) es) := by
  have hmeets : Run.Along (step n size) ((protocol ι τ n size).Meets fun _ _ _ _ => True)
      (start n ι τ) es := by
    refine Run.along_mono (fun t e h => ?_) hes
    cases e with
    | call i c => exact fun _ _ _ => trivial
    | act i x =>
        intro r o k hi
        simp only [Reaches, hi] at h
        exact h
  have hstart : (protocol ι τ n size).Holds (fun i _ _ t => Free i t) (start n ι τ) :=
    ⟨inv_start, fun _ => ⟨rfl, rfl⟩⟩
  refine Protocol.sound ?_ ?_ ?_ hstart hmeets _ (Run.exec_mem_states _ _ _)
  · exact fun i r a s t h hst _ => h.of_rely hst
  · exact fun i c r a s hs h _ => keeps_enter hs h
  · intro i c r a s hs h _
    refine body_safe (s := enter i c s) h (fun task hc => ?_) (keeps_enter hs h).1
    rw [hc]
    exact Function.update_self ..

/-- Where there are tasks and no `Enqueue` is in progress, not every worker is parked. -/
def Served (n : Nat) (t : State ι τ) : Prop :=
  t.shared.queue ≠ [] → (∀ i, t.shared.enqueuing i = true → ∃ a, t.threads i = .done () a) →
    ∃ w, w < n ∧ ¬ Parked w t.shared.tasks

theorem served {es : List (Step ι τ)}
    (hes : Run.Along (step n size) (Reaches n size) (start n ι τ) es) :
    Served n (Run.exec (step n size) (start n ι τ) es) := by
  have hholds := holds_of_reaches hes
  intro hqueue hdone
  rcases hholds.inv.heard with hempty | ⟨i, hi⟩ | ⟨w, hw, hawake⟩
  · exact absurd hempty hqueue
  · obtain ⟨a, ha⟩ := hdone i (hholds.inv.enqueuing i hi)
    exact absurd ((hholds.rest ha).1.symm.trans hi) Bool.false_ne_true
  · exact ⟨w, hw, hawake.not_parked hholds.inv.tasks⟩

/-- The only worker has not run when a task is stored. -/
def prompt : List (Step Nat Nat) := .call 0 (.enqueue 7) :: List.replicate 5 (.act 0 false)

theorem served_prompt : Served 1 (Run.exec (step 1 1000) (start 1 Nat Nat) prompt) := by
  refine served ?_
  exact ⟨trivial, fun h => absurd h (by decide), trivial, trivial, trivial, fun _ => rfl, trivial⟩

/-- The only worker finds no task; one is stored and announced; and then the worker sets
DATA_WAIT. -/
def overlapping : List (Step Nat Nat) :=
  .call 0 (.turn 0 1) :: List.replicate 7 (.act 0 false) ++
    .call 1 (.enqueue 7) :: List.replicate 5 (.act 1 false) ++
    [.act 0 false, .act 0 false]

theorem not_served_overlapping :
    ¬ ∀ (n size : Nat) (es : List (Step Nat Nat)),
      Served n (Run.exec (step n size) (start n Nat Nat) es) := by
  intro h
  have hdone : ∀ i, (Run.exec (step 1 1000) (start 1 Nat Nat) overlapping).shared.enqueuing i = true →
      ∃ a, (Run.exec (step 1 1000) (start 1 Nat Nat) overlapping).threads i = .done () a := by
    intro i _
    rcases i with _ | _ | i
    · exact ⟨_, rfl⟩
    · exact ⟨_, rfl⟩
    · exact ⟨_, rfl⟩
  obtain ⟨w, hw, hparked⟩ := h 1 1000 overlapping (List.cons_ne_nil 7 []) hdone
  obtain rfl : w = 0 := by omega
  exact hparked ⟨rfl, rfl, rfl⟩

end Run

end Workers
end Cmw
