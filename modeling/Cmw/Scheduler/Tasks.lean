import Cmw.Scheduler.CRoutine

/-!
# Tasks that are made and removed while processors run

`CreateTask` and `DispatchTask`, `RemoveCRoutine` of scheduler/policy/scheduler_classic.cpp,
`NextRoutine` and `RemoveCRoutine` of classic_context.cpp, `Run` of processor.cpp and `Resume`
of croutine/croutine.cpp, in any number of threads.  The scheduler is not shut down.

A lock is told by who has it.  What the guard of `id_cr_lock_` encloses is one step, as every
use of it is short and waits for nothing; the locks of the run queues and the mutex of an id
are taken and given back in steps of their own, and who waits tries again.  What
`UpdateState` leaves is arbitrary, as wake-ups come at any time.  A routine is numbered when
it is put into `id_cr_`.
-/

namespace Cmw
namespace Scheduler
namespace Tasks

open Library
open Library.Thread

structure CRoutine (τ ι κ : Type) where
  id : ι
  /-- the run queue of its group and its priority, when these have been set -/
  queue : Option κ := none
  state : RoutineState := .ready
  forceStop : Bool := false
  lock : Option τ := none

/-- `ι` are the ids, and `κ` the run queues: a group and a priority. -/
structure Memory (τ ι κ : Type) where
  routine : Nat → Option (CRoutine τ ι κ) := fun _ => none
  made : Nat := 0
  idCr : ι → Option Nat := fun _ => none
  /-- `id_map_mutex_` -/
  mutex : ι → Option τ := fun _ => none
  crGroup : κ → List Nat := fun _ => []
  /-- `rq_locks_` -/
  writer : κ → Option τ := fun _ => none
  readers : κ → List τ := fun _ => []
  /-- whose function a thread is in: between `SwapContext` to a routine and back -/
  running : τ → Option Nat := fun _ => none
  /-- `RemoveCRoutine` has returned true for the routine -/
  removed : Nat → Bool := fun _ => false

inductive Op (ι κ : Type)
  | lockMutex (id : ι)
  /-- the end of a call, and the routine that it has removed -/
  | unlockMutex (id : ι) (gone : Option Nat)
  /-- in `id_cr_`, unless there is a routine of this id -/
  | insertId (id : ι)
  /-- out of `id_cr_`, and stopped -/
  | eraseId (id : ι)
  | setQueue (p : Nat) (k : κ)
  | queue (p : Nat)
  | lockRead (k : κ)
  | unlockRead (k : κ)
  | lockWrite (k : κ)
  | unlockWrite (k : κ)
  | at (k : κ) (index : Nat)
  | emplaceBack (k : κ) (p : Nat)
  | erase (k : κ) (p : Nat)
  | id (p : Nat)
  | acquire (p : Nat)
  | release (p : Nat)
  | stop (p : Nat)
  | forceStop (p : Nat)
  | updateState (p : Nat)
  | state (p : Nat)
  | setState (p : Nat) (state : RoutineState)
  /-- `SwapContext` to the routine -/
  | enter (p : Nat)
  /-- and back -/
  | leave

@[reducible] def Ans {ι κ : Type} : Op ι κ → Type
  | .lockMutex _ | .lockRead _ | .lockWrite _ | .acquire _ | .forceStop _ => Bool
  | .insertId _ | .eraseId _ | .at _ _ => Option Nat
  | .queue _ => Option κ
  | .id _ => Option ι
  | .updateState _ | .state _ => RoutineState
  | _ => Unit

@[reducible] def sig (ι κ : Type) : Sig := { Op := Op ι κ, Ans }

section Exec

variable {τ ι κ : Type} [DecidableEq τ] [DecidableEq ι] [DecidableEq κ]

/-- A change of one routine. -/
def Memory.alter (m : Memory τ ι κ) (p : Nat) (f : CRoutine τ ι κ → CRoutine τ ι κ) :
    Memory τ ι κ :=
  { m with routine := Function.update m.routine p ((m.routine p).map f) }

def Memory.idOf (m : Memory τ ι κ) (p : Nat) : Option ι := (m.routine p).map CRoutine.id

def Memory.queueOf (m : Memory τ ι κ) (p : Nat) : Option κ := (m.routine p).bind CRoutine.queue

def Memory.lock (m : Memory τ ι κ) (p : Nat) : Option τ := (m.routine p).bind CRoutine.lock

def exec (t : τ) : (o : Op ι κ) → RoutineState → Memory τ ι κ → Ans o × Memory τ ι κ
  | .lockMutex id, _, m =>
      if m.mutex id = none then (true, { m with mutex := Function.update m.mutex id (some t) })
      else (false, m)
  | .unlockMutex id gone, _, m =>
      ((), { m with
        mutex := Function.update m.mutex id none
        removed := fun p => m.removed p || gone == some p })
  | .insertId id, _, m =>
      if m.idCr id = none then
        (some m.made, { m with
          routine := Function.update m.routine m.made (some { id })
          made := m.made + 1
          idCr := Function.update m.idCr id (some m.made) })
      else (none, m)
  | .eraseId id, _, m =>
      match m.idCr id with
      | some p =>
          (some p, { m.alter p fun r => { r with forceStop := true } with
            idCr := Function.update m.idCr id none })
      | none => (none, m)
  | .setQueue p k, _, m => ((), m.alter p fun r => { r with queue := some k })
  | .queue p, _, m => (m.queueOf p, m)
  | .lockRead k, _, m =>
      if m.writer k = none then
        (true, { m with readers := Function.update m.readers k (t :: m.readers k) })
      else (false, m)
  | .unlockRead k, _, m =>
      ((), { m with readers := Function.update m.readers k ((m.readers k).erase t) })
  | .lockWrite k, _, m =>
      if m.writer k = none ∧ m.readers k = [] then
        (true, { m with writer := Function.update m.writer k (some t) })
      else (false, m)
  | .unlockWrite k, _, m => ((), { m with writer := Function.update m.writer k none })
  | .at k index, _, m => ((m.crGroup k)[index]?, m)
  | .emplaceBack k p, _, m =>
      ((), { m with crGroup := Function.update m.crGroup k (m.crGroup k ++ [p]) })
  | .erase k p, _, m =>
      ((), { m with crGroup := Function.update m.crGroup k ((m.crGroup k).erase p) })
  | .id p, _, m => (m.idOf p, m)
  | .acquire p, _, m =>
      if m.lock p = none then (true, m.alter p fun r => { r with lock := some t })
      else (false, m)
  | .release p, _, m => ((), m.alter p fun r => { r with lock := none })
  | .stop p, _, m => ((), m.alter p fun r => { r with forceStop := true })
  | .forceStop p, _, m => (((m.routine p).map CRoutine.forceStop).getD false, m)
  | .updateState p, x, m => (x, m.alter p fun r => { r with state := x })
  | .state p, _, m => (((m.routine p).map CRoutine.state).getD .ready, m)
  | .setState p state, _, m => ((), m.alter p fun r => { r with state })
  | .enter p, _, m => ((), { m with running := Function.update m.running t (some p) })
  | .leave, _, m => ((), { m with running := Function.update m.running t none })

end Exec

abbrev TaskCode (ι κ : Type) := Code (sig ι κ) Unit

open Code (ask hang)

def Op.get {ι κ : Type} (o : Op ι κ) : TaskCode ι κ (Ans o) := ask (S := sig ι κ) o

section Code

variable {ι κ : Type}

/-- Until the operation has answered true. -/
def spin (o : TaskCode ι κ Bool) : Nat → TaskCode ι κ Unit
  | 0 => hang
  | fuel + 1 => do
      let got ← o
      if got then pure () else spin o fuel

/-- `DispatchTask`, for a routine that the configuration gives this queue. -/
def dispatchTask (fuel : Nat) (id : ι) (k : κ) : TaskCode ι κ Bool := do
  spin (Op.lockMutex id).get fuel
  let fresh ← (Op.insertId id).get
  match fresh with
  | some p => do
      (Op.setQueue p k).get
      spin (Op.lockWrite k).get fuel
      (Op.emplaceBack k p).get
      (Op.unlockWrite k).get
      (Op.unlockMutex id none).get
      pure true
  | none => do
      (Op.unlockMutex id none).get
      pure false

/-- The loop over the queue in `ClassicContext::RemoveCRoutine`. -/
def removeFrom [DecidableEq ι] (fuel : Nat) (crid : ι) (k : κ) : Nat → Nat → TaskCode ι κ Bool
  | 0, _ => hang
  | turns + 1, index => do
      let it ← (Op.at k index).get
      match it with
      | none => pure false
      | some cr => do
          let id ← (Op.id cr).get
          if id = some crid then do
            (Op.stop cr).get
            spin (Op.acquire cr).get fuel
            (Op.erase k cr).get
            (Op.release cr).get
            pure true
          else removeFrom fuel crid k turns (index + 1)

/-- `SchedulerClassic::RemoveCRoutine` -/
def removeCRoutine [DecidableEq ι] (fuel : Nat) (crid : ι) : TaskCode ι κ Bool := do
  spin (Op.lockMutex crid).get fuel
  let found ← (Op.eraseId crid).get
  match found with
  | none => do
      (Op.unlockMutex crid none).get
      pure false
  | some cr => do
      let queue ← (Op.queue cr).get
      let k ← Code.deref queue
      spin (Op.lockWrite k).get fuel
      let removed ← removeFrom fuel crid k fuel 0
      (Op.unlockWrite k).get
      (Op.unlockMutex crid (if removed then some cr else none)).get
      pure removed

/-- The loop over one queue in `NextRoutine`. -/
def scan (k : κ) : Nat → Nat → TaskCode ι κ (Option Nat)
  | 0, _ => hang
  | turns + 1, index => do
      let it ← (Op.at k index).get
      match it with
      | none => pure none
      | some cr => do
          let acquired ← (Op.acquire cr).get
          if acquired then do
            let state ← (Op.updateState cr).get
            if state = .ready then pure (some cr)
            else do
              (Op.release cr).get
              scan k turns (index + 1)
          else scan k turns (index + 1)

/-- `NextRoutine`, over the queues of the group from the highest priority down. -/
def nextRoutine (fuel : Nat) : List κ → TaskCode ι κ (Option Nat)
  | [] => pure none
  | k :: ks => do
      spin (Op.lockRead k).get fuel
      let found ← scan k fuel 0
      (Op.unlockRead k).get
      match found with
      | some cr => pure (some cr)
      | none => nextRoutine fuel ks

/-- What a routine may call. -/
inductive Inner (ι κ : Type)
  | createTask (id : ι) (k : κ)
  | removeTask (id : ι)

def Inner.body [DecidableEq ι] (fuel : Nat) : Inner ι κ → TaskCode ι κ Bool
  | .createTask id k => dispatchTask fuel id k
  | .removeTask id => removeCRoutine fuel id

def inners [DecidableEq ι] (fuel : Nat) : List (Inner ι κ) → TaskCode ι κ Unit
  | [] => pure ()
  | c :: cs => do
      let _ ← c.body fuel
      inners fuel cs

/-- One turn of the loop of a processor.  The function of the routine makes these calls and
yields with this state. -/
def turn [DecidableEq ι] (fuel : Nat) (ks : List κ) (calls : List (Inner ι κ))
    (yields : RoutineState) : TaskCode ι κ Unit := do
  let found ← nextRoutine fuel ks
  match found with
  | none => pure ()
  | some cr => do
      let stopped ← (Op.forceStop cr).get
      if stopped then do
        (Op.setState cr .finished).get
        (Op.release cr).get
      else do
        let state ← (Op.state cr).get
        if state = .ready then do
          (Op.enter cr).get
          inners fuel calls
          (Op.setState cr yields).get
          (Op.leave).get
          (Op.release cr).get
        else (Op.release cr).get

inductive Call (ι κ : Type)
  | turn (ks : List κ) (calls : List (Inner ι κ)) (yields : RoutineState)
  | inner (c : Inner ι κ)

def Call.body [DecidableEq ι] (fuel : Nat) : Call ι κ → TaskCode ι κ Unit
  | .turn ks calls yields => Tasks.turn fuel ks calls yields
  | .inner c => do
      let _ ← c.body fuel
      pure ()

end Code

section Runs

variable {τ ι κ : Type} [DecidableEq τ] [DecidableEq ι] [DecidableEq κ]

abbrev State (τ ι κ : Type) := Config (sig ι κ) τ Unit Unit (Memory τ ι κ)

abbrev TaskStep (τ ι κ : Type) := Event τ (Call ι κ) RoutineState

def step (fuel : Nat) : State τ ι κ → TaskStep τ ι κ → State τ ι κ :=
  Thread.step exec (fun _ _ m => m) fun c => c.body fuel

def start (τ ι κ : Type) : State τ ι κ := Config.start (fun _ => ()) () {}

end Runs

end Tasks
end Scheduler
end Cmw
