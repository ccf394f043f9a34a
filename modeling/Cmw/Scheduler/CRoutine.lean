import Cmw.Library.Thread

/-!
# Routines and their processors

croutine/croutine.h, and what the classic policy does with a routine: `DispatchTask` and
`NotifyProcessor` of scheduler/policy/scheduler_classic.cpp, `NextRoutine` of
classic_context.cpp and `Run` of processor.cpp.  The scheduler is not shut down, and no
task is removed.

A routine is as its constructor has left it until it is inserted.  Its flag `updated_`
counts the other way round: `SetUpdateFlag` clears it, and `UpdateState` consumes what was
announced when it sets it again.
-/

namespace Cmw
namespace Scheduler

open Library
open Library.Thread

inductive RoutineState
  | ready
  | finished
  | sleep
  | ioWait
  | dataWait
  deriving DecidableEq

structure CRoutine where
  state : RoutineState := .ready
  updated : Bool := true
  lock : Bool := false

/-- `id_cr_`, the run queues of `cr_group_`, and the routines. -/
structure Registry (ω : Type) where
  idCr : ω → Bool := fun _ => false
  crGroup : ω → Bool := fun _ => false
  routine : ω → CRoutine := fun _ => {}

inductive Op (ω : Type)
  | findId (w : ω)
  /-- in `id_cr_`, unless there is a routine of this name -/
  | insertId (w : ω)
  /-- `NextRoutine` comes to the routine in the run queue -/
  | findGroup (w : ω)
  | insertGroup (w : ω)
  | state (w : ω)
  | setState (w : ω) (state : RoutineState)
  | acquire (w : ω)
  | release (w : ω)
  | testAndSetUpdated (w : ω)
  | setUpdateFlag (w : ω)
  /-- `steady_clock::now() > wake_time_` -/
  | pastWakeTime (w : ω)
  /-- `ClassicContext::Notify` -/
  | notifyGroup (w : ω)

@[reducible] def Ans {ω : Type} : Op ω → Type
  | .findId _ | .insertId _ | .findGroup _ | .acquire _ | .testAndSetUpdated _ | .pastWakeTime _ =>
      Bool
  | .state _ => RoutineState
  | _ => Unit

@[reducible] def sig (ω : Type) : Sig := { Op := Op ω, Ans }

section Exec

variable {ω : Type} [DecidableEq ω]

def Registry.set (s : Registry ω) (w : ω) (r : CRoutine) : Registry ω :=
  { s with routine := Function.update s.routine w r }

def exec : (o : Op ω) → Bool → Registry ω → Ans o × Registry ω
  | .findId w, _, s => (s.idCr w, s)
  | .insertId w, _, s => (!s.idCr w, { s with idCr := Function.update s.idCr w true })
  | .findGroup w, _, s => (s.crGroup w, s)
  | .insertGroup w, _, s => ((), { s with crGroup := Function.update s.crGroup w true })
  | .state w, _, s => ((s.routine w).state, s)
  | .setState w state, _, s => ((), s.set w { s.routine w with state })
  | .acquire w, _, s => (!(s.routine w).lock, s.set w { s.routine w with lock := true })
  | .release w, _, s => ((), s.set w { s.routine w with lock := false })
  | .testAndSetUpdated w, _, s =>
      ((s.routine w).updated, s.set w { s.routine w with updated := true })
  | .setUpdateFlag w, _, s => ((), s.set w { s.routine w with updated := false })
  | .pastWakeTime _, x, s => (x, s)
  | .notifyGroup _, _, s => ((), s)

end Exec

abbrev RoutineCode (ω : Type) := Code (sig ω) Unit

open Code (ask)

def Op.get {ω : Type} (o : Op ω) : RoutineCode ω (Ans o) := ask (S := sig ω) o

section Code

variable {ω : Type} (w : ω)

/-- `state_ == DATA_WAIT || state_ == IO_WAIT` -/
def isWaiting : RoutineCode ω Bool := do
  let state ← (Op.state w).get
  if state = .dataWait then pure true
  else do
    let state ← (Op.state w).get
    pure (state == .ioWait)

def updateState : RoutineCode ω RoutineState := do
  let state ← (Op.state w).get
  let awake ← if state = .sleep then (Op.pastWakeTime w).get else pure false
  if awake then do
    (Op.setState w .ready).get
    (Op.state w).get
  else do
    let updated ← (Op.testAndSetUpdated w).get
    if updated then (Op.state w).get
    else do
      let waiting ← isWaiting w
      if waiting then do
        (Op.setState w .ready).get
        (Op.state w).get
      else (Op.state w).get

def notifyProcessor : RoutineCode ω Bool := do
  let found ← (Op.findId w).get
  if found then do
    let waiting ← isWaiting w
    if waiting then do
      (Op.setUpdateFlag w).get
      (Op.notifyGroup w).get
      pure true
    else do
      (Op.notifyGroup w).get
      pure true
  else pure false

/-- `DispatchTask` -/
def dispatchTask : RoutineCode ω Bool := do
  let fresh ← (Op.insertId w).get
  if fresh then do
    (Op.insertGroup w).get
    (Op.notifyGroup w).get
    pure true
  else pure false

/-- What `NextRoutine` does with a routine: whether it returns it. -/
def nextRoutine : RoutineCode ω Bool := do
  let listed ← (Op.findGroup w).get
  if listed then do
    let acquired ← (Op.acquire w).get
    if acquired then do
      let state ← updateState w
      if state = .ready then pure true
      else do
        (Op.release w).get
        pure false
    else pure false
  else pure false

/-- A processor and a routine: `NextRoutine`, `Resume` and `Release`.  `body` is what the
routine does from where it was suspended to where it is suspended again. -/
def turn {E : Sig} (body : Code ((sig ω).sum E) Unit Unit) : Code ((sig ω).sum E) Unit Unit := do
  let found ← (nextRoutine w).lift
  if found then do
    let state ← (Op.state w).get.lift
    if state = .ready then do
      body
      (Op.release w).get.lift
    else (Op.release w).get.lift
  else pure ()

end Code

/-! ### What is kept of a run -/

structure History (ι ω : Type) where
  /-- the routine that a thread holds -/
  holds : ι → Option ω := fun _ => none
  /-- the routine will look for messages again before it is suspended -/
  due : ω → Bool := fun _ => true

variable {ι ω : Type} [DecidableEq ι] [DecidableEq ω]

def note (i : ι) : (o : Op ω) → Ans o → History ι ω → History ι ω
  | .acquire w, acquired, h =>
      if acquired then { h with holds := Function.update h.holds i (some w) } else h
  | .release _, _, h => { h with holds := Function.update h.holds i none }
  | .testAndSetUpdated w, updated, h =>
      if updated then h else { h with due := Function.update h.due w true }
  | _, _, h => h

abbrev Memory (ι ω : Type) := Registry ω × History ι ω

def noted (i : ι) (o : Op ω) (x : Bool) (m : Memory ι ω) : Ans o × Memory ι ω :=
  noting (S := sig ω) exec note i o x m

end Scheduler
end Cmw
