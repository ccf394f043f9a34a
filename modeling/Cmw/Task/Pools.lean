import Cmw.Base.BoundedQueue

/-!
# The pools of tasks

task/task_manager.h, task/task_manager.cpp and base/thread_pool.h.  `Enqueue` makes a task
and its future, and gives the task to a bounded queue; the workers take tasks from the
queue and run them.  A task is its number, in the order in which the tasks were made.

A worker is a thread that makes one round of its loop a call.  What a worker of the
`TaskManager` does where the queue is empty, and who resumes it, does not matter here.
-/

namespace Cmw
namespace Pools

open Library
open Library.Thread
open Base

inductive Kind
  | taskManager (numThreads : Nat)
  | threadPool

inductive Op
  /-- `std::make_shared<std::packaged_task<..>>` -/
  | makeTask
  | loadStop
  | exchangeStop
  | loadBreak
  | breakAllWait
  /-- `EmptyWait` of a `BlockWaitStrategy` -/
  | emptyWait
  | notifyTask (worker : Nat)
  | removeTask (worker : Nat)
  | hangUp
  /-- `task()`, to its end -/
  | run (task : Nat)

@[reducible] def Ans : Op → Type
  | .makeTask => Nat
  | .loadStop | .exchangeStop | .loadBreak | .emptyWait => Bool
  | _ => Unit

@[reducible] def sig : Sig := (Queue.sig Nat).sum { Op, Ans }

abbrev PoolCode := Code sig Queue.Locals

open Code (ask deref hang)

def Op.get (o : Op) : PoolCode (Ans o) := ask (S := sig) (.inr o)

section Code

variable (poolSize : Nat)

/-- The same for each of the workers. -/
def forWorkers (f : Nat → PoolCode Unit) : Nat → PoolCode Unit
  | 0 => pure ()
  | n + 1 => do
      forWorkers f n
      f n

def notifyTasks : Nat → PoolCode Unit := forWorkers fun n => (Op.notifyTask n).get

def removeTasks : Nat → PoolCode Unit := forWorkers fun n => (Op.removeTask n).get

/-- `Enqueue`: the task, and whether its future is valid. -/
def enqueue (left : Nat) : Kind → PoolCode (Nat × Bool)
  | .taskManager numThreads => do
      let task ← Op.makeTask.get
      let stop ← Op.loadStop.get
      if stop then pure (task, true)
      else do
        let _ ← (Queue.enqueue poolSize left task).lift
        notifyTasks numThreads
        pure (task, true)
  | .threadPool => do
      let task ← Op.makeTask.get
      let stop ← Op.loadStop.get
      if stop then pure (task, false)
      else do
        let _ ← (Queue.enqueue poolSize left task).lift
        pure (task, true)

/-- `WaitDequeue` -/
def waitDequeue (bound : Nat) : Nat → PoolCode (Option Nat)
  | 0 => hang
  | left + 1 => do
      let broken ← Op.loadBreak.get
      if broken then pure none
      else do
        let task ← (Queue.dequeue poolSize bound).lift
        if task.isSome then pure task
        else do
          let again ← Op.emptyWait.get
          if again then waitDequeue bound left else pure none

/-- A round of the loop of a worker. -/
def work (left : Nat) : Kind → PoolCode Unit
  | .taskManager _ => do
      let stop ← Op.loadStop.get
      if stop then pure ()
      else do
        let task ← (Queue.dequeue poolSize left).lift
        if task.isNone then Op.hangUp.get
        else do
          let task ← deref task
          (Op.run task).get
  | .threadPool => do
      let stop ← Op.loadStop.get
      if stop then pure ()
      else do
        let task ← waitDequeue poolSize left left
        if task.isSome then do
          let task ← deref task
          (Op.run task).get
        else pure ()

/-- `Shutdown` of the `TaskManager`, and the destructor of the `ThreadPool`. -/
def shutdown : Kind → PoolCode Unit
  | .taskManager numThreads => do
      let stopped ← Op.exchangeStop.get
      if stopped then pure () else removeTasks numThreads
  | .threadPool => do
      let stopped ← Op.exchangeStop.get
      if stopped then pure () else Op.breakAllWait.get

end Code

/-- A call, with a bound on the rounds of its loops. -/
inductive Call
  | enqueue (left : Nat)
  | work (left : Nat)
  | shutdown

inductive Answer
  | constructed
  | future (task : Nat) (valid : Bool)
  | worked
  | stopped

def Call.body (poolSize : Nat) (kind : Kind) : Call → PoolCode Answer
  | enqueue left => do
      let res ← Pools.enqueue poolSize left kind
      pure (.future res.1 res.2)
  | work left => do
      Pools.work poolSize left kind
      pure .worked
  | shutdown => do
      Pools.shutdown kind
      pure .stopped

/-- The memory, and the tasks that have been run to their end. -/
structure Shared (ι : Type) where
  queue : Queue.Shared ι Nat
  stop : Bool := false
  broken : Bool := false
  made : Nat := 0
  executed : List Nat := []

variable {ι : Type} [DecidableEq ι]

/-- An operation.  A thread that makes a task is about to enqueue it; one that has run a
task has nothing more to do with it. -/
def exec (i : ι) : (o : sig.Op) → Bool → Shared ι → sig.Ans o × Shared ι
  | .inl o, x, s => ((Queue.noted i o x s.queue).1, { s with queue := (Queue.noted i o x s.queue).2 })
  | .inr .makeTask, _, s =>
      (s.made, { s with
        made := s.made + 1
        queue := (s.queue.1, s.queue.2.setOwn i { element := some s.made }) })
  | .inr .loadStop, _, s => (s.stop, s)
  | .inr .exchangeStop, _, s => (s.stop, { s with stop := true })
  | .inr .loadBreak, _, s => (s.broken, s)
  | .inr .breakAllWait, _, s => ((), { s with broken := true })
  | .inr .emptyWait, _, s => (true, s)
  | .inr (.notifyTask _), _, s => ((), s)
  | .inr (.removeTask _), _, s => ((), s)
  | .inr .hangUp, _, s => ((), s)
  | .inr (.run task), _, s =>
      ((), { s with
        executed := task :: s.executed
        queue := (s.queue.1, s.queue.2.setOwn i {}) })

/-- A thread that makes a call has nothing in its hands. -/
def enter (i : ι) (_ : Call) (s : Shared ι) : Shared ι :=
  { s with queue := (s.queue.1, s.queue.2.setOwn i {}) }

abbrev State (ι : Type) := Config sig ι Queue.Locals Answer (Shared ι)

abbrev Step (ι : Type) := Event ι Call Bool

def step (kind : Kind) (size : BitVec 64) : State ι → Step ι → State ι :=
  Thread.step exec enter (Call.body (Queue.poolSize size) kind)

omit [DecidableEq ι] in
def start (ι : Type) : State ι :=
  Config.start (fun _ => {}) .constructed { queue := ({ pool := fun _ => 0 }, {}) }

end Pools
end Cmw
