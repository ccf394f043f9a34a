import Cmw.Croutine.RoutineContext
import Cmw.Library.Run
import Cmw.Scheduler.CRoutine

/-!
# Routines that are switched

The constructor, `Resume`, `Yield` and `Stop` of croutine/croutine.h, on the stacks that
`ctx_swap` leaves and enters, with `Acquire` and `Release` around them as in `Run` of
scheduler/processor.cpp.  Any number of threads run any number of routines, and a routine
may go on in another thread than it was left in.

`kept` is for statements only: what a context was left with, and the memory at that time.
Code between two switches is any change of the registers and of the memory.  A routine is
told by its `RoutineContext`, and its constructor may run again, for the next routine that
is given the context.
-/

namespace Cmw
namespace Croutine

open Library
open Library.Amd64
open Scheduler (RoutineState)

/-- What runs: a thread on its own stack, or a routine. -/
inductive Context (τ ρ : Type)
  | main (t : τ)
  | routine (r : ρ)
  deriving DecidableEq

/-- A stack, and the cell where its pointer is kept. -/
structure Place where
  cell : Word
  low : Word
  size : Nat

namespace Place

def Area (p : Place) (x : Word) : Prop :=
  Memory.Within p.cell 8 x ∨ Memory.Within p.low p.size x

/-- The part of the stack that is in use when its pointer is `sp`. -/
def InUse (p : Place) (sp x : Word) : Prop :=
  (sp - p.low).toNat ≤ (x - p.low).toNat ∧ Memory.Within p.low p.size x

/-- Below `sp` there is room for what a call of `SwapContext` pushes. -/
def Room (p : Place) (sp : Word) : Prop :=
  64 ≤ (sp - p.low).toNat ∧ (sp - p.low).toNat ≤ p.size

instance decidableRoom (p : Place) (sp : Word) : Decidable (p.Room sp) :=
  inferInstanceAs (Decidable (_ ∧ _))

variable {p : Place} {sp x : Word}

theorem toNat_of_frame (h : p.Room sp) (hx : frame sp x) :
    (x - p.low).toNat + 64 = (sp - p.low).toNat + (x - (sp - 64)).toNat := by
  have hroom := h.1
  have hx : (x - (sp - 64)).toNat < 64 := hx
  bv_omega

theorem within_of_frame (h : p.Room sp) (hx : frame sp x) : Memory.Within p.low p.size x := by
  have hsum := toNat_of_frame h hx
  have hsize := h.2
  have hx : (x - (sp - 64)).toNat < 64 := hx
  show (x - p.low).toNat < p.size
  omega

theorem not_frame_of_inUse (h : p.Room sp) (hx : p.InUse sp x) : ¬ frame sp x := by
  intro hframe
  have hsum := toNat_of_frame h hframe
  have hle := hx.1
  have hframe : (x - (sp - 64)).toNat < 64 := hframe
  omega

end Place

/-- The stacks of the threads, and the contexts of the routines. -/
structure Layout (τ ρ : Type) where
  main : τ → Place
  ctx : ρ → Word

variable {τ ρ : Type}

def Layout.place (l : Layout τ ρ) : Context τ ρ → Place
  | .main t => l.main t
  | .routine r => { cell := spCell (l.ctx r), low := l.ctx r, size := stackSize }

/-- They lie apart from each other. -/
structure Layout.Apart (l : Layout τ ρ) : Prop where
  areas : ∀ c d, c ≠ d → ∀ x, (l.place c).Area x → ¬ (l.place d).Area x
  cells : ∀ t x, Memory.Within (l.main t).cell 8 x →
    ¬ Memory.Within (l.main t).low (l.main t).size x

theorem Layout.Apart.cell {l : Layout τ ρ} (h : l.Apart) (c : Context τ ρ) {x : Word}
    (hx : Memory.Within (l.place c).cell 8 x) :
    ¬ Memory.Within (l.place c).low (l.place c).size x := by
  cases c with
  | main t => exact h.cells t x hx
  | routine r =>
      have hx : (x - (l.ctx r + BitVec.ofNat 64 stackSize)).toNat < 8 := hx
      show ¬ (x - l.ctx r).toNat < stackSize
      rw [stackSize] at hx ⊢
      bv_omega

structure CRoutine where
  state : RoutineState := .ready
  lock : Bool := false
  forceStop : Bool := false
  /-- its constructor has run -/
  made : Bool := false

structure Thread (ρ : Type) where
  regs : Regs
  pc : Word
  /-- the routines that it has acquired and not released -/
  holds : List ρ := []
  /-- `current_routine_` -/
  current : Option ρ := none

structure Kept where
  next : Continuation
  mem : Memory

structure System (τ ρ : Type) where
  thread : τ → Thread ρ
  routine : ρ → CRoutine := fun _ => {}
  mem : Memory
  kept : Context τ ρ → Option Kept := fun _ => none

inductive Event (τ ρ : Type)
  /-- the constructor, with `CRoutineEntry` and the routine as its argument -/
  | make (r : ρ) (f1 arg : Word)
  | work (t : τ) (regs : Regs) (pc : Word) (mem : Memory)
  | acquire (t : τ) (r : ρ)
  | resume (t : τ) (r : ρ) (returnTo : Word)
  /-- `Yield()`, or `Yield(state)` -/
  | yield (t : τ) (state : Option RoutineState) (returnTo : Word)
  | release (t : τ) (r : ρ)
  /-- `set_state`, `UpdateState` and `Wake` -/
  | setState (r : ρ) (state : RoutineState)
  | stop (r : ρ)

namespace System

variable [DecidableEq τ] [DecidableEq ρ]

def setRoutine (s : System τ ρ) (r : ρ) (cr : CRoutine) : System τ ρ :=
  { s with routine := Function.update s.routine r cr }

def setThread (s : System τ ρ) (t : τ) (thr : Thread ρ) : System τ ρ :=
  { s with thread := Function.update s.thread t thr }

def running (s : System τ ρ) (t : τ) : Context τ ρ :=
  match (s.thread t).current with
  | some r => .routine r
  | none => .main t

/-- The registers and the memory as the thread sees them. -/
def machine (s : System τ ρ) (t : τ) : State where
  regs := (s.thread t).regs
  pc := (s.thread t).pc
  mem := s.mem

/-- `SwapContext` from the context that the thread runs to another one. -/
def swap (l : Layout τ ρ) (s : System τ ρ) (t : τ) (dest : Context τ ρ) (current : Option ρ)
    (returnTo : Word) : System τ ρ :=
  let cell := (l.place (s.running t)).cell
  let after := swapContext cell (l.place dest).cell returnTo (s.machine t)
  let left : Continuation :=
    { regs := Function.update (s.thread t).regs .rdi cell
      sp := (s.thread t).regs .rsp
      pc := returnTo }
  { s with
    thread := Function.update s.thread t
      { s.thread t with regs := after.regs, pc := after.pc, current }
    mem := after.mem
    kept := Function.update (Function.update s.kept (s.running t) (some ⟨left, s.mem⟩)) dest none }

/-- The thread that an event switches, and the context that it goes on with. -/
def target (s : System τ ρ) : Event τ ρ → Option (τ × Context τ ρ)
  | .resume t r _ =>
      if r ∈ (s.thread t).holds ∧ (s.thread t).current = none ∧ (s.routine r).forceStop = false ∧
          (s.routine r).state = .ready then some (t, .routine r)
      else none
  | .yield t _ _ => if (s.thread t).current = none then none else some (t, .main t)
  | _ => none

def step (l : Layout τ ρ) (s : System τ ρ) : Event τ ρ → System τ ρ
  | .make r f1 arg =>
      if (s.routine r).lock then s
      else
        let mem := makeContext f1 arg (l.ctx r) s.mem
        { s.setRoutine r { made := true } with
          mem
          kept := Function.update s.kept (.routine r) (some ⟨entry f1 arg (l.ctx r), mem⟩) }
  | .work t regs pc mem => { s.setThread t { s.thread t with regs, pc } with mem }
  | .acquire t r =>
      if (s.routine r).made ∧ (s.routine r).lock = false then
        (s.setRoutine r { s.routine r with lock := true }).setThread t
          { s.thread t with holds := r :: (s.thread t).holds }
      else s
  | .resume t r returnTo =>
      if r ∈ (s.thread t).holds ∧ (s.thread t).current = none then
        if (s.routine r).forceStop then s.setRoutine r { s.routine r with state := .finished }
        else if (s.routine r).state = .ready then s.swap l t (.routine r) (some r) returnTo
        else s
      else s
  | .yield t state returnTo =>
      match (s.thread t).current with
      | some r =>
          (s.setRoutine r { s.routine r with state := state.getD (s.routine r).state }).swap l t
            (.main t) none returnTo
      | none => s
  | .release t r =>
      if r ∈ (s.thread t).holds ∧ (s.thread t).current ≠ some r then
        (s.setRoutine r { s.routine r with lock := false }).setThread t
          { s.thread t with holds := (s.thread t).holds.filter (· ≠ r) }
      else s
  | .setState r state => s.setRoutine r { s.routine r with state }
  | .stop r => s.setRoutine r { s.routine r with forceStop := true }

/-- The threads run, and no routine has been made. -/
def start (machines : τ → State) (mem : Memory) : System τ ρ where
  thread t := { regs := (machines t).regs, pc := (machines t).pc }
  mem := mem

/-! ## What is asked of the code between two switches -/

/-- It writes to no stack but its own, and a call of `SwapContext` finds room there. -/
def Proper (l : Layout τ ρ) (s : System τ ρ) : Event τ ρ → Prop
  | .work t _ _ mem => ∀ c, c ≠ s.running t → ∀ x, (l.place c).Area x → mem x = s.mem x
  | e => ∀ t c, s.target e = some (t, c) → (l.place (s.running t)).Room ((s.thread t).regs .rsp)

/-- What a context finds that was left with `k`. -/
structure GoesOn (p : Place) (k : Kept) (s : State) : Prop where
  regs : ∀ r ∈ saved, s.regs r = k.next.regs r
  sp : s.regs .rsp = k.next.sp
  pc : s.pc = k.next.pc
  mem : ∀ x, p.InUse k.next.sp x → s.mem x = k.mem x

/-- Who is switched to goes on with what it was left with. -/
def Transparent (l : Layout τ ρ) (s : System τ ρ) (e : Event τ ρ) : Prop :=
  ∀ t c, s.target e = some (t, c) →
    ∃ k, s.kept c = some k ∧ GoesOn (l.place c) k ((step l s e).machine t)

end System

end Croutine
end Cmw
