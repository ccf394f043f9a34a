/-!
# Objects that are used one operation after another

A log is the operations that have taken effect, the last one first, each with its answer.
It is legal where every answer is what the object answers in the state that the operations
before it have left.  Calls that run at the same time are linearizable where each of them
takes effect at one of its own steps, and returns what the log then says.
-/

namespace Library

structure SeqObject (σ ο α : Type) where
  start : σ
  apply : ο → σ → α × σ

namespace SeqObject

variable {σ ο α : Type} (O : SeqObject σ ο α)

/-- The state that the operations leave. -/
def replay : List (ο × α) → σ
  | [] => O.start
  | e :: log => (O.apply e.1 (replay log)).2

def Legal : List (ο × α) → Prop
  | [] => True
  | e :: log => e.2 = (O.apply e.1 (O.replay log)).1 ∧ Legal log

section Simulation

variable {τ : Type} {O} {O' : SeqObject τ ο α} {f : σ → τ}

/-- An object that answers as another one does, in the states that `f` takes its own to. -/
theorem replay_map (hstart : f O.start = O'.start)
    (happly : ∀ q s, O'.apply q (f s) = ((O.apply q s).1, f (O.apply q s).2))
    (log : List (ο × α)) : f (O.replay log) = O'.replay log := by
  induction log with
  | nil => exact hstart
  | cons e log ih =>
      show f (O.apply e.1 (O.replay log)).2 = (O'.apply e.1 (O'.replay log)).2
      rw [← ih, happly]

theorem legal_iff_of_map (hstart : f O.start = O'.start)
    (happly : ∀ q s, O'.apply q (f s) = ((O.apply q s).1, f (O.apply q s).2))
    (log : List (ο × α)) : O.Legal log ↔ O'.Legal log := by
  induction log with
  | nil => exact Iff.rfl
  | cons e log ih =>
      have hanswer : (O'.apply e.1 (O'.replay log)).1 = (O.apply e.1 (O.replay log)).1 := by
        rw [← replay_map hstart happly, happly]
      rw [Legal, Legal, hanswer, ih]

end Simulation

end SeqObject
end Library
