import Mathlib.Data.List.Basic

/-!
# Runs of a deterministic step function

A component is a step function `σ → α → σ`, and a run of it is the list of events
it is fed.  `states` lists every state a run passes through, the first included,
and `Along P` says that `P` holds of every step of the run, read at the state
before the step.

The two rules below carry every statement about runs.  `invariant` is the usual
induction, with a condition on the steps; `states_iff_along` is its exact form,
for an invariant that a step keeps if and only if the step meets the condition.
-/

namespace Library
namespace Run

variable {σ α : Type*} (step : σ → α → σ)

def exec (s : σ) (as : List α) : σ := as.foldl step s

/-- Every state a run passes through, the first and the last included. -/
def states : σ → List α → List σ
  | s, [] => [s]
  | s, a :: as => s :: states (step s a) as

/-- `P` holds of every step of the run, at the state before it. -/
def Along (P : σ → α → Prop) : σ → List α → Prop
  | _, [] => True
  | s, a :: as => P s a ∧ Along P (step s a) as

@[simp] theorem exec_nil (s : σ) : exec step s [] = s := rfl

@[simp] theorem exec_cons (s : σ) (a : α) (as : List α) :
    exec step s (a :: as) = exec step (step s a) as := rfl

theorem exec_append (s : σ) (as bs : List α) :
    exec step s (as ++ bs) = exec step (exec step s as) bs := by
  simp [exec, List.foldl_append]

theorem exec_mem_states (s : σ) (as : List α) : exec step s as ∈ states step s as := by
  induction as generalizing s with
  | nil => simp [states]
  | cons a as ih =>
      rw [exec_cons, states]
      exact List.mem_cons_of_mem s (ih (step s a))

theorem mem_states_self (s : σ) (as : List α) : s ∈ states step s as := by
  cases as <;> simp [states]

variable {step}

/-- Induction over a run whose steps all meet `C`. -/
theorem invariant {I : σ → Prop} {C : σ → α → Prop}
    (hstep : ∀ s a, I s → C s a → I (step s a))
    {s : σ} {as : List α} (hs : I s) (hC : Along step C s as) :
    ∀ t ∈ states step s as, I t := by
  induction as generalizing s with
  | nil =>
      intro t ht
      rw [states, List.mem_singleton] at ht
      exact ht ▸ hs
  | cons a as ih =>
      intro t ht
      rw [states, List.mem_cons] at ht
      rcases ht with rfl | ht
      · exact hs
      · exact ih (hstep s a hs hC.1) hC.2 t ht

theorem along_true (s : σ) (as : List α) : Along step (fun _ _ => True) s as := by
  induction as generalizing s with
  | nil => trivial
  | cons a as ih => exact ⟨trivial, ih (step s a)⟩

/-- A condition on the events alone. -/
theorem along_of_forall_mem {P : σ → α → Prop} {s : σ} {as : List α}
    (h : ∀ a ∈ as, ∀ t, P t a) : Along step P s as := by
  induction as generalizing s with
  | nil => trivial
  | cons a as ih =>
      exact ⟨h a List.mem_cons_self s, ih fun b hb => h b (List.mem_cons_of_mem a hb)⟩

theorem along_mono {P C : σ → α → Prop} (h : ∀ s a, P s a → C s a) {s : σ} {as : List α}
    (hP : Along step P s as) : Along step C s as := by
  induction as generalizing s with
  | nil => trivial
  | cons a as ih => exact ⟨h s a hP.1, ih hP.2⟩

/-- What the steps of a run do, where a condition on them keeps an invariant. -/
theorem along_of_invariant {I : σ → Prop} {P C : σ → α → Prop}
    (hstep : ∀ s a, I s → C s a → I (step s a)) (hP : ∀ s a, I s → C s a → P s a)
    {s : σ} {as : List α} (hs : I s) (hC : Along step C s as) : Along step P s as := by
  induction as generalizing s with
  | nil => trivial
  | cons a as ih => exact ⟨hP s a hs hC.1, ih (hstep s a hs hC.1) hC.2⟩

theorem along_and {P C : σ → α → Prop} {s : σ} {as : List α} (hP : Along step P s as)
    (hC : Along step C s as) : Along step (fun s a => P s a ∧ C s a) s as := by
  induction as generalizing s with
  | nil => trivial
  | cons a as ih => exact ⟨⟨hP.1, hC.1⟩, ih hP.2 hC.2⟩

/-- Induction over a run whose steps all keep the invariant. -/
theorem invariant_always {I : σ → Prop} (hstep : ∀ s a, I s → I (step s a))
    {s : σ} (hs : I s) {as : List α} : ∀ t ∈ states step s as, I t :=
  invariant (fun t a ht _ => hstep t a ht) hs (along_true s as)

/-- The exact form of `invariant`: where a step from a good state ends in a good
state if and only if it meets `C`, the runs that stay good are the runs whose
steps all meet `C`.  What every step keeps, `J`, may be used for it. -/
theorem states_iff_along {J I : σ → Prop} {C : σ → α → Prop}
    (hkeep : ∀ s a, J s → J (step s a))
    (hstep : ∀ s a, J s → I s → (I (step s a) ↔ C s a))
    {s : σ} {as : List α} (hJ : J s) (hI : I s) :
    (∀ t ∈ states step s as, I t) ↔ Along step C s as := by
  induction as generalizing s with
  | nil =>
      refine iff_of_true (fun t ht => ?_) trivial
      rw [states, List.mem_singleton] at ht
      exact ht ▸ hI
  | cons a as ih =>
      have hhead : (∀ t ∈ states step (step s a) as, I t) → I (step s a) := fun h =>
        h _ (mem_states_self step _ as)
      rw [states, List.forall_mem_cons, and_iff_right hI, Along]
      constructor
      · intro h
        exact ⟨(hstep s a hJ hI).mp (hhead h), (ih (hkeep s a hJ) (hhead h)).mp h⟩
      · intro hp
        obtain ⟨hC, hrest⟩ := hp
        exact (ih (hkeep s a hJ) ((hstep s a hJ hI).mpr hC)).mpr hrest

/-- The same for what the invariant says of a state, where a step that does not meet `C` ends
in a state that it is not true of. -/
theorem forall_states_iff_along {I P : σ → Prop} {C : σ → α → Prop} (hIP : ∀ s, I s → P s)
    (hkeep : ∀ s a, I s → C s a → I (step s a)) (hbreak : ∀ s a, I s → P (step s a) → C s a)
    {s : σ} {as : List α} (hs : I s) :
    (∀ t ∈ states step s as, P t) ↔ Along step C s as := by
  constructor
  · induction as generalizing s with
    | nil => exact fun _ => trivial
    | cons a as ih =>
        intro h
        have hrest : ∀ t ∈ states step (step s a) as, P t := fun t ht =>
          h t (List.mem_cons_of_mem s ht)
        have hC := hbreak s a hs (hrest _ (mem_states_self step _ as))
        exact ⟨hC, ih (hkeep s a hs hC) hrest⟩
  · exact fun hC t ht => hIP t (invariant hkeep hs hC t ht)

/-- Two conditions on steps agree along a run when they agree at every state of
an invariant that either of them keeps. -/
theorem along_iff_along {I : σ → Prop} {P C : σ → α → Prop}
    (hPC : ∀ s a, I s → (P s a ↔ C s a))
    (hstep : ∀ s a, I s → C s a → I (step s a))
    {s : σ} {as : List α} (hs : I s) : Along step P s as ↔ Along step C s as := by
  induction as generalizing s with
  | nil => exact Iff.rfl
  | cons a as ih =>
      constructor
      · intro h
        obtain ⟨hP, hrest⟩ := h
        have hC := (hPC s a hs).mp hP
        exact ⟨hC, (ih (hstep s a hs hC)).mp hrest⟩
      · intro h
        obtain ⟨hC, hrest⟩ := h
        exact ⟨(hPC s a hs).mpr hC, (ih (hstep s a hs hC)).mpr hrest⟩

theorem along_append {P : σ → α → Prop} {s : σ} {as bs : List α} :
    Along step P s (as ++ bs) ↔ Along step P s as ∧ Along step P (exec step s as) bs := by
  induction as generalizing s with
  | nil => exact (and_iff_right trivial).symm
  | cons a as ih =>
      rw [List.cons_append, Along, Along, ih, exec_cons, and_assoc]

theorem le_exec {f : σ → Nat} (hmono : ∀ s a, f s ≤ f (step s a)) (s : σ) (as : List α) :
    f s ≤ f (exec step s as) := by
  induction as generalizing s with
  | nil => exact Nat.le_refl _
  | cons a as ih => exact Nat.le_trans (hmono s a) (ih (step s a))

/-- What only grows is below a bound after every step where it is in the end. -/
theorem along_of_lt {f : σ → Nat} (hmono : ∀ s a, f s ≤ f (step s a)) {b : Nat} {s : σ}
    {as : List α} (h : f (exec step s as) < b) :
    Along step (fun s a => f (step s a) < b) s as := by
  induction as generalizing s with
  | nil => trivial
  | cons a as ih => exact ⟨Nat.lt_of_le_of_lt (le_exec hmono (step s a) as) h, ih h⟩

variable {τ : Type*} {step' : τ → α → τ} {f : σ → τ}

/-- A map that commutes with the steps takes the states of a run to the states of
the mapped run. -/
theorem states_map (hstep : ∀ s a, f (step s a) = step' (f s) a) (s : σ) (as : List α) :
    states step' (f s) as = (states step s as).map f := by
  induction as generalizing s with
  | nil => rfl
  | cons a as ih => rw [states, states, List.map_cons, ← hstep, ih]

/-! ## What has happened since -/

section Since

variable {P Q : α → Prop} {l : List α} {x : α}

/-- There has been an event with `P`, and none with `Q` after it. -/
def Since (P Q : α → Prop) (l : List α) : Prop :=
  ∃ before x after, l = before ++ x :: after ∧ P x ∧ ∀ y ∈ after, ¬Q y

theorem not_since_nil : ¬Since P Q [] := by
  intro h
  obtain ⟨before, x, after, hl, -⟩ := h
  exact List.append_ne_nil_of_right_ne_nil before (List.cons_ne_nil x after) hl.symm

theorem since_concat : Since P Q (l ++ [x]) ↔ P x ∨ (Since P Q l ∧ ¬Q x) := by
  constructor
  · intro h
    obtain ⟨before, y, after, hl, hy, hafter⟩ := h
    rcases List.eq_nil_or_concat after with rfl | ⟨after, z, rfl⟩
    · have hlast := List.append_inj_right' hl rfl
      exact .inl (List.singleton_inj.mp hlast ▸ hy)
    · rw [List.concat_eq_append, ← List.cons_append, ← List.append_assoc] at hl
      obtain ⟨hinit, hlast⟩ := List.append_inj' hl rfl
      rw [List.concat_eq_append, List.forall_mem_append, List.forall_mem_singleton] at hafter
      obtain rfl := List.singleton_inj.mp hlast
      exact .inr ⟨⟨before, y, after, hinit, hy, hafter.1⟩, hafter.2⟩
  · intro h
    rcases h with h | ⟨⟨before, y, after, rfl, hy, hafter⟩, hx⟩
    · exact ⟨l, x, [], rfl, h, List.forall_mem_nil _⟩
    · refine ⟨before, y, after ++ [x], ?_, hy, ?_⟩
      · rw [List.append_assoc, List.cons_append]
      · exact List.forall_mem_append.mpr ⟨hafter, List.forall_mem_singleton.mpr hx⟩

end Since

end Run
end Library
