import Cmw.Library.Run

/-!
# Threads over shared memory

A thread runs code that works on fields of its own and performs atomic operations
on a memory that it shares with the others.  Code is a tree: what it does next is a
function of what the last operation answered.  A loop without a bound takes one as
an argument, and is left at `hang` when it runs out: a finite run is one of the
code with a bound that is large enough.

The memory may hold more than the code can see: what a thread was called with and
what it did last, which `enter` and `exec` record, are there for statements only.

`Protocol` is rely and guarantee reasoning.  `Rely i` is what the threads other
than `i` may do, `Cond` a condition that the steps of the run are taken to meet,
and `Pre` what a thread knows when it performs an operation.  `Safe` checks one
thread on its own, and `Protocol.sound` puts the threads together.
-/

namespace Library
namespace Thread

/-- Operations, and what each of them answers. -/
structure Sig where
  Op : Type
  Ans : Op → Type

/-- The operations of two components. -/
@[reducible] def Sig.sum (S E : Sig) : Sig where
  Op := S.Op ⊕ E.Op
  Ans
    | .inl o => S.Ans o
    | .inr o => E.Ans o

/-- Code at a point of its run: `ρ` are the private fields, as they are when an
operation is performed. -/
inductive Prog (S : Sig) (ρ α : Type) : Type
  | done (r : ρ) (a : α)
  | call (r : ρ) (o : S.Op) (k : S.Ans o → Prog S ρ α)
  | crash
  | hang

namespace Prog

variable {S : Sig} {ρ α β : Type}

def bind (f : ρ → α → Prog S ρ β) : Prog S ρ α → Prog S ρ β
  | done r a => f r a
  | call r o k => call r o fun x => (k x).bind f
  | crash => crash
  | hang => hang

/-- Code of one component, called by code that uses another one as well. -/
def lift {E : Sig} : Prog S ρ α → Prog (S.sum E) ρ α
  | done r a => done r a
  | call r o k => call r (.inl o) fun x => (k x).lift
  | crash => crash
  | hang => hang

/-- The memory that the code alone leaves. -/
def runAlone {κ : Type} (exec : (o : S.Op) → κ → S.Ans o × κ) : Prog S ρ α → κ → κ
  | done _ _, s => s
  | call _ o k, s => (k (exec o s).1).runAlone exec (exec o s).2
  | crash, s => s
  | hang, s => s

/-- The code alone, on the memory `s`, comes to its end, and there `Q` holds. -/
def Ends {κ : Type} (exec : (o : S.Op) → κ → S.Ans o × κ) (Q : ρ → α → κ → Prop) :
    Prog S ρ α → κ → Prop
  | done r a, s => Q r a s
  | call _ o k, s => (k (exec o s).1).Ends exec Q (exec o s).2
  | crash, _ => False
  | hang, _ => False

/-- What may be left of the code after some of its operations. -/
inductive Remains (p : Prog S ρ α) : Prog S ρ α → Prop
  | all : p.Remains p
  | after {r : ρ} {o : S.Op} {k : S.Ans o → Prog S ρ α} (h : p.Remains (.call r o k))
      (x : S.Ans o) : p.Remains (k x)

/-- Every operation that the code may perform meets `C`. -/
def Asks (C : S.Op → Prop) : Prog S ρ α → Prop
  | done _ _ => True
  | call _ o k => C o ∧ ∀ x, (k x).Asks C
  | crash => True
  | hang => True

theorem Asks.bind {C : S.Op → Prop} {f : ρ → α → Prog S ρ β} {p : Prog S ρ α} (h : p.Asks C)
    (hf : ∀ r a, (f r a).Asks C) : (p.bind f).Asks C := by
  induction p with
  | done r a => exact hf r a
  | call r o k ih => exact ⟨h.1, fun x => ih x (h.2 x)⟩
  | crash => trivial
  | hang => trivial

theorem lift_bind {E : Sig} {f : ρ → α → Prog S ρ β} {p : Prog S ρ α} :
    (p.bind f).lift (E := E) = p.lift.bind fun r a => (f r a).lift := by
  induction p with
  | done r a => rfl
  | call r o k ih => exact congrArg (call (S := S.sum E) r (.inl o)) (funext ih)
  | crash => rfl
  | hang => rfl

theorem bind_assoc {γ : Type} {f : ρ → α → Prog S ρ β} {g : ρ → β → Prog S ρ γ}
    {p : Prog S ρ α} : (p.bind f).bind g = p.bind fun r a => (f r a).bind g := by
  induction p with
  | done r a => rfl
  | call r o k ih => exact congrArg (call r o) (funext ih)
  | crash => rfl
  | hang => rfl

theorem ends_bind {κ : Type} {exec : (o : S.Op) → κ → S.Ans o × κ} {Q : ρ → β → κ → Prop}
    {f : ρ → α → Prog S ρ β} {p : Prog S ρ α} {s : κ} :
    (p.bind f).Ends exec Q s ↔ p.Ends exec (fun r a t => (f r a).Ends exec Q t) s := by
  induction p generalizing s with
  | done r a => exact Iff.rfl
  | call r o k ih => exact ih (exec o s).1
  | crash => exact Iff.rfl
  | hang => exact Iff.rfl

end Prog

def Code (S : Sig) (ρ α : Type) : Type := ρ → Prog S ρ α

namespace Code

variable {S : Sig} {ρ α β : Type}

instance : Monad (Code S ρ) where
  pure a := fun r => .done r a
  bind m f := fun r => (m r).bind fun r a => f a r

instance : MonadStateOf ρ (Code S ρ) where
  get := fun r => .done r r
  set r := fun _ => .done r ()
  modifyGet f := fun r => .done (f r).2 (f r).1

/-- One operation on the shared memory. -/
def ask (o : S.Op) : Code S ρ (S.Ans o) := fun r => .call r o fun x => .done r x

/-- The thread dies, of a null pointer. -/
def crash : Code S ρ α := fun _ => .crash

def hang : Code S ρ α := fun _ => .hang

def lift {E : Sig} (m : Code S ρ α) : Code (S.sum E) ρ α := fun r => (m r).lift

/-- What a pointer points to; the thread dies where it is null. -/
def deref (p : Option α) : Code S ρ α :=
  match p with
  | some a => pure a
  | none => crash

section Lift

variable {E : Sig}

@[simp] theorem lift_seq {m : Code S ρ β} {f : β → Code S ρ α} :
    (m >>= f).lift (E := E) = m.lift >>= fun b => (f b).lift :=
  funext fun _ => Prog.lift_bind

@[simp] theorem lift_pure {a : α} : (pure a : Code S ρ α).lift (E := E) = pure a := rfl

@[simp] theorem lift_ite {c : Prop} [Decidable c] {m n : Code S ρ α} :
    (if c then m else n).lift (E := E) = if c then m.lift else n.lift := by
  by_cases hc : c
  · rw [if_pos hc, if_pos hc]
  · rw [if_neg hc, if_neg hc]

end Lift

theorem asks_seq {C : S.Op → Prop} {m : Code S ρ β} {f : β → Code S ρ α} {r : ρ}
    (h : (m r).Asks C) (hf : ∀ r b, (f b r).Asks C) : Prog.Asks C ((m >>= f) r) :=
  h.bind hf

theorem asks_ask {C : S.Op → Prop} {o : S.Op} (h : C o) (r : ρ) :
    Prog.Asks C ((ask o : Code S ρ (S.Ans o)) r) :=
  ⟨h, fun _ => trivial⟩

/-! ### Code alone -/

section Ends

variable {κ : Type} {exec : (o : S.Op) → κ → S.Ans o × κ} {Q : ρ → α → κ → Prop} {r : ρ} {s : κ}

@[simp] theorem ends_seq {m : Code S ρ β} {f : β → Code S ρ α} :
    Prog.Ends exec Q ((m >>= f) r) s ↔
      Prog.Ends exec (fun r b t => Prog.Ends exec Q (f b r) t) (m r) s :=
  Prog.ends_bind

@[simp] theorem ends_pure {a : α} :
    Prog.Ends exec Q ((pure a : Code S ρ α) r) s ↔ Q r a s := Iff.rfl

@[simp] theorem ends_get {Q : ρ → ρ → κ → Prop} :
    Prog.Ends exec Q ((get : Code S ρ ρ) r) s ↔ Q r r s := Iff.rfl

@[simp] theorem ends_modify {f : ρ → ρ} {Q : ρ → PUnit → κ → Prop} :
    Prog.Ends exec Q ((modify f : Code S ρ PUnit) r) s ↔ Q (f r) ⟨⟩ s := Iff.rfl

@[simp] theorem ends_ask {o : S.Op} {Q : ρ → S.Ans o → κ → Prop} :
    Prog.Ends exec Q ((ask o : Code S ρ (S.Ans o)) r) s ↔ Q r (exec o s).1 (exec o s).2 := Iff.rfl

@[simp] theorem ends_deref {p : Option α} :
    Prog.Ends exec Q ((deref p : Code S ρ α) r) s ↔ ∃ a, p = some a ∧ Q r a s := by
  cases p with
  | none => exact ⟨False.elim, nofun⟩
  | some a =>
      constructor
      · exact fun h => ⟨a, rfl, h⟩
      · intro h
        obtain ⟨b, hb, hQ⟩ := h
        exact Option.some.inj hb ▸ hQ

@[simp] theorem ends_ite {c : Prop} [Decidable c] {m n : Code S ρ α} :
    Prog.Ends exec Q ((if c then m else n) r) s ↔
      if c then Prog.Ends exec Q (m r) s else Prog.Ends exec Q (n r) s := by
  by_cases hc : c
  · simp [hc]
  · simp [hc]

end Ends
end Code

/-- An operation, noted in the history `η`. -/
def noting {S : Sig} {ι κ χ η : Type} (exec : (o : S.Op) → χ → κ → S.Ans o × κ)
    (note : ι → (o : S.Op) → S.Ans o → η → η) (i : ι) (o : S.Op) (x : χ) (s : κ × η) :
    S.Ans o × (κ × η) :=
  ((exec o x s.1).1, (exec o x s.1).2, note i o (exec o x s.1).1 s.2)

/-- The state of all threads: one that is at rest has returned from its last call. -/
structure Config (S : Sig) (ι ρ α κ : Type) where
  shared : κ
  threads : ι → Prog S ρ α

/-- Thread `i` calls a function, or performs its next operation. -/
inductive Event (ι γ χ : Type)
  | call (i : ι) (c : γ)
  | act (i : ι) (x : χ)

def Event.thread {ι γ χ : Type} : Event ι γ χ → ι
  | .call i _ => i
  | .act i _ => i

section Step

variable {S : Sig} {ι ρ α κ χ γ : Type}

def Config.start (r : ι → ρ) (a : α) (s : κ) : Config S ι ρ α κ :=
  { shared := s, threads := fun i => .done (r i) a }

variable [DecidableEq ι] (exec : ι → (o : S.Op) → χ → κ → S.Ans o × κ)
variable (enter : ι → γ → κ → κ) (body : γ → Code S ρ α)

def step (cfg : Config S ι ρ α κ) : Event ι γ χ → Config S ι ρ α κ
  | .call i c =>
      match cfg.threads i with
      | .done r _ =>
          { shared := enter i c cfg.shared
            threads := Function.update cfg.threads i (body c r) }
      | _ => cfg
  | .act i x =>
      match cfg.threads i with
      | .call _ o k =>
          { shared := (exec i o x cfg.shared).2
            threads := Function.update cfg.threads i (k (exec i o x cfg.shared).1) }
      | _ => cfg

variable {exec enter body} {cfg : Config S ι ρ α κ} {i : ι} {x : χ} {Q : ρ → α → κ → Prop}

theorem threads_step {e : Event ι γ χ} (hi : i ≠ e.thread) :
    (step exec enter body cfg e).threads i = cfg.threads i := by
  cases e with
  | call j c =>
      rw [step]
      split
      · exact Function.update_of_ne hi ..
      · rfl
  | act j x =>
      rw [step]
      split
      · exact Function.update_of_ne hi ..
      · rfl

/-- A thread that is alone comes to the end of its code. -/
theorem exec_alone (h : (cfg.threads i).Ends (fun o s => exec i o x s) Q cfg.shared) :
    ∃ n r a s, Run.exec (step exec enter body) cfg (List.replicate n (.act i x)) =
      { shared := s, threads := Function.update cfg.threads i (.done r a) } ∧ Q r a s := by
  generalize hp : cfg.threads i = p at h
  induction p generalizing cfg with
  | done r a =>
      refine ⟨0, r, a, cfg.shared, ?_, h⟩
      rw [← hp, Function.update_eq_self]
      rfl
  | call r o k ih =>
      have hstep : step exec enter body cfg (.act i x) =
          { shared := (exec i o x cfg.shared).2
            threads := Function.update cfg.threads i (k (exec i o x cfg.shared).1) } := by
        simp only [step, hp]
      have hthread : (step exec enter body cfg (.act i x)).threads i =
          k (exec i o x cfg.shared).1 := by
        rw [hstep]
        exact Function.update_self ..
      have hrest : Prog.Ends (fun o s => exec i o x s) Q (k (exec i o x cfg.shared).1)
          (step exec enter body cfg (.act i x)).shared := by
        rw [hstep]
        exact h
      obtain ⟨n, r', a, s, hrun, hQ⟩ := ih _ hthread hrest
      refine ⟨n + 1, r', a, s, ?_, hQ⟩
      rw [List.replicate_succ, Run.exec_cons, hrun, hstep, Function.update_idem]
  | crash => exact h.elim
  | hang => exact h.elim

/-- A call alone. -/
theorem call_alone {c : γ} {r : ρ} {a : α} (hi : cfg.threads i = .done r a)
    (h : (body c r).Ends (fun o s => exec i o x s) Q (enter i c cfg.shared)) :
    ∃ es r' a' s, Run.exec (step exec enter body) cfg es =
      { shared := s, threads := Function.update cfg.threads i (.done r' a') } ∧ Q r' a' s := by
  have hstep : step exec enter body cfg (.call i c) =
      { shared := enter i c cfg.shared, threads := Function.update cfg.threads i (body c r) } := by
    simp only [step, hi]
  have hends : ((step exec enter body cfg (.call i c)).threads i).Ends (fun o s => exec i o x s) Q
      (step exec enter body cfg (.call i c)).shared := by
    rw [hstep]
    simpa using h
  obtain ⟨n, r', a', s, hrun, hQ⟩ := exec_alone hends
  refine ⟨.call i c :: List.replicate n (.act i x), r', a', s, ?_, hQ⟩
  rw [Run.exec_cons, hrun, hstep, Function.update_idem]

end Step

/-- What the threads promise each other. -/
structure Protocol (S : Sig) (ι ρ κ χ : Type) (exec : ι → (o : S.Op) → χ → κ → S.Ans o × κ) where
  Inv : κ → Prop
  Rely : ι → κ → κ → Prop
  Cond : ι → ρ → S.Op → χ → κ → Prop
  Pre : ι → ρ → S.Op → κ → Prop
  Crash : Prop
  Hang : ι → κ → Prop
  refl : ∀ i s, Rely i s s
  trans : ∀ {i s t u}, Rely i s t → Rely i t u → Rely i s u
  hang_stable : ∀ {i s t}, Hang i s → Rely i s t → Hang i t
  keeps : ∀ {i r o x s}, Inv s → Pre i r o s → Cond i r o x s →
    Inv (exec i o x s).2 ∧ ∀ j, j ≠ i → Rely j s (exec i o x s).2

namespace Protocol

variable {S : Sig} {ι ρ α β κ χ γ : Type} {exec : ι → (o : S.Op) → χ → κ → S.Ans o × κ}
variable (P : Protocol S ι ρ κ χ exec)

/-- Thread `i` keeps to the protocol and ends in `Q`, whatever the others do. -/
def Safe (i : ι) (Q : ρ → α → κ → Prop) : Prog S ρ α → κ → Prop
  | .done r a, s => Q r a s
  | .call r o k, s => ∀ t, P.Rely i s t → P.Inv t →
      P.Pre i r o t ∧
        ∀ x, P.Cond i r o x t → Safe i Q (k (exec i o x t).1) (exec i o x t).2
  | .crash, _ => P.Crash
  | .hang, s => P.Hang i s

/-- `Q` is kept by what the others do. -/
def Stable (i : ι) (Q : ρ → α → κ → Prop) : Prop :=
  ∀ r a s t, Q r a s → P.Rely i s t → P.Inv t → Q r a t

variable {P} {i : ι}

theorem Safe.of_rely {Q : ρ → α → κ → Prop} (hQ : P.Stable i Q) {p : Prog S ρ α} {s t : κ}
    (h : P.Safe i Q p s) (hst : P.Rely i s t) (ht : P.Inv t) : P.Safe i Q p t := by
  cases p with
  | done r a => exact hQ r a s t h hst ht
  | call r o k => exact fun u htu hu => h u (P.trans hst htu) hu
  | crash => exact h
  | hang => exact P.hang_stable h hst

/-- A weaker end.  The invariant may be used, as the thread ends in it. -/
theorem Safe.mono {Q Q' : ρ → α → κ → Prop} {p : Prog S ρ α} {s : κ} (h : P.Safe i Q p s)
    (hs : P.Inv s) (hQ : ∀ r a t, P.Inv t → Q r a t → Q' r a t) : P.Safe i Q' p s := by
  induction p generalizing s with
  | done r a => exact hQ r a s hs h
  | call r o k ih =>
      intro t hst ht
      obtain ⟨hpre, hk⟩ := h t hst ht
      exact ⟨hpre, fun x hx => ih _ (hk x hx) (P.keeps ht hpre hx).1⟩
  | crash => exact h
  | hang => exact h

/-- A weaker end, whatever the invariant says. -/
theorem Safe.imp {Q Q' : ρ → α → κ → Prop} {p : Prog S ρ α} {s : κ} (h : P.Safe i Q p s)
    (hQ : ∀ r a t, Q r a t → Q' r a t) : P.Safe i Q' p s := by
  induction p generalizing s with
  | done r a => exact hQ r a s h
  | call r o k ih =>
      intro t hst ht
      obtain ⟨hpre, hk⟩ := h t hst ht
      exact ⟨hpre, fun x hx => ih _ (hk x hx)⟩
  | crash => exact h
  | hang => exact h

/-- What the others keep, and every operation of the thread. -/
theorem Safe.frame {Q : ρ → α → κ → Prop} {F : κ → Prop}
    (hrely : ∀ s t, F s → P.Rely i s t → P.Inv t → F t)
    (hexec : ∀ o x s, P.Inv s → F s → F (exec i o x s).2) {p : Prog S ρ α} {s : κ} (hF : F s)
    (h : P.Safe i Q p s) : P.Safe i (fun r a t => Q r a t ∧ F t) p s := by
  induction p generalizing s with
  | done r a => exact ⟨h, hF⟩
  | call r o k ih =>
      intro t hst ht
      obtain ⟨hpre, hk⟩ := h t hst ht
      exact ⟨hpre, fun x hx => ih _ (hexec o x t ht (hrely s t hF hst ht)) (hk x hx)⟩
  | crash => exact h
  | hang => exact h

theorem safe_bind {Q : ρ → β → κ → Prop} {p : Prog S ρ α} {f : ρ → α → Prog S ρ β} {s : κ} :
    P.Safe i Q (p.bind f) s ↔ P.Safe i (fun r a t => P.Safe i Q (f r a) t) p s := by
  induction p generalizing s with
  | done r a => exact Iff.rfl
  | call r o k ih =>
      refine forall_congr' fun t => forall_congr' fun _ => forall_congr' fun _ => ?_
      refine and_congr_right fun _ => forall_congr' fun x => forall_congr' fun _ => ?_
      exact ih (exec i o x t).1
  | crash => exact Iff.rfl
  | hang => exact Iff.rfl

/-! ### The rules for code -/

variable {Q : ρ → α → κ → Prop} {r : ρ} {s : κ}

@[simp] theorem safe_seq {m : Code S ρ β} {f : β → Code S ρ α} :
    P.Safe i Q ((m >>= f) r) s ↔ P.Safe i (fun r b t => P.Safe i Q (f b r) t) (m r) s :=
  safe_bind

@[simp] theorem safe_pure {a : α} : P.Safe i Q ((pure a : Code S ρ α) r) s ↔ Q r a s := Iff.rfl

@[simp] theorem safe_get {Q : ρ → ρ → κ → Prop} :
    P.Safe i Q ((get : Code S ρ ρ) r) s ↔ Q r r s := Iff.rfl

@[simp] theorem safe_modify {f : ρ → ρ} {Q : ρ → PUnit → κ → Prop} :
    P.Safe i Q ((modify f : Code S ρ PUnit) r) s ↔ Q (f r) ⟨⟩ s := Iff.rfl

@[simp] theorem safe_deref {p : Option α} :
    P.Safe i Q ((Code.deref p : Code S ρ α) r) s ↔
      (∀ a, p = some a → Q r a s) ∧ (p = none → P.Crash) := by
  cases p with
  | none => exact ⟨fun h => ⟨nofun, fun _ => h⟩, fun h => h.2 rfl⟩
  | some a =>
      refine ⟨fun h => ⟨fun b hb => ?_, nofun⟩, fun h => h.1 a rfl⟩
      exact Option.some.inj hb ▸ h

@[simp] theorem safe_ite {c : Prop} [Decidable c] {m n : Code S ρ α} :
    P.Safe i Q ((if c then m else n) r) s ↔
      (c → P.Safe i Q (m r) s) ∧ (¬ c → P.Safe i Q (n r) s) := by
  by_cases hc : c
  · simp [hc]
  · simp [hc]

/-- The rule of an operation. -/
theorem safe_ask {o : S.Op} {Q : ρ → S.Ans o → κ → Prop}
    (h : ∀ t, P.Rely i s t → P.Inv t → P.Pre i r o t ∧
      ∀ x, P.Cond i r o x t → Q r (exec i o x t).1 (exec i o x t).2) :
    P.Safe i Q (Code.ask o r) s :=
  h

/-- The rule of an operation, with what has to be known before it apart. -/
theorem safe_op {o : S.Op} {Q : ρ → S.Ans o → κ → Prop}
    (hpre : ∀ t, P.Rely i s t → P.Inv t → P.Pre i r o t)
    (hQ : ∀ x t, P.Rely i s t → P.Inv t → P.Cond i r o x t →
      Q r (exec i o x t).1 (exec i o x t).2) :
    P.Safe i Q (Code.ask o r) s :=
  safe_ask fun t hst ht => ⟨hpre t hst ht, fun x hx => hQ x t hst ht hx⟩

/-- The rule of an operation that keeps what the thread knows of the memory. -/
theorem safe_keep {F : κ → Prop} {o : S.Op} {Q : ρ → S.Ans o → κ → Prop}
    (hrely : ∀ t, P.Rely i s t → F t) (hpre : ∀ t, P.Inv t → F t → P.Pre i r o t)
    (hexec : ∀ x t, P.Inv t → F t → F (exec i o x t).2)
    (hQ : ∀ x t, P.Inv t → P.Cond i r o x t → F t → F (exec i o x t).2 →
      Q r (exec i o x t).1 (exec i o x t).2) :
    P.Safe i Q (Code.ask o r) s :=
  safe_op (fun t hst ht => hpre t ht (hrely t hst)) fun x t hst ht hx =>
    hQ x t ht hx (hrely t hst) (hexec x t ht (hrely t hst))

/-! ### Components -/

section Lift

variable {E : Sig} {μ : Type} {execSum : ι → (o : (S.sum E).Op) → χ → μ → (S.sum E).Ans o × μ}

/-- A protocol of two components, that keeps to the protocol `P` of the first one in the
part `π` of its memory. -/
structure Lifts (P : Protocol S ι ρ κ χ exec) (P' : Protocol (S.sum E) ι ρ μ χ execSum)
    (π : μ → κ) : Prop where
  rely : ∀ {i s t}, P'.Rely i s t → P.Rely i (π s) (π t)
  inv : ∀ {s}, P'.Inv s → P.Inv (π s)
  pre : ∀ {i r o s}, P'.Inv s → P.Pre i r o (π s) → P'.Pre i r (.inl o) s
  cond : ∀ {i r o x s}, P'.Inv s → P'.Cond i r (.inl o) x s → P.Cond i r o x (π s)
  answer : ∀ {i o x s}, (execSum i (.inl o) x s).1 = (exec i o x (π s)).1
  memory : ∀ {i o x s}, π (execSum i (.inl o) x s).2 = (exec i o x (π s)).2
  crash : P.Crash → P'.Crash
  hang : ∀ {i s}, P.Hang i (π s) → P'.Hang i s

/-- The rule of a call into a component: `F` is what the caller knows of the rest. -/
theorem Safe.lift {P' : Protocol (S.sum E) ι ρ μ χ execSum} {π : μ → κ} (hP : P.Lifts P' π)
    {F : μ → Prop} (hrely : ∀ s t, F s → P'.Rely i s t → F t)
    (hexec : ∀ o x s, F s → F (execSum i (.inl o) x s).2) {p : Prog S ρ α} {s : μ} (hF : F s)
    (h : P.Safe i Q p (π s)) : P'.Safe i (fun r a t => F t ∧ Q r a (π t)) p.lift s := by
  induction p generalizing s with
  | done r a => exact ⟨hF, h⟩
  | call r o k ih =>
      intro t hst ht
      obtain ⟨hpre, hk⟩ := h (π t) (hP.rely hst) (hP.inv ht)
      refine ⟨hP.pre ht hpre, fun x hx => ?_⟩
      have hsafe := hk x (hP.cond ht hx)
      rw [← hP.memory, ← hP.answer] at hsafe
      exact ih _ (hexec o x t (hrely s t hF hst)) hsafe
  | crash => exact hP.crash h
  | hang => exact hP.hang h

end Lift

/-! ### Soundness -/

/-- The condition on a step: `CallCond` for a call, `P.Cond` for an operation. -/
def Meets (P : Protocol S ι ρ κ χ exec) (CallCond : ι → γ → ρ → κ → Prop)
    (cfg : Config S ι ρ α κ) : Event ι γ χ → Prop
  | .call i c => ∀ r a, cfg.threads i = .done r a → CallCond i c r cfg.shared
  | .act i x => ∀ r o k, cfg.threads i = .call r o k → P.Cond i r o x cfg.shared

/-- Every thread keeps to the protocol, and rests in `Rest`. -/
structure Holds (P : Protocol S ι ρ κ χ exec) (Rest : ι → ρ → α → κ → Prop)
    (cfg : Config S ι ρ α κ) : Prop where
  inv : P.Inv cfg.shared
  safe : ∀ i, P.Safe i (Rest i) (cfg.threads i) cfg.shared

variable {Rest : ι → ρ → α → κ → Prop}

/-- What a thread knows when it is about to perform an operation. -/
theorem Holds.pre {cfg : Config S ι ρ α κ} (h : P.Holds Rest cfg) {r : ρ} {o : S.Op}
    {k : S.Ans o → Prog S ρ α} (hi : cfg.threads i = .call r o k) : P.Pre i r o cfg.shared := by
  have hsafe := h.safe i
  rw [hi] at hsafe
  exact (hsafe cfg.shared (P.refl i _) h.inv).1

theorem Holds.rest {cfg : Config S ι ρ α κ} (h : P.Holds Rest cfg) {r : ρ} {a : α}
    (hi : cfg.threads i = .done r a) : Rest i r a cfg.shared := by
  have hsafe := h.safe i
  rwa [hi] at hsafe

theorem Holds.hang {cfg : Config S ι ρ α κ} (h : P.Holds Rest cfg)
    (hi : cfg.threads i = .hang) : P.Hang i cfg.shared := by
  have hsafe := h.safe i
  rwa [hi] at hsafe

theorem Holds.not_crash {cfg : Config S ι ρ α κ} (h : P.Holds Rest cfg) (hcrash : ¬ P.Crash) :
    cfg.threads i ≠ .crash := by
  intro hi
  have hsafe := h.safe i
  rw [hi] at hsafe
  exact hcrash hsafe

/-- The thread is inside the code `p`, which is followed by `k`. -/
structure Inside (P : Protocol S ι ρ κ χ exec) (C : S.Op → Prop) (i : ι) (p : Prog S ρ β)
    (k : ρ → β → Prog S ρ α) (cfg : Config S ι ρ α κ) (q : Prog S ρ β) : Prop where
  remains : p.Remains q
  asks : q.Asks C
  safe : P.Safe i (fun _ _ _ => False) q cfg.shared
  code : cfg.threads i = q.bind k

theorem Inside.not_done {C : S.Op → Prop} {p q : Prog S ρ β} {k : ρ → β → Prog S ρ α}
    {cfg : Config S ι ρ α κ} (h : P.Inside C i p k cfg q) (r : ρ) (b : β) : q ≠ .done r b := by
  rintro rfl
  exact h.safe

section Sound

variable [DecidableEq ι] {enter : ι → γ → κ → κ} {body : γ → Code S ρ α}

variable {CallCond : ι → γ → ρ → κ → Prop}

/-- One step: a call starts code that is safe where the thread rests, and an
operation keeps the others safe, as they rely on no more than it guarantees. -/
theorem holds_step (hstable : ∀ i, P.Stable i (Rest i))
    (henter : ∀ i c r a s, P.Inv s → Rest i r a s → CallCond i c r s →
      P.Inv (enter i c s) ∧ ∀ j, j ≠ i → P.Rely j s (enter i c s))
    (hbody : ∀ i c r a s, P.Inv s → Rest i r a s → CallCond i c r s →
      P.Safe i (Rest i) (body c r) (enter i c s))
    (cfg : Config S ι ρ α κ) (e : Event ι γ χ) (h : P.Holds Rest cfg)
    (he : P.Meets CallCond cfg e) : P.Holds Rest (step exec enter body cfg e) := by
  cases e with
  | call i c =>
      cases hi : cfg.threads i with
      | done r a =>
          have hrest : Rest i r a cfg.shared := by simpa [hi, Safe] using h.safe i
          obtain ⟨hinv, hrely⟩ := henter i c r a _ h.inv hrest (he r a hi)
          refine ⟨by simpa [step, hi] using hinv, fun j => ?_⟩
          by_cases hj : j = i
          · subst hj
            simpa [step, hi] using hbody j c r a _ h.inv hrest (he r a hi)
          · simpa [step, hi, hj] using (h.safe j).of_rely (hstable j) (hrely j hj) hinv
      | call r o k => simpa [step, hi] using h
      | crash => simpa [step, hi] using h
      | hang => simpa [step, hi] using h
  | act i x =>
      cases hi : cfg.threads i with
      | call r o k =>
          have hsafe := h.safe i
          rw [hi] at hsafe
          obtain ⟨hpre, hk⟩ := hsafe cfg.shared (P.refl i _) h.inv
          have hcond : P.Cond i r o x cfg.shared := he r o k hi
          obtain ⟨hinv, hrely⟩ := P.keeps h.inv hpre hcond
          refine ⟨by simpa [step, hi] using hinv, fun j => ?_⟩
          by_cases hj : j = i
          · subst hj
            simpa [step, hi] using hk x hcond
          · simpa [step, hi, hj] using (h.safe j).of_rely (hstable j) (hrely j hj) hinv
      | done r a => simpa [step, hi] using h
      | crash => simpa [step, hi] using h
      | hang => simpa [step, hi] using h

/-- In a run whose steps all meet the condition, every thread keeps to the protocol. -/
theorem sound (hstable : ∀ i, P.Stable i (Rest i))
    (henter : ∀ i c r a s, P.Inv s → Rest i r a s → CallCond i c r s →
      P.Inv (enter i c s) ∧ ∀ j, j ≠ i → P.Rely j s (enter i c s))
    (hbody : ∀ i c r a s, P.Inv s → Rest i r a s → CallCond i c r s →
      P.Safe i (Rest i) (body c r) (enter i c s))
    {cfg : Config S ι ρ α κ} {es : List (Event ι γ χ)} (h : P.Holds Rest cfg)
    (hes : Run.Along (step exec enter body) (P.Meets CallCond) cfg es) :
    ∀ t ∈ Run.states (step exec enter body) cfg es, P.Holds Rest t :=
  Run.invariant (I := fun t : Config S ι ρ α κ => P.Holds Rest t)
    (fun t e ht he => holds_step hstable henter hbody t e ht he) h hes

/-- What the others rely on is what a step does. -/
theorem Holds.rely (henter : ∀ i c r a s, P.Inv s → Rest i r a s → CallCond i c r s →
      P.Inv (enter i c s) ∧ ∀ j, j ≠ i → P.Rely j s (enter i c s))
    {cfg : Config S ι ρ α κ} {e : Event ι γ χ} (h : P.Holds Rest cfg)
    (he : P.Meets CallCond cfg e) {j : ι} (hj : j ≠ e.thread) :
    P.Rely j cfg.shared (step exec enter body cfg e).shared := by
  cases e with
  | call i c =>
      rw [step]
      split
      case h_1 r a hi => exact (henter i c r a _ h.inv (h.rest hi) (he r a hi)).2 j hj
      case h_2 => exact P.refl j _
  | act i x =>
      rw [step]
      split
      case h_1 r o k hi => exact (P.keeps h.inv (h.pre hi) (he r o k hi)).2 j hj
      case h_2 => exact P.refl j _

/-- A step of the thread that is inside, which keeps what its operations keep. -/
theorem Inside.step {C : S.Op → Prop} {F : κ → Prop} {p q : Prog S ρ β} {k : ρ → β → Prog S ρ α}
    (hexec : ∀ o x s, C o → P.Inv s → F s → F (exec i o x s).2) {cfg : Config S ι ρ α κ}
    (h : P.Inside C i p k cfg q) (hcfg : P.Inv cfg.shared) (hF : F cfg.shared)
    {e : Event ι γ χ} (he : P.Meets CallCond cfg e) (hi : i = e.thread) :
    (∃ q', P.Inside C i p k (Thread.step exec enter body cfg e) q') ∧
      F (Thread.step exec enter body cfg e).shared := by
  obtain ⟨hremains, hasks, hsafe, hcode⟩ := h
  cases q with
  | done r a => exact hsafe.elim
  | call r o k' =>
      cases e with
      | call j c =>
          obtain rfl : i = j := hi
          have hsame : Thread.step exec enter body cfg (.call i c) = cfg := by
            simp [Thread.step, hcode, Prog.bind]
          rw [hsame]
          exact ⟨⟨_, hremains, hasks, hsafe, hcode⟩, hF⟩
      | act j x =>
          obtain rfl : i = j := hi
          have hcond : P.Cond i r o x cfg.shared := he r o _ hcode
          have hnext := (hsafe cfg.shared (P.refl i _) hcfg).2 x hcond
          have hstep : Thread.step exec enter body cfg (.act i x) =
              { shared := (exec i o x cfg.shared).2
                threads := Function.update cfg.threads i
                  ((k' (exec i o x cfg.shared).1).bind k) } := by
            simp [Thread.step, hcode, Prog.bind]
          rw [hstep]
          refine ⟨⟨_, hremains.after _, hasks.2 _, hnext, ?_⟩, hexec o x _ hasks.1 hcfg hF⟩
          exact Function.update_self ..
  | crash | hang =>
      have hsame : Thread.step exec enter body cfg e = cfg := by
        cases e with
        | call j c =>
            obtain rfl : i = j := hi
            simp [Thread.step, hcode, Prog.bind]
        | act j x =>
            obtain rfl : i = j := hi
            simp [Thread.step, hcode, Prog.bind]
      rw [hsame]
      exact ⟨⟨_, hremains, hasks, hsafe, hcode⟩, hF⟩

/-- Code that is safe for no end is not left, whatever the others do. -/
theorem stays (hstable : ∀ i, P.Stable i (Rest i))
    (henter : ∀ i c r a s, P.Inv s → Rest i r a s → CallCond i c r s →
      P.Inv (enter i c s) ∧ ∀ j, j ≠ i → P.Rely j s (enter i c s))
    (hbody : ∀ i c r a s, P.Inv s → Rest i r a s → CallCond i c r s →
      P.Safe i (Rest i) (body c r) (enter i c s))
    {C : S.Op → Prop} {F : κ → Prop} (hrely : ∀ s t, F s → P.Rely i s t → P.Inv t → F t)
    (hexec : ∀ o x s, C o → P.Inv s → F s → F (exec i o x s).2)
    {p q : Prog S ρ β} {k : ρ → β → Prog S ρ α} {cfg : Config S ι ρ α κ}
    {es : List (Event ι γ χ)} (h : P.Holds Rest cfg) (hi : P.Inside C i p k cfg q)
    (hF : F cfg.shared) (hes : Run.Along (step exec enter body) (P.Meets CallCond) cfg es) :
    ∀ t ∈ Run.states (step exec enter body) cfg es,
      P.Holds Rest t ∧ (∃ q', P.Inside C i p k t q') ∧ F t.shared := by
  refine Run.invariant (I := fun t : Config S ι ρ α κ =>
    P.Holds Rest t ∧ (∃ q', P.Inside C i p k t q') ∧ F t.shared) (fun t e ht he => ?_)
    ⟨h, ⟨q, hi⟩, hF⟩ hes
  obtain ⟨ht, ⟨q', hq'⟩, hFt⟩ := ht
  have hnext := holds_step hstable henter hbody t e ht he
  refine ⟨hnext, ?_⟩
  by_cases hie : i = e.thread
  · exact hq'.step hexec ht.inv hFt he hie
  · have hst : P.Rely i t.shared (Thread.step exec enter body t e).shared := ht.rely henter he hie
    refine ⟨⟨q', hq'.remains, hq'.asks, ?_, (threads_step hie).trans hq'.code⟩,
      hrely _ _ hFt hst hnext.inv⟩
    exact hq'.safe.of_rely (fun _ _ _ _ hfalse _ _ => hfalse) hst hnext.inv

end Sound

/-! ### Results alone -/

section Unchecked

variable (exec) in
/-- The protocol that asks for nothing: what is left of `Safe` is what the code returns. -/
def unchecked : Protocol S ι ρ κ χ exec where
  Inv _ := True
  Rely _ _ _ := True
  Cond _ _ _ _ _ := True
  Pre _ _ _ _ := True
  Crash := True
  Hang _ _ := True
  refl _ _ := trivial
  trans _ _ := trivial
  hang_stable _ _ := trivial
  keeps _ _ _ := ⟨trivial, fun _ _ => trivial⟩

theorem unchecked_safe {p : Prog S ρ α} (h : ∀ r a s, Q r a s) :
    (unchecked (ρ := ρ) exec).Safe i Q p s := by
  induction p generalizing s with
  | done r a => exact h r a s
  | call r o k ih => exact fun _ _ _ => ⟨trivial, fun x _ => ih _⟩
  | crash => trivial
  | hang => trivial

/-- Whatever the first part returns. -/
theorem unchecked_seq {m : Code S ρ β} {f : β → Code S ρ α}
    (h : ∀ r b s, (unchecked (ρ := ρ) exec).Safe i Q (f b r) s) :
    (unchecked (ρ := ρ) exec).Safe i Q ((m >>= f) r) s :=
  safe_seq.mpr (unchecked_safe h)

end Unchecked
end Protocol
end Thread
end Library
