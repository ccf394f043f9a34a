import Cmw.Croutine.Switching

/-!
# A switch is not noticed

Every context that does not run rests as it was left: its stack pointer is in its cell, and
what `ctx_swap` pushed is below it.  No thread writes there, because the contexts lie apart
and a routine is run by the thread that has acquired it, so whoever is entered goes on
with what it was left with.
-/

namespace Cmw
namespace Croutine

open Library
open Library.Amd64

variable {τ ρ : Type}

/-- A context lies as it was left with `k`. -/
structure Rests (p : Place) (m : Memory) (k : Kept) : Prop where
  suspended : Suspended m p.cell k.next
  room : p.Room k.next.sp
  mem : ∀ x, p.InUse k.next.sp x → m x = k.mem x

theorem Rests.congr {p : Place} {m m' : Memory} {k : Kept} (h : Rests p m k)
    (hm : ∀ x, p.Area x → m' x = m x) : Rests p m' k where
  suspended := h.suspended.congr fun x hx =>
    hm x (hx.imp_right (Place.within_of_frame h.room))
  room := h.room
  mem x hx := (hm x (.inr hx.2)).trans (h.mem x hx)

namespace System

/-- Whose turn it is to be where. -/
structure Owned (s : System τ ρ) : Prop where
  holds : ∀ t r, r ∈ (s.thread t).holds → (s.routine r).lock = true ∧ (s.routine r).made = true
  alone : ∀ t t' r, r ∈ (s.thread t).holds → r ∈ (s.thread t').holds → t = t'
  current : ∀ t r, (s.thread t).current = some r → r ∈ (s.thread t).holds

/-- A context runs, or it rests as it was left. -/
structure Inv (l : Layout τ ρ) (s : System τ ρ) : Prop extends s.Owned where
  rests : ∀ c k, s.kept c = some k → Rests (l.place c) s.mem k
  running : ∀ t, s.kept (s.running t) = none
  main : ∀ t, (s.thread t).current ≠ none → ∃ k, s.kept (.main t) = some k
  made : ∀ r, (s.routine r).made = true →
    (∃ k, s.kept (.routine r) = some k) ∨ ∃ t, (s.thread t).current = some r

variable {l : Layout τ ρ} {s : System τ ρ} {t : τ} {r : ρ} {c dest : Context τ ρ} {k : Kept}
  {current : Option ρ} {returnTo : Word} {cr : CRoutine}

theorem running_of_current (h : (s.thread t).current = some r) : s.running t = .routine r := by
  rw [running, h]

theorem running_of_none (h : (s.thread t).current = none) : s.running t = .main t := by
  rw [running, h]

theorem Inv.kept_of_target [DecidableEq ρ] {e : Event τ ρ} (h : s.Inv l)
    (htarget : s.target e = some (t, c)) : ∃ k, s.kept c = some k := by
  cases e with
  | resume t' r returnTo =>
      rw [target] at htarget
      split at htarget
      · case isTrue hguard =>
          obtain ⟨rfl, rfl⟩ : t' = t ∧ .routine r = c := by simpa using htarget
          obtain ⟨hholds, hcurrent, -, -⟩ := hguard
          refine (h.made r (h.holds t' r hholds).2).resolve_right ?_
          rintro ⟨t, ht⟩
          obtain rfl := h.alone t t' r (h.current t r ht) hholds
          rw [hcurrent] at ht
          cases ht
      · cases htarget
  | yield t' state returnTo =>
      rw [target] at htarget
      split at htarget
      · cases htarget
      · case isFalse hcurrent =>
          obtain ⟨rfl, rfl⟩ : t' = t ∧ .main t' = c := by simpa using htarget
          exact h.main t' hcurrent
  | make | work | acquire | release | setState | stop => cases htarget

/-- The thread may switch to a context that was left with `k`. -/
structure MaySwap (l : Layout τ ρ) (s : System τ ρ) (t : τ) (dest : Context τ ρ) (k : Kept) :
    Prop where
  rests : ∀ c k, s.kept c = some k → Rests (l.place c) s.mem k
  running : s.kept (s.running t) = none
  kept : s.kept dest = some k
  room : (l.place (s.running t)).Room ((s.thread t).regs .rsp)

theorem MaySwap.ne (h : MaySwap l s t dest k) : dest ≠ s.running t := by
  rintro rfl
  have hk := h.kept
  rw [h.running] at hk
  cases hk

theorem MaySwap.switched (hl : l.Apart) (h : MaySwap l s t dest k) (returnTo : Word) :
    Switched (l.place (s.running t)).cell returnTo k.next (s.machine t)
      (swapContext (l.place (s.running t)).cell (l.place dest).cell returnTo (s.machine t)) := by
  have hk := h.rests dest k h.kept
  have hapart : ∀ x, (l.place dest).Area x →
      ¬ Memory.Within (l.place (s.running t)).cell 8 x ∧ ¬ frame ((s.thread t).regs .rsp) x := by
    intro x hx
    have hx := hl.areas dest _ h.ne x hx
    exact ⟨fun h => hx (.inl h), fun hframe => hx (.inr (Place.within_of_frame h.room hframe))⟩
  exact swapContext_switched hk.suspended (fun x hx => hapart x (.inl hx))
    (fun x hx => hapart x (.inr (Place.within_of_frame hk.room hx)))
    fun x hx hcell => hl.cell _ hcell (Place.within_of_frame h.room hx)

/-- The machine after the switch. -/
def afterSwap (l : Layout τ ρ) (s : System τ ρ) (t : τ) (dest : Context τ ρ) (returnTo : Word) :
    State :=
  swapContext (l.place (s.running t)).cell (l.place dest).cell returnTo (s.machine t)

theorem MaySwap.mem_of_not_area (hl : l.Apart) (h : MaySwap l s t dest k) (returnTo : Word)
    {x : Word} (hx : ¬ (l.place (s.running t)).Area x) :
    (s.afterSwap l t dest returnTo).mem x = s.mem x := by
  have hframe : ¬ frame ((s.machine t).regs .rsp) x := fun hframe =>
    hx (.inr (Place.within_of_frame h.room hframe))
  exact (h.switched hl returnTo).mem x (fun hcell => hx (.inl hcell)) hframe

/-- Two threads run two contexts. -/
theorem Owned.running_inj (h : s.Owned) {t t' : τ} (ht : s.running t = s.running t') : t = t' := by
  rw [running, running] at ht
  split at ht
  · case h_1 r hr =>
      split at ht
      · case h_1 r' hr' =>
          cases ht
          exact h.alone t t' r (h.current t r hr) (h.current t' r hr')
      · cases ht
  · split at ht
    · cases ht
    · cases ht
      rfl

/-- A step that moves nothing but what `Owned` is about. -/
theorem Inv.of_owned (h : s.Inv l) {s' : System τ ρ} (howned : s'.Owned) (hkept : s'.kept = s.kept)
    (hcurrent : ∀ t, (s'.thread t).current = (s.thread t).current)
    (hmade : ∀ r, (s'.routine r).made = (s.routine r).made)
    (hmem : ∀ c k, s.kept c = some k → ∀ x, (l.place c).Area x → s'.mem x = s.mem x) :
    s'.Inv l where
  toOwned := howned
  rests c k hk := by
    rw [hkept] at hk
    exact (h.rests c k hk).congr (hmem c k hk)
  running t := by
    have hrunning : s'.running t = s.running t := by rw [System.running, System.running, hcurrent]
    rw [hkept, hrunning]
    exact h.running t
  main t ht := by
    rw [hcurrent] at ht
    rw [hkept]
    exact h.main t ht
  made r hr := by
    rw [hmade] at hr
    rw [hkept]
    refine (h.made r hr).imp_right fun ⟨t, ht⟩ => ⟨t, ?_⟩
    rwa [hcurrent]

variable [DecidableEq ρ]

@[simp] theorem routine_setRoutine :
    (s.setRoutine r cr).routine = Function.update s.routine r cr := rfl

theorem setRoutine_of_eq {β : Type} {f : CRoutine → β} (hf : f cr = f (s.routine r)) (r' : ρ) :
    f ((s.setRoutine r cr).routine r') = f (s.routine r') := by
  rw [routine_setRoutine]
  by_cases hne : r' = r
  · rw [hne, Function.update_self, hf]
  · rw [Function.update_of_ne hne]

/-- A change of a routine that is no change of whose it is. -/
theorem Inv.setRoutine (h : s.Inv l) (hlock : cr.lock = (s.routine r).lock)
    (hmade : cr.made = (s.routine r).made) : (s.setRoutine r cr).Inv l := by
  refine h.of_owned ⟨fun t r' hr' => ?_, h.alone, h.current⟩ rfl (fun _ => rfl)
    (setRoutine_of_eq hmade) fun _ _ _ _ _ => rfl
  rw [setRoutine_of_eq hlock, setRoutine_of_eq hmade]
  exact h.holds t r' hr'

variable [DecidableEq τ]

omit [DecidableEq ρ] in
@[simp] theorem thread_setThread {thr : Thread ρ} :
    (s.setThread t thr).thread = Function.update s.thread t thr := rfl

omit [DecidableEq ρ] in
theorem setThread_of_eq {β : Type} {f : Thread ρ → β} {thr : Thread ρ} (hf : f thr = f (s.thread t))
    (t' : τ) : f ((s.setThread t thr).thread t') = f (s.thread t') := by
  rw [thread_setThread]
  by_cases hne : t' = t
  · rw [hne, Function.update_self, hf]
  · rw [Function.update_of_ne hne]

omit [DecidableEq ρ] in
theorem Inv.work (h : s.Inv l) {regs : Regs} {pc : Word} {mem : Memory}
    (hproper : ∀ c, c ≠ s.running t → ∀ x, (l.place c).Area x → mem x = s.mem x) :
    ({ s.setThread t { s.thread t with regs, pc } with mem } : System τ ρ).Inv l := by
  have hholds : ∀ t', ((s.setThread t { s.thread t with regs, pc }).thread t').holds =
      (s.thread t').holds := setThread_of_eq rfl
  have hcurrent : ∀ t', ((s.setThread t { s.thread t with regs, pc }).thread t').current =
      (s.thread t').current := setThread_of_eq rfl
  refine h.of_owned ⟨fun t' r hr => ?_, fun t' t'' r hr hr' => ?_, fun t' r hr => ?_⟩ rfl hcurrent
    (fun _ => rfl) fun c k hk x hx => hproper c (fun hc => ?_) x hx
  · dsimp only at hr
    rw [hholds] at hr
    exact h.holds t' r hr
  · dsimp only at hr hr'
    rw [hholds] at hr hr'
    exact h.alone t' t'' r hr hr'
  · dsimp only at hr ⊢
    rw [hcurrent] at hr
    rw [hholds]
    exact h.current t' r hr
  · rw [hc, h.running t] at hk
    cases hk

theorem Inv.acquire (h : s.Inv l) (hmade : (s.routine r).made = true)
    (hlock : (s.routine r).lock = false) :
    ((s.setRoutine r { s.routine r with lock := true }).setThread t
      { s.thread t with holds := r :: (s.thread t).holds }).Inv l := by
  have hnone : ∀ t, r ∉ (s.thread t).holds := fun t hr => by
    have hr := (h.holds t r hr).1
    rw [hlock] at hr
    cases hr
  have hholds : ∀ t' r', r' ∈ (Function.update s.thread t
      { s.thread t with holds := r :: (s.thread t).holds } t').holds ↔
        t' = t ∧ r' = r ∨ r' ∈ (s.thread t').holds := by
    intro t' r'
    by_cases ht : t' = t
    · subst ht
      rw [Function.update_self, List.mem_cons, and_iff_right rfl]
    · rw [Function.update_of_ne ht, or_iff_right fun hand => ht hand.1]
  have hcurrent : ∀ t', ((s.setThread t { s.thread t with
      holds := r :: (s.thread t).holds }).thread t').current = (s.thread t').current :=
    setThread_of_eq rfl
  refine h.of_owned ⟨fun t' r' hr' => ?_, fun t' t'' r' hr' hr'' => ?_, fun t' r' hr' => ?_⟩ rfl
    hcurrent (setRoutine_of_eq rfl) fun _ _ _ _ _ => rfl
  · by_cases hne : r' = r
    · show (Function.update s.routine r _ r').lock = true ∧
        (Function.update s.routine r _ r').made = true
      rw [hne, Function.update_self]
      exact ⟨rfl, hmade⟩
    · show (Function.update s.routine r _ r').lock = true ∧
        (Function.update s.routine r _ r').made = true
      rw [Function.update_of_ne hne]
      exact h.holds t' r' (((hholds t' r').mp hr').resolve_left fun hand => hne hand.2)
  · rcases (hholds t' r').mp hr' with ⟨rfl, rfl⟩ | hin
    · rcases (hholds t'' r').mp hr'' with ⟨rfl, -⟩ | hin
      · rfl
      · exact absurd hin (hnone t'')
    · rcases (hholds t'' r').mp hr'' with ⟨rfl, rfl⟩ | hin'
      · exact absurd hin (hnone t')
      · exact h.alone t' t'' r' hin hin'
  · exact (hholds t' r').mpr (.inr (h.current t' r' ((hcurrent t').symm.trans hr')))

theorem Inv.release (h : s.Inv l) (hholds : r ∈ (s.thread t).holds)
    (hcurrent : (s.thread t).current ≠ some r) :
    ((s.setRoutine r { s.routine r with lock := false }).setThread t
      { s.thread t with holds := (s.thread t).holds.filter (· ≠ r) }).Inv l := by
  have hholds' : ∀ t' r', r' ∈ (Function.update s.thread t
      { s.thread t with holds := (s.thread t).holds.filter (· ≠ r) } t').holds ↔
        r' ≠ r ∧ r' ∈ (s.thread t').holds := by
    intro t' r'
    by_cases ht : t' = t
    · subst ht
      rw [Function.update_self, List.mem_filter, decide_eq_true_iff, and_comm]
    · rw [Function.update_of_ne ht]
      refine (and_iff_right_of_imp fun hr' heq => ht ?_).symm
      exact h.alone t' t r (heq ▸ hr') hholds
  have hcurrent' : ∀ t', ((s.setThread t { s.thread t with
      holds := (s.thread t).holds.filter (· ≠ r) }).thread t').current = (s.thread t').current :=
    setThread_of_eq rfl
  refine h.of_owned ⟨fun t' r' hr' => ?_, fun t' t'' r' hr' hr'' => ?_, fun t' r' hr' => ?_⟩ rfl
    hcurrent' (setRoutine_of_eq rfl) fun _ _ _ _ _ => rfl
  · have hr' := (hholds' t' r').mp hr'
    show (Function.update s.routine r _ r').lock = true ∧
      (Function.update s.routine r _ r').made = true
    rw [Function.update_of_ne hr'.1]
    exact h.holds t' r' hr'.2
  · exact h.alone t' t'' r' ((hholds' t' r').mp hr').2 ((hholds' t'' r').mp hr'').2
  · have hruns : (s.thread t').current = some r' := (hcurrent' t').symm.trans hr'
    refine (hholds' t' r').mpr ⟨fun heq => ?_, h.current t' r' hruns⟩
    subst heq
    obtain rfl := h.alone t' t r' (h.current t' r' hruns) hholds
    exact hcurrent hruns

/-! ## A switch -/

theorem mem_swap : (s.swap l t dest current returnTo).mem = (s.afterSwap l t dest returnTo).mem := by
  simp only [swap, afterSwap]

theorem machine_swap :
    (s.swap l t dest current returnTo).machine t = s.afterSwap l t dest returnTo := by
  simp only [machine, swap, Function.update_self, afterSwap]

theorem goesOn_swap (hl : l.Apart) (h : MaySwap l s t dest k) :
    GoesOn (l.place dest) k ((s.swap l t dest current returnTo).machine t) := by
  have hswitched := h.switched hl returnTo
  rw [machine_swap]
  refine ⟨hswitched.regs, hswitched.sp, hswitched.pc, fun x hx => ?_⟩
  rw [h.mem_of_not_area hl returnTo (hl.areas dest _ h.ne x (.inr hx.2))]
  exact (h.rests dest k h.kept).mem x hx

/-- What is left lies as it was left, and the others as before. -/
theorem rests_swap (hl : l.Apart) (h : MaySwap l s t dest k) (c : Context τ ρ) (k' : Kept)
    (hk' : (s.swap l t dest current returnTo).kept c = some k') :
    Rests (l.place c) (s.swap l t dest current returnTo).mem k' := by
  rw [mem_swap]
  rw [swap] at hk'
  dsimp only at hk'
  by_cases hc : c = dest
  · rw [hc, Function.update_self] at hk'
    cases hk'
  rw [Function.update_of_ne hc] at hk'
  by_cases hrun : c = s.running t
  · rw [hrun, Function.update_self] at hk'
    cases hk'
    have hswitched := h.switched hl returnTo
    rw [hrun]
    refine ⟨hswitched.left, h.room, fun x hx => hswitched.mem x (fun hcell => ?_) ?_⟩
    · exact hl.cell _ hcell hx.2
    · exact Place.not_frame_of_inUse h.room hx
  · rw [Function.update_of_ne hrun] at hk'
    exact (h.rests c k' hk').congr fun x hx =>
      h.mem_of_not_area hl returnTo (hl.areas c _ hrun x hx)

theorem thread_swap_of_ne {t' : τ} (ht : t' ≠ t) :
    (s.swap l t dest current returnTo).thread t' = s.thread t' := by
  simp only [swap, Function.update_of_ne ht]

theorem thread_swap_holds (t' : τ) :
    ((s.swap l t dest current returnTo).thread t').holds = (s.thread t').holds := by
  by_cases ht : t' = t
  · subst ht
    simp only [swap, Function.update_self]
  · rw [thread_swap_of_ne ht]

theorem thread_swap_current :
    ((s.swap l t dest current returnTo).thread t).current = current := by
  simp only [swap, Function.update_self]

theorem kept_swap_of_ne (hdest : c ≠ dest) (hrun : c ≠ s.running t) :
    (s.swap l t dest current returnTo).kept c = s.kept c := by
  simp only [swap, Function.update_of_ne hdest, Function.update_of_ne hrun]

theorem kept_swap_running (h : dest ≠ s.running t) :
    ∃ k, (s.swap l t dest current returnTo).kept (s.running t) = some k := by
  simp only [swap, Function.update_of_ne (Ne.symm h), Function.update_self]
  exact ⟨_, rfl⟩

theorem kept_swap_dest : (s.swap l t dest current returnTo).kept dest = none := by
  simp only [swap, Function.update_self]

theorem Owned.swap (h : s.Owned) (hcurrent : ∀ r, current = some r → r ∈ (s.thread t).holds) :
    (s.swap l t dest current returnTo).Owned where
  holds t' r hr := by
    rw [thread_swap_holds] at hr
    exact h.holds t' r hr
  alone t' t'' r hr hr' := by
    rw [thread_swap_holds] at hr hr'
    exact h.alone t' t'' r hr hr'
  current t' r hr := by
    rw [thread_swap_holds]
    by_cases ht : t' = t
    · subst ht
      rw [thread_swap_current] at hr
      exact hcurrent r hr
    · rw [thread_swap_of_ne ht] at hr
      exact h.current t' r hr

theorem running_swap_of_ne {t' : τ} (ht : t' ≠ t) :
    (s.swap l t dest current returnTo).running t' = s.running t' := by
  rw [running, running, thread_swap_of_ne ht]

/-- `Resume`: from the stack of the thread to the routine. -/
theorem Inv.enter (hl : l.Apart) (h : s.Inv l) (hcurrent : (s.thread t).current = none)
    (hholds : r ∈ (s.thread t).holds) (hk : s.kept (.routine r) = some k)
    (hroom : (l.place (s.running t)).Room ((s.thread t).regs .rsp)) :
    (s.swap l t (.routine r) (some r) returnTo).Inv l := by
  have hrun : s.running t = .main t := running_of_none hcurrent
  refine
    { toOwned := h.toOwned.swap (by rintro r ⟨⟩; exact hholds)
      rests := rests_swap hl ⟨h.rests, h.running t, hk, hroom⟩
      running := fun t' => ?_
      main := fun t' ht' => ?_
      made := fun r' hr' => ?_ }
  · by_cases ht : t' = t
    · subst ht
      rw [running_of_current thread_swap_current]
      exact kept_swap_dest
    · have hdest : s.running t' ≠ .routine r := by
        intro heq
        have h := h.running t'
        rw [heq, hk] at h
        cases h
      rw [running_swap_of_ne ht, kept_swap_of_ne hdest fun heq => ht (h.running_inj heq)]
      exact h.running t'
  · by_cases ht : t' = t
    · subst ht
      rw [← hrun]
      exact kept_swap_running (by rw [hrun]; nofun)
    · rw [kept_swap_of_ne (by nofun) (by rw [hrun]; exact fun heq => ht (by cases heq; rfl))]
      rw [thread_swap_of_ne ht] at ht'
      exact h.main t' ht'
  · by_cases hne : r' = r
    · exact .inr ⟨t, by rw [thread_swap_current, hne]⟩
    · rw [kept_swap_of_ne (by simpa using hne) (by rw [hrun]; nofun)]
      refine (h.made r' hr').imp_right fun ⟨t', ht'⟩ => ⟨t', ?_⟩
      rwa [thread_swap_of_ne]
      rintro rfl
      rw [hcurrent] at ht'
      cases ht'

/-- `Yield`: from the routine to the stack of the thread. -/
theorem Inv.leave (hl : l.Apart) (h : s.Inv l) (hcurrent : (s.thread t).current = some r)
    (hroom : (l.place (s.running t)).Room ((s.thread t).regs .rsp)) :
    (s.swap l t (.main t) none returnTo).Inv l := by
  have hrun : s.running t = .routine r := running_of_current hcurrent
  obtain ⟨k, hk⟩ := h.main t (by rw [hcurrent]; nofun)
  refine
    { toOwned := h.toOwned.swap (by rintro r ⟨⟩)
      rests := rests_swap hl ⟨h.rests, h.running t, hk, hroom⟩
      running := fun t' => ?_
      main := fun t' ht' => ?_
      made := fun r' hr' => ?_ }
  · by_cases ht : t' = t
    · subst ht
      rw [running_of_none thread_swap_current]
      exact kept_swap_dest
    · have hdest : s.running t' ≠ .main t := by
        intro heq
        have h := h.running t'
        rw [heq, hk] at h
        cases h
      rw [running_swap_of_ne ht, kept_swap_of_ne hdest fun heq => ht (h.running_inj heq)]
      exact h.running t'
  · by_cases ht : t' = t
    · subst ht
      exact absurd thread_swap_current ht'
    · rw [kept_swap_of_ne (by simpa using ht) (by rw [hrun]; nofun)]
      rw [thread_swap_of_ne ht] at ht'
      exact h.main t' ht'
  · by_cases hne : r' = r
    · rw [hne, ← hrun]
      exact .inl (kept_swap_running (by rw [hrun]; nofun))
    · rw [kept_swap_of_ne (by nofun) (by rw [hrun]; simpa using hne)]
      refine (h.made r' hr').imp_right fun ⟨t', ht'⟩ => ⟨t', ?_⟩
      rwa [thread_swap_of_ne]
      rintro rfl
      rw [hcurrent] at ht'
      exact hne (by cases ht'; rfl)

/-- The constructor writes to no context that another routine runs in or rests in. -/
theorem Inv.make (hl : l.Apart) (h : s.Inv l) (hlock : (s.routine r).lock = false) (f1 arg : Word) :
    (step l s (.make r f1 arg)).Inv l := by
  have hnone : ∀ t, r ∉ (s.thread t).holds := fun t hr => by
    have hr := (h.holds t r hr).1
    rw [hlock] at hr
    cases hr
  have hrun : ∀ t, s.running t ≠ .routine r := by
    intro t ht
    rw [System.running] at ht
    split at ht
    · case h_1 r' hr' =>
        cases ht
        exact hnone t (h.current t r hr')
    · cases ht
  have hroom : (l.place (.routine r : Context τ ρ)).Room (entry f1 arg (l.ctx r)).sp := by
    have hsp : (l.ctx r + BitVec.ofNat 64 stackSize - 8 - l.ctx r).toNat = stackSize - 8 := by
      rw [stackSize]
      bv_omega
    show 64 ≤ (l.ctx r + BitVec.ofNat 64 stackSize - 8 - l.ctx r).toNat ∧
      (l.ctx r + BitVec.ofNat 64 stackSize - 8 - l.ctx r).toNat ≤ stackSize
    rw [hsp, stackSize]
    decide
  have hmem : ∀ x, ¬ (l.place (.routine r : Context τ ρ)).Area x →
      makeContext f1 arg (l.ctx r) s.mem x = s.mem x := fun x hx =>
    makeContext_of_not_within (fun hcell => hx (.inl hcell))
      fun hframe => hx (.inr (Place.within_of_frame hroom hframe))
  rw [step, if_neg (by rw [hlock]; exact Bool.false_ne_true)]
  refine
    { holds := fun t r' hr' => ?_
      alone := h.alone
      current := h.current
      rests := fun c k hk => ?_
      running := fun t => ?_
      main := fun t ht => ?_
      made := fun r' hr' => ?_ }
  · have hne : r' ≠ r := fun heq => hnone t (heq ▸ hr')
    have hroutine : Function.update s.routine r { made := true } r' = s.routine r' :=
      Function.update_of_ne hne _ _
    exact (congrArg (fun cr : CRoutine => cr.lock = true ∧ cr.made = true) hroutine).mpr
      (h.holds t r' hr')
  · dsimp only at hk ⊢
    by_cases hc : c = .routine r
    · rw [hc, Function.update_self] at hk
      cases hk
      rw [hc]
      exact ⟨makeContext_suspended f1 arg (l.ctx r) s.mem, hroom, fun x _ => rfl⟩
    · rw [Function.update_of_ne hc] at hk
      exact (h.rests c k hk).congr fun x hx => hmem x (hl.areas c _ hc x hx)
  · exact (Function.update_of_ne (hrun t) _ _).trans (h.running t)
  · obtain ⟨k, hk⟩ := h.main t ht
    have hne : (Context.main t : Context τ ρ) ≠ .routine r := by rintro ⟨⟩
    dsimp only
    rw [Function.update_of_ne hne]
    exact ⟨k, hk⟩
  · dsimp only at hr' ⊢
    by_cases hne : r' = r
    · rw [hne, Function.update_self]
      exact .inl ⟨_, rfl⟩
    · have hne' : (Context.routine r' : Context τ ρ) ≠ .routine r := by simpa using hne
      rw [Function.update_of_ne hne']
      have hroutine : Function.update s.routine r { made := true } r' = s.routine r' :=
        Function.update_of_ne hne _ _
      exact h.made r' ((congrArg (fun cr : CRoutine => cr.made = true) hroutine).mp hr')

/-! ## Every event -/

omit [DecidableEq ρ] [DecidableEq τ] in
theorem inv_start (l : Layout τ ρ) (machines : τ → State) (mem : Memory) :
    (start machines mem : System τ ρ).Inv l where
  holds _ _ h := absurd h List.not_mem_nil
  alone _ _ _ h := absurd h List.not_mem_nil
  current _ _ h := by cases h
  rests _ _ h := by cases h
  running _ := rfl
  main _ h := absurd rfl h
  made _ h := by cases h

theorem Inv.step (hl : l.Apart) (h : s.Inv l) {e : Event τ ρ} (hproper : s.Proper l e) :
    (System.step l s e).Inv l := by
  cases e with
  | make r f1 arg =>
      cases hlock : (s.routine r).lock with
      | true =>
          rw [System.step, if_pos hlock]
          exact h
      | false => exact h.make hl hlock f1 arg
  | work t regs pc mem => exact h.work hproper
  | acquire t r =>
      rw [System.step]
      split
      · case isTrue hguard => exact h.acquire hguard.1 hguard.2
      · exact h
  | resume t r returnTo =>
      rw [System.step]
      split
      · case isTrue hguard =>
          split
          · exact h.setRoutine rfl rfl
          · case isFalse hstop =>
              split
              · case isTrue hready =>
                  have htarget : s.target (.resume t r returnTo) = some (t, .routine r) :=
                    if_pos ⟨hguard.1, hguard.2, Bool.eq_false_of_not_eq_true hstop, hready⟩
                  obtain ⟨k, hk⟩ := h.kept_of_target htarget
                  exact h.enter hl hguard.2 hguard.1 hk (hproper t _ htarget)
              · exact h
      · exact h
  | yield t state returnTo =>
      rw [System.step]
      split
      · case h_1 r hr =>
          have htarget : s.target (.yield t state returnTo) = some (t, .main t) :=
            if_neg (by rw [hr]; nofun)
          have hset : (s.setRoutine r
              { s.routine r with state := state.getD (s.routine r).state }).Inv l :=
            h.setRoutine rfl rfl
          exact hset.leave hl hr (hproper t _ htarget)
      · exact h
  | release t r =>
      rw [System.step]
      split
      · case isTrue hguard => exact h.release hguard.1 hguard.2
      · exact h
  | setState r state => exact h.setRoutine rfl rfl
  | stop r => exact h.setRoutine rfl rfl

theorem Inv.transparent_step (hl : l.Apart) (h : s.Inv l) {e : Event τ ρ} (hproper : s.Proper l e) :
    s.Transparent l e := by
  intro t c htarget
  obtain ⟨k, hk⟩ := h.kept_of_target htarget
  have hmay : MaySwap l s t c k := by
    refine ⟨h.rests, h.running t, hk, ?_⟩
    cases e with
    | resume | yield => exact hproper t c htarget
    | make | work | acquire | release | setState | stop => cases htarget
  refine ⟨k, hk, ?_⟩
  cases e with
  | resume t' r returnTo =>
      rw [target] at htarget
      split at htarget
      · case isTrue hguard =>
          obtain ⟨rfl, rfl⟩ : t' = t ∧ .routine r = c := by simpa using htarget
          obtain ⟨hholds, hcurrent, hstop, hready⟩ := hguard
          rw [System.step, if_pos ⟨hholds, hcurrent⟩, if_neg (by rw [hstop]; nofun), if_pos hready]
          exact goesOn_swap hl hmay
      · cases htarget
  | yield t' state returnTo =>
      rw [target] at htarget
      split at htarget
      · cases htarget
      · case isFalse hcurrent =>
          obtain ⟨rfl, rfl⟩ : t' = t ∧ .main t' = c := by simpa using htarget
          obtain ⟨r, hr⟩ := Option.ne_none_iff_exists'.mp hcurrent
          rw [System.step, hr]
          exact goesOn_swap hl ⟨hmay.rests, hmay.running, hmay.kept, hmay.room⟩
  | make | work | acquire | release | setState | stop => cases htarget

/-- A routine, and a thread on its own stack, do not notice that they have been left: whoever is
entered goes on with the registers, the stack pointer and the stack that it was left with,
in whatever order the threads run and switch. -/
theorem transparent (hl : l.Apart) (machines : τ → State) (mem : Memory)
    (es : List (Event τ ρ))
    (hproper : Run.Along (System.step l) (fun s e => s.Proper l e) (start machines mem) es) :
    Run.Along (System.step l) (fun s e => s.Transparent l e) (start machines mem) es :=
  Run.along_of_invariant (I := fun s => s.Inv l) (fun _ _ h hC => h.step hl hC)
    (fun _ _ h hC => h.transparent_step hl hC) (inv_start l machines mem) hproper

/-- Two threads, and two contexts. -/
def twoThreads : Layout Bool Bool where
  main t :=
    { cell := cond t 0x7f0000000000 0x7e0000000000
      low := cond t 0x7f0000001000 0x7e0000001000
      size := 8 * 1024 * 1024 }
  ctx r := cond r 0x20000000 0x10000000

/-- A routine is left in one thread and goes on in the other. -/
def handedOver : List (Event Bool Bool) :=
  [.make false 0x401000 0x5000, .acquire true false, .resume true false 0x402000,
    .yield true (some .ready) 0x403000, .release true false, .acquire false false,
    .resume false false 0x404000]

def twoMachines (t : Bool) : State where
  regs r := if r = .rsp then cond t 0x7f0000800000 0x7e0000800000 else 7
  pc := 0x400000
  mem _ := 0

theorem twoThreads_apart : twoThreads.Apart where
  areas := by
    rintro (⟨_ | _⟩ | ⟨_ | _⟩) (⟨_ | _⟩ | ⟨_ | _⟩) hne x hx hx' <;>
    first
    | exact hne rfl
    | simp only [Layout.place, twoThreads, Place.Area, Memory.Within, spCell, stackSize,
        cond_true, cond_false] at hx hx'
      bv_omega
  cells := by
    rintro (_ | _) x hx hx' <;>
    · simp only [twoThreads, Memory.Within, cond_true, cond_false] at hx hx'
      bv_omega

theorem proper_of_target {e : Event Bool Bool} {l : Layout Bool Bool} {s : System Bool Bool} {t : Bool}
    {c : Context Bool Bool} (htarget : s.target e = some (t, c))
    (hroom : (l.place (s.running t)).Room ((s.thread t).regs .rsp)) :
    ∀ t c, s.target e = some (t, c) → (l.place (s.running t)).Room ((s.thread t).regs .rsp) := by
  intro t' c' h
  cases htarget.symm.trans h
  exact hroom

theorem handedOver_proper : Run.Along (System.step twoThreads) (fun s e => s.Proper twoThreads e)
    (start twoMachines fun _ => 0) handedOver := by
  refine ⟨nofun, nofun, proper_of_target (t := true) (c := .routine false) ?_ ?_,
    proper_of_target (t := true) (c := .main true) ?_ ?_, nofun, nofun,
    proper_of_target (t := false) (c := .routine false) ?_ ?_, trivial⟩ <;> decide +kernel

theorem handedOver_transparent :
    Run.Along (System.step twoThreads) (fun s e => s.Transparent twoThreads e)
      (start twoMachines fun _ => 0) handedOver :=
  transparent twoThreads_apart twoMachines _ handedOver handedOver_proper

end System

end Croutine
end Cmw
