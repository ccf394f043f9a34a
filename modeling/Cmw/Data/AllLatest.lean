import Cmw.Data.DataVisitor
import Mathlib.Data.List.Induction

/-!
# Several channels

data/all_latest.h, and the visitors of two and of three channels.  `AllLatest` sets a
callback on the buffer of the first channel: a message that arrives there is not stored,
but joined with the latest message of every other channel, and the tuple is stored in a
ring of its own, which the visitor reads as it reads one channel.

The other channels are a parameter, `Others`: one buffer or two.
-/

namespace Cmw
namespace Data

open Library

/-- The other channels: what a message does to them, and the latest of all of them. -/
structure Others (σ ε ω : Type) where
  fill : σ → ε → σ
  latest : σ → Option ω

variable {α β γ σ ρ ε ω : Type}

namespace Others

/-- The buffer of the second channel. -/
def one : Others (CacheBuffer β) β β := { fill := CacheBuffer.fill, latest := CacheBuffer.latest }

/-- The buffers of the second and the third channel. -/
def two : Others (CacheBuffer β × CacheBuffer γ) (β ⊕ γ) (β × γ) :=
  { fill := fun s m =>
      match m with
      | .inl m1 => (s.1.fill m1, s.2)
      | .inr m2 => (s.1, s.2.fill m2)
    latest := fun s => do
      let m1 ← s.1.latest
      let m2 ← s.2.latest
      some (m1, m2) }

end Others

structure AllLatest (α σ ω : Type) where
  bufferM0 : CacheBuffer α
  others : σ
  bufferFusion : CacheBuffer (α × ω)

namespace AllLatest

def new [Inhabited α] [Inhabited ω] (queueSize0 : BitVec 32) (others : σ) : AllLatest α σ ω :=
  let bufferM0 := CacheBuffer.new queueSize0.toNat
  { bufferM0, others, bufferFusion := .new (bufferM0.capacity - 1) }

/-- `Fill` on the buffer of the first channel, which calls the fusion callback. -/
def fill0 (o : Others σ ε ω) (a : AllLatest α σ ω) (m0 : α) : AllLatest α σ ω :=
  match o.latest a.others with
  | some m => { a with bufferFusion := a.bufferFusion.fill (m0, m) }
  | none => a

def fillOther (o : Others σ ε ω) (a : AllLatest α σ ω) (m : ε) : AllLatest α σ ω :=
  { a with others := o.fill a.others m }

/-- `Fusion` -/
def fusion (a : AllLatest α σ ω) (index : Nat) : Option (Nat × α × ω) := a.bufferFusion.fetch index

end AllLatest

/-- A visitor of several channels. -/
structure FusedVisitor (α σ ω : Type) where
  dataFusion : AllLatest α σ ω
  nextMsgIndex : Nat := 0

/-- `DataVisitor<M0, M1>` -/
abbrev DataVisitor2 (α β : Type) := FusedVisitor α (CacheBuffer β) β

/-- `DataVisitor<M0, M1, M2>` -/
abbrev DataVisitor3 (α β γ : Type) := FusedVisitor α (CacheBuffer β × CacheBuffer γ) (β × γ)

def DataVisitor2.new [Inhabited α] [Inhabited β] (queueSize0 queueSize1 : BitVec 32) :
    DataVisitor2 α β :=
  { dataFusion := .new queueSize0 (.new queueSize1.toNat) }

def DataVisitor3.new [Inhabited α] [Inhabited β] [Inhabited γ]
    (queueSize0 queueSize1 queueSize2 : BitVec 32) : DataVisitor3 α β γ :=
  { dataFusion := .new queueSize0 (.new queueSize1.toNat, .new queueSize2.toNat) }

namespace FusedVisitor

def tryFetch (v : FusedVisitor α σ ω) : Option (α × ω) × FusedVisitor α σ ω :=
  match v.dataFusion.fusion v.nextMsgIndex with
  | some (index, m) => (some m, { v with nextMsgIndex := inc index })
  | none => (none, v)

end FusedVisitor

/-- A call on the buffers of a visitor or on the visitor. -/
inductive FusedEvent (α ε : Type)
  | fill0 (m0 : α)
  | fillOther (m : ε)
  | tryFetch

/-- The messages of the first channel. -/
def sent0 (events : List (FusedEvent α ε)) : List α :=
  events.filterMap fun e =>
    match e with
    | .fill0 m0 => some m0
    | _ => none

/-- The messages of the other channels. -/
def sentOthers (events : List (FusedEvent α ε)) : List ε :=
  events.filterMap fun e =>
    match e with
    | .fillOther m => some m
    | _ => none

namespace FusedVisitor

/-- A visitor and what its calls of `TryFetch` have returned. -/
def step (o : Others σ ε ω) (t : FusedVisitor α σ ω × List (Option (α × ω))) :
    FusedEvent α ε → FusedVisitor α σ ω × List (Option (α × ω))
  | .fill0 m0 => ({ t.1 with dataFusion := t.1.dataFusion.fill0 o m0 }, t.2)
  | .fillOther m => ({ t.1 with dataFusion := t.1.dataFusion.fillOther o m }, t.2)
  | .tryFetch => (t.1.tryFetch.2, t.2 ++ [t.1.tryFetch.1])

/-- What the calls of `TryFetch` return. -/
def delivered (o : Others σ ε ω) (v : FusedVisitor α σ ω) (events : List (FusedEvent α ε)) :
    List (Option (α × ω)) :=
  (Run.exec (step o) (v, []) events).2

end FusedVisitor

/-! ## The reference machine -/

namespace Others

/-- The latest message of the second channel. -/
def oneLatest : Others (Option β) β β := { fill := fun _ m => some m, latest := id }

/-- The latest messages of the second and the third channel. -/
def twoLatest : Others (Option β × Option γ) (β ⊕ γ) (β × γ) :=
  { fill := fun s m =>
      match m with
      | .inl m1 => (some m1, s.2)
      | .inr m2 => (s.1, some m2)
    latest := fun s => do
      let m1 ← s.1
      let m2 ← s.2
      some (m1, m2) }

end Others

/-- On an arrival on the first channel, when all others have received something, the
tuple of it and their latest messages is published; the tuples are read as the messages
of one channel are. -/
structure Reference (α ρ ω : Type) where
  others : ρ
  history : Reading (α × ω) := {}

namespace Reference

def step (size : Nat) (o : Others ρ ε ω) (t : Reference α ρ ω × List (Option (α × ω))) :
    FusedEvent α ε → Reference α ρ ω × List (Option (α × ω))
  | .fill0 m0 =>
      match o.latest t.1.others with
      | some m => ({ t.1 with history := t.1.history.publish (m0, m) }, t.2)
      | none => t
  | .fillOther m => ({ t.1 with others := o.fill t.1.others m }, t.2)
  | .tryFetch =>
      ({ t.1 with history := (t.1.history.tryFetch size).2 },
        t.2 ++ [(t.1.history.tryFetch size).1.map Prod.snd])

def delivered (size : Nat) (o : Others ρ ε ω) (start : ρ) (events : List (FusedEvent α ε)) :
    List (Option (α × ω)) :=
  (Run.exec (step size o) ({ others := start }, []) events).2

end Reference

/-! ## The visitor is the reference machine -/

/-- `o` keeps buffers and `p` keeps the latest messages, and after the same messages they
tell the same, as long as the messages are `few`. -/
structure Follows (o : Others σ ε ω) (p : Others ρ ε ω) where
  few : List ε → Prop
  rel : List ε → σ → ρ → Prop
  few_of_concat : ∀ {ms m}, few (ms ++ [m]) → few ms
  fill : ∀ {ms m s r}, few (ms ++ [m]) → rel ms s r → rel (ms ++ [m]) (o.fill s m) (p.fill r m)
  latest : ∀ {ms s r}, rel ms s r → o.latest s = p.latest r

/-- One buffer, filled fewer than 2^64 times. -/
def followsOne (size : Nat) : Follows (Others.one : Others (CacheBuffer β) β β) Others.oneLatest :=
  { few := fun ms => ms.length < 2 ^ 64
    rel := fun ms b r => b.Holds size ms ∧ r = ms.getLast?
    few_of_concat := fun h => by
      rw [List.length_append, List.length_singleton] at h
      omega
    fill := fun hfew h => by
      rw [List.length_append, List.length_singleton] at hfew
      exact ⟨h.1.fill _ hfew, List.getLast?_concat.symm⟩
    latest := fun h => by
      rw [h.2]
      exact h.1.latest }

def lefts (ms : List (β ⊕ γ)) : List β := ms.filterMap Sum.getLeft?

def rights (ms : List (β ⊕ γ)) : List γ := ms.filterMap Sum.getRight?

@[simp] theorem lefts_concat_inl (ms : List (β ⊕ γ)) (m : β) :
    lefts (ms ++ [.inl m]) = lefts ms ++ [m] := by simp [lefts]

@[simp] theorem lefts_concat_inr (ms : List (β ⊕ γ)) (m : γ) :
    lefts (ms ++ [.inr m]) = lefts ms := by simp [lefts]

@[simp] theorem rights_concat_inl (ms : List (β ⊕ γ)) (m : β) :
    rights (ms ++ [.inl m]) = rights ms := by simp [rights]

@[simp] theorem rights_concat_inr (ms : List (β ⊕ γ)) (m : γ) :
    rights (ms ++ [.inr m]) = rights ms ++ [m] := by simp [rights]

/-- Two buffers, each filled fewer than 2^64 times. -/
def followsTwo (size1 size2 : Nat) :
    Follows (Others.two : Others (CacheBuffer β × CacheBuffer γ) (β ⊕ γ) (β × γ))
      Others.twoLatest :=
  { few := fun ms => (lefts ms).length < 2 ^ 64 ∧ (rights ms).length < 2 ^ 64
    rel := fun ms s r => s.1.Holds size1 (lefts ms) ∧ s.2.Holds size2 (rights ms) ∧
      r = ((lefts ms).getLast?, (rights ms).getLast?)
    few_of_concat := fun {ms m} h => by
      cases m with
      | inl m =>
          simp only [lefts_concat_inl, rights_concat_inl, List.length_append,
            List.length_singleton] at h
          omega
      | inr m =>
          simp only [lefts_concat_inr, rights_concat_inr, List.length_append,
            List.length_singleton] at h
          omega
    fill := fun {ms m s r} hfew h => by
      obtain ⟨h1, h2, rfl⟩ := h
      cases m with
      | inl m =>
          simp only [lefts_concat_inl, rights_concat_inl, List.length_append,
            List.length_singleton] at hfew ⊢
          exact ⟨h1.fill m hfew.1, h2, by rw [List.getLast?_concat]; rfl⟩
      | inr m =>
          simp only [lefts_concat_inr, rights_concat_inr, List.length_append,
            List.length_singleton] at hfew ⊢
          exact ⟨h1, h2.fill m hfew.2, by rw [List.getLast?_concat]; rfl⟩
    latest := fun {ms s r} h => by
      obtain ⟨h1, h2, rfl⟩ := h
      simp only [Others.two, Others.twoLatest, h1.latest, h2.latest] }

variable {o : Others σ ε ω} {p : Others ρ ε ω}

/-- The visitor and the reference machine, after the messages `ms` of the other channels
and `count` messages of the first. -/
structure Simulates (size : Nat) (f : Follows o p) (ms : List ε) (count : Nat)
    (t : FusedVisitor α σ ω × List (Option (α × ω)))
    (r : Reference α ρ ω × List (Option (α × ω))) : Prop where
  others : f.rel ms t.1.dataFusion.others r.1.others
  history : DataVisitor.Represents size ⟨t.1.dataFusion.bufferFusion, t.1.nextMsgIndex⟩ r.1.history
  count : r.1.history.published.length ≤ count
  delivered : t.2 = r.2

variable {size count : Nat} {f : Follows o p} {ms : List ε}
  {t : FusedVisitor α σ ω × List (Option (α × ω))}
  {r : Reference α ρ ω × List (Option (α × ω))}

theorem Simulates.fill0 (h : Simulates size f ms count t r) (hlt : count + 1 < 2 ^ 64) (m0 : α) :
    Simulates size f ms (count + 1) (FusedVisitor.step o t (.fill0 m0))
      (Reference.step size p r (.fill0 m0)) := by
  have hcount := h.count
  rw [FusedVisitor.step, AllLatest.fill0, f.latest h.others, Reference.step]
  cases p.latest r.1.others with
  | none => exact { h with count := Nat.le_succ_of_le hcount }
  | some m =>
      exact
        { others := h.others
          history := h.history.fill (m0, m) (by omega)
          count := by
            show (r.1.history.published ++ [(m0, m)]).length ≤ count + 1
            rw [List.length_append, List.length_singleton]
            omega
          delivered := h.delivered }

theorem Simulates.fillOther (h : Simulates size f ms count t r) {m : ε} (hfew : f.few (ms ++ [m])) :
    Simulates size f (ms ++ [m]) count (FusedVisitor.step o t (.fillOther m))
      (Reference.step size p r (.fillOther m)) :=
  { h with others := f.fill hfew h.others }

theorem FusedVisitor.tryFetch_eq (v : FusedVisitor α σ ω) :
    v.tryFetch = ((DataVisitor.tryFetch ⟨v.dataFusion.bufferFusion, v.nextMsgIndex⟩).1.map Prod.snd,
      { v with nextMsgIndex :=
          (DataVisitor.tryFetch ⟨v.dataFusion.bufferFusion, v.nextMsgIndex⟩).2.nextMsgIndex }) := by
  rw [tryFetch, DataVisitor.tryFetch, AllLatest.fusion]
  cases v.dataFusion.bufferFusion.fetch v.nextMsgIndex <;> rfl

theorem Simulates.tryFetch (h : Simulates size f ms count t r) (hlt : count + 1 < 2 ^ 64) :
    Simulates size f ms count (FusedVisitor.step o t .tryFetch)
      (Reference.step size p r .tryFetch) := by
  have hcount := h.count
  obtain ⟨hgot, hafter⟩ := h.history.tryFetch (by omega)
  rw [FusedVisitor.step, FusedVisitor.tryFetch_eq, hgot]
  exact
    { others := h.others
      history :=
        { buffer := by
            have hbuffer := hafter.buffer
            rwa [DataVisitor.tryFetch_buffer] at hbuffer
          nextMsgIndex := hafter.nextMsgIndex
          last := hafter.last }
      count := by
        show ((r.1.history.tryFetch size).2).published.length ≤ count
        rw [Reading.tryFetch_snd h.history.last]
        exact hcount
      delivered := by
        show t.2 ++ [_] = r.2 ++ [_]
        rw [h.delivered] }

theorem simulates {v : FusedVisitor α σ ω} {start : ρ} {events : List (FusedEvent α ε)}
    (h : Simulates size f [] 0 (v, []) ({ others := start }, []))
    (hsent : (sent0 events).length + 1 < 2 ^ 64) (hfew : f.few (sentOthers events)) :
    Simulates size f (sentOthers events) (sent0 events).length
      (Run.exec (FusedVisitor.step o) (v, []) events)
      (Run.exec (Reference.step size p) ({ others := start }, []) events) := by
  induction events using List.reverseRecOn with
  | nil => exact h
  | append_singleton events e ih =>
      rw [Run.exec_append, Run.exec_append]
      cases e with
      | fill0 m0 =>
          have hsent0 : sent0 (events ++ [.fill0 m0]) = sent0 events ++ [m0] := by simp [sent0]
          have hothers : sentOthers (events ++ [.fill0 m0]) = sentOthers events := by
            simp [sentOthers]
          rw [hsent0, List.length_append, List.length_singleton] at hsent ⊢
          rw [hothers] at hfew ⊢
          exact (ih (by omega) hfew).fill0 (by omega) m0
      | fillOther m =>
          have hsent0 : sent0 (events ++ [.fillOther m]) = sent0 events := by simp [sent0]
          have hothers : sentOthers (events ++ [.fillOther m]) = sentOthers events ++ [m] := by
            simp [sentOthers]
          rw [hsent0] at hsent ⊢
          rw [hothers] at hfew ⊢
          exact (ih hsent (f.few_of_concat hfew)).fillOther hfew
      | tryFetch =>
          have hsent0 : sent0 (events ++ [.tryFetch]) = sent0 events := by simp [sent0]
          have hothers : sentOthers (events ++ [.tryFetch]) = sentOthers events := by
            simp [sentOthers]
          rw [hsent0] at hsent ⊢
          rw [hothers] at hfew ⊢
          exact (ih hsent hfew).tryFetch hsent

section New

variable [Inhabited α] [Inhabited β] [Inhabited γ]

theorem holds_bufferFusion [Inhabited ω] (queueSize0 : BitVec 32) (others : σ) :
    (AllLatest.new queueSize0 others : AllLatest α σ ω).bufferFusion.Holds queueSize0.toNat [] := by
  have hsize : (CacheBuffer.new queueSize0.toNat : CacheBuffer α).capacity - 1 =
      queueSize0.toNat := by
    rw [(CacheBuffer.holds_new (by omega)).capacity, Nat.add_sub_cancel]
  rw [AllLatest.new, hsize]
  exact CacheBuffer.holds_new (by omega)

theorem simulates_new [Inhabited ω] (queueSize0 : BitVec 32) {others : σ} {start : ρ}
    (hrel : f.rel [] others start) :
    Simulates queueSize0.toNat f [] 0
      (({ dataFusion := .new queueSize0 others } : FusedVisitor α σ ω), [])
      ({ others := start }, []) :=
  { others := hrel
    history :=
      { buffer := holds_bufferFusion queueSize0 others
        nextMsgIndex := rfl
        last := Nat.le_refl 0 }
    count := Nat.le_refl 0
    delivered := rfl }

/-- In any order of the calls, a visitor of two or of three channels delivers what the
reference machine does, as long as the 64 bits of the counters last. -/
theorem fused_eq_reference (queueSize0 queueSize1 queueSize2 : BitVec 32) :
    (∀ events : List (FusedEvent α β),
      (sent0 events).length < 2 ^ 64 - 1 → (sentOthers events).length < 2 ^ 64 →
      (DataVisitor2.new queueSize0 queueSize1).delivered Others.one events =
        Reference.delivered queueSize0.toNat Others.oneLatest none events) ∧
    ∀ events : List (FusedEvent α (β ⊕ γ)),
      (sent0 events).length < 2 ^ 64 - 1 → (lefts (sentOthers events)).length < 2 ^ 64 →
      (rights (sentOthers events)).length < 2 ^ 64 →
      (DataVisitor3.new queueSize0 queueSize1 queueSize2).delivered Others.two events =
        Reference.delivered queueSize0.toNat Others.twoLatest (none, none) events := by
  constructor
  · intro events hsent hone
    have hrel : (followsOne queueSize1.toNat).rel ([] : List β) (.new queueSize1.toNat) none :=
      ⟨CacheBuffer.holds_new (by omega), rfl⟩
    exact (simulates (simulates_new queueSize0 hrel) (by omega) hone).delivered
  · intro events hsent hlefts hrights
    have hrel : (followsTwo queueSize1.toNat queueSize2.toNat).rel ([] : List (β ⊕ γ))
        (.new queueSize1.toNat, .new queueSize2.toNat) (none, none) :=
      ⟨CacheBuffer.holds_new (by omega), CacheBuffer.holds_new (by omega), rfl⟩
    exact (simulates (simulates_new queueSize0 hrel) (by omega) ⟨hlefts, hrights⟩).delivered

end New

/-- A visitor of two channels and one of three, of two places each. -/
theorem fused_eq_reference_two :
    (DataVisitor2.new 2 1 : DataVisitor2 Nat Nat).delivered Others.one
        [.fill0 1, .fillOther 10, .fill0 2, .tryFetch, .fillOther 11, .fill0 3, .fill0 4, .tryFetch] =
      Reference.delivered 2 Others.oneLatest none
        [.fill0 1, .fillOther 10, .fill0 2, .tryFetch, .fillOther 11, .fill0 3, .fill0 4, .tryFetch] ∧
    (DataVisitor3.new 2 1 1 : DataVisitor3 Nat Nat Nat).delivered Others.two
        [.fillOther (.inl 10), .fill0 1, .fillOther (.inr 20), .fill0 2, .tryFetch] =
      Reference.delivered 2 Others.twoLatest (none, none)
        [.fillOther (.inl 10), .fill0 1, .fillOther (.inr 20), .fill0 2, .tryFetch] :=
  ⟨(fused_eq_reference (γ := Nat) 2 1 1).1 _ (by decide) (by decide),
    (fused_eq_reference 2 1 1).2 _ (by decide) (by decide) (by decide)⟩

/-! ### The last message of a counter -/

theorem CacheBuffer.fill_tail {τ : Type} (b : CacheBuffer τ) (m : τ) :
    (b.fill m).tail = inc b.tail := by
  rw [fill]
  split <;> rfl

/-- A buffer that has been filled 2^64 times is empty again. -/
theorem CacheBuffer.Holds.latest_fill {τ : Type} {size : Nat} {b : CacheBuffer τ} {items : List τ}
    (h : b.Holds size items) (hn : items.length + 1 = 2 ^ 64) (m : τ) :
    (b.fill m).latest = none := by
  have htail : (b.fill m).tail = 0 := by
    rw [CacheBuffer.fill_tail, h.tail, inc, hn, Nat.mod_self]
  rw [CacheBuffer.latest, CacheBuffer.empty, htail]
  rfl

theorem sent0_replicate (n : Nat) (m : ε) :
    sent0 (List.replicate n (.fillOther m) : List (FusedEvent α ε)) = [] :=
  List.filterMap_replicate_of_none rfl

theorem sentOthers_replicate (n : Nat) (m : ε) :
    sentOthers (List.replicate n (.fillOther m) : List (FusedEvent α ε)) = List.replicate n m :=
  List.filterMap_replicate_of_some rfl

/-- The message that empties the buffer of the second channel, one of the first channel,
and a fetch: the visitor has nothing, and the reference machine has a tuple. -/
theorem Simulates.wrapped {size size' : Nat} {ms : List Unit}
    {t : DataVisitor2 Unit Unit × List (Option (Unit × Unit))}
    {r : Reference Unit (Option Unit) Unit × List (Option (Unit × Unit))}
    (h : Simulates size (followsOne size') ms 0 t r) (hn : ms.length + 1 = 2 ^ 64) :
    (Run.exec (FusedVisitor.step Others.one) t [.fillOther (), .fill0 (), .tryFetch]).2 ≠
      (Run.exec (Reference.step size Others.oneLatest) r [.fillOther (), .fill0 (), .tryFetch]).2 := by
  have hnone : r.1.history.published = [] := List.eq_nil_of_length_eq_zero (Nat.le_zero.mp h.count)
  have hlast : r.1.history.last = 0 := by
    have hle := h.history.last
    rw [hnone] at hle
    exact Nat.le_zero.mp hle
  have hlatest : (t.1.dataFusion.others.fill ()).latest = none := h.others.1.latest_fill hn ()
  have hfill0 : AllLatest.fill0 Others.one (t.1.dataFusion.fillOther Others.one ()) () =
      t.1.dataFusion.fillOther Others.one () := by
    have hlatest : Others.one.latest (t.1.dataFusion.fillOther Others.one ()).others = none := hlatest
    rw [AllLatest.fill0, hlatest]
  have hempty : t.1.dataFusion.bufferFusion.empty = true := by
    rw [CacheBuffer.empty, h.history.buffer.tail, hnone]
    rfl
  have hfetch : ∀ index, t.1.dataFusion.bufferFusion.fetch index = none := by
    intro index
    rw [CacheBuffer.fetch, if_pos hempty]
  have hcode : (Run.exec (FusedVisitor.step Others.one) t
      [.fillOther (), .fill0 (), .tryFetch]).2 = t.2 ++ [none] := by
    simp only [Run.exec_cons, Run.exec_nil, FusedVisitor.step, hfill0]
    rw [FusedVisitor.tryFetch, AllLatest.fusion, AllLatest.fillOther, hfetch]
  have hreference : (Run.exec (Reference.step size Others.oneLatest) r
      [.fillOther (), .fill0 (), .tryFetch]).2 = r.2 ++ [some ((), ())] := by
    simp [Reference.step, Others.oneLatest, Reading.publish, Reading.tryFetch, Reading.next,
      hnone, hlast]
  rw [hcode, hreference, h.delivered]
  intro heq
  cases (List.cons.inj (List.append_cancel_left heq)).1

/-- After 2^64 messages of the second channel a message of the first gives no tuple. -/
theorem wrapped_not_reference {n : Nat} (hn : n + 1 = 2 ^ 64) :
    (DataVisitor2.new 1 1).delivered Others.one
        (List.replicate n (.fillOther ()) ++ [.fillOther (), .fill0 (), .tryFetch]) ≠
      Reference.delivered 1 Others.oneLatest none
        (List.replicate n (.fillOther ()) ++ [.fillOther (), .fill0 (), .tryFetch]) := by
  have hstart : Simulates 1 (followsOne 1) [] 0
      ((DataVisitor2.new 1 1 : DataVisitor2 Unit Unit), []) ({ others := none }, []) :=
    simulates_new (ω := Unit) 1 ⟨CacheBuffer.holds_new (by decide), rfl⟩
  have hsent : (sent0 (List.replicate n (.fillOther ()) : List (FusedEvent Unit Unit))).length + 1 <
      2 ^ 64 := by
    rw [sent0_replicate]
    decide
  have hfew : (followsOne 1).few
      (sentOthers (List.replicate n (.fillOther ()) : List (FusedEvent Unit Unit))) := by
    rw [sentOthers_replicate]
    show (List.replicate n ()).length < 2 ^ 64
    rw [List.length_replicate]
    omega
  have h := simulates hstart hsent hfew
  rw [sent0_replicate, sentOthers_replicate] at h
  rw [FusedVisitor.delivered, Reference.delivered, Run.exec_append, Run.exec_append]
  exact h.wrapped (by rw [List.length_replicate]; exact hn)

theorem not_always_reference :
    ∃ events : List (FusedEvent Unit Unit),
      (DataVisitor2.new 1 1).delivered Others.one events ≠
        Reference.delivered 1 Others.oneLatest none events :=
  ⟨_, wrapped_not_reference (n := 2 ^ 64 - 1) (by decide)⟩

end Data
end Cmw
