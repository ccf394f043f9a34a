import Cmw.Data.CacheBuffer
import Cmw.Library.Run

/-!
# One channel

data/data_visitor.h.  A `DataVisitor` of one channel reads the buffer that the dispatcher
fills, with a cursor of its own.  Both take the mutex of the buffer, so a run is a list of
whole calls.

`Reading` says what the visitor is for, without a ring and without words of 64 bits: the
messages that were published, in order, and the number of the last one that was returned.
-/

namespace Cmw
namespace Data

open Library

variable {τ : Type}

structure DataVisitor (τ : Type) where
  buffer : CacheBuffer τ
  nextMsgIndex : Nat := 0

namespace DataVisitor

/-- A queue size is a word of 32 bits. -/
def new [Inhabited τ] (queueSize : BitVec 32) : DataVisitor τ :=
  { buffer := .new queueSize.toNat }

def fill (v : DataVisitor τ) (msg : τ) : DataVisitor τ := { v with buffer := v.buffer.fill msg }

/-- The index and the message that are fetched, or false. -/
def tryFetch (v : DataVisitor τ) : Option (Nat × τ) × DataVisitor τ :=
  match v.buffer.fetch v.nextMsgIndex with
  | some (index, m) => (some (index, m), { v with nextMsgIndex := inc index })
  | none => (none, v)

end DataVisitor

/-! ## What a visitor is for -/

structure Reading (τ : Type) where
  published : List τ := []
  /-- the number of the message that was returned last, counted from one -/
  last : Nat := 0

namespace Reading

def publish (r : Reading τ) (m : τ) : Reading τ := { r with published := r.published ++ [m] }

/-- The number of the message that is returned next, of a queue with `size` places: the
newest one at first, and where the next one is not among the `size` newest any more. -/
def next (size : Nat) (r : Reading τ) : Option Nat :=
  if r.published.length = r.last then none
  else if r.last = 0 ∨ r.last + 1 + size ≤ r.published.length then some r.published.length
  else some (r.last + 1)

def tryFetch (size : Nat) (r : Reading τ) : Option (Nat × τ) × Reading τ :=
  match r.next size with
  | some k => (r.published[k - 1]?.map fun m => (k, m), { r with last := k })
  | none => (none, r)

theorem next_bounds {size : Nat} {r : Reading τ} (hle : r.last ≤ r.published.length) {k : Nat}
    (hk : r.next size = some k) :
    r.last < k ∧ k ≤ r.published.length ∧ r.published.length ≤ k + size := by
  rw [next] at hk
  split at hk
  · cases hk
  split at hk
  · cases hk
    omega
  · cases hk
    omega

theorem tryFetch_snd {size : Nat} {r : Reading τ} (hle : r.last ≤ r.published.length) :
    (r.tryFetch size).2 = ⟨r.published, ((r.tryFetch size).1.map Prod.fst).getD r.last⟩ := by
  rw [tryFetch]
  cases hnext : r.next size with
  | none => rfl
  | some k =>
      obtain ⟨hlast, hk, -⟩ := next_bounds hle hnext
      dsimp only
      rw [List.getElem?_eq_getElem (show k - 1 < r.published.length by omega)]
      rfl

end Reading

namespace DataVisitor

theorem tryFetch_buffer (v : DataVisitor τ) : v.tryFetch.2.buffer = v.buffer := by
  rw [tryFetch]
  cases v.buffer.fetch v.nextMsgIndex <;> rfl

/-- The visitor is at the point that `r` tells. -/
structure Represents (size : Nat) (v : DataVisitor τ) (r : Reading τ) : Prop where
  buffer : v.buffer.Holds size r.published
  nextMsgIndex : v.nextMsgIndex = if r.last = 0 then 0 else r.last + 1
  last : r.last ≤ r.published.length

theorem represents_new [Inhabited τ] (queueSize : BitVec 32) :
    (new queueSize : DataVisitor τ).Represents queueSize.toNat {} :=
  { buffer := CacheBuffer.holds_new (by omega)
    nextMsgIndex := rfl
    last := Nat.le_refl 0 }

variable {size : Nat} {v : DataVisitor τ} {r : Reading τ}

theorem Represents.fill (h : v.Represents size r) (m : τ) (hlt : r.published.length + 1 < 2 ^ 64) :
    (v.fill m).Represents size (r.publish m) :=
  { buffer := h.buffer.fill m hlt
    nextMsgIndex := h.nextMsgIndex
    last := by
      rw [Reading.publish, List.length_append]
      exact Nat.le_trans h.last (Nat.le_add_right _ _) }

/-- The number that the reading comes to is the index that the ring comes to. -/
theorem Represents.fetch (h : v.Represents size r) (hlt : r.published.length + 1 < 2 ^ 64) :
    v.buffer.fetch v.nextMsgIndex = (r.next size).map fun k => (k, v.buffer.atPos k) := by
  have hle := h.last
  rw [h.buffer.fetch hlt, h.nextMsgIndex, Reading.next]
  by_cases hsame : r.published.length = r.last
  · have hnone : r.published.length = 0 ∨
        (if r.last = 0 then 0 else r.last + 1) = r.published.length + 1 := by
      split <;> omega
    rw [if_pos hnone, if_pos hsame]
    rfl
  · have hsome : ¬(r.published.length = 0 ∨
        (if r.last = 0 then 0 else r.last + 1) = r.published.length + 1) := by
      split <;> omega
    rw [if_neg hsome, if_neg hsame]
    by_cases hnewest : r.last = 0 ∨ r.last + 1 + size ≤ r.published.length
    · have hjump : (if r.last = 0 then 0 else r.last + 1) = 0 ∨
          (if r.last = 0 then 0 else r.last + 1) + size ≤ r.published.length := by
        split <;> omega
      rw [if_pos hjump, if_pos hnewest]
      rfl
    · have hnext : r.last ≠ 0 := fun h0 => hnewest (Or.inl h0)
      rw [if_neg hnext, if_neg (by omega), if_neg hnewest]
      rfl

theorem Represents.tryFetch (h : v.Represents size r) (hlt : r.published.length + 1 < 2 ^ 64) :
    v.tryFetch.1 = (r.tryFetch size).1 ∧ v.tryFetch.2.Represents size (r.tryFetch size).2 := by
  rw [DataVisitor.tryFetch, Reading.tryFetch, h.fetch hlt]
  cases hnext : r.next size with
  | none => exact ⟨rfl, h⟩
  | some k =>
      obtain ⟨hlast, hle, hsize⟩ := Reading.next_bounds h.last hnext
      have hat := h.buffer.atPos (k := k) (by omega) hle hsize
      have hpos : k ≠ 0 := by omega
      refine ⟨?_, ?_⟩
      · show some (k, v.buffer.atPos k) = r.published[k - 1]?.map fun m => (k, m)
        rw [hat]
        rfl
      · exact
          { buffer := h.buffer
            nextMsgIndex := by
              show inc k = if k = 0 then 0 else k + 1
              rw [CacheBuffer.inc_of_lt (by omega), if_neg hpos]
            last := hle }

end DataVisitor

/-! ## Runs -/

inductive Event (τ : Type)
  | fill (m : τ)
  | tryFetch

/-- One call of `TryFetch`: how many messages had been published, and what it returned. -/
structure Attempt (τ : Type) where
  count : Nat
  got : Option (Nat × τ)

/-- A visitor, with what was published and what was fetched. -/
structure Traced (τ : Type) where
  visitor : DataVisitor τ
  published : List τ := []
  log : List (Attempt τ) := []

namespace Traced

def start [Inhabited τ] (queueSize : BitVec 32) : Traced τ := { visitor := .new queueSize }

def step (t : Traced τ) : Event τ → Traced τ
  | .fill m => { t with visitor := t.visitor.fill m, published := t.published ++ [m] }
  | .tryFetch =>
      { t with
        visitor := t.visitor.tryFetch.2
        log := t.log ++ [⟨t.published.length, t.visitor.tryFetch.1⟩] }

end Traced

def returned (log : List (Attempt τ)) : List (Nat × τ) := log.filterMap Attempt.got

/-- The number of the message that was returned last, and zero before the first. -/
def lastReturned (log : List (Attempt τ)) : Nat := ((returned log).getLast?.map Prod.fst).getD 0

/-- A call of `TryFetch` on a queue with `size` places after message `last` was returned. -/
def Attempt.Right (size : Nat) (published : List τ) (last : Nat) (a : Attempt τ) : Prop :=
  match a.got with
  | some (k, m) =>
      published[k - 1]? = some m ∧ last < k ∧ k ≤ a.count ∧ (last = 0 → k = a.count) ∧
        (last ≠ 0 → k ≠ last + 1 → k = a.count ∧ last + 1 + size ≤ a.count)
  | none => a.count = last

/-- The messages returned are a strictly increasing subsequence of those published: the
newest one first, each with its own number, and one is skipped only where the next one
has left the `size` newest, and then the newest is returned.  A call that fails finds
nothing newer than what was returned last. -/
structure Delivers (size : Nat) (t : Traced τ) : Prop where
  increasing : (returned t.log).Pairwise fun e f => e.1 < f.1
  right : ∀ before a after, t.log = before ++ a :: after →
    a.Right size t.published (lastReturned before)

theorem returned_append (log : List (Attempt τ)) (a : Attempt τ) :
    returned (log ++ [a]) = returned log ++ a.got.toList := by
  rw [returned, List.filterMap_append]
  cases h : a.got <;> simp [h, returned]

theorem lastReturned_append (log : List (Attempt τ)) (a : Attempt τ) :
    lastReturned (log ++ [a]) = (a.got.map Prod.fst).getD (lastReturned log) := by
  rw [lastReturned, returned_append]
  cases h : a.got <;> simp [lastReturned]

theorem le_lastReturned {log : List (Attempt τ)}
    (h : (returned log).Pairwise fun e f => e.1 < f.1) {e : Nat × τ} (he : e ∈ returned log) :
    e.1 ≤ lastReturned log := by
  rw [lastReturned]
  rcases List.eq_nil_or_concat (returned log) with hnil | ⟨init, last, hlast⟩
  · rw [hnil] at he
    cases he
  · rw [hlast, List.concat_eq_append] at h he ⊢
    rw [List.getLast?_concat]
    rcases List.mem_append.mp he with he | he
    · exact Nat.le_of_lt ((List.pairwise_append.mp h).2.2 e he last List.mem_cons_self)
    · obtain rfl := List.mem_singleton.mp he
      exact Nat.le_refl _

/-- The rule that a reading follows. -/
theorem Reading.right_tryFetch {size : Nat} {r : Reading τ} (hle : r.last ≤ r.published.length) :
    Attempt.Right size r.published r.last ⟨r.published.length, (r.tryFetch size).1⟩ := by
  rw [Reading.tryFetch, Reading.next]
  by_cases hsame : r.published.length = r.last
  · rw [if_pos hsame]
    exact hsame
  · rw [if_neg hsame]
    by_cases hnewest : r.last = 0 ∨ r.last + 1 + size ≤ r.published.length
    · have hlt : r.published.length - 1 < r.published.length := by omega
      rw [if_pos hnewest]
      dsimp only
      rw [List.getElem?_eq_getElem hlt]
      refine ⟨List.getElem?_eq_getElem hlt, by omega, Nat.le_refl _, fun _ => rfl, fun h0 _ => ?_⟩
      exact ⟨rfl, hnewest.resolve_left h0⟩
    · have hlt : r.last + 1 - 1 < r.published.length := by omega
      rw [if_neg hnewest]
      dsimp only
      rw [List.getElem?_eq_getElem hlt]
      refine ⟨List.getElem?_eq_getElem hlt, by omega, by show r.last + 1 ≤ r.published.length; omega, fun h0 => ?_,
        fun _ hne => absurd rfl hne⟩
      exact absurd (Or.inl h0) hnewest

theorem Attempt.Right.publish {size last : Nat} {published : List τ} {a : Attempt τ}
    (h : a.Right size published last) (m : τ) : a.Right size (published ++ [m]) last := by
  rw [Attempt.Right] at h ⊢
  split
  case h_1 k m' hgot =>
    rw [hgot] at h
    obtain ⟨hk, hrest⟩ := h
    refine ⟨?_, hrest⟩
    rw [List.getElem?_append_left (List.getElem?_eq_some_iff.mp hk).1]
    exact hk
  case h_2 hgot =>
    rw [hgot] at h
    exact h

/-- An entry of a list with one more is the new one, or one of the others. -/
theorem concat_split {α : Type} {log before after : List α} {a b : α}
    (h : log ++ [b] = before ++ a :: after) :
    (before = log ∧ a = b) ∨ ∃ after', log = before ++ a :: after' := by
  rcases List.eq_nil_or_concat after with rfl | ⟨init, c, rfl⟩
  · obtain ⟨hlog, hab⟩ := List.append_inj' h rfl
    exact Or.inl ⟨hlog.symm, (List.cons.inj hab).1.symm⟩
  · rw [List.concat_eq_append, ← List.cons_append, ← List.append_assoc] at h
    exact Or.inr ⟨init, (List.append_inj' h rfl).1⟩

/-- The visitor is where the reading is, and everything has been right so far. -/
structure Tracks (size : Nat) (t : Traced τ) : Prop where
  represents : t.visitor.Represents size ⟨t.published, lastReturned t.log⟩
  delivers : Delivers size t

variable {size : Nat} {t : Traced τ}

theorem Tracks.fill (h : Tracks size t) (m : τ) (hlt : t.published.length + 1 < 2 ^ 64) :
    Tracks size (t.step (.fill m)) :=
  { represents := h.represents.fill m hlt
    delivers :=
      { increasing := h.delivers.increasing
        right := fun before a after hlog => (h.delivers.right before a after hlog).publish m } }

theorem Tracks.tryFetch (h : Tracks size t) (hlt : t.published.length + 1 < 2 ^ 64) :
    Tracks size (t.step .tryFetch) := by
  obtain ⟨hgot, hafter⟩ := h.represents.tryFetch hlt
  have hright : Attempt.Right size t.published (lastReturned t.log)
      ⟨t.published.length, t.visitor.tryFetch.1⟩ := by
    rw [hgot]
    exact Reading.right_tryFetch h.represents.last
  have hlast : (Reading.tryFetch size ⟨t.published, lastReturned t.log⟩).2 =
      ⟨t.published, lastReturned (t.step .tryFetch).log⟩ := by
    rw [Reading.tryFetch_snd h.represents.last, ← hgot]
    exact congrArg (Reading.mk t.published) (lastReturned_append t.log ⟨_, _⟩).symm
  refine ⟨hlast ▸ hafter, ?_, ?_⟩
  · show (returned (t.log ++ [⟨t.published.length, t.visitor.tryFetch.1⟩])).Pairwise _
    rw [returned_append, List.pairwise_append]
    refine ⟨h.delivers.increasing, ?_, fun e he f hf => ?_⟩
    · cases t.visitor.tryFetch.1 with
      | none => exact List.Pairwise.nil
      | some e => exact List.pairwise_singleton _ _
    · obtain ⟨k, m⟩ := f
      have hf : t.visitor.tryFetch.1 = some (k, m) := Option.mem_toList.mp hf
      rw [Attempt.Right, hf] at hright
      exact Nat.lt_of_le_of_lt (le_lastReturned h.delivers.increasing he) hright.2.1
  · intro before a after hlog
    rcases concat_split hlog with ⟨rfl, rfl⟩ | ⟨after', hlog⟩
    · exact hright
    · exact h.delivers.right before a after' hlog

theorem tracks_start [Inhabited τ] (queueSize : BitVec 32) :
    Tracks queueSize.toNat (Traced.start queueSize : Traced τ) :=
  { represents := DataVisitor.represents_new queueSize
    delivers :=
      { increasing := List.Pairwise.nil
        right := fun before a after hlog => by
          have hlog : [] = before ++ a :: after := hlog
          simp at hlog } }

theorem Tracks.step (e : Event τ) (h : t.published.length + 1 < 2 ^ 64 → Tracks size t)
    (hlt : (t.step e).published.length + 1 < 2 ^ 64) : Tracks size (t.step e) := by
  cases e with
  | fill m =>
      have hlen : (t.step (.fill m)).published.length = t.published.length + 1 :=
        List.length_append
      exact (h (by omega)).fill m (by omega)
  | tryFetch => exact (h hlt).tryFetch hlt

/-- In any order of `Fill` and `TryFetch`, as long as fewer than 2^64 - 1 messages have
been published: an index of 2^64 is 0, which stands for a reader that has read nothing. -/
theorem visitor_delivers [Inhabited τ] (queueSize : BitVec 32) (events : List (Event τ))
    (hlt : (Run.exec Traced.step (Traced.start queueSize) events).published.length < 2 ^ 64 - 1) :
    Delivers queueSize.toNat (Run.exec Traced.step (Traced.start queueSize) events) := by
  have htracks := Run.invariant_always
    (I := fun t : Traced τ => t.published.length + 1 < 2 ^ 64 → Tracks queueSize.toNat t)
    (fun t e h => Tracks.step e h) (fun _ => tracks_start queueSize) _
    (Run.exec_mem_states Traced.step (Traced.start queueSize) events)
  exact (htracks (by omega)).delivers

/-- A reader that is lapped. -/
theorem visitor_delivers_lapped :
    Delivers 2 (Run.exec Traced.step (Traced.start 2)
      [.tryFetch, .fill 1, .tryFetch, .fill 2, .fill 3, .tryFetch, .fill 4, .fill 5, .fill 6,
        .tryFetch, .tryFetch]) :=
  visitor_delivers 2 _ (by decide)

/-! ### The spare slot, and the last index -/

/-- Between two messages that were returned, one was skipped only where it or an earlier
one that had not been read was overwritten in the ring. -/
def SkipsOverwritten (t : Traced τ) : Prop :=
  ∀ k m, t.visitor.tryFetch.1 = some (k, m) → ∀ j, lastReturned t.log ≠ 0 →
    lastReturned t.log < j → j < k → ∃ i, lastReturned t.log < i ∧ i ≤ j ∧
      t.published[i - 1]? ≠ some (t.visitor.buffer.atPos i)

/-- Message 2 is skipped, and it is in the spare slot. -/
theorem spare_slot :
    ¬SkipsOverwritten (Run.exec Traced.step (Traced.start 1) [.fill 1, .tryFetch, .fill 2, .fill 3]) := by
  intro h
  obtain ⟨i, hi, hle, hne⟩ := h 3 3 rfl 2 (by decide) (by decide) (by decide)
  have hi : 1 < i := hi
  obtain rfl : i = 2 := by omega
  exact hne rfl

/-- A visitor that has fetched nothing from a buffer that was filled `n` times. -/
structure Filled (n size : Nat) (t : Traced Unit) : Prop where
  published : t.published.length = n
  buffer : t.visitor.buffer.Holds size t.published
  nextMsgIndex : t.visitor.nextMsgIndex = 0

theorem filled (queueSize : BitVec 32) {n : Nat} (hn : n < 2 ^ 64) :
    Filled n queueSize.toNat
      (Run.exec Traced.step (Traced.start queueSize) (List.replicate n (.fill ()))) := by
  induction n with
  | zero =>
      exact
        { published := rfl
          buffer := (DataVisitor.represents_new queueSize).buffer
          nextMsgIndex := rfl }
  | succ n ih =>
      have h := ih (by omega)
      rw [List.replicate_succ', Run.exec_append]
      exact
        { published := by
            show (_ ++ [()]).length = n + 1
            rw [List.length_append, h.published, List.length_singleton]
          buffer := h.buffer.fill () (by rw [h.published]; exact hn)
          nextMsgIndex := h.nextMsgIndex }

/-- The last index is followed by 0, and the same message is fetched again. -/
theorem Filled.tryFetch {n size : Nat} {t : Traced Unit} (hn : n + 1 = 2 ^ 64)
    (h : Filled n size t) :
    t.visitor.tryFetch.1 = some (n, ()) ∧ Filled n size (t.step .tryFetch) := by
  have htail : t.visitor.buffer.tail = n := h.buffer.tail.trans h.published
  have hfull : ¬t.visitor.buffer.empty = true := by
    rw [CacheBuffer.empty, htail, beq_iff_eq]
    omega
  have hfetch : t.visitor.buffer.fetch t.visitor.nextMsgIndex = some (n, ()) := by
    rw [CacheBuffer.fetch, if_neg hfull, h.nextMsgIndex, if_pos rfl, CacheBuffer.tailPos, htail]
  have htry : t.visitor.tryFetch = (some (n, ()), { t.visitor with nextMsgIndex := inc n }) := by
    rw [DataVisitor.tryFetch, hfetch]
  refine ⟨by rw [htry], ?_⟩
  rw [Traced.step, htry]
  exact
    { published := h.published
      buffer := h.buffer
      nextMsgIndex := by
        show (n + 1) % 2 ^ 64 = 0
        rw [hn, Nat.mod_self] }

theorem last_index (queueSize : BitVec 32) {n : Nat} (hn : n + 1 = 2 ^ 64) :
    ¬Delivers queueSize.toNat (Run.exec Traced.step (Traced.start queueSize)
      (List.replicate n (.fill ()) ++ [.tryFetch, .tryFetch])) := by
  intro h
  have hfilled := filled queueSize (n := n) (by omega)
  rw [Run.exec_append] at h
  obtain ⟨hfirst, hagain⟩ := hfilled.tryFetch hn
  obtain ⟨hsecond, -⟩ := hagain.tryFetch hn
  have hreturned := h.increasing
  rw [Run.exec_cons, Run.exec_cons, Run.exec_nil] at hreturned
  generalize Run.exec Traced.step (Traced.start queueSize) (List.replicate n (.fill ())) = t
    at hfirst hsecond hreturned
  have hlog : ((t.step .tryFetch).step .tryFetch).log =
      t.log ++ [⟨t.published.length, t.visitor.tryFetch.1⟩] ++
        [⟨t.published.length, (t.step .tryFetch).visitor.tryFetch.1⟩] := rfl
  rw [hlog, returned_append, returned_append, hsecond, hfirst, List.append_assoc] at hreturned
  have hlt : n < n := List.rel_of_pairwise_cons (List.pairwise_append.mp hreturned).2.1
    List.mem_cons_self
  exact Nat.lt_irrefl n hlt

/-- As it is stated of the ring, and of fewer than 2^64 messages, the rule fails. -/
theorem spare_slot_and_last_index :
    ¬SkipsOverwritten (Run.exec Traced.step (Traced.start 1)
        [.fill 1, .tryFetch, .fill 2, .fill 3]) ∧
      ¬Delivers 1 (Run.exec Traced.step (Traced.start 1)
        (List.replicate (2 ^ 64 - 1) (.fill ()) ++ [.tryFetch, .tryFetch])) :=
  ⟨spare_slot, last_index 1 (by decide)⟩

end Data
end Cmw
