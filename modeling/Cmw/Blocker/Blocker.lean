import Cmw.Config.RoleAttributes
import Cmw.Library.Run
import Cmw.Library.Table
import Mathlib.Order.Bounds.Basic

/-!
# The history of a blocker

blocker/blocker.h.  A `Blocker` keeps the last messages of a channel, the newest in front, in a
queue whose capacity may change between two of them, and a second queue that is the first one as
it was when it was last observed.

What the queues should hold is said of the events of a run alone: `Fits` of a number of messages,
that the newest so many have never been more than the capacity allowed.  `keeps_of_exec` is about
every run.
-/

namespace Cmw

open Config
open Library

structure BlockerAttr where
  capacity : Nat := 10
  channelName : Str := []
  deriving DecidableEq

structure Blocker (μ κ : Type) where
  attr : BlockerAttr
  observedMsgQueue : List μ := []
  publishedMsgQueue : List μ := []
  publishedCallbacks : Table Str κ := ∅
  dummyMsg : μ

inductive BlockerEvent (μ κ : Type) where
  | publish (msg : μ)
  | setCapacity (capacity : Nat)
  | observe
  | clearPublished
  | clearObserved
  | reset
  | subscribe (callbackId : Str) (callback : κ)
  | unsubscribe (callbackId : Str)

namespace Blocker

variable {μ κ : Type}

/-- `while (queue.size() > capacity) queue.pop_back()` -/
def popBack (capacity : Nat) (queue : List μ) : List μ :=
  if capacity < queue.length then popBack capacity queue.dropLast else queue
termination_by queue.length
decreasing_by
  rw [List.length_dropLast]
  omega

def new (attr : BlockerAttr) (dummyMsg : μ) : Blocker μ κ := { attr, dummyMsg }

def enqueue (b : Blocker μ κ) (msg : μ) : Blocker μ κ :=
  if b.attr.capacity = 0 then b
  else { b with publishedMsgQueue := popBack b.attr.capacity (msg :: b.publishedMsgQueue) }

/-- The callbacks that are called, each with the message. -/
def notify (b : Blocker μ κ) (msg : μ) : List (κ × μ) :=
  b.publishedCallbacks.entries.map fun item => (item.2, msg)

def publish (b : Blocker μ κ) (msg : μ) : List (κ × μ) × Blocker μ κ :=
  let b := b.enqueue msg
  (b.notify msg, b)

def setCapacity (b : Blocker μ κ) (capacity : Nat) : Blocker μ κ :=
  { b with
    attr := { b.attr with capacity }
    publishedMsgQueue := popBack capacity b.publishedMsgQueue }

def observe (b : Blocker μ κ) : Blocker μ κ := { b with observedMsgQueue := b.publishedMsgQueue }

def clearPublished (b : Blocker μ κ) : Blocker μ κ := { b with publishedMsgQueue := [] }

def clearObserved (b : Blocker μ κ) : Blocker μ κ := { b with observedMsgQueue := [] }

def reset (b : Blocker μ κ) : Blocker μ κ :=
  { b with observedMsgQueue := [], publishedMsgQueue := [], publishedCallbacks := ∅ }

def subscribe (b : Blocker μ κ) (callbackId : Str) (callback : κ) : Bool × Blocker μ κ :=
  if callbackId ∈ b.publishedCallbacks then (false, b)
  else (true, { b with publishedCallbacks := b.publishedCallbacks.insert callbackId callback })

def unsubscribe (b : Blocker μ κ) (callbackId : Str) : Bool × Blocker μ κ :=
  (decide (callbackId ∈ b.publishedCallbacks),
    { b with publishedCallbacks := b.publishedCallbacks.erase callbackId })

def getLatestObserved (b : Blocker μ κ) : μ :=
  match b.observedMsgQueue with
  | [] => b.dummyMsg
  | msg :: _ => msg

def getLatestObservedPtr (b : Blocker μ κ) : Option μ :=
  match b.observedMsgQueue with
  | [] => none
  | msg :: _ => some msg

def getOldestObservedPtr (b : Blocker μ κ) : Option μ :=
  if h : b.observedMsgQueue = [] then none else some (b.observedMsgQueue.getLast h)

def getLatestPublishedPtr (b : Blocker μ κ) : Option μ :=
  match b.publishedMsgQueue with
  | [] => none
  | msg :: _ => some msg

def step (b : Blocker μ κ) : BlockerEvent μ κ → Blocker μ κ
  | .publish msg => (b.publish msg).2
  | .setCapacity capacity => b.setCapacity capacity
  | .observe => b.observe
  | .clearPublished => b.clearPublished
  | .clearObserved => b.clearObserved
  | .reset => b.reset
  | .subscribe callbackId callback => (b.subscribe callbackId callback).2
  | .unsubscribe callbackId => (b.unsubscribe callbackId).2

end Blocker

/-! ## What the events say -/

namespace BlockerEvent

variable {μ κ : Type}

def ClearsPublished : BlockerEvent μ κ → Prop
  | .clearPublished => True
  | .reset => True
  | _ => False

def ClearsObserved : BlockerEvent μ κ → Prop
  | .clearObserved => True
  | .reset => True
  | _ => False

def Observes : BlockerEvent μ κ → Prop
  | .observe => True
  | _ => False

/-- The capacity that is in force after the event, where it was `capacity`. -/
def inForce (capacity : Nat) : BlockerEvent μ κ → Nat
  | .setCapacity capacity => capacity
  | _ => capacity

/-- The messages published since the last clear, where they were `msgs` before the event. -/
def sinceClear (msgs : List μ) : BlockerEvent μ κ → List μ
  | .publish msg => msg :: msgs
  | .clearPublished => []
  | .reset => []
  | _ => msgs

end BlockerEvent

namespace Blocker

variable {μ κ : Type}

/-- The capacity in force after the events, for a blocker made with `capacity`. -/
def inForce (capacity : Nat) (es : List (BlockerEvent μ κ)) : Nat :=
  es.foldl BlockerEvent.inForce capacity

/-- The messages published since the last clear, the newest first. -/
def sinceClear (es : List (BlockerEvent μ κ)) : List μ := es.foldl BlockerEvent.sinceClear []

/-- At least `k` messages have been published since the last clear, and at no time since then have
those of the newest `k` that were published by then been more than the capacity in force. -/
def Fits (capacity : Nat) (es : List (BlockerEvent μ κ)) (k : Nat) : Prop :=
  k ≤ (sinceClear es).length ∧
    ∀ before after, es = before ++ after → (∀ e ∈ after, ¬e.ClearsPublished) →
      k - (sinceClear after).length ≤ inForce capacity before

/-- What a blocker that was `b₀` holds after the events `es`. -/
structure Keeps (b₀ : Blocker μ κ) (es : List (BlockerEvent μ κ)) (b : Blocker μ κ) : Prop where
  capacity : b.attr.capacity = inForce b₀.attr.capacity es
  longest : IsGreatest {k | Fits b₀.attr.capacity es k} b.publishedMsgQueue.length
  newest : b.publishedMsgQueue = (sinceClear es).take b.publishedMsgQueue.length
  bounded : b.publishedMsgQueue.length ≤ b.attr.capacity
  observed :
    (∃ before after, es = before ++ .observe :: after ∧
        (∀ e ∈ after, ¬e.Observes ∧ ¬e.ClearsObserved) ∧
        b.observedMsgQueue = (Run.exec step b₀ before).publishedMsgQueue) ∨
      ¬Run.Since BlockerEvent.Observes BlockerEvent.ClearsObserved es ∧ b.observedMsgQueue = []
  latestPublished : b.getLatestPublishedPtr = b.publishedMsgQueue.head?
  latestObserved : b.getLatestObservedPtr = b.observedMsgQueue.head?
  oldestObserved : b.getOldestObservedPtr = b.observedMsgQueue.getLast?
  latest : b.getLatestObserved = b.observedMsgQueue.headD b.dummyMsg

/-! ## One operation -/

theorem popBack_eq_take (capacity : Nat) (queue : List μ) :
    popBack capacity queue = queue.take capacity := by
  induction queue using popBack.induct capacity with
  | case1 queue hlt ih =>
      rw [popBack, if_pos hlt, ih, List.dropLast_eq_take, List.take_take]
      congr 1
      omega
  | case2 queue hle => rw [popBack, if_neg hle, List.take_of_length_le (by omega)]

/-- A blocker of capacity 0 stores nothing. -/
theorem enqueue_published {b : Blocker μ κ} (hb : b.publishedMsgQueue.length ≤ b.attr.capacity)
    (msg : μ) :
    (b.enqueue msg).publishedMsgQueue = (msg :: b.publishedMsgQueue).take b.attr.capacity := by
  rw [enqueue]
  split
  case isTrue hzero =>
    rw [hzero] at hb ⊢
    exact List.eq_nil_of_length_eq_zero (by omega)
  case isFalse => exact popBack_eq_take _ _

theorem enqueue_keeps (b : Blocker μ κ) (msg : μ) :
    (b.enqueue msg).attr = b.attr ∧ (b.enqueue msg).observedMsgQueue = b.observedMsgQueue := by
  rw [enqueue]
  split <;> exact ⟨rfl, rfl⟩

theorem step_capacity (b : Blocker μ κ) (e : BlockerEvent μ κ) :
    (b.step e).attr.capacity = e.inForce b.attr.capacity := by
  cases e with
  | publish msg => exact congrArg BlockerAttr.capacity (b.enqueue_keeps msg).1
  | subscribe callbackId callback =>
      rw [step, subscribe]
      split <;> rfl
  | setCapacity => rfl
  | observe => rfl
  | clearPublished => rfl
  | clearObserved => rfl
  | reset => rfl
  | unsubscribe => rfl

/-- Every event leaves the newest messages that the capacity allows. -/
theorem step_published {b : Blocker μ κ} (hb : b.publishedMsgQueue.length ≤ b.attr.capacity)
    (e : BlockerEvent μ κ) :
    (b.step e).publishedMsgQueue =
      (e.sinceClear b.publishedMsgQueue).take (e.inForce b.attr.capacity) := by
  have hsame : b.publishedMsgQueue = b.publishedMsgQueue.take b.attr.capacity :=
    (List.take_of_length_le hb).symm
  cases e with
  | publish msg => exact enqueue_published hb msg
  | setCapacity capacity => exact popBack_eq_take capacity b.publishedMsgQueue
  | subscribe callbackId callback =>
      rw [step, subscribe]
      split <;> exact hsame
  | observe => exact hsame
  | clearPublished => exact List.take_nil.symm
  | clearObserved => exact hsame
  | reset => exact List.take_nil.symm
  | unsubscribe => exact hsame

/-- The observed queue changes where the blocker is observed or the queue is cleared. -/
theorem step_observed (b : Blocker μ κ) (e : BlockerEvent μ κ) :
    (e.Observes ∧ (b.step e).observedMsgQueue = b.publishedMsgQueue) ∨
      (¬e.Observes ∧ e.ClearsObserved ∧ (b.step e).observedMsgQueue = []) ∨
      (¬e.Observes ∧ ¬e.ClearsObserved ∧
        (b.step e).observedMsgQueue = b.observedMsgQueue) := by
  cases e with
  | publish msg => exact .inr (.inr ⟨id, id, (b.enqueue_keeps msg).2⟩)
  | setCapacity => exact .inr (.inr ⟨id, id, rfl⟩)
  | observe => exact .inl ⟨trivial, rfl⟩
  | clearPublished => exact .inr (.inr ⟨id, id, rfl⟩)
  | clearObserved => exact .inr (.inl ⟨id, trivial, rfl⟩)
  | reset => exact .inr (.inl ⟨id, trivial, rfl⟩)
  | subscribe callbackId callback =>
      refine .inr (.inr ⟨id, id, ?_⟩)
      rw [step, subscribe]
      split <;> rfl
  | unsubscribe => exact .inr (.inr ⟨id, id, rfl⟩)

/-! ## Runs -/

theorem sinceClear_concat (es : List (BlockerEvent μ κ)) (e : BlockerEvent μ κ) :
    sinceClear (es ++ [e]) = e.sinceClear (sinceClear es) := by
  rw [sinceClear, List.foldl_append]
  rfl

theorem inForce_concat (capacity : Nat) (es : List (BlockerEvent μ κ)) (e : BlockerEvent μ κ) :
    inForce capacity (es ++ [e]) = e.inForce (inForce capacity es) := by
  rw [inForce, List.foldl_append]
  rfl

theorem sinceClear_of_clears {e : BlockerEvent μ κ} (he : e.ClearsPublished) (msgs : List μ) :
    e.sinceClear msgs = [] := by
  cases e <;> first | rfl | exact he.elim

/-- An event that does not clear the messages adds as many to them, however many there are. -/
theorem exists_length_sinceClear {e : BlockerEvent μ κ} (he : ¬e.ClearsPublished) :
    ∃ new, ∀ msgs : List μ, (e.sinceClear msgs).length = msgs.length + new := by
  cases e with
  | publish => exact ⟨1, fun _ => rfl⟩
  | clearPublished => exact absurd trivial he
  | reset => exact absurd trivial he
  | setCapacity => exact ⟨0, fun _ => rfl⟩
  | observe => exact ⟨0, fun _ => rfl⟩
  | clearObserved => exact ⟨0, fun _ => rfl⟩
  | subscribe => exact ⟨0, fun _ => rfl⟩
  | unsubscribe => exact ⟨0, fun _ => rfl⟩

theorem prefix_sinceClear {msgs msgs' : List μ} (h : msgs <+: msgs') (e : BlockerEvent μ κ) :
    e.sinceClear msgs <+: e.sinceClear msgs' := by
  cases e with
  | publish msg => exact (List.prefix_cons_inj msg).mpr h
  | clearPublished => exact List.prefix_refl []
  | reset => exact List.prefix_refl []
  | setCapacity => exact h
  | observe => exact h
  | clearObserved => exact h
  | subscribe => exact h
  | unsubscribe => exact h

/-- The times since the last clear are now, and those before the last event where this one does
not clear the messages. -/
theorem fits_concat {capacity : Nat} {es : List (BlockerEvent μ κ)} {e : BlockerEvent μ κ}
    {k : Nat} :
    Fits capacity (es ++ [e]) k ↔
      k ≤ (sinceClear (es ++ [e])).length ∧ k ≤ inForce capacity (es ++ [e]) ∧
        (¬e.ClearsPublished → ∀ before after, es = before ++ after →
          (∀ x ∈ after, ¬x.ClearsPublished) →
            k - (sinceClear (after ++ [e])).length ≤ inForce capacity before) := by
  constructor
  · intro h
    obtain ⟨hlen, h⟩ := h
    refine ⟨hlen, h _ [] (List.append_nil _).symm (List.forall_mem_nil _), ?_⟩
    intro he before after hes hafter
    refine h before (after ++ [e]) (by rw [hes, List.append_assoc]) ?_
    exact List.forall_mem_append.mpr ⟨hafter, List.forall_mem_singleton.mpr he⟩
  · intro h
    obtain ⟨hlen, hnow, h⟩ := h
    refine ⟨hlen, fun before after hes hafter => ?_⟩
    rcases List.eq_nil_or_concat after with rfl | ⟨after, x, rfl⟩
    · rw [List.append_nil] at hes
      exact hes ▸ hnow
    · rw [List.concat_eq_append, ← List.append_assoc] at hes
      rw [List.concat_eq_append, List.forall_mem_append, List.forall_mem_singleton] at hafter
      obtain ⟨hinit, hlast⟩ := List.append_inj' hes rfl
      obtain rfl := List.singleton_inj.mp hlast
      rw [List.concat_eq_append]
      exact h hafter.2 before after hinit hafter.1

/-- What a step may count on: the queue is the longest that fits. -/
structure Holds (b₀ : Blocker μ κ) (es : List (BlockerEvent μ κ)) (b : Blocker μ κ) : Prop where
  capacity : b.attr.capacity = inForce b₀.attr.capacity es
  fits : ∀ k, Fits b₀.attr.capacity es k ↔ k ≤ b.publishedMsgQueue.length
  newest : b.publishedMsgQueue <+: sinceClear es
  bounded : b.publishedMsgQueue.length ≤ b.attr.capacity

namespace Holds

variable {b₀ b : Blocker μ κ} {es : List (BlockerEvent μ κ)}

theorem step (h : Holds b₀ es b) (e : BlockerEvent μ κ) : Holds b₀ (es ++ [e]) (b.step e) := by
  have hcap : (b.step e).attr.capacity = inForce b₀.attr.capacity (es ++ [e]) := by
    rw [step_capacity, h.capacity, inForce_concat]
  have hpub := step_published h.bounded e
  have hlen : (b.step e).publishedMsgQueue.length =
      min (inForce b₀.attr.capacity (es ++ [e])) (e.sinceClear b.publishedMsgQueue).length := by
    rw [hpub, List.length_take, h.capacity, inForce_concat]
  refine ⟨hcap, fun k => ?_, ?_, ?_⟩
  · rw [fits_concat, hlen]
    by_cases he : e.ClearsPublished
    · rw [sinceClear_concat, sinceClear_of_clears he, sinceClear_of_clears he, List.length_nil,
        Nat.min_zero]
      constructor
      · exact fun hk => hk.1
      · exact fun hk => ⟨hk, Nat.le_trans hk (Nat.zero_le _), fun hne => absurd he hne⟩
    · obtain ⟨new, hnew⟩ := exists_length_sinceClear he
      have hfits := h.fits (k - new)
      simp only [sinceClear_concat, hnew] at hfits ⊢
      constructor
      · intro hk
        obtain ⟨hmany, hnow, hbefore⟩ := hk
        have hq := hfits.mp ⟨by omega, fun before after hes hafter => by
          have := hbefore he before after hes hafter
          omega⟩
        omega
      · intro hk
        obtain ⟨hmany, hbefore⟩ := hfits.mpr (by omega)
        refine ⟨?_, by omega, fun _ before after hes hafter => ?_⟩
        · have := h.newest.length_le
          omega
        · have := hbefore before after hes hafter
          omega
  · rw [hpub, sinceClear_concat]
    have hkept := List.take_prefix (e.inForce b.attr.capacity) (e.sinceClear b.publishedMsgQueue)
    exact hkept.trans (prefix_sinceClear h.newest e)
  · rw [hlen, hcap]
    exact Nat.min_le_left _ _

end Holds

theorem holds_of_exec (attr : BlockerAttr) (dummyMsg : μ) (es : List (BlockerEvent μ κ)) :
    Holds (new attr dummyMsg) es (Run.exec step (new attr dummyMsg) es) := by
  induction es using List.reverseRecOn with
  | nil =>
      refine ⟨rfl, fun k => ⟨fun h => h.1, fun hk => ⟨hk, fun before after _ _ => ?_⟩⟩,
        List.prefix_refl [], Nat.zero_le _⟩
      have hzero : k = 0 := Nat.le_zero.mp hk
      rw [hzero, Nat.zero_sub]
      exact Nat.zero_le _
  | append_singleton es e ih =>
      rw [Run.exec_append]
      exact ih.step e

/-- The queue that is observed, by the last event that has changed it. -/
theorem observed_of_exec (b₀ : Blocker μ κ) (hb₀ : b₀.observedMsgQueue = [])
    (es : List (BlockerEvent μ κ)) :
    (∃ before after, es = before ++ .observe :: after ∧
        (∀ e ∈ after, ¬e.Observes ∧ ¬e.ClearsObserved) ∧
        (Run.exec step b₀ es).observedMsgQueue =
          (Run.exec step b₀ before).publishedMsgQueue) ∨
      ¬Run.Since BlockerEvent.Observes BlockerEvent.ClearsObserved es ∧
        (Run.exec step b₀ es).observedMsgQueue = [] := by
  induction es using List.reverseRecOn with
  | nil => exact .inr ⟨Run.not_since_nil, hb₀⟩
  | append_singleton es e ih =>
      rw [Run.exec_append, Run.since_concat]
      show (∃ before after, _ ∧ _ ∧ ((Run.exec step b₀ es).step e).observedMsgQueue = _) ∨
        _ ∧ ((Run.exec step b₀ es).step e).observedMsgQueue = []
      rcases step_observed (Run.exec step b₀ es) e with
        ⟨hobs, heq⟩ | ⟨hobs, hclear, heq⟩ | ⟨hobs, hclear, heq⟩
      · have he : e = .observe := by
          cases e <;> first | rfl | exact hobs.elim
        exact .inl ⟨es, [], congrArg _ (congrArg (fun x => [x]) he), List.forall_mem_nil _, heq⟩
      · refine .inr ⟨fun h => ?_, heq⟩
        rcases h with h | h
        · exact hobs h
        · exact h.2 hclear
      · rw [heq]
        rcases ih with ⟨before, after, hes, hafter, hsame⟩ | ⟨hnone, hempty⟩
        · refine .inl ⟨before, after ++ [e], by rw [hes, List.append_assoc]; rfl, ?_, hsame⟩
          exact List.forall_mem_append.mpr
            ⟨hafter, List.forall_mem_singleton.mpr ⟨hobs, hclear⟩⟩
        · refine .inr ⟨fun h => ?_, hempty⟩
          rcases h with h | h
          · exact hobs h
          · exact hnone h.1

theorem getLatestPublishedPtr_eq (b : Blocker μ κ) :
    b.getLatestPublishedPtr = b.publishedMsgQueue.head? := by
  rw [getLatestPublishedPtr]
  cases b.publishedMsgQueue <;> rfl

theorem getLatestObservedPtr_eq (b : Blocker μ κ) :
    b.getLatestObservedPtr = b.observedMsgQueue.head? := by
  rw [getLatestObservedPtr]
  cases b.observedMsgQueue <;> rfl

theorem getOldestObservedPtr_eq (b : Blocker μ κ) :
    b.getOldestObservedPtr = b.observedMsgQueue.getLast? := by
  rw [getOldestObservedPtr]
  split
  case isTrue hnil => rw [hnil, List.getLast?_nil]
  case isFalse hne => exact (List.getLast?_eq_some_getLast hne).symm

theorem getLatestObserved_eq (b : Blocker μ κ) :
    b.getLatestObserved = b.observedMsgQueue.headD b.dummyMsg := by
  rw [getLatestObserved]
  cases b.observedMsgQueue <;> rfl

/-- After any events on a new blocker its queues hold what the events say. -/
theorem keeps_of_exec (attr : BlockerAttr) (dummyMsg : μ) (es : List (BlockerEvent μ κ)) :
    Keeps (new attr dummyMsg) es (Run.exec step (new attr dummyMsg) es) := by
  have h := holds_of_exec attr dummyMsg es
  exact
    { capacity := h.capacity
      longest := ⟨(h.fits _).mpr (Nat.le_refl _), fun k hk => (h.fits k).mp hk⟩
      newest := List.prefix_iff_eq_take.mp h.newest
      bounded := h.bounded
      observed := observed_of_exec _ rfl es
      latestPublished := getLatestPublishedPtr_eq _
      latestObserved := getLatestObservedPtr_eq _
      oldestObserved := getOldestObservedPtr_eq _
      latest := getLatestObserved_eq _ }

end Blocker

end Cmw
