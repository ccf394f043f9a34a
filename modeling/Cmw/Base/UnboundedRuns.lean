import Cmw.Base.UnboundedSteps

/-!
# Every run of the unbounded queue

Where the steps of a run meet a condition, the calls of `Dequeue` copy the elements in the order
in which `tail_` has been moved, none is lost or copied twice, no node is touched that has been
deleted, and `size_` does not fall below zero.
-/

namespace Cmw
namespace Base
namespace UnboundedQueue

open Library
open Library.Thread

/-! ### One operation -/

section Operations

variable {ι T : Type}

/-- No two releases of a node overlap, no node is deleted that is about to be read, `head_` is
moved to the node behind it, and the elements that are counted are more than those that have to
be subtracted. -/
def Allowed (s : Shared ι T) : Op T → Prop
  | .fetchSubRefCount p => ∀ j, ¬(s.2.own j).Releases p
  | .deleteNode p => ∀ j, ¬(s.2.own j).ReadsAt p
  | .casHead expected desired =>
      s.1.head = expected → (s.1.nodes.cell expected).map Node.next = some (some desired)
  | .fetchSubSize =>
      s.2.toAdd.card < s.2.enqueued.length - s.2.taken + s.2.toSubtract.card
  | _ => True

/-- How far a thread is that performs an operation. -/
def Ready (phase : Phase T) : Op T → Prop
  | .newNode | .loadSize | .loadHead => ∃ taken, phase = .rest taken
  | .storeData p _ => phase = .made p
  | .loadTail => ∃ p element, phase = .filled p element
  | .casTail _ next => ∃ element, phase = .filled next element
  | .storeNext p next => ∃ k, phase = .linking k p next
  | .fetchSubRefCount p => ∃ side k, phase = .release side k p .before
  | .loadRefCount p => ∃ side k, phase = .release side k p .subtracted
  | .deleteNode p => ∃ side k, phase = .release side k p .deleting
  | .fetchAddSize => phase = .adding
  | .loadNext p => ∃ k, phase = .loaded k p
  | .casHead _ _ => phase = .read
  | .loadData next => ∃ k p, phase = .taking k p next
  | .fetchSubSize => ∃ k p, phase = .subtracting k p

/-- How far the thread is after it; `phase` is how far it was. -/
def Came (i : ι) (phase : Phase T) (t : Shared ι T) : (o : Op T) → Yield o → Prop
  | .newNode, p => t.2.own i = .made p
  | .storeData p element, _ => t.2.own i = .filled p element
  | .loadTail, _ | .loadSize, _ | .casTail _ _, (false, _) => t.2.own i = phase
  | .casTail _ next, (true, found) => ∃ k, t.2.own i = .linking k found next
  | .storeNext p _, _ => ∃ k, t.2.own i = .release .tail k p .before
  | .fetchSubRefCount p, _ =>
      ∀ side k, phase = .release side k p .before → t.2.own i = .release side k p .subtracted
  | .loadRefCount p, refCount =>
      ∀ side k, phase = .release side k p .subtracted →
        t.2.own i = .during side k p (if refCount = 0 then .deleting else .after)
  | .deleteNode p, _ =>
      ∀ side k, phase = .release side k p .deleting → t.2.own i = .during side k p .after
  | .fetchAddSize, _ | .loadNext _, none => t.2.own i = .rest none
  | .loadHead, p | .casHead _ _, (false, p) => ∃ k, t.2.own i = .loaded k p
  | .loadNext _, some _ => t.2.own i = .read
  | .casHead expected next, (true, _) => ∃ k, t.2.own i = .taking k expected next
  | .loadData next, element =>
      ∀ k p, phase = .taking k p next →
        t.2.own i = .subtracting k p ∧ t.2.dequeued k = some element
  | .fetchSubSize, _ => ∀ k p, phase = .subtracting k p → t.2.own i = .release .head k p .before

variable [DecidableEq ι] [Inhabited T]

omit [DecidableEq ι] [Inhabited T] in
/-- What has been copied is never copied again. -/
def Later (s t : Shared ι T) : Prop :=
  ∀ k element, s.2.dequeued k = some element → t.2.dequeued k = some element

/-- The operation touches nothing that is free, and keeps the queue. -/
def Does (i : ι) (o : Op T) (x : Nat) (s : Shared ι T) : Prop :=
  ∃ a t, noted i o x s = (some a, t) ∧ Inv t ∧ Later s t ∧ Came i (s.2.own i) t o a

variable {s : Shared ι T} {i : ι} {x : Nat}

theorem does_newNode (hs : Inv s) (hready : Ready (s.2.own i) .newNode) :
    Does i .newNode x s := by
  obtain ⟨taken, hown⟩ := hready
  exact ⟨_, _, rfl, hs.newNode hown x, fun _ _ h => h, Function.update_self ..⟩

theorem does_storeData (hs : Inv s) {p : Nat} {element : T}
    (hown : Ready (s.2.own i) (.storeData p element)) : Does i (.storeData p element) x s := by
  obtain ⟨node, hcell⟩ := hs.cell_of_mark (j := i) (p := p) (by rw [hown]; rfl)
  refine ⟨(), _, ?_, hs.storeData hown element, fun _ _ h => h, Function.update_self ..⟩
  simp only [noted, exec, Memory.write, hcell]
  rfl

theorem does_casTail (hs : Inv s) {expected next : Nat}
    (hready : Ready (s.2.own i) (.casTail expected next)) :
    Does i (.casTail expected next) x s := by
  obtain ⟨element, hown⟩ := hready
  by_cases htail : s.1.tail = expected
  · have hknows := hs.knows i
    rw [hown] at hknows
    have hcell : s.1.nodes.cell next = some { data := element } := hknows
    refine ⟨(true, expected), _, ?_, hs.push hown htail, fun _ _ h => h, _, Function.update_self ..⟩
    simp only [noted, exec, htail, if_true, note, hcell]
  · refine ⟨(false, s.1.tail), s, ?_, hs, fun _ _ h => h, rfl⟩
    simp only [noted, exec, htail, if_false, note]

theorem does_storeNext (hs : Inv s) {p next : Nat}
    (hready : Ready (s.2.own i) (.storeNext p next)) : Does i (.storeNext p next) x s := by
  obtain ⟨k, hown⟩ := hready
  obtain ⟨-, -, node, hcell, -⟩ := hs.linking_live hown
  refine ⟨(), _, ?_, hs.storeNext hown, fun _ _ h => h, k, Function.update_self ..⟩
  simp only [noted, exec, Memory.write, hcell, Option.map_some, note, hown]

theorem does_fetchSubRefCount (hs : Inv s) {p : Nat}
    (hready : Ready (s.2.own i) (.fetchSubRefCount p)) (hallowed : Allowed s (.fetchSubRefCount p)) :
    Does i (.fetchSubRefCount p) x s := by
  obtain ⟨side, k, hown⟩ := hready
  obtain ⟨-, -, -, node, hcell, -⟩ := hs.release_live hown
  refine ⟨(), _, ?_, hs.fetchSubRefCount hown hallowed, fun _ _ h => h, fun side' k' hsame => ?_⟩
  · simp only [noted, exec, Memory.write, hcell, Option.map_some, note, hown]
  · obtain ⟨rfl, rfl, -, -⟩ := Phase.release.inj (hown.symm.trans hsame)
    exact Function.update_self ..

theorem does_loadRefCount (hs : Inv s) {p : Nat} (hready : Ready (s.2.own i) (.loadRefCount p)) :
    Does i (.loadRefCount p) x s := by
  obtain ⟨side, k, hown⟩ := hready
  obtain ⟨-, -, -, node, hcell, -⟩ := hs.release_live hown
  refine ⟨node.refCount, _, ?_, hs.loadRefCount hown hcell, fun _ _ h => h, fun side' k' hsame => ?_⟩
  · simp only [noted, exec, Memory.read, hcell, Option.map_some, note, hown]
  · obtain ⟨rfl, rfl, -, -⟩ := Phase.release.inj (hown.symm.trans hsame)
    exact Function.update_self ..

theorem does_deleteNode (hs : Inv s) {p : Nat} (hready : Ready (s.2.own i) (.deleteNode p))
    (hallowed : Allowed s (.deleteNode p)) : Does i (.deleteNode p) x s := by
  obtain ⟨side, k, hown⟩ := hready
  obtain ⟨-, -, -, node, hcell, -⟩ := hs.release_live hown
  refine ⟨(), _, ?_, hs.deleteNode hown hallowed, fun _ _ h => h, fun side' k' hsame => ?_⟩
  · simp only [noted, exec, hcell, Option.map_some, note, hown]
  · obtain ⟨rfl, rfl, -, -⟩ := Phase.release.inj (hown.symm.trans hsame)
    exact Function.update_self ..

theorem does_fetchAddSize (hs : Inv s) (hown : Ready (s.2.own i) .fetchAddSize) :
    Does i .fetchAddSize x s :=
  ⟨(), _, rfl, hs.fetchAddSize hown, fun _ _ h => h, Function.update_self ..⟩

theorem does_loadHead (hs : Inv s) (hready : Ready (s.2.own i) .loadHead) :
    Does i .loadHead x s :=
  ⟨s.1.head, _, rfl, hs.loadHead (.inl hready), fun _ _ h => h, _, Function.update_self ..⟩

theorem does_loadNext (hs : Inv s) {p : Nat} (hready : Ready (s.2.own i) (.loadNext p)) :
    Does i (.loadNext p) x s := by
  obtain ⟨k, hown⟩ := hready
  obtain ⟨node, hcell⟩ := hs.cell_of_readsAt (i := i) (p := p) (by rw [hown]; rfl)
  obtain ⟨hread, hrest⟩ := hs.loadNext hown
  cases hnext : node.next with
  | none =>
      refine ⟨none, _, ?_, hrest, fun _ _ h => h, Function.update_self ..⟩
      simp only [noted, exec, Memory.read, hcell, Option.map_some, hnext, note]
  | some next =>
      refine ⟨some next, _, ?_, hread, fun _ _ h => h, Function.update_self ..⟩
      simp only [noted, exec, Memory.read, hcell, Option.map_some, hnext, note]

theorem does_casHead (hs : Inv s) {expected next : Nat}
    (hown : Ready (s.2.own i) (.casHead expected next))
    (hallowed : Allowed s (.casHead expected next)) : Does i (.casHead expected next) x s := by
  by_cases hhead : s.1.head = expected
  · refine ⟨(true, expected), _, ?_, hs.pop hown hhead (hallowed hhead), fun _ _ h => h,
      _, Function.update_self ..⟩
    simp only [noted, exec, hhead, if_true, note]
  · refine ⟨(false, s.1.head), _, ?_, hs.loadHead (.inr hown), fun _ _ h => h, _,
      Function.update_self ..⟩
    simp only [noted, exec, hhead, if_false, note]

theorem does_loadData (hs : Inv s) {next : Nat} (hready : Ready (s.2.own i) (.loadData next)) :
    Does i (.loadData next) x s := by
  obtain ⟨k, p, hown⟩ := hready
  obtain ⟨node, hcell⟩ := hs.cell_of_readsAt (i := i) (p := next) (by rw [hown]; rfl)
  have hknows := hs.knows i
  rw [hown] at hknows
  obtain ⟨-, -, -, -, -, hnone⟩ := hknows
  refine ⟨node.data, _, ?_, hs.loadData hown hcell, fun k' element hk' => ?_, fun k' p' hsame => ?_⟩
  · simp only [noted, exec, Memory.read, hcell, Option.map_some, note, hown]
  · refine (Function.update_of_ne ?_ _ _).trans hk'
    rintro rfl
    cases hnone.symm.trans hk'
  · obtain ⟨rfl, rfl, -⟩ := Phase.taking.inj (hown.symm.trans hsame)
    exact ⟨Function.update_self .., Function.update_self ..⟩

theorem does_fetchSubSize (hs : Inv s) (hready : Ready (s.2.own i) .fetchSubSize)
    (hallowed : Allowed s .fetchSubSize) : Does i .fetchSubSize x s := by
  obtain ⟨k, p, hown⟩ := hready
  refine ⟨(), _, ?_, hs.fetchSubSize hown hallowed, fun _ _ h => h, fun k' p' hsame => ?_⟩
  · simp only [noted, exec, note, hown]
  · obtain ⟨rfl, rfl⟩ := Phase.subtracting.inj (hown.symm.trans hsame)
    exact Function.update_self ..

theorem does (hs : Inv s) {o : Op T} (hready : Ready (s.2.own i) o) (hallowed : Allowed s o) :
    Does i o x s := by
  cases o with
  | newNode => exact does_newNode hs hready
  | storeData p element => exact does_storeData hs hready
  | loadTail => exact ⟨s.1.tail, s, rfl, hs, fun _ _ h => h, rfl⟩
  | casTail expected desired => exact does_casTail hs hready
  | storeNext p next => exact does_storeNext hs hready
  | fetchSubRefCount p => exact does_fetchSubRefCount hs hready hallowed
  | loadRefCount p => exact does_loadRefCount hs hready
  | deleteNode p => exact does_deleteNode hs hready hallowed
  | fetchAddSize => exact does_fetchAddSize hs hready
  | fetchSubSize => exact does_fetchSubSize hs hready hallowed
  | loadSize => exact ⟨s.1.size, s, rfl, hs, fun _ _ h => h, rfl⟩
  | loadHead => exact does_loadHead hs hready
  | loadNext p => exact does_loadNext hs hready
  | casHead expected desired => exact does_casHead hs hready hallowed
  | loadData next => exact does_loadData hs hready

end Operations

/-! ### The functions -/

section Functions

variable {ι T : Type} [DecidableEq ι] [Inhabited T]

def Rely (i : ι) (s t : Shared ι T) : Prop := t.2.own i = s.2.own i ∧ Later s t

def protocol (ι T : Type) [DecidableEq ι] [Inhabited T] :
    Protocol (sig T) ι Unit (Shared ι T) Nat noted where
  Inv := Inv
  Rely := Rely
  Cond _ _ o _ s := Allowed s o
  Pre i _ o s := Ready (s.2.own i) o
  Crash := False
  Hang _ _ := True
  refl _ _ := ⟨rfl, fun _ _ h => h⟩
  trans h h' := ⟨h'.1.trans h.1, fun k element hk => h'.2 k element (h.2 k element hk)⟩
  hang_stable _ _ := trivial
  keeps := by
    intro i r o x s hs hready hallowed
    obtain ⟨a, t, hnoted, ht, hlater, -⟩ := does (x := x) hs hready hallowed
    refine ⟨?_, fun j hj => ⟨own_note hj, ?_⟩⟩
    · rw [hnoted]
      exact ht
    · rw [hnoted]
      exact hlater

variable {s : Shared ι T} {i : ι}

/-- The rule of an operation. -/
theorem get_safe {o : Op T} {Q : Unit → Yield o → Shared ι T → Prop}
    (hready : Ready (s.2.own i) o)
    (h : ∀ a t, Later s t → Came i (s.2.own i) t o a → Q () a t) :
    (protocol ι T).Safe i Q (o.get ()) s := by
  refine Protocol.safe_seq.mpr (Protocol.safe_ask fun t hst ht => ?_)
  obtain ⟨hown, hlater⟩ : Rely i s t := hst
  have hready : Ready (t.2.own i) o := hown ▸ hready
  refine ⟨hready, fun x hallowed => ?_⟩
  obtain ⟨a, u, hnoted, -, hlater', hcame⟩ := does (x := x) ht hready hallowed
  rw [hnoted]
  exact h a u (fun k element hk => hlater' k element (hlater k element hk)) (hown ▸ hcame)

omit [DecidableEq ι] [Inhabited T] in
theorem Later.trans {t u : Shared ι T} (h : Later s t) (h' : Later t u) : Later s u :=
  fun k element hk => h' k element (h k element hk)

theorem release_safe {side : Side} {k p : Nat} {Q : Unit → Unit → Shared ι T → Prop}
    (hown : s.2.own i = .release side k p .before)
    (hQ : ∀ t, Later s t → t.2.own i = .during side k p .after → Q () () t) :
    (protocol ι T).Safe i Q (release p ()) s := by
  rw [release, Protocol.safe_seq]
  refine get_safe ⟨side, k, hown⟩ fun _ t hst ht => ?_
  have ht := ht side k hown
  rw [Protocol.safe_seq]
  refine get_safe ⟨side, k, ht⟩ fun refCount u htu hu => ?_
  have hu := hu side k ht
  rw [Protocol.safe_ite]
  constructor
  · intro hzero
    rw [if_pos hzero] at hu
    exact get_safe ⟨side, k, hu⟩ fun _ v huv hv => hQ v ((hst.trans htu).trans huv) (hv side k hu)
  · intro hzero
    rw [if_neg hzero] at hu
    exact hQ u (hst.trans htu) hu

theorem enqueueFrom_safe {node left oldTail : Nat} {element : T}
    {Q : Unit → Unit → Shared ι T → Prop} (hown : s.2.own i = .filled node element)
    (hQ : ∀ t, t.2.own i = .rest none → Q () () t) :
    (protocol ι T).Safe i Q (enqueueFrom node left oldTail ()) s := by
  induction left generalizing s oldTail with
  | zero => trivial
  | succ left ih =>
      rw [enqueueFrom, Protocol.safe_seq]
      refine get_safe ⟨element, hown⟩ fun found t _ ht => ?_
      obtain ⟨swapped, found⟩ := found
      cases swapped with
      | false => exact ih (ht.trans hown)
      | true =>
          obtain ⟨k, ht⟩ : ∃ k, t.2.own i = .linking k found node := ht
          show (protocol ι T).Safe i Q ((do
            (Op.storeNext found node).get
            release found
            Op.fetchAddSize.get : QueueCode T Unit) ()) t
          rw [Protocol.safe_seq]
          refine get_safe ⟨k, ht⟩ fun _ u _ hu => ?_
          obtain ⟨k, hu⟩ : ∃ k, u.2.own i = .release .tail k found .before := hu
          rw [Protocol.safe_seq]
          exact release_safe hu fun v _ hv => get_safe hv fun _ w _ hw => hQ w hw

theorem enqueue_safe {left : Nat} {element : T} {taken : Option Nat}
    {Q : Unit → Unit → Shared ι T → Prop} (hown : s.2.own i = .rest taken)
    (hQ : ∀ t, t.2.own i = .rest none → Q () () t) :
    (protocol ι T).Safe i Q (enqueue left element ()) s := by
  rw [enqueue, Protocol.safe_seq]
  refine get_safe ⟨taken, hown⟩ fun node t _ ht => ?_
  rw [Protocol.safe_seq]
  refine get_safe ht fun _ u _ hu => ?_
  rw [Protocol.safe_seq]
  exact get_safe ⟨node, element, hu⟩ fun _ v _ hv => enqueueFrom_safe (hv.trans hu) hQ

theorem dequeueFrom_safe {k left oldHead : Nat} {Q : Unit → Option T → Shared ι T → Prop}
    (hown : s.2.own i = .loaded k oldHead)
    (hnone : ∀ t, t.2.own i = .rest none → Q () none t)
    (hsome : ∀ k element t, t.2.own i = .rest (some k) → t.2.dequeued k = some element →
      Q () (some element) t) :
    (protocol ι T).Safe i Q (dequeueFrom left oldHead ()) s := by
  induction left generalizing s k oldHead with
  | zero => trivial
  | succ left ih =>
      rw [dequeueFrom, Protocol.safe_seq]
      refine get_safe ⟨k, hown⟩ fun next t _ ht => ?_
      cases next with
      | none => exact hnone t ht
      | some next =>
          dsimp only
          rw [Protocol.safe_seq]
          refine get_safe ht fun found u _ hu => ?_
          obtain ⟨swapped, found⟩ := found
          cases swapped with
          | false =>
              obtain ⟨k, hu⟩ : ∃ k, u.2.own i = .loaded k found := hu
              exact ih hu
          | true =>
              obtain ⟨k, hu⟩ : ∃ k, u.2.own i = .taking k oldHead next := hu
              show (protocol ι T).Safe i Q ((do
                let element ← (Op.loadData next).get
                Op.fetchSubSize.get
                release oldHead
                pure (some element) : QueueCode T (Option T)) ()) u
              rw [Protocol.safe_seq]
              refine get_safe ⟨k, oldHead, hu⟩ fun element v _ hv => ?_
              obtain ⟨hv, hcopied⟩ := hv k oldHead hu
              rw [Protocol.safe_seq]
              refine get_safe ⟨k, oldHead, hv⟩ fun _ w hvw hw => ?_
              rw [Protocol.safe_seq]
              exact release_safe (hw k oldHead hv) fun z hwz hz =>
                hsome k element z hz (hwz k element (hvw k element hcopied))

/-- A call of `Dequeue` has returned what has been copied by it. -/
def Rest (i : ι) (_ : Unit) (a : Answer T) (s : Shared ι T) : Prop :=
  ∃ taken, s.2.own i = .rest taken ∧ ∀ element, a = .dequeued (some element) →
    ∃ k, taken = some k ∧ s.2.dequeued k = some element

theorem body_safe {c : Call T} {taken : Option Nat} (hown : s.2.own i = .rest taken) :
    (protocol ι T).Safe i (Rest i) (c.body ()) s := by
  obtain ⟨left, request⟩ := c
  cases request with
  | enqueue element =>
      show (protocol ι T).Safe i (Rest i) ((do
        enqueue left element
        pure .enqueued : QueueCode T (Answer T)) ()) s
      rw [Protocol.safe_seq]
      exact enqueue_safe hown fun t ht => ⟨none, ht, fun _ h => by cases h⟩
  | dequeue =>
      show (protocol ι T).Safe i (Rest i) ((do
        let element ← dequeue left
        pure (.dequeued element) : QueueCode T (Answer T)) ()) s
      rw [Protocol.safe_seq, dequeue, Protocol.safe_seq]
      refine get_safe ⟨taken, hown⟩ fun oldHead t _ ht => ?_
      obtain ⟨k, ht⟩ : ∃ k, t.2.own i = .loaded k oldHead := ht
      refine dequeueFrom_safe ht (fun u hu => ⟨none, hu, fun _ h => by cases h⟩)
        fun k element u hu hcopied => ⟨some k, hu, fun element' h => ⟨k, rfl, ?_⟩⟩
      obtain rfl := Option.some.inj (Answer.dequeued.inj h)
      exact hcopied
  | size =>
      show (protocol ι T).Safe i (Rest i) ((do
        let size ← Op.loadSize.get
        pure (.size size) : QueueCode T (Answer T)) ()) s
      rw [Protocol.safe_seq]
      exact get_safe ⟨taken, hown⟩ fun size t _ ht =>
        ⟨taken, Eq.trans ht hown, fun _ h => by cases h⟩
  | empty =>
      show (protocol ι T).Safe i (Rest i) ((do
        let empty ← UnboundedQueue.empty
        pure (.empty empty) : QueueCode T (Answer T)) ()) s
      rw [Protocol.safe_seq, UnboundedQueue.empty, Protocol.safe_seq]
      exact get_safe ⟨taken, hown⟩ fun size t _ ht =>
        ⟨taken, Eq.trans ht hown, fun _ h => by cases h⟩

end Functions

/-! ### Every run -/

section Runs

variable {ι T : Type} [DecidableEq ι] [Inhabited T]

/-- What is behind `head_` has the elements that have not been taken, in their order; where one
is not linked yet, the call of `Enqueue` that has moved `tail_` is about to do it. -/
def Queued (s : Shared ι T) : Prop :=
  s.1.head = s.2.chain s.2.taken ∧ ∀ k, s.2.taken ≤ k → k < s.2.enqueued.length →
    ∃ node next, s.1.nodes.cell (s.2.chain k) = some node ∧
      s.1.nodes.cell (s.2.chain (k + 1)) = some next ∧ s.2.enqueued[k]? = some next.data ∧
      (node.next = some (s.2.chain (k + 1)) ∨
        ∃ i, s.2.own i = .linking k (s.2.chain k) (s.2.chain (k + 1)))

/-- The number of the node of the queue that is touched or deleted next. -/
def Phase.Touches : Phase T → Nat → Prop
  | .linking k _ _, j | .release _ k _ _, j => j = k
  | phase, j => phase.Reads j

/-- The calls of `Dequeue` take the elements in the order in which `tail_` has been moved, each of
them once; no node is touched that is not there; and `size_` has not fallen below zero. -/
structure Correct (t : State ι T) : Prop where
  order : ∀ k element, t.shared.2.dequeued k = some element →
    k < t.shared.2.taken ∧ t.shared.2.enqueued[k]? = some element
  taken_le : t.shared.2.taken ≤ t.shared.2.enqueued.length
  copied : ∀ k < t.shared.2.taken, (∃ element, t.shared.2.dequeued k = some element) ∨
    ∃ i p next, t.shared.2.own i = .taking k p next
  queued : Queued t.shared
  returned : ∀ i element, t.threads i = .done () (.dequeued (some element)) →
    ∃ k, t.shared.2.own i = .rest (some k) ∧ t.shared.2.dequeued k = some element
  once : ∀ i j k, t.shared.2.own i = .rest (some k) → t.shared.2.own j = .rest (some k) → i = j
  touched : ∀ i k, (t.shared.2.own i).Touches k → t.shared.2.gone k = false
  alive : ∀ i, t.threads i ≠ .crash
  size : t.shared.1.size = BitVec.ofInt 64 t.shared.2.count
  nonneg : 0 ≤ t.shared.2.count

/-- The condition on a step, before it. -/
def Careful (t : State ι T) : Step ι T → Prop
  | .call _ _ => True
  | .act i _ =>
      match t.threads i with
      | .call _ o _ => Allowed t.shared o
      | _ => True

omit [DecidableEq ι] [Inhabited T] in
theorem queued_of_inv {s : Shared ι T} (hs : Inv s) : Queued s := by
  refine ⟨hs.head, fun k hk hlt => ?_⟩
  obtain ⟨node, hcell, hkept⟩ := hs.node k ⟨Nat.le_of_lt hlt, (hs.ahead hk).2.1⟩
  obtain ⟨next, hcell', hkept'⟩ := hs.node (k + 1) ⟨hlt, (hs.ahead (Nat.le_succ_of_le hk)).2.1⟩
  refine ⟨node, next, hcell, hcell', hkept'.data k rfl, ?_⟩
  rcases hkept.next with hnone | ⟨-, hnext⟩
  · refine .inr (hs.owed _ (.linking ⟨Nat.le_of_lt hlt, (hs.ahead hk).2.1⟩ hlt ?_))
    rw [hcell]
    exact congrArg some hnone
  · exact .inl hnext

omit [DecidableEq ι] [Inhabited T] in
theorem touched_of_inv {s : Shared ι T} (hs : Inv s) {i : ι} {k : Nat}
    (h : (s.2.own i).Touches k) : s.2.gone k = false := by
  have hknows := hs.knows i
  cases hphase : s.2.own i with
  | linking k' p next =>
      rw [hphase] at h
      obtain rfl : k = k' := h
      exact (hs.linking_live hphase).2.1.2
  | release side k' p stage =>
      rw [hphase] at h
      obtain rfl : k = k' := h
      exact (hs.release_live hphase).2.1.2
  | loaded k' p =>
      rw [hphase] at h hknows
      obtain rfl : k = k' := h
      exact hknows.2.2
  | taking k' p next =>
      rw [hphase] at h hknows
      obtain rfl : k = k' + 1 := h
      exact hknows.2.2.2.2.1
  | _ =>
      rw [hphase] at h
      exact h.elim

theorem correct_of_holds {t : State ι T} (h : (protocol ι T).Holds Rest t) : Correct t where
  order := h.inv.order
  taken_le := h.inv.taken_le
  copied k hk := by
    cases hcopied : t.shared.2.dequeued k with
    | some element => exact .inl ⟨element, rfl⟩
    | none =>
        obtain ⟨i, hi⟩ := h.inv.owed _ (.taking hk hcopied)
        exact .inr ⟨i, _, _, hi⟩
  queued := queued_of_inv h.inv
  returned i element hi := by
    obtain ⟨taken, hown, hcopied⟩ := h.rest hi
    obtain ⟨k, rfl, hk⟩ := hcopied element rfl
    exact ⟨k, hown, hk⟩
  once i j k hi hj := h.inv.unique i j (.slot k) (by rw [hi]; rfl) (by rw [hj]; rfl)
  touched i k := touched_of_inv h.inv
  alive i := h.not_crash not_false
  size := h.inv.size
  nonneg := h.inv.nonneg

theorem holds_start : (protocol ι T).Holds Rest (start ι T) where
  inv :=
    { toAdd := fun _ => iff_of_false (Finset.notMem_empty _) id
      toSubtract := fun _ => iff_of_false (Finset.notMem_empty _) id
      count := rfl
      size := rfl
      nonneg := Int.le_refl 0
      taken_le := Nat.le_refl 0
      tail := rfl
      head := rfl
      due := fun _ _ => Stage.noConfusion
      reached := fun _ _ h => absurd rfl h
      node := fun k hk => by
        obtain rfl : k = 0 := Nat.le_zero.mp hk.1
        refine ⟨{ data := default }, rfl, ?_, fun _ h => (by cases h), .inl rfl⟩
        show (2 : BitVec 32) = 2 - Stage.before.count - Stage.before.count
        rfl
      distinct := fun j k hj hk _ => (Nat.le_zero.mp hj.1).trans (Nat.le_zero.mp hk.1).symm
      apart := fun _ _ _ h => by cases h
      knows := fun _ _ h => by cases h
      unique := fun _ _ _ h => by cases h
      owed := fun phase h => by
        cases h with
        | linking _ hlt => exact absurd hlt (Nat.not_lt_zero _)
        | release h => cases h
        | taking hk => exact absurd hk (Nat.not_lt_zero _)
      order := fun _ _ h => by cases h }
  safe _ := ⟨none, rfl, fun _ h => by cases h⟩

/-- In a run of any number of calls whose steps meet the condition, the queue is correct. -/
theorem correct_of_careful {es : List (Step ι T)} (h : Run.Along step Careful (start ι T) es) :
    ∀ t ∈ Run.states step (start ι T) es, Correct t := by
  have hes : Run.Along step ((protocol ι T).Meets fun _ _ _ _ => True) (start ι T) es := by
    refine Run.along_mono (fun t e he => ?_) h
    cases e with
    | call i c => exact fun _ _ _ => trivial
    | act i x =>
        intro r o k hi
        rw [Careful, hi] at he
        exact he
  refine fun t ht => correct_of_holds (Protocol.sound ?_ ?_ ?_ holds_start hes t ht)
  · intro i r a s t hrest hst _
    obtain ⟨taken, hown, hcopied⟩ := hrest
    refine ⟨taken, hst.1.trans hown, fun element ha => ?_⟩
    obtain ⟨k, hk, hdequeued⟩ := hcopied element ha
    exact ⟨k, hk, hst.2 k element hdequeued⟩
  · exact fun i c r a s hs _ _ => ⟨hs, fun j _ => ⟨rfl, fun _ _ hk => hk⟩⟩
  · intro i c r a s hs hrest _
    obtain ⟨taken, hown, -⟩ := hrest
    exact body_safe hown

end Runs

/-! ### A release that is overtaken -/

/-- Thread `i` takes `n` steps; cell 1 is for a new node. -/
def acts (i : Bool) (n : Nat) : List (Step Bool Nat) := List.replicate n (.act i 1)

/-- An element is enqueued, and then dequeued. -/
def orderly : List (Step Bool Nat) :=
  .call false { left := 1, request := .enqueue 7 } :: acts false 8 ++
    .call true { left := 1, request := .dequeue } :: acts true 8

theorem careful_orderly : Run.Along step Careful (start Bool Nat) orderly := by
  refine ⟨trivial, trivial, trivial, trivial, trivial, trivial, fun j hj => ?_, trivial, trivial,
    trivial, trivial, trivial, fun _ => rfl, trivial, Nat.one_pos, fun j hj => ?_, trivial,
    fun j hj => ?_, trivial⟩
  · cases j <;> exact hj
  · cases j <;> exact hj
  · cases j <;> exact hj

theorem correct_of_careful_orderly :
    Correct (Run.exec step (start Bool Nat) orderly) :=
  correct_of_careful careful_orderly _ (Run.exec_mem_states _ _ _)

/-- The release of the first node by `Enqueue` is overtaken by that of `Dequeue`, which also
subtracts from `size_` before anything has been added. -/
def overtaken : List (Step Bool Nat) :=
  .call false { left := 1, request := .enqueue 7 } :: acts false 6 ++
    .call true { left := 1, request := .dequeue } :: acts true 6 ++ acts false 2 ++ acts true 1

/-- `size_` has wrapped around, and a node is touched that has been deleted. -/
theorem overtaken_not_correct :
    (Run.exec step (start Bool Nat) overtaken).shared.1.size = BitVec.allOnes 64 ∧
      (Run.exec step (start Bool Nat) overtaken).threads true = .crash ∧
        ¬Correct (Run.exec step (start Bool Nat) overtaken) :=
  ⟨rfl, rfl, fun h => h.alive true rfl⟩

end UnboundedQueue
end Base
end Cmw
