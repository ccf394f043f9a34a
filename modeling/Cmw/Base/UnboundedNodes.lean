import Cmw.Base.UnboundedQueue
import Mathlib.Data.BitVec

/-!
# The nodes of the unbounded queue

The nodes are in a chain, from the first one that there has been to `tail_`.  Each of them is
released twice, and deleted after that; what a thread is about to touch is there.  What a thread
knows stays true while the others do what they have to do.
-/

namespace Cmw
namespace Base
namespace UnboundedQueue

open Library

/-! ### What is true of the nodes and of the threads -/

/-- What one thread at most is about. -/
inductive Mark
  | node (p : Nat)
  | link (k : Nat)
  | slot (k : Nat)

def Side.mark : Side → Nat → Mark
  | .tail => .link
  | .head => .slot

def Side.other : Side → Side
  | .tail => .head
  | .head => .tail

def Stage.count : Stage → BitVec 32
  | .before => 0
  | _ => 1

/-- How far the two releases of a node can be. -/
def Due : Bool → Stage → Stage → Prop
  | true, a, b => a = .after ∧ b = .after
  | false, .before, b => b ≠ .deleting
  | false, .subtracted, b => b = .before ∨ b = .after
  | false, .deleting, b => b = .after
  | false, .after, b => b ≠ .after

theorem Due.symm {gone : Bool} {a b : Stage} (h : Due gone a b) : Due gone b a := by
  cases gone <;> cases a <;> cases b <;> simp_all [Due]

theorem Side.other_ne (side : Side) : side.other ≠ side := by cases side <;> decide

theorem Side.other_other (side : Side) : side.other.other = side := by cases side <;> rfl

theorem Side.eq_or_eq_other (a b : Side) : a = b ∨ a = b.other := by
  cases a <;> cases b <;> decide

theorem Side.mark_ne_node (side : Side) (k p : Nat) : side.mark k ≠ .node p := by
  cases side <;> exact Mark.noConfusion

theorem Side.mark_inj {a b : Side} {j k : Nat} (h : a.mark j = b.mark k) : a = b ∧ j = k := by
  cases a <;> cases b <;> cases h <;> exact ⟨rfl, rfl⟩

section Phase

variable {T : Type}

def Phase.mark : Phase T → Option Mark
  | .rest taken => taken.map .slot
  | .made p | .filled p _ => some (.node p)
  | .linking k _ _ => some (.link k)
  | .release side k _ _ => some (side.mark k)
  | .taking k _ _ | .subtracting k _ => some (.slot k)
  | .adding | .loaded _ _ | .read => none

/-- The node that a call of `Dequeue` reads next. -/
def Phase.Reads : Phase T → Nat → Prop
  | .loaded k _, j => j = k
  | .taking k _ _, j => j = k + 1
  | _, _ => False

/-- The same, by where it is. -/
def Phase.ReadsAt : Phase T → Nat → Prop
  | .loaded _ p, q => q = p
  | .taking _ _ next, q => q = next
  | _, _ => False

/-- A release of the node at `p` has decreased its count, and not yet loaded it. -/
def Phase.Releases : Phase T → Nat → Prop
  | .release _ _ p .subtracted, q => q = p
  | _, _ => False

/-- `size_` has still to be increased. -/
def Phase.Adds : Phase T → Prop
  | .linking _ _ _ | .release .tail _ _ _ | .adding => True
  | _ => False

/-- `size_` has still to be decreased. -/
def Phase.Subtracts : Phase T → Prop
  | .taking _ _ _ | .subtracting _ _ => True
  | _ => False

theorem Phase.during_eq {side : Side} {k p : Nat} {stage : Stage} (h : stage ≠ .after) :
    during (T := T) side k p stage = .release side k p stage := by
  cases stage with
  | after => exact absurd rfl h
  | _ => rfl

theorem Phase.mark_during {side : Side} {k p : Nat} {stage : Stage} {mark : Mark}
    (h : (during (T := T) side k p stage).mark = some mark) : some (side.mark k) = some mark := by
  cases stage with
  | after =>
      cases side with
      | tail => cases h
      | head => exact h
  | _ => exact h

theorem Phase.adds_during {side : Side} {k p : Nat} {stage stage' : Stage} :
    (during (T := T) side k p stage).Adds ↔ (release (T := T) side k p stage').Adds := by
  cases stage <;> cases side <;> exact Iff.rfl

theorem Phase.subtracts_during {side : Side} {k p : Nat} {stage stage' : Stage} :
    (during (T := T) side k p stage).Subtracts ↔
      (release (T := T) side k p stage').Subtracts := by
  cases stage <;> cases side <;> exact Iff.rfl

end Phase

section Inv

variable {ι T : Type}

/-- How often `tail_` or `head_` has been moved. -/
def History.moved (h : History ι T) : Side → Nat
  | .tail => h.enqueued.length
  | .head => h.taken

structure Kept (h : History ι T) (k : Nat) (node : Node T) : Prop where
  refCount : node.refCount = 2 - (h.stage (.tail, k)).count - (h.stage (.head, k)).count
  data : ∀ j, k = j + 1 → h.enqueued[j]? = some node.data
  next : node.next = none ∨ k < h.enqueued.length ∧ node.next = some (h.chain (k + 1))

/-- Node `k` has been made `tail_`, and not been deleted. -/
def History.Live (h : History ι T) (k : Nat) : Prop := k ≤ h.enqueued.length ∧ h.gone k = false

/-- What a thread knows. -/
def Knows (s : Shared ι T) : Phase T → Prop
  | .rest taken => ∀ k, taken = some k → k < s.2.taken
  | .made p => ∃ element, s.1.nodes.cell p = some { data := element }
  | .filled p element => s.1.nodes.cell p = some { data := element }
  | .linking k p next =>
      s.2.chain k = p ∧ s.2.chain (k + 1) = next ∧ k < s.2.enqueued.length ∧
        s.2.stage (.tail, k) = .before
  | .release side k p stage =>
      s.2.chain k = p ∧ k < s.2.moved side ∧ s.2.stage (side, k) = stage ∧ stage ≠ .after
  | .adding => True
  | .loaded k p => s.2.chain k = p ∧ k ≤ s.2.taken ∧ s.2.gone k = false
  | .read => True
  | .taking k p next =>
      s.2.chain k = p ∧ s.2.chain (k + 1) = next ∧ k < s.2.taken ∧
        s.2.stage (.head, k) = .before ∧ s.2.gone (k + 1) = false ∧ s.2.dequeued k = none
  | .subtracting k p => s.2.chain k = p ∧ k < s.2.taken ∧ s.2.stage (.head, k) = .before

/-- What has still to be done, by some thread. -/
inductive Owed (s : Shared ι T) : Phase T → Prop
  | linking {k : Nat} (hk : s.2.Live k) (hlt : k < s.2.enqueued.length)
      (hnone : (s.1.nodes.cell (s.2.chain k)).map Node.next = some none) :
      Owed s (.linking k (s.2.chain k) (s.2.chain (k + 1)))
  | release {side : Side} {k : Nat} (hstage : s.2.stage (side, k) = .subtracted) :
      Owed s (.release side k (s.2.chain k) .subtracted)
  | taking {k : Nat} (hk : k < s.2.taken) (hnone : s.2.dequeued k = none) :
      Owed s (.taking k (s.2.chain k) (s.2.chain (k + 1)))

/-- Every element is in the queue and counted, or somebody has still to count it. -/
structure Counted (s : Shared ι T) : Prop where
  toAdd : ∀ i, i ∈ s.2.toAdd ↔ (s.2.own i).Adds
  toSubtract : ∀ i, i ∈ s.2.toSubtract ↔ (s.2.own i).Subtracts
  count : s.2.count + s.2.taken + s.2.toAdd.card = s.2.enqueued.length + s.2.toSubtract.card
  size : s.1.size = BitVec.ofInt 64 s.2.count
  nonneg : 0 ≤ s.2.count

structure Inv (s : Shared ι T) : Prop extends Counted s where
  taken_le : s.2.taken ≤ s.2.enqueued.length
  tail : s.1.tail = s.2.chain s.2.enqueued.length
  head : s.1.head = s.2.chain s.2.taken
  due : ∀ side k, Due (s.2.gone k) (s.2.stage (side, k)) (s.2.stage (side.other, k))
  reached : ∀ side k, s.2.stage (side, k) ≠ .before → k < s.2.moved side
  node : ∀ k, s.2.Live k → ∃ node, s.1.nodes.cell (s.2.chain k) = some node ∧ Kept s.2 k node
  distinct : ∀ j k, s.2.Live j → s.2.Live k → s.2.chain j = s.2.chain k → j = k
  apart : ∀ i p k, (s.2.own i).mark = some (.node p) → s.2.Live k → s.2.chain k ≠ p
  knows : ∀ i, Knows s (s.2.own i)
  unique : ∀ i j mark, (s.2.own i).mark = some mark → (s.2.own j).mark = some mark → i = j
  owed : ∀ phase, Owed s phase → ∃ i, s.2.own i = phase
  order : ∀ k element, s.2.dequeued k = some element →
    k < s.2.taken ∧ s.2.enqueued[k]? = some element

end Inv

/-! ### What one thread leaves to the others -/

section Leaves

variable {ι T : Type} {s s' : Shared ι T} {i : ι} {phase : Phase T}

/-- What thread `i` leaves as it is. -/
structure Leaves (i : ι) (s s' : Shared ι T) : Prop where
  length : s.2.enqueued.length ≤ s'.2.enqueued.length
  taken : s.2.taken ≤ s'.2.taken
  chain : ∀ k ≤ s.2.enqueued.length, s'.2.chain k = s.2.chain k
  stage : ∀ side k, (s.2.own i).mark ≠ some (side.mark k) →
    s'.2.stage (side, k) = s.2.stage (side, k)
  dequeued : ∀ k, (s.2.own i).mark ≠ some (.slot k) → s'.2.dequeued k = s.2.dequeued k
  gone : ∀ j k, j ≠ i → (s.2.own j).Reads k → s.2.gone k = false → s'.2.gone k = false
  cell : ∀ j p node, j ≠ i → (s.2.own j).mark = some (.node p) →
    s.1.nodes.cell p = some node → s'.1.nodes.cell p = some node

theorem Inv.knows_of_leaves (hs : Inv s) (h : Leaves i s s') {j : ι} (hj : j ≠ i) :
    Knows s' (s.2.own j) := by
  have hmark : ∀ mark, (s.2.own j).mark = some mark → (s.2.own i).mark ≠ some mark :=
    fun mark hmark hi => hj (hs.unique j i mark hmark hi)
  have hknows := hs.knows j
  have hgone := fun k => h.gone j k hj
  have hcell := fun p node => h.cell j p node hj
  have hlength := hs.taken_le
  cases hphase : s.2.own j with
  | rest taken =>
      rw [hphase] at hknows
      exact fun k hk => Nat.lt_of_lt_of_le (hknows k hk) h.taken
  | made p =>
      rw [hphase] at hknows hcell
      obtain ⟨element, hp⟩ := hknows
      exact ⟨element, hcell p _ rfl hp⟩
  | filled p element =>
      rw [hphase] at hknows hcell
      exact hcell p _ rfl hknows
  | linking k p next =>
      rw [hphase] at hknows hmark
      obtain ⟨hp, hnext, hk, hstage⟩ := hknows
      exact ⟨(h.chain k (by omega)).trans hp, (h.chain (k + 1) hk).trans hnext,
        Nat.lt_of_lt_of_le hk h.length, (h.stage .tail k (hmark _ rfl)).trans hstage⟩
  | release side k p stage =>
      rw [hphase] at hknows hmark
      obtain ⟨hp, hk, hstage, hafter⟩ := hknows
      refine ⟨(h.chain k ?_).trans hp, ?_, (h.stage side k (hmark _ rfl)).trans hstage, hafter⟩
      · cases side with
        | tail => exact Nat.le_of_lt hk
        | head => exact Nat.le_of_lt (Nat.lt_of_lt_of_le hk hlength)
      · cases side with
        | tail => exact Nat.lt_of_lt_of_le hk h.length
        | head => exact Nat.lt_of_lt_of_le hk h.taken
  | adding => trivial
  | loaded k p =>
      rw [hphase] at hknows hgone
      obtain ⟨hp, hk, hlive⟩ := hknows
      exact ⟨(h.chain k (by omega)).trans hp, Nat.le_trans hk h.taken, hgone k rfl hlive⟩
  | read => trivial
  | taking k p next =>
      rw [hphase] at hknows hmark hgone
      obtain ⟨hp, hnext, hk, hstage, hlive, hnone⟩ := hknows
      exact ⟨(h.chain k (by omega)).trans hp, (h.chain (k + 1) (by omega)).trans hnext,
        Nat.lt_of_lt_of_le hk h.taken, (h.stage .head k (hmark _ rfl)).trans hstage,
        hgone (k + 1) rfl hlive, (h.dequeued k (hmark _ rfl)).trans hnone⟩
  | subtracting k p =>
      rw [hphase] at hknows hmark
      obtain ⟨hp, hk, hstage⟩ := hknows
      exact ⟨(h.chain k (by omega)).trans hp, Nat.lt_of_lt_of_le hk h.taken,
        (h.stage .head k (hmark _ rfl)).trans hstage⟩

/-- The node is as it was, for what has been done with others. -/
theorem Kept.congr {h h' : History ι T} {k : Nat} {node : Node T} (hk : Kept h k node)
    (hstage : ∀ side, h'.stage (side, k) = h.stage (side, k))
    (henqueued : h.enqueued <+: h'.enqueued)
    (hchain : k < h.enqueued.length → h'.chain (k + 1) = h.chain (k + 1)) : Kept h' k node where
  refCount := by
    rw [hstage, hstage]
    exact hk.refCount
  data j hj := by
    obtain ⟨rest, hrest⟩ := henqueued
    have hdata := hk.data j hj
    rw [← hrest, List.getElem?_append_left (List.getElem?_eq_some_iff.mp hdata).1]
    exact hdata
  next := by
    refine hk.next.imp_right fun hnext => ⟨Nat.lt_of_lt_of_le hnext.1 henqueued.length_le, ?_⟩
    rw [hchain hnext.1]
    exact hnext.2

theorem Kept.advance {h h' : History ι T} {side : Side} {k : Nat} {node : Node T}
    {old stage : Stage} (hk : Kept h k node) (hold : h.stage (side, k) = old)
    (hnew : h'.stage (side, k) = stage)
    (hother : h'.stage (side.other, k) = h.stage (side.other, k))
    (henqueued : h'.enqueued = h.enqueued) (hchain : h'.chain = h.chain) :
    Kept h' k { node with refCount := node.refCount + old.count - stage.count } where
  refCount := by
    have hcount := hk.refCount
    cases side with
    | tail =>
        have hother : h'.stage (.head, k) = h.stage (.head, k) := hother
        rw [hold] at hcount
        rw [hnew, hother, hcount, sub_right_comm, sub_add_cancel, sub_right_comm]
    | head =>
        have hother : h'.stage (.tail, k) = h.stage (.tail, k) := hother
        rw [hold] at hcount
        rw [hnew, hother, hcount, sub_add_cancel]
  data j hj := henqueued ▸ hk.data j hj
  next := by
    rw [henqueued, hchain]
    exact hk.next

/-- No more is owed, where the nodes are where they were. -/
theorem Owed.congr {other : Phase T} (h : Owed s' other)
    (hlength : s'.2.enqueued.length = s.2.enqueued.length) (hchain : s'.2.chain = s.2.chain)
    (htaken : s'.2.taken = s.2.taken)
    (hdequeued : ∀ k, s'.2.dequeued k = none → s.2.dequeued k = none)
    (hstage : ∀ x, s'.2.stage x = .subtracted → s.2.stage x = .subtracted)
    (hlive : ∀ k, s'.2.Live k → s.2.Live k)
    (hnext : ∀ k, s'.2.Live k → (s'.1.nodes.cell (s.2.chain k)).map Node.next = some none →
      (s.1.nodes.cell (s.2.chain k)).map Node.next = some none) : Owed s other := by
  cases h with
  | linking hk hlt hnone =>
      rw [hchain] at hnone ⊢
      exact .linking (hlive _ hk) (hlength ▸ hlt) (hnext _ hk hnone)
  | release h =>
      rw [hchain]
      exact .release (hstage _ h)
  | taking hk hnone =>
      rw [hchain]
      exact .taking (htaken ▸ hk) (hdequeued _ hnone)

variable [DecidableEq ι]

/-- Thread `i` has come to another phase. -/
theorem Inv.threads (hs : Inv s) (h : Leaves i s s')
    (hown : s'.2.own = Function.update s.2.own i phase) (hknows : Knows s' phase)
    (hmark : ∀ mark, phase.mark = some mark →
      (s.2.own i).mark = some mark ∨ ∀ j, (s.2.own j).mark ≠ some mark) :
    (∀ j, Knows s' (s'.2.own j)) ∧
      ∀ j j' mark, (s'.2.own j).mark = some mark → (s'.2.own j').mark = some mark → j = j' := by
  have hself : s'.2.own i = phase := by rw [hown, Function.update_self]
  have hother : ∀ j, j ≠ i → s'.2.own j = s.2.own j := fun j hj => by
    rw [hown, Function.update_of_ne hj]
  have hsole : ∀ j mark, j ≠ i → (s.2.own j).mark = some mark → phase.mark ≠ some mark := by
    intro j mark hj hj' hphase
    rcases hmark mark hphase with hi | hnone
    · exact hj (hs.unique j i mark hj' hi)
    · exact hnone j hj'
  constructor
  · intro j
    by_cases hj : j = i
    · rw [hj, hself]
      exact hknows
    · rw [hother j hj]
      exact hs.knows_of_leaves h hj
  · intro j j' mark hj hj'
    by_cases hi : j = i
    · by_cases hi' : j' = i
      · rw [hi, hi']
      · rw [hi, hself] at hj
        rw [hother j' hi'] at hj'
        exact absurd hj (hsole j' mark hi' hj')
    · rw [hother j hi] at hj
      by_cases hi' : j' = i
      · rw [hi', hself] at hj'
        exact absurd hj' (hsole j mark hi hj)
      · rw [hother j' hi'] at hj'
        exact hs.unique j j' mark hj hj'

theorem Inv.owed_of_update (hs : Inv s) (hown : s'.2.own = Function.update s.2.own i phase)
    (h : ∀ other, Owed s' other → other = phase ∨ Owed s other ∧ s.2.own i ≠ other) :
    ∀ other, Owed s' other → ∃ j, s'.2.own j = other := by
  intro other hother
  rw [hown]
  rcases h other hother with rfl | ⟨howed, hne⟩
  · exact ⟨i, Function.update_self ..⟩
  · obtain ⟨j, hj⟩ := hs.owed other howed
    refine ⟨j, (Function.update_of_ne ?_ _ _).trans hj⟩
    rintro rfl
    exact hne hj

/-- A node that has been made by thread `i` is no longer its own. -/
theorem node_of_update {own : ι → Phase T} {j : ι} {p : Nat} (hphase : phase.mark ≠ some (.node p))
    (h : (Function.update own i phase j).mark = some (.node p)) :
    j ≠ i ∧ (own j).mark = some (.node p) := by
  by_cases hj : j = i
  · rw [hj, Function.update_self] at h
    exact absurd h hphase
  · rw [Function.update_of_ne hj] at h
    exact ⟨hj, h⟩

theorem mem_update {own : ι → Phase T} {f f' : Finset ι} {A : Phase T → Prop}
    (h : ∀ j, j ∈ f ↔ A (own j)) (hself : i ∈ f' ↔ A phase)
    (hother : ∀ j, j ≠ i → (j ∈ f' ↔ j ∈ f)) :
    ∀ j, j ∈ f' ↔ A (Function.update own i phase j) := by
  intro j
  by_cases hj : j = i
  · rw [hj, Function.update_self]
    exact hself
  · rw [Function.update_of_ne hj, hother j hj]
    exact h j

end Leaves

end UnboundedQueue
end Base
end Cmw
