import Mathlib.Algebra.BigOperators.Group.Finset.Basic
import Mathlib.Logic.Relation

/-!
# Breadth first

The search for a goal among the successors of a start: a queue of what is to be visited, and the
set of what has been.  A vertex may be in the queue more than once.  The search ends where the
vertices are among finitely many, and `visits_iff` says what it has found.
-/

namespace Library
namespace Traverse

variable {α : Type*} [DecidableEq α] (next : α → List α) (goal : α)

/-- The loop with the turns that are left: what has been visited in the end. -/
def visits : Nat → List α → Finset α → Option (Finset α)
  | 0, _, _ => none
  | _ + 1, [], visited => some visited
  | left + 1, x :: queue, visited =>
      if x ∈ visited then visits left queue visited
      else if x = goal then some (insert x visited)
      else visits left (queue ++ next x) (insert x visited)

/-- The turns that are enough among the vertices `among`: one for each that is in the queue or
that will be put there, and the last. -/
def turns (among : Finset α) (queue : List α) (visited : Finset α) : Nat :=
  queue.length + (among \ visited).sum (fun x => (next x).length) + 1

omit [DecidableEq α] in
/-- `y` comes after `x`. -/
def Reach : α → α → Prop := Relation.ReflTransGen fun x y => y ∈ next x

variable {next goal} {among : Finset α} {x start : α} {queue : List α} {visited out : Finset α}

theorem turns_insert (hx : x ∈ among) (hnew : x ∉ visited) :
    turns next among (queue ++ next x) (insert x visited) + 1 =
      turns next among (x :: queue) visited := by
  have hmem : x ∈ among \ visited := Finset.mem_sdiff.mpr ⟨hx, hnew⟩
  have hsum := Finset.add_sum_erase (among \ visited) (fun x => (next x).length) hmem
  have herase : among \ insert x visited = (among \ visited).erase x := Finset.sdiff_insert ..
  rw [turns, turns, herase, ← hsum, List.length_append, List.length_cons]
  omega

theorem visits_ends (hclosed : ∀ x ∈ among, ∀ y ∈ next x, y ∈ among)
    (hqueue : ∀ x ∈ queue, x ∈ among) {left : Nat} (h : turns next among queue visited ≤ left) :
    ∃ out, visits next goal left queue visited = some out := by
  induction left generalizing queue visited with
  | zero => exact absurd h (Nat.not_le.mpr (Nat.succ_pos _))
  | succ left ih =>
      cases queue with
      | nil => exact ⟨visited, rfl⟩
      | cons x queue =>
          obtain ⟨hx, hrest⟩ := List.forall_mem_cons.mp hqueue
          rw [visits]
          split
          · refine ih hrest ?_
            rw [turns] at h ⊢
            rw [List.length_cons] at h
            omega
          · split
            · exact ⟨_, rfl⟩
            case isFalse hnew _ =>
              refine ih (fun y hy => ?_) ?_
              · rcases List.mem_append.mp hy with hy | hy
                · exact hrest y hy
                · exact hclosed x hx y hy
              · have hturns : turns next among (queue ++ next x) (insert x visited) + 1 =
                    turns next among (x :: queue) visited := turns_insert hx hnew
                omega

/-- Where the search stands: what comes after the vertices that have been visited has been visited
too or is in the queue. -/
structure Searching (next : α → List α) (goal start : α) (queue : List α) (visited : Finset α) :
    Prop where
  seen : start ∈ visited ∨ start ∈ queue
  closed : ∀ x ∈ visited, ∀ y ∈ next x, y ∈ visited ∨ y ∈ queue
  reached : ∀ x, x ∈ visited ∨ x ∈ queue → Reach next start x
  missed : goal ∉ visited

omit [DecidableEq α] in
theorem Searching.skip (h : Searching next goal start (x :: queue) visited) (hx : x ∈ visited) :
    Searching next goal start queue visited := by
  have hseen : ∀ y, y ∈ visited ∨ y ∈ x :: queue → y ∈ visited ∨ y ∈ queue := by
    intro y hy
    rcases hy with hy | hy
    · exact .inl hy
    · rcases List.mem_cons.mp hy with rfl | hy
      · exact .inl hx
      · exact .inr hy
  exact
    { seen := hseen start h.seen
      closed := fun z hz y hy => hseen y (h.closed z hz y hy)
      reached := fun y hy => h.reached y (hy.imp_right (List.mem_cons_of_mem x))
      missed := h.missed }

theorem Searching.visit (h : Searching next goal start (x :: queue) visited) (hx : x ≠ goal) :
    Searching next goal start (queue ++ next x) (insert x visited) := by
  have hseen : ∀ y, y ∈ visited ∨ y ∈ x :: queue → y ∈ insert x visited ∨ y ∈ queue ++ next x := by
    intro y hy
    rcases hy with hy | hy
    · exact .inl (Finset.mem_insert_of_mem hy)
    · rcases List.mem_cons.mp hy with rfl | hy
      · exact .inl (Finset.mem_insert_self y visited)
      · exact .inr (List.mem_append_left _ hy)
  have hhead : Reach next start x := h.reached x (.inr List.mem_cons_self)
  refine ⟨hseen start h.seen, fun z hz y hy => ?_, fun y hy => ?_, fun hgoal => ?_⟩
  · rcases Finset.mem_insert.mp hz with rfl | hz
    · exact .inr (List.mem_append_right queue hy)
    · exact hseen y (h.closed z hz y hy)
  · rcases hy with hy | hy
    · rcases Finset.mem_insert.mp hy with rfl | hy
      · exact hhead
      · exact h.reached y (.inl hy)
    · rcases List.mem_append.mp hy with hy | hy
      · exact h.reached y (.inr (List.mem_cons_of_mem x hy))
      · exact hhead.tail hy
  · rcases Finset.mem_insert.mp hgoal with hgoal | hgoal
    · exact hx hgoal.symm
    · exact h.missed hgoal

omit [DecidableEq α] in
/-- An empty queue: what can be reached has been visited. -/
theorem Searching.over (h : Searching next goal start [] visited) : ¬Reach next start goal := by
  intro hreach
  have hvisited : ∀ y, Reach next start y → y ∈ visited := by
    intro y hy
    induction hy with
    | refl => exact h.seen.resolve_right List.not_mem_nil
    | tail _ hstep ih => exact (h.closed _ ih _ hstep).resolve_right List.not_mem_nil
  exact h.missed (hvisited goal hreach)

theorem Searching.mem_iff (h : Searching next goal start queue visited) {left : Nat}
    (hout : visits next goal left queue visited = some out) :
    goal ∈ out ↔ Reach next start goal := by
  induction left generalizing queue visited with
  | zero => cases hout
  | succ left ih =>
      cases queue with
      | nil =>
          cases hout
          exact iff_of_false h.missed h.over
      | cons x queue =>
          rw [visits] at hout
          split at hout
          case isTrue hx => exact ih (h.skip hx) hout
          case isFalse hx =>
            split at hout
            case isTrue hgoal =>
              cases hout
              subst hgoal
              exact iff_of_true (Finset.mem_insert_self x visited)
                (h.reached x (.inr List.mem_cons_self))
            case isFalse hgoal => exact ih (h.visit hgoal) hout

/-- The search ends, and has visited its goal if and only if this comes after the start. -/
theorem visits_iff (hclosed : ∀ x ∈ among, ∀ y ∈ next x, y ∈ among) (hstart : start ∈ among)
    (goal : α) {left : Nat} (h : turns next among [start] ∅ ≤ left) :
    ∃ out, visits next goal left [start] ∅ = some out ∧ (goal ∈ out ↔ Reach next start goal) := by
  have hqueue : ∀ x ∈ [start], x ∈ among := fun x hx => List.mem_singleton.mp hx ▸ hstart
  obtain ⟨out, hout⟩ : ∃ out, visits next goal left [start] ∅ = some out :=
    visits_ends hclosed hqueue h
  have hsearch : Searching next goal start [start] ∅ := by
    refine ⟨.inr List.mem_cons_self, fun x hx => absurd hx (Finset.notMem_empty x), fun x hx => ?_,
      Finset.notMem_empty goal⟩
    rcases hx with hx | hx
    · exact absurd hx (Finset.notMem_empty x)
    · exact List.mem_singleton.mp hx ▸ Relation.ReflTransGen.refl
  exact ⟨out, hout, hsearch.mem_iff hout⟩

end Traverse
end Library
