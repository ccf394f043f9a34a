import Cmw.Base.UnboundedNodes

/-!
# The atomic steps of the unbounded queue

What every step of `Enqueue` and `Dequeue` keeps, where two releases of one node do not overlap,
no node is deleted that a call of `Dequeue` is about to read, `head_` is moved only to the node
that is behind it, and `size_` is not decreased before it has been increased.
-/

namespace Cmw
namespace Base
namespace UnboundedQueue

open Library

/-! ### The operations -/

section Keeps

variable {ι T : Type} [DecidableEq ι] {s : Shared ι T} {i : ι} {old phase : Phase T}

omit [DecidableEq ι] in
theorem Counted.mem_toAdd (h : Counted s) (hown : s.2.own i = old) : i ∈ s.2.toAdd ↔ old.Adds :=
  hown ▸ h.toAdd i

omit [DecidableEq ι] in
theorem Counted.mem_toSubtract (h : Counted s) (hown : s.2.own i = old) :
    i ∈ s.2.toSubtract ↔ old.Subtracts :=
  hown ▸ h.toSubtract i

/-- Nothing has been counted. -/
theorem Counted.congr {s' : Shared ι T} (h : Counted s) (hown : s.2.own i = old)
    (hown' : s'.2.own = Function.update s.2.own i phase) (hadds : phase.Adds ↔ old.Adds)
    (hsubtracts : phase.Subtracts ↔ old.Subtracts) (htoAdd : s'.2.toAdd = s.2.toAdd)
    (htoSubtract : s'.2.toSubtract = s.2.toSubtract) (htaken : s'.2.taken = s.2.taken)
    (henqueued : s'.2.enqueued = s.2.enqueued) (hcount : s'.2.count = s.2.count)
    (hsize : s'.1.size = s.1.size) : Counted s' where
  toAdd := by
    rw [hown', htoAdd]
    exact mem_update h.toAdd ((h.mem_toAdd hown).trans hadds.symm) fun _ _ => Iff.rfl
  toSubtract := by
    rw [hown', htoSubtract]
    exact mem_update h.toSubtract ((h.mem_toSubtract hown).trans hsubtracts.symm) fun _ _ => Iff.rfl
  count := by
    rw [hcount, htaken, htoAdd, henqueued, htoSubtract]
    exact h.count
  size := by
    rw [hsize, hcount]
    exact h.size
  nonneg := hcount ▸ h.nonneg

/-- The phase of one thread changes, and the nodes are kept. -/
theorem Inv.become (hs : Inv s) (hown : s.2.own i = old) {nodes : Heap (Node T)}
    {size : BitVec 64} {count : Int} {toAdd toSubtract : Finset ι}
    (hnode : ∀ k node, s.2.Live k → s.1.nodes.cell (s.2.chain k) = some node → Kept s.2 k node →
      ∃ node', nodes.cell (s.2.chain k) = some node' ∧ Kept s.2 k node')
    (hcell : ∀ j p node, j ≠ i → (s.2.own j).mark = some (.node p) →
      s.1.nodes.cell p = some node → nodes.cell p = some node)
    (hknows : Knows ({ s.1 with nodes }, s.2) phase)
    (hmark : ∀ mark, phase.mark = some mark →
      old.mark = some mark ∨ ∀ j, (s.2.own j).mark ≠ some mark)
    (hapart : ∀ p k, phase.mark = some (.node p) → s.2.Live k → s.2.chain k ≠ p)
    (hnext : ∀ k, s.2.Live k → (nodes.cell (s.2.chain k)).map Node.next = some none →
      (s.1.nodes.cell (s.2.chain k)).map Node.next = some none)
    (howed : ¬Owed ({ s.1 with nodes }, s.2) old)
    (hcounted : Counted
      ({ s.1 with nodes, size }, { s.2.become i phase with count, toAdd, toSubtract })) :
    Inv ({ s.1 with nodes, size }, { s.2.become i phase with count, toAdd, toSubtract }) := by
  subst hown
  have hleaves : Leaves i s
      ({ s.1 with nodes, size }, { s.2.become i phase with count, toAdd, toSubtract }) :=
    ⟨Nat.le_refl _, Nat.le_refl _, fun _ _ => rfl, fun _ _ _ => rfl, fun _ _ => rfl,
      fun _ _ _ _ hgone => hgone, hcell⟩
  obtain ⟨hthreads, hunique⟩ := hs.threads hleaves rfl hknows hmark
  exact {
    toCounted := hcounted
    taken_le := hs.taken_le
    tail := hs.tail
    head := hs.head
    due := hs.due
    reached := hs.reached
    node := fun k hk => by
      obtain ⟨node, hnodeCell, hkept⟩ := hs.node k hk
      obtain ⟨node', hcell', hkept'⟩ := hnode k node hk hnodeCell hkept
      exact ⟨node', hcell', hkept'.congr (fun _ => rfl) List.prefix_rfl fun _ => rfl⟩
    distinct := hs.distinct
    apart := fun j p k hj hk => by
      have hj : (Function.update s.2.own i phase j).mark = some (.node p) := hj
      rw [Function.update_apply] at hj
      split at hj
      · exact hapart p k hj hk
      · exact hs.apart j p k hj hk
    knows := hthreads
    unique := hunique
    owed := hs.owed_of_update rfl fun other hother => by
      refine .inr ⟨hother.congr rfl rfl rfl (fun _ h => h) (fun _ h => h) (fun _ h => h) hnext, ?_⟩
      rintro rfl
      exact howed (hother.congr rfl rfl rfl (fun _ h => h) (fun _ h => h) (fun _ h => h) fun _ _ h => h)
    order := hs.order }

/-- Nothing but the phase changes, and it is about no more than before. -/
theorem Inv.move (hs : Inv s) (hown : s.2.own i = old) (hknows : Knows s phase)
    (hmark : ∀ mark, phase.mark = some mark → old.mark = some mark) (howed : ¬Owed s old)
    (hadds : phase.Adds ↔ old.Adds) (hsubtracts : phase.Subtracts ↔ old.Subtracts) :
    Inv (s.1, s.2.become i phase) :=
  hs.become hown (fun _ node _ hcell hkept => ⟨node, hcell, hkept⟩)
    (fun _ _ _ _ _ hcell => hcell) hknows (fun mark h => .inl (hmark mark h))
    (fun p k h hk => hs.apart i p k (hown ▸ hmark _ h) hk) (fun _ _ h => h) howed
    (hs.congr hown rfl hadds hsubtracts rfl rfl rfl rfl rfl rfl)

omit [DecidableEq ι] in
theorem Inv.cell_of_mark (hs : Inv s) {j : ι} {p : Nat}
    (h : (s.2.own j).mark = some (.node p)) : ∃ node, s.1.nodes.cell p = some node := by
  have hknows := hs.knows j
  cases hphase : s.2.own j with
  | made p' =>
      rw [hphase] at h hknows
      obtain ⟨element, hp⟩ := hknows
      cases h
      exact ⟨_, hp⟩
  | filled p' element =>
      rw [hphase] at h hknows
      cases h
      exact ⟨_, hknows⟩
  | release side k p' stage =>
      rw [hphase] at h
      cases side <;> cases h
  | rest taken =>
      rw [hphase] at h
      obtain ⟨k, -, hk⟩ := Option.map_eq_some_iff.mp h
      cases hk
  | _ =>
      rw [hphase] at h
      cases h

/-- `new Node()` -/
theorem Inv.newNode [Inhabited T] (hs : Inv s) {taken : Option Nat} (hown : s.2.own i = .rest taken)
    (x : Nat) :
    Inv ({ s.1 with nodes := s.1.nodes.alloc x { data := default } },
      s.2.become i (.made (s.1.nodes.place x))) := by
  refine hs.become hown (fun k node _ hcell hkept => ⟨node, Heap.alloc_of_some hcell, hkept⟩)
    (fun _ _ _ _ _ hcell => Heap.alloc_of_some hcell) ⟨default, Heap.alloc_self⟩
    (fun mark hmark => .inr fun j hj => ?_) (fun p k hp hk => ?_) (fun k hk hnone => ?_)
    (fun howed => by cases howed) (hs.congr hown rfl Iff.rfl Iff.rfl rfl rfl rfl rfl rfl rfl)
  · obtain rfl := Option.some.inj hmark
    obtain ⟨node, hcell⟩ := hs.cell_of_mark hj
    exact Heap.ne_place hcell rfl
  · cases hp
    obtain ⟨node, hcell, -⟩ := hs.node k hk
    exact Heap.ne_place hcell
  · obtain ⟨node, hcell, -⟩ := hs.node k hk
    rw [Heap.alloc_of_some hcell] at hnone
    rw [hcell]
    exact hnone

/-- `node->data = element` -/
theorem Inv.storeData (hs : Inv s) {p : Nat} (hown : s.2.own i = .made p) (element : T) :
    Inv ({ s.1 with nodes := s.1.nodes.modify p fun node => { node with data := element } },
      s.2.become i (.filled p element)) := by
  have hmark : (s.2.own i).mark = some (.node p) := by rw [hown]; rfl
  have hother : ∀ q, q ≠ p →
      (s.1.nodes.modify p fun node => { node with data := element }).cell q = s.1.nodes.cell q :=
    fun q hq => Heap.modify_of_ne hq
  have hlive : ∀ k, s.2.Live k → s.2.chain k ≠ p := fun k hk => hs.apart i p k hmark hk
  refine hs.become hown
    (fun k node hk hcell hkept => ⟨node, (hother _ (hlive k hk)).trans hcell, hkept⟩)
    (fun j q node hj hq hcell => (hother q ?_).trans hcell) ?_ (fun mark h => .inl h)
    (fun q k hq hk => ?_) (fun k hk hnone => ?_) (fun howed => by cases howed)
    (hs.congr hown rfl Iff.rfl Iff.rfl rfl rfl rfl rfl rfl rfl)
  · rintro rfl
    exact hj (hs.unique j i _ hq hmark)
  · have hknows := hs.knows i
    rw [hown] at hknows
    obtain ⟨old, hcell⟩ := hknows
    exact Heap.modify_self hcell
  · cases hq
    exact hlive k hk
  · rwa [hother _ (hlive k hk)] at hnone

omit [DecidableEq ι] in
/-- Not both releases of a node have come to their end before it is deleted. -/
theorem Inv.live_of_stage (hs : Inv s) {side : Side} {k : Nat}
    (hstage : s.2.stage (side, k) ≠ .after) (hk : k ≤ s.2.enqueued.length) : s.2.Live k := by
  refine ⟨hk, ?_⟩
  have hdue := hs.due side k
  cases hgone : s.2.gone k with
  | false => rfl
  | true =>
      rw [hgone] at hdue
      exact absurd hdue.1 hstage

omit [DecidableEq ι] in
/-- The node that has been `tail_` is there until its next one is stored. -/
theorem Inv.linking_live (hs : Inv s) {k p next : Nat} (hown : s.2.own i = .linking k p next) :
    s.2.chain k = p ∧ s.2.Live k ∧ ∃ node, s.1.nodes.cell p = some node ∧ Kept s.2 k node := by
  have hknows := hs.knows i
  rw [hown] at hknows
  obtain ⟨hp, -, hk, hstage⟩ := hknows
  have hlive := hs.live_of_stage (hstage.trans_ne Stage.noConfusion) (Nat.le_of_lt hk)
  exact ⟨hp, hlive, hp ▸ hs.node k hlive⟩

/-- `old_tail->next = node` -/
theorem Inv.storeNext (hs : Inv s) {k p next : Nat} (hown : s.2.own i = .linking k p next) :
    Inv ({ s.1 with nodes := s.1.nodes.modify p fun node => { node with next := some next } },
      s.2.become i (.release .tail k p .before)) := by
  have hknows := hs.knows i
  rw [hown] at hknows
  obtain ⟨-, hnext, hk, hstage⟩ := hknows
  obtain ⟨hp, hlive, node, hcell, hkept⟩ := hs.linking_live hown
  have hself : (s.1.nodes.modify p fun node => { node with next := some next }).cell p =
      some { node with next := some next } := Heap.modify_self hcell
  have hother : ∀ q, q ≠ p →
      (s.1.nodes.modify p fun node => { node with next := some next }).cell q =
        s.1.nodes.cell q := fun q hq => Heap.modify_of_ne hq
  refine hs.become hown (fun j node' hj hcell' hkept' => ?_)
    (fun j q node' hj hq hcell' => (hother q ?_).trans hcell') ⟨hp, hk, hstage, Stage.noConfusion⟩
    (fun mark h => .inl h) (fun q j hq _ => by cases hq) (fun j hj hnone => ?_) (fun howed => ?_)
    (hs.congr hown rfl Iff.rfl Iff.rfl rfl rfl rfl rfl rfl rfl)
  · by_cases hjp : s.2.chain j = p
    · obtain rfl := hs.distinct j k hj hlive (hjp.trans hp.symm)
      refine ⟨{ node with next := some next }, hjp ▸ hself, hkept.refCount, hkept.data, .inr ⟨hk, ?_⟩⟩
      exact congrArg some hnext.symm
    · exact ⟨node', (hother _ hjp).trans hcell', hkept'⟩
  · exact (hp.symm.trans_ne (hs.apart j q k hq hlive)).symm
  · by_cases hjp : s.2.chain j = p
    · rw [hjp, hself] at hnone
      cases hnone
    · rwa [hother _ hjp] at hnone
  · generalize hphase : Phase.linking k p next = phase at howed
    cases howed with
    | release => cases hphase
    | taking => cases hphase
    | linking _ _ hnone =>
        obtain ⟨rfl, hchain, -⟩ := Phase.linking.inj hphase
        rw [← hchain] at hnone
        have hnone : ((s.1.nodes.modify p fun node => { node with next := some next }).cell p).map
            Node.next = some none := hnone
        rw [hself] at hnone
        cases hnone

omit [DecidableEq ι] in
/-- What has been marked has been moved from. -/
theorem Inv.lt_of_mark (hs : Inv s) {j : ι} (side : Side) {k : Nat}
    (h : (s.2.own j).mark = some (side.mark k)) : k < s.2.moved side := by
  have hknows := hs.knows j
  cases hphase : s.2.own j with
  | rest taken =>
      rw [hphase] at h hknows
      obtain ⟨k', hk', hmark⟩ := Option.map_eq_some_iff.mp h
      cases side with
      | tail => cases hmark
      | head =>
          cases hmark
          exact hknows _ hk'
  | linking k' p next =>
      rw [hphase] at h hknows
      cases side with
      | tail =>
          cases h
          exact hknows.2.2.1
      | head => cases h
  | release side' k' p stage =>
      rw [hphase] at h hknows
      obtain ⟨rfl, rfl⟩ := Side.mark_inj (Option.some.inj h)
      exact hknows.2.1
  | taking k' p next =>
      rw [hphase] at h hknows
      cases side with
      | tail => cases h
      | head =>
          cases h
          exact hknows.2.2.1
  | subtracting k' p =>
      rw [hphase] at h hknows
      cases side with
      | tail => cases h
      | head =>
          cases h
          exact hknows.2.1
  | made p =>
      rw [hphase] at h
      exact absurd (Option.some.inj h).symm (side.mark_ne_node k p)
  | filled p element =>
      rw [hphase] at h
      exact absurd (Option.some.inj h).symm (side.mark_ne_node k p)
  | _ =>
      rw [hphase] at h
      cases h

omit [DecidableEq ι] in
/-- A node is there until both of its releases have come to their end. -/
theorem Inv.release_live (hs : Inv s) {side : Side} {k p : Nat} {stage : Stage}
    (hown : s.2.own i = .release side k p stage) :
    s.2.chain k = p ∧ s.2.Live k ∧ s.2.stage (side, k) = stage ∧
      ∃ node, s.1.nodes.cell p = some node ∧ Kept s.2 k node := by
  have hknows := hs.knows i
  rw [hown] at hknows
  obtain ⟨hp, hk, hstage, hafter⟩ := hknows
  have hlength : k ≤ s.2.enqueued.length := by
    cases side with
    | tail => exact Nat.le_of_lt hk
    | head => exact Nat.le_trans (Nat.le_of_lt hk) hs.taken_le
  have hlive := hs.live_of_stage (hstage.trans_ne hafter) hlength
  exact ⟨hp, hlive, hstage, hp ▸ hs.node k hlive⟩

/-- What is owed when a release has come to another stage. -/
theorem Inv.owed_advance (hs : Inv s) {s' : Shared ι T} {side : Side} {k p : Nat}
    {old stage : Stage} (hown : s.2.own i = .release side k p old) (hp : s.2.chain k = p)
    (hown' : s'.2.own = Function.update s.2.own i (.during side k p stage))
    (hstage : s'.2.stage = Function.update s.2.stage (side, k) stage)
    (henqueued : s'.2.enqueued = s.2.enqueued) (hchain : s'.2.chain = s.2.chain)
    (htaken : s'.2.taken = s.2.taken) (hdequeued : s'.2.dequeued = s.2.dequeued)
    (hlive : ∀ j, s'.2.Live j → s.2.Live j)
    (hnext : ∀ j, s'.2.Live j → (s'.1.nodes.cell (s.2.chain j)).map Node.next =
      (s.1.nodes.cell (s.2.chain j)).map Node.next) :
    ∀ other, Owed s' other → ∃ j, s'.2.own j = other := by
  refine hs.owed_of_update hown' fun other hother => ?_
  rw [hown]
  cases hother with
  | @linking j hj hlt hnone =>
      rw [hchain] at hnone ⊢
      rw [henqueued] at hlt
      exact .inr ⟨.linking (hlive j hj) hlt ((hnext j hj).symm.trans hnone), fun heq => by cases heq⟩
  | @release side' j hj =>
      rw [hchain]
      rw [hstage, Function.update_apply] at hj
      split at hj
      case isTrue heq =>
        obtain ⟨rfl, rfl⟩ := Prod.mk.inj heq
        rw [hj, hp]
        exact .inl rfl
      case isFalse hne =>
        refine .inr ⟨.release hj, fun heq => hne ?_⟩
        obtain ⟨rfl, rfl, -, -⟩ := Phase.release.inj heq
        rfl
  | @taking j hj hnone =>
      rw [hchain]
      rw [htaken] at hj
      rw [hdequeued] at hnone
      exact .inr ⟨.taking hj hnone, fun heq => by cases heq⟩

section Advance

variable {side : Side} {k p : Nat} {old stage : Stage} {nodes : Heap (Node T)} {gone : Nat → Bool}

omit [DecidableEq ι] in
theorem update_stage_of_ne {h : History ι T} {side' : Side} {j : Nat}
    (hne : ¬(side' = side ∧ j = k)) :
    Function.update h.stage (side, k) stage (side', j) = h.stage (side', j) :=
  Function.update_of_ne (fun heq => hne (Prod.mk.inj heq)) _ _

omit [DecidableEq ι] in
theorem live_of_gone {h : History ι T} (hlive : h.Live k)
    (hgone : ∀ j, j ≠ k → gone j = h.gone j) {j : Nat} (hj : j ≤ h.enqueued.length)
    (hjgone : gone j = false) : h.Live j := by
  by_cases hjk : j = k
  · exact hjk ▸ hlive
  · exact ⟨hj, hgone j hjk ▸ hjgone⟩

theorem Inv.leaves_advance (hs : Inv s) (hown : s.2.own i = .release side k p old)
    (hgone : ∀ j, j ≠ k → gone j = s.2.gone j)
    (hreads : ∀ j, (s.2.own j).Reads k → gone k = false)
    (hother : ∀ q, q ≠ p → nodes.cell q = s.1.nodes.cell q) :
    Leaves i s ({ s.1 with nodes }, { s.2.advance i side k p stage with gone }) := by
  obtain ⟨hp, hlive, -, -⟩ := hs.release_live hown
  refine ⟨Nat.le_refl _, Nat.le_refl _, fun _ _ => rfl, fun side' j hne => ?_, fun _ _ => rfl,
    fun j k' _ hk' hfalse => ?_, fun j q node hj hq hcell => ?_⟩
  · refine update_stage_of_ne fun h => hne ?_
    rw [h.1, h.2, hown]
    rfl
  · by_cases hkk : k' = k
    · exact hkk ▸ hreads j (hkk ▸ hk')
    · exact (hgone k' hkk).trans hfalse
  · refine (hother q ?_).trans hcell
    rintro rfl
    exact hs.apart j q k hq hlive hp

theorem Inv.knows_advance (hs : Inv s) (hown : s.2.own i = .release side k p old) :
    Knows ({ s.1 with nodes }, { s.2.advance i side k p stage with gone })
      (.during side k p stage) := by
  obtain ⟨hp, -, -, -⟩ := hs.release_live hown
  have hk := hs.lt_of_mark (j := i) side (k := k) (by rw [hown]; rfl)
  by_cases hend : stage = .after
  · subst hend
    cases side with
    | tail => trivial
    | head => exact fun j hj => Option.some.inj hj ▸ hk
  · rw [Phase.during_eq hend]
    exact ⟨hp, hk, Function.update_self .., hend⟩

omit [DecidableEq ι] in
theorem Inv.due_advance (hs : Inv s) (hdue : Due (gone k) stage (s.2.stage (side.other, k)))
    (hgone : ∀ j, j ≠ k → gone j = s.2.gone j) (side' : Side) (j : Nat) :
    Due (gone j) (Function.update s.2.stage (side, k) stage (side', j))
      (Function.update s.2.stage (side, k) stage (side'.other, j)) := by
  have hopposite : Function.update s.2.stage (side, k) stage (side.other, k) =
      s.2.stage (side.other, k) := update_stage_of_ne fun h => side.other_ne h.1
  by_cases hj : j = k
  · subst hj
    rcases side'.eq_or_eq_other side with rfl | rfl
    · rw [Function.update_self, hopposite]
      exact hdue
    · rw [side.other_other, Function.update_self, hopposite]
      exact hdue.symm
  · rw [hgone j hj, update_stage_of_ne fun h => hj h.2, update_stage_of_ne fun h => hj h.2]
    exact hs.due side' j

/-- The nodes are what they were, but for the count of the one that is released. -/
theorem Inv.node_advance (hs : Inv s) (hown : s.2.own i = .release side k p old)
    (hgone : ∀ j, j ≠ k → gone j = s.2.gone j)
    (hother : ∀ q, q ≠ p → nodes.cell q = s.1.nodes.cell q)
    (hself : ∀ node, s.1.nodes.cell p = some node → gone k = false → nodes.cell p =
      some { node with refCount := node.refCount + old.count - stage.count }) {j : Nat}
    (hj : j ≤ s.2.enqueued.length) (hjgone : gone j = false) :
    (∃ node, nodes.cell (s.2.chain j) = some node ∧
      Kept { s.2.advance i side k p stage with gone } j node) ∧
      (nodes.cell (s.2.chain j)).map Node.next =
        (s.1.nodes.cell (s.2.chain j)).map Node.next := by
  obtain ⟨hp, hlive, hold, -⟩ := hs.release_live hown
  have hjlive := live_of_gone hlive hgone hj hjgone
  obtain ⟨node, hcell, hnode⟩ := hs.node j hjlive
  by_cases hjk : j = k
  · subst hjk
    have hcell' : s.1.nodes.cell p = some node := hp ▸ hcell
    have hnew := (congrArg nodes.cell hp).trans (hself node hcell' hjgone)
    refine ⟨⟨_, hnew, hnode.advance hold (Function.update_self ..) ?_ rfl rfl⟩, ?_⟩
    · exact update_stage_of_ne fun h => side.other_ne h.1
    · rw [hnew, hcell]
      rfl
  · have hsame : nodes.cell (s.2.chain j) = s.1.nodes.cell (s.2.chain j) :=
      hother _ fun heq => hjk (hs.distinct j k hjlive hlive (heq.trans hp.symm))
    refine ⟨⟨node, hsame.trans hcell, hnode.congr (fun _ => ?_) List.prefix_rfl fun _ => rfl⟩,
      congrArg (Option.map Node.next) hsame⟩
    exact update_stage_of_ne fun h => hjk h.2

/-- A release comes to another stage; the node may be gone then. -/
theorem Inv.advance (hs : Inv s) (hown : s.2.own i = .release side k p old)
    (hdue : Due (gone k) stage (s.2.stage (side.other, k)))
    (hgone : ∀ j, j ≠ k → gone j = s.2.gone j)
    (hreads : ∀ j, (s.2.own j).Reads k → gone k = false)
    (hother : ∀ q, q ≠ p → nodes.cell q = s.1.nodes.cell q)
    (hself : ∀ node, s.1.nodes.cell p = some node → gone k = false → nodes.cell p =
      some { node with refCount := node.refCount + old.count - stage.count }) :
    Inv ({ s.1 with nodes }, { s.2.advance i side k p stage with gone }) := by
  have hmark : (s.2.own i).mark = some (side.mark k) := by rw [hown]; rfl
  have hk := hs.lt_of_mark side hmark
  obtain ⟨hp, hlive, -, -⟩ := hs.release_live hown
  have hkept := fun j => live_of_gone (j := j) hlive hgone
  have hnode := fun j => hs.node_advance (j := j) hown hgone hother hself
  have hleaves : Leaves i s ({ s.1 with nodes }, { s.2.advance i side k p stage with gone }) :=
    hs.leaves_advance hown hgone hreads hother
  obtain ⟨hthreads, hunique⟩ := hs.threads hleaves rfl (hs.knows_advance hown)
    fun mark h => .inl (hmark.trans (Phase.mark_during h))
  exact {
    toCounted := hs.congr hown rfl Phase.adds_during Phase.subtracts_during rfl rfl rfl rfl rfl rfl
    taken_le := hs.taken_le
    tail := hs.tail
    head := hs.head
    due := hs.due_advance hdue hgone
    reached := fun side' j hne => by
      by_cases hj : side' = side ∧ j = k
      · rw [hj.1, hj.2]
        exact hk
      · exact hs.reached side' j ((update_stage_of_ne hj).symm.trans_ne hne)
    node := fun j hj => (hnode j hj.1 hj.2).1
    distinct := fun j j' hj hj' => hs.distinct j j' (hkept j hj.1 hj.2) (hkept j' hj'.1 hj'.2)
    apart := fun j q j' hq hj' => by
      obtain ⟨-, hq⟩ := node_of_update (fun h =>
        side.mark_ne_node k q (Option.some.inj (Phase.mark_during h))) hq
      exact hs.apart j q j' hq (hkept j' hj'.1 hj'.2)
    knows := hthreads
    unique := hunique
    owed := hs.owed_advance hown hp rfl rfl rfl rfl rfl rfl (fun j hj => hkept j hj.1 hj.2)
      fun j hj => (hnode j hj.1 hj.2).2
    order := hs.order }

end Advance

omit [DecidableEq ι] in
theorem Inv.due_of_release (hs : Inv s) {side : Side} {k p : Nat} {stage : Stage}
    (hown : s.2.own i = .release side k p stage) :
    Due false stage (s.2.stage (side.other, k)) := by
  obtain ⟨-, hlive, hstage, -⟩ := hs.release_live hown
  have hdue := hs.due side k
  rwa [hlive.2, hstage] at hdue

/-- `ref_count.fetch_sub(1)` -/
theorem Inv.fetchSubRefCount (hs : Inv s) {side : Side} {k p : Nat}
    (hown : s.2.own i = .release side k p .before) (hcond : ∀ j, ¬(s.2.own j).Releases p) :
    Inv ({ s.1 with nodes := s.1.nodes.modify p fun node =>
        { node with refCount := node.refCount - 1 } }, s.2.advance i side k p .subtracted) := by
  obtain ⟨hp, hlive, -, -⟩ := hs.release_live hown
  refine hs.advance hown ?_ (fun _ _ => rfl) (fun _ _ => hlive.2)
    (fun q hq => Heap.modify_of_ne hq) fun node hcell _ => ?_
  · show Due (s.2.gone k) _ _
    rw [hlive.2]
    have hdue := hs.due_of_release hown
    cases hopposite : s.2.stage (side.other, k) with
    | before => exact .inl rfl
    | after => exact .inr rfl
    | deleting => exact absurd hopposite hdue
    | subtracted =>
        obtain ⟨j, hj⟩ := hs.owed _ (.release hopposite)
        refine absurd ?_ (hcond j)
        rw [hj, hp]
        exact rfl
  · rw [Heap.modify_self hcell]
    exact congrArg (fun count => some { node with refCount := count - 1 }) (BitVec.add_zero _).symm

omit [DecidableEq ι] in
/-- The count is zero where the other release has come to its end. -/
theorem Inv.refCount_eq_zero_iff (hs : Inv s) {side : Side} {k p : Nat} {node : Node T}
    (hown : s.2.own i = .release side k p .subtracted) (hcell : s.1.nodes.cell p = some node) :
    node.refCount = 0 ↔ s.2.stage (side.other, k) = .after := by
  obtain ⟨-, -, hstage, node', hcell', hkept⟩ := hs.release_live hown
  obtain rfl := Option.some.inj (hcell.symm.trans hcell')
  have hdue : _ ∨ _ := hs.due_of_release hown
  rw [hkept.refCount]
  cases side with
  | tail =>
      rw [hstage]
      rcases hdue with hdue | hdue <;> rw [Side.other] at hdue ⊢ <;> rw [hdue] <;> decide
  | head =>
      rw [hstage]
      rcases hdue with hdue | hdue <;> rw [Side.other] at hdue ⊢ <;> rw [hdue] <;> decide

/-- `ref_count.load() == 0` -/
theorem Inv.loadRefCount (hs : Inv s) {side : Side} {k p : Nat} {node : Node T}
    (hown : s.2.own i = .release side k p .subtracted) (hcell : s.1.nodes.cell p = some node) :
    Inv (s.1, s.2.advance i side k p (if node.refCount = 0 then .deleting else .after)) := by
  obtain ⟨-, ⟨-, hgone⟩, -, -⟩ := hs.release_live hown
  have hzero := hs.refCount_eq_zero_iff hown hcell
  have hsame : ∀ stage : Stage, stage.count = 1 → ∀ node : Node T, s.1.nodes.cell p = some node →
      s.2.gone k = false → s.1.nodes.cell p =
        some { node with refCount := node.refCount + Stage.subtracted.count - stage.count } := by
    intro stage hstage node hnode _
    rw [hstage]
    exact hnode.trans (congrArg (fun count => some { node with refCount := count })
      (BitVec.add_sub_cancel node.refCount 1).symm)
  split
  case isTrue hcount =>
    refine hs.advance hown ?_ (fun _ _ => rfl) (fun _ _ => hgone)
      (fun _ _ => rfl) (hsame .deleting rfl)
    show Due (s.2.gone k) _ _
    rw [hgone]
    exact hzero.mp hcount
  case isFalse hcount =>
    refine hs.advance hown ?_ (fun _ _ => rfl) (fun _ _ => hgone)
      (fun _ _ => rfl) (hsame .after rfl)
    show Due (s.2.gone k) _ _
    rw [hgone]
    exact fun hafter => hcount (hzero.mpr hafter)

omit [DecidableEq ι] in
theorem Inv.readsAt (hs : Inv s) {j : ι} {k : Nat} (h : (s.2.own j).Reads k) :
    (s.2.own j).ReadsAt (s.2.chain k) := by
  have hknows := hs.knows j
  cases hphase : s.2.own j with
  | loaded k' p =>
      rw [hphase] at h hknows
      obtain rfl : k = k' := h
      exact hknows.1
  | taking k' p next =>
      rw [hphase] at h hknows
      obtain rfl : k = k' + 1 := h
      exact hknows.2.1
  | _ =>
      rw [hphase] at h
      exact h.elim

/-- `delete this` -/
theorem Inv.deleteNode (hs : Inv s) {side : Side} {k p : Nat}
    (hown : s.2.own i = .release side k p .deleting) (hcond : ∀ j, ¬(s.2.own j).ReadsAt p) :
    Inv ({ s.1 with nodes := s.1.nodes.delete p },
      { s.2.advance i side k p .after with gone := Function.update s.2.gone k true }) := by
  obtain ⟨hp, -, -, -⟩ := hs.release_live hown
  have hself : Function.update s.2.gone k true k = true := Function.update_self ..
  refine hs.advance hown ?_ (fun j hj => Function.update_of_ne hj _ _)
    (fun j hj => ?_) (fun q hq => Heap.delete_of_ne hq) fun node _ hgone => ?_
  · rw [hself]
    exact ⟨rfl, hs.due_of_release hown⟩
  · exact absurd (hp ▸ hs.readsAt hj) (hcond j)
  · rw [hself] at hgone
    cases hgone

omit [DecidableEq ι] in
/-- Beyond `head_` nothing has been released by a call of `Dequeue`, nor deleted. -/
theorem Inv.ahead (hs : Inv s) {k : Nat} (hk : s.2.taken ≤ k) :
    s.2.stage (.head, k) = .before ∧ s.2.gone k = false ∧ s.2.dequeued k = none := by
  have hstage : s.2.stage (.head, k) = .before := by
    by_contra hne
    exact absurd (hs.reached .head k hne) (Nat.not_lt.mpr hk)
  refine ⟨hstage, ?_, ?_⟩
  · have hdue := hs.due .head k
    rw [hstage] at hdue
    cases hgone : s.2.gone k with
    | false => rfl
    | true =>
        rw [hgone] at hdue
        cases hdue.1
  · cases hdequeued : s.2.dequeued k with
    | none => rfl
    | some element => exact absurd (hs.order k element hdequeued).1 (Nat.not_lt.mpr hk)

/-- `head_.compare_exchange_strong`, where `head_` is moved to the node behind it -/
theorem Inv.pop (hs : Inv s) {p next : Nat} (hown : s.2.own i = .read) (hp : s.1.head = p)
    (hnext : (s.1.nodes.cell p).map Node.next = some (some next)) :
    Inv ({ s.1 with head := next }, s.2.pop i p next) := by
  obtain ⟨hstage, hgone, hnone⟩ := hs.ahead (Nat.le_refl s.2.taken)
  have hp : s.2.chain s.2.taken = p := hs.head.symm.trans hp
  obtain ⟨node, hcell, hkept⟩ := hs.node s.2.taken ⟨hs.taken_le, hgone⟩
  rw [hp] at hcell
  rw [hcell] at hnext
  obtain ⟨hlt, hchain⟩ : s.2.taken < s.2.enqueued.length ∧ s.2.chain (s.2.taken + 1) = next := by
    have hnext : node.next = some next := Option.some.inj hnext
    rcases hkept.next with hend | ⟨hlt, hbehind⟩
    · cases hend.symm.trans hnext
    · exact ⟨hlt, Option.some.inj (hbehind.symm.trans hnext)⟩
  have hleaves : Leaves i s ({ s.1 with head := next }, s.2.pop i p next) :=
    ⟨Nat.le_refl _, Nat.le_succ _, fun _ _ => rfl, fun _ _ _ => rfl, fun _ _ => rfl,
      fun _ _ _ _ hgone => hgone, fun _ _ _ _ _ hcell => hcell⟩
  have hphase : Knows ({ s.1 with head := next }, s.2.pop i p next)
      (.taking s.2.taken p next) :=
    ⟨hp, hchain, Nat.lt_succ_self _, hstage, (hs.ahead (Nat.le_succ _)).2.1, hnone⟩
  obtain ⟨hthreads, hunique⟩ := hs.threads hleaves rfl hphase fun mark hmark => by
    obtain rfl := Option.some.inj hmark
    exact .inr fun j hj => Nat.lt_irrefl _ (hs.lt_of_mark .head hj)
  have hnot : i ∉ s.2.toSubtract := (hs.mem_toSubtract hown).not.mpr id
  refine {
    toAdd := mem_update hs.toAdd ((hs.mem_toAdd hown).trans Iff.rfl) fun _ _ => Iff.rfl
    toSubtract := mem_update hs.toSubtract (iff_of_true (Finset.mem_insert_self _ _) trivial)
      fun j hj => Finset.mem_insert.trans (or_iff_right hj)
    count := ?_
    size := hs.size
    nonneg := hs.nonneg
    taken_le := hlt
    tail := hs.tail
    head := hchain.symm
    due := hs.due
    reached := fun side k hk => ?_
    node := fun k hk => ?_
    distinct := hs.distinct
    apart := fun j q k hq hk => ?_
    knows := hthreads
    unique := hunique
    owed := hs.owed_of_update rfl fun other hother => ?_
    order := fun k element hk => ?_ }
  · show s.2.count + (s.2.taken + 1 : Nat) + s.2.toAdd.card =
      s.2.enqueued.length + (insert i s.2.toSubtract).card
    rw [Finset.card_insert_of_notMem hnot]
    have hcount := hs.count
    push_cast
    omega
  · cases side with
    | tail => exact hs.reached .tail k hk
    | head => exact Nat.lt_succ_of_lt (hs.reached .head k hk)
  · obtain ⟨node, hcell, hkept⟩ := hs.node k hk
    exact ⟨node, hcell, hkept.congr (fun _ => rfl) List.prefix_rfl fun _ => rfl⟩
  · exact hs.apart j q k (node_of_update (fun h => by cases h) hq).2 hk
  · rw [hown]
    cases hother with
    | linking hk hlt hnone => exact .inr ⟨.linking hk hlt hnone, fun heq => by cases heq⟩
    | release h => exact .inr ⟨.release h, fun heq => by cases heq⟩
    | @taking k hk hnone =>
        rcases Nat.lt_succ_iff_lt_or_eq.mp hk with hk | rfl
        · exact .inr ⟨.taking hk hnone, fun heq => by cases heq⟩
        · refine .inl ?_
          show Phase.taking _ (s.2.chain _) (s.2.chain _) = _
          rw [hp, hchain]
  · obtain ⟨hlt, hsome⟩ := hs.order k element hk
    exact ⟨Nat.lt_succ_of_lt hlt, hsome⟩

section Push

variable {p next : Nat} {element : T}

theorem length_push {h : History ι T} :
    (h.push i p next element).enqueued.length = h.enqueued.length + 1 :=
  List.length_append

theorem chain_push_of_le {h : History ι T} {k : Nat} (hk : k ≤ h.enqueued.length) :
    (h.push i p next element).chain k = h.chain k :=
  Function.update_of_ne (Nat.ne_of_lt (Nat.lt_succ_of_le hk)) _ _

theorem le_length_push {h : History ι T} :
    h.enqueued.length ≤ (h.push i p next element).enqueued.length := by
  rw [length_push]
  exact Nat.le_succ _

theorem chain_push_last {h : History ι T} :
    (h.push i p next element).chain (h.enqueued.length + 1) = next :=
  Function.update_self ..

theorem live_push {h : History ι T} {k : Nat} (hk : (h.push i p next element).Live k) :
    k = h.enqueued.length + 1 ∨ h.Live k := by
  have hle := hk.1
  rw [length_push] at hle
  rcases Nat.le_succ_iff.mp hle with hle | hle
  · exact .inr ⟨hle, hk.2⟩
  · exact .inl hle

omit [DecidableEq ι] in
/-- Nobody has released `tail_`, or what is to come behind it. -/
theorem Inv.stage_tail (hs : Inv s) {k : Nat} (hk : s.2.enqueued.length ≤ k) :
    s.2.stage (.tail, k) = .before := by
  by_contra hne
  exact absurd (hs.reached .tail k hne) (Nat.not_lt.mpr hk)

theorem leaves_push : Leaves i s ({ s.1 with tail := next }, s.2.push i p next element) :=
  ⟨le_length_push, Nat.le_refl _, fun _ => chain_push_of_le, fun _ _ _ => rfl,
    fun _ _ => rfl, fun _ _ _ _ hgone => hgone, fun _ _ _ _ _ hcell => hcell⟩

theorem Inv.knows_push (hs : Inv s) (hp : s.1.tail = p) :
    Knows ({ s.1 with tail := next }, s.2.push i p next element)
      (.linking s.2.enqueued.length p next) := by
  refine ⟨(chain_push_of_le (Nat.le_refl _)).trans (hs.tail.symm.trans hp), chain_push_last, ?_,
    hs.stage_tail (Nat.le_refl _)⟩
  show s.2.enqueued.length < (s.2.push i p next element).enqueued.length
  rw [length_push]
  exact Nat.lt_succ_self _

theorem Inv.counted_push (hs : Inv s) (hown : s.2.own i = .filled next element) :
    Counted ({ s.1 with tail := next }, s.2.push i p next element) where
  toAdd := mem_update hs.toAdd (iff_of_true (Finset.mem_insert_self _ _) trivial)
    fun j hj => Finset.mem_insert.trans (or_iff_right hj)
  toSubtract := mem_update hs.toSubtract ((hs.mem_toSubtract hown).trans Iff.rfl) fun _ _ => Iff.rfl
  count := by
    show s.2.count + s.2.taken + (insert i s.2.toAdd).card =
      (s.2.enqueued ++ [element]).length + s.2.toSubtract.card
    rw [Finset.card_insert_of_notMem ((hs.mem_toAdd hown).not.mpr id), List.length_append]
    have hcount := hs.count
    push_cast [List.length_singleton]
    omega
  size := hs.size
  nonneg := hs.nonneg

/-- The node that is made `tail_` is as it was made; the others are kept. -/
theorem Inv.node_push (hs : Inv s) (hcell : s.1.nodes.cell next = some { data := element })
    {k : Nat} (hk : (s.2.push i p next element).Live k) :
    ∃ node, s.1.nodes.cell ((s.2.push i p next element).chain k) = some node ∧
      Kept (s.2.push i p next element) k node := by
  rcases live_push hk with rfl | hk
  · have hhead := (hs.ahead (Nat.le_succ_of_le hs.taken_le)).1
    refine ⟨_, (congrArg s.1.nodes.cell chain_push_last).trans hcell, ?_, fun j hj => ?_, .inl rfl⟩
    · show _ = 2 - (s.2.stage (.tail, _)).count - (s.2.stage (.head, _)).count
      rw [hs.stage_tail (Nat.le_succ _), hhead]
      rfl
    · obtain rfl : s.2.enqueued.length = j := Nat.succ.inj hj
      exact List.getElem?_concat_length
  · obtain ⟨node, hold, hkept⟩ := hs.node k hk
    exact ⟨node, (congrArg s.1.nodes.cell (chain_push_of_le hk.1)).trans hold,
      hkept.congr (fun _ => rfl) (List.prefix_append _ _) fun hlt => chain_push_of_le hlt⟩

theorem Inv.distinct_push (hs : Inv s) (hapart : ∀ k, s.2.Live k → s.2.chain k ≠ next)
    {j k : Nat} (hj : (s.2.push i p next element).Live j)
    (hk : (s.2.push i p next element).Live k)
    (heq : (s.2.push i p next element).chain j = (s.2.push i p next element).chain k) :
    j = k := by
  rcases live_push hj with rfl | hj <;> rcases live_push hk with rfl | hk
  · rfl
  · rw [chain_push_last, chain_push_of_le hk.1] at heq
    exact absurd heq.symm (hapart k hk)
  · rw [chain_push_last, chain_push_of_le hj.1] at heq
    exact absurd heq (hapart j hj)
  · rw [chain_push_of_le hj.1, chain_push_of_le hk.1] at heq
    exact hs.distinct j k hj hk heq

/-- The thread owes the pointer to the new node; what was owed before is owed as it was. -/
theorem Inv.owed_push (hs : Inv s) (hown : s.2.own i = .filled next element)
    (hp : s.1.tail = p) :
    ∀ other, Owed ({ s.1 with tail := next }, s.2.push i p next element) other →
      ∃ j, (s.2.push i p next element).own j = other := by
  have hlength := hs.taken_le
  refine hs.owed_of_update rfl fun other hother => ?_
  rw [hown]
  cases hother with
  | @linking k hk hlt hnone =>
      dsimp only at hlt hnone ⊢
      rw [length_push] at hlt
      rcases Nat.lt_succ_iff_lt_or_eq.mp hlt with hlt | rfl
      · rw [chain_push_of_le (Nat.le_of_lt hlt)] at hnone ⊢
        rw [chain_push_of_le hlt]
        exact .inr ⟨.linking ⟨Nat.le_of_lt hlt, hk.2⟩ hlt hnone, fun heq => by cases heq⟩
      · rw [chain_push_last, chain_push_of_le (Nat.le_refl _)]
        exact .inl (congrArg (Phase.linking _ · next) (hs.tail.symm.trans hp))
  | @release side k hstage =>
      dsimp only
      have hk : k < s.2.moved side := hs.reached side k (Eq.trans_ne hstage Stage.noConfusion)
      rw [chain_push_of_le]
      · exact .inr ⟨.release hstage, fun heq => by cases heq⟩
      · cases side with
        | tail => exact Nat.le_of_lt hk
        | head => exact Nat.le_trans (Nat.le_of_lt hk) hlength
  | @taking k hk hnone =>
      have hk : k < s.2.taken := hk
      dsimp only
      rw [chain_push_of_le (by omega), chain_push_of_le (by omega)]
      exact .inr ⟨.taking hk hnone, fun heq => by cases heq⟩

/-- `tail_.compare_exchange_strong`, where `tail_` is moved -/
theorem Inv.push (hs : Inv s) (hown : s.2.own i = .filled next element) (hp : s.1.tail = p) :
    Inv ({ s.1 with tail := next }, s.2.push i p next element) := by
  have hmark : (s.2.own i).mark = some (.node next) := by rw [hown]; rfl
  have hfilled := hs.knows i
  rw [hown] at hfilled
  have hapart : ∀ k, s.2.Live k → s.2.chain k ≠ next := fun k hk => hs.apart i next k hmark hk
  obtain ⟨hthreads, hunique⟩ := hs.threads leaves_push rfl (hs.knows_push hp) fun mark h => by
    obtain rfl := Option.some.inj h
    exact .inr fun j hj => Nat.lt_irrefl _ (hs.lt_of_mark .tail hj)
  exact {
    toCounted := hs.counted_push hown
    taken_le := Nat.le_trans hs.taken_le le_length_push
    tail := by
      show next = (s.2.push i p next element).chain (s.2.push i p next element).enqueued.length
      rw [length_push, chain_push_last]
    head := hs.head.trans (chain_push_of_le hs.taken_le).symm
    due := hs.due
    reached := fun side k hk => by
      cases side with
      | tail => exact Nat.lt_of_lt_of_le (hs.reached .tail k hk) le_length_push
      | head => exact hs.reached .head k hk
    node := fun k hk => hs.node_push hfilled hk
    distinct := fun j k hj hk heq => hs.distinct_push hapart hj hk heq
    apart := fun j q k hq hk => by
      obtain ⟨hji, hq⟩ := node_of_update (fun h => by cases h) hq
      rcases live_push hk with rfl | hk
      · refine chain_push_last.trans_ne ?_
        rintro rfl
        exact hji (hs.unique j i _ hq hmark)
      · exact (chain_push_of_le hk.1).trans_ne (hs.apart j q k hq hk)
    knows := hthreads
    unique := hunique
    owed := hs.owed_push hown hp
    order := fun k element' hk => by
      obtain ⟨hlt, hsome⟩ := hs.order k element' hk
      refine ⟨hlt, ?_⟩
      show (s.2.enqueued ++ [element])[k]? = some element'
      rw [List.getElem?_append_left (Nat.lt_of_lt_of_le hlt hs.taken_le), hsome] }

end Push

/-- `*element = head_next->data` -/
theorem Inv.loadData (hs : Inv s) {k p next : Nat} {node : Node T}
    (hown : s.2.own i = .taking k p next) (hcell : s.1.nodes.cell next = some node) :
    Inv (s.1, { s.2.become i (.subtracting k p) with
      dequeued := Function.update s.2.dequeued k (some node.data) }) := by
  have hmark : (s.2.own i).mark = some (.slot k) := by rw [hown]; rfl
  have hknows := hs.knows i
  rw [hown] at hknows
  obtain ⟨hp, hnext, hk, hstage, hgone, hnone⟩ := hknows
  have hlength := hs.taken_le
  have hdata : s.2.enqueued[k]? = some node.data := by
    obtain ⟨node', hcell', hkept⟩ := hs.node (k + 1) ⟨by omega, hgone⟩
    rw [hnext, hcell] at hcell'
    obtain rfl := Option.some.inj hcell'
    exact hkept.data k rfl
  let dequeued := Function.update s.2.dequeued k (some node.data)
  have hother : ∀ j, j ≠ k → dequeued j = s.2.dequeued j := fun j hj => Function.update_of_ne hj _ _
  have hself : dequeued k = some node.data := Function.update_self ..
  have hleaves : Leaves i s (s.1, { s.2.become i (.subtracting k p) with dequeued }) := by
    refine ⟨Nat.le_refl _, Nat.le_refl _, fun _ _ => rfl, fun _ _ _ => rfl, fun j hj => ?_,
      fun _ _ _ _ hgone => hgone, fun _ _ _ _ _ hcell => hcell⟩
    refine hother j ?_
    rintro rfl
    exact hj hmark
  have hphase : Knows (s.1, { s.2.become i (.subtracting k p) with dequeued }) (.subtracting k p) :=
    ⟨hp, hk, hstage⟩
  obtain ⟨hthreads, hunique⟩ := hs.threads hleaves rfl hphase fun mark h => .inl (hmark.trans h)
  refine {
    toCounted := hs.congr hown rfl Iff.rfl Iff.rfl rfl rfl rfl rfl rfl rfl
    taken_le := hs.taken_le
    tail := hs.tail
    head := hs.head
    due := hs.due
    reached := hs.reached
    node := fun j hj => ?_
    distinct := hs.distinct
    apart := fun j q k' hq hk' => ?_
    knows := hthreads
    unique := hunique
    owed := hs.owed_of_update rfl fun other hotherOwed => ?_
    order := fun j element hj => ?_ }
  · obtain ⟨node, hcell, hkept⟩ := hs.node j hj
    exact ⟨node, hcell, hkept.congr (fun _ => rfl) List.prefix_rfl fun _ => rfl⟩
  · exact hs.apart j q k' (node_of_update (fun h => by cases h) hq).2 hk'
  · rw [hown]
    cases hotherOwed with
    | linking hk hlt hnone => exact .inr ⟨.linking hk hlt hnone, fun heq => by cases heq⟩
    | release h => exact .inr ⟨.release h, fun heq => by cases heq⟩
    | @taking j hj hjnone =>
        have hjnone : dequeued j = none := hjnone
        have hjk : j ≠ k := by
          rintro rfl
          rw [hself] at hjnone
          cases hjnone
        rw [hother j hjk] at hjnone
        exact .inr ⟨.taking hj hjnone, fun heq => hjk (Phase.taking.inj heq).1.symm⟩
  · have hj : dequeued j = some element := hj
    by_cases hjk : j = k
    · subst hjk
      rw [hself] at hj
      exact ⟨hk, hdata.trans hj⟩
    · rw [hother j hjk] at hj
      exact hs.order j element hj

/-- `size_.fetch_add(1)` -/
theorem Inv.fetchAddSize (hs : Inv s) (hown : s.2.own i = .adding) :
    Inv ({ s.1 with size := s.1.size + 1 }, { s.2.become i (.rest none) with
      count := s.2.count + 1, toAdd := s.2.toAdd.erase i }) := by
  have hmem : i ∈ s.2.toAdd := (hs.mem_toAdd hown).mpr trivial
  refine hs.become hown (fun k node _ hcell hkept => ⟨node, hcell, hkept⟩) (fun _ _ _ _ _ hcell => hcell)
    (fun k hk => by cases hk) (fun mark h => by cases h) (fun p k h => by cases h) (fun _ _ h => h)
    (fun howed => by cases howed) ⟨?_, ?_, ?_, ?_, ?_⟩
  · refine mem_update hs.toAdd (iff_of_false (Finset.notMem_erase _ _) id) fun j hj => ?_
    rw [Finset.mem_erase, and_iff_right hj]
  · exact mem_update hs.toSubtract ((hs.mem_toSubtract hown).trans Iff.rfl) fun _ _ => Iff.rfl
  · show s.2.count + 1 + s.2.taken + (s.2.toAdd.erase i).card = _
    have hcount := hs.count
    have hcard := Finset.card_erase_add_one hmem
    push_cast [← hcard] at hcount
    show _ = (s.2.enqueued.length : Int) + s.2.toSubtract.card
    omega
  · show s.1.size + 1 = BitVec.ofInt 64 (s.2.count + 1)
    rw [hs.size, BitVec.ofInt_add]
    rfl
  · have hnonneg := hs.nonneg
    show 0 ≤ s.2.count + 1
    omega

/-- `size_.fetch_sub(1)`, where something has been counted -/
theorem Inv.fetchSubSize (hs : Inv s) {k p : Nat} (hown : s.2.own i = .subtracting k p)
    (hcond : s.2.toAdd.card < s.2.enqueued.length - s.2.taken + s.2.toSubtract.card) :
    Inv ({ s.1 with size := s.1.size - 1 }, { s.2.become i (.release .head k p .before) with
      count := s.2.count - 1, toSubtract := s.2.toSubtract.erase i }) := by
  have hknows := hs.knows i
  rw [hown] at hknows
  obtain ⟨hp, hk, hstage⟩ := hknows
  have hmem : i ∈ s.2.toSubtract := (hs.mem_toSubtract hown).mpr trivial
  have hcount := hs.count
  refine hs.become hown (fun k node _ hcell hkept => ⟨node, hcell, hkept⟩)
    (fun _ _ _ _ _ hcell => hcell) ⟨hp, hk, hstage, Stage.noConfusion⟩ (fun mark h => .inl h)
    (fun p k h => by cases h) (fun _ _ h => h) (fun howed => by cases howed) ⟨?_, ?_, ?_, ?_, ?_⟩
  · exact mem_update hs.toAdd ((hs.mem_toAdd hown).trans Iff.rfl) fun _ _ => Iff.rfl
  · refine mem_update hs.toSubtract (iff_of_false (Finset.notMem_erase _ _) id) fun j hj => ?_
    rw [Finset.mem_erase, and_iff_right hj]
  · show s.2.count - 1 + s.2.taken + s.2.toAdd.card =
      s.2.enqueued.length + (s.2.toSubtract.erase i).card
    have hcard := Finset.card_erase_add_one hmem
    push_cast [← hcard] at hcount
    omega
  · show s.1.size - 1 = BitVec.ofInt 64 (s.2.count - 1)
    rw [hs.size, Int.sub_eq_add_neg, BitVec.ofInt_add, BitVec.sub_eq_add_neg]
    rfl
  · have hlength := hs.taken_le
    show 0 ≤ s.2.count - 1
    omega

omit [DecidableEq ι] in
/-- What a call of `Dequeue` is about to read is there. -/
theorem Inv.cell_of_readsAt (hs : Inv s) {p : Nat} (h : (s.2.own i).ReadsAt p) :
    ∃ node, s.1.nodes.cell p = some node := by
  have hknows := hs.knows i
  have hlength := hs.taken_le
  cases hphase : s.2.own i with
  | loaded k p' =>
      rw [hphase] at h hknows
      obtain rfl : p = p' := h
      obtain ⟨hp, hk, hgone⟩ := hknows
      obtain ⟨node, hcell, -⟩ := hs.node k ⟨by omega, hgone⟩
      exact ⟨node, hp ▸ hcell⟩
  | taking k p' next =>
      rw [hphase] at h hknows
      obtain rfl : p = next := h
      obtain ⟨-, hnext, hk, -, hgone, -⟩ := hknows
      obtain ⟨node, hcell, -⟩ := hs.node (k + 1) ⟨by omega, hgone⟩
      exact ⟨node, hnext ▸ hcell⟩
  | _ =>
      rw [hphase] at h
      exact h.elim

/-- `head_` is loaded, by a call that has nothing yet or by an exchange that has not been done. -/
theorem Inv.loadHead (hs : Inv s) (hown : (∃ taken, s.2.own i = .rest taken) ∨ s.2.own i = .read) :
    Inv (s.1, s.2.become i (.loaded s.2.taken s.1.head)) := by
  have hphase : Knows s (.loaded s.2.taken s.1.head) :=
    ⟨hs.head.symm, Nat.le_refl _, (hs.ahead (Nat.le_refl _)).2.1⟩
  rcases hown with ⟨taken, hown⟩ | hown
  · exact hs.move hown hphase (fun mark h => by cases h) (fun howed => by cases howed) Iff.rfl Iff.rfl
  · exact hs.move hown hphase (fun mark h => by cases h) (fun howed => by cases howed) Iff.rfl Iff.rfl

/-- `old_head->next` has been read. -/
theorem Inv.loadNext (hs : Inv s) {k p : Nat} (hown : s.2.own i = .loaded k p) :
    Inv (s.1, s.2.become i .read) ∧ Inv (s.1, s.2.become i (.rest none)) :=
  ⟨hs.move hown trivial (fun mark h => by cases h) (fun howed => by cases howed) Iff.rfl Iff.rfl,
    hs.move hown (fun k hk => by cases hk) (fun mark h => by cases h) (fun howed => by cases howed)
      Iff.rfl Iff.rfl⟩

end Keeps

end UnboundedQueue
end Base
end Cmw
