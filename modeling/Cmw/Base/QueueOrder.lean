import Cmw.Base.BoundedQueue
import Mathlib.Order.Nat
import Mathlib.Data.List.Basic

/-!
# What the bounded queue returns

Any number of `Enqueue` and `Dequeue`, in any order of their steps, as long as `tail_`
does not wrap around.  A producer owns the slot of the number that it has reserved, as
no two numbers between `head_` and `tail_` have the same slot; a consumer that claims
the number after the head has copied it while the head was the same.
-/

namespace Cmw
namespace Base
namespace Queue

open Library
open Library.Thread

variable {ι T : Type} [DecidableEq ι]

structure Inv (p : Nat) (k : Shared ι T) : Prop where
  head : k.1.head = k.2.dequeued.length
  tail : k.1.tail = k.2.reserved.length + 1
  bound : k.1.tail < 2 ^ 64
  lt : k.1.head < k.1.commit
  le : k.1.commit ≤ k.1.tail
  room : k.1.tail ≤ k.1.head + max 1 (p - 1)
  slots : ∀ j, k.1.head < j → j < k.1.commit → k.2.reserved[j - 1]? = some (k.1.pool (j % p))
  fifo : k.2.dequeued <+: k.2.reserved
  ticket : ∀ i t, (k.2.own i).ticket = some t → k.1.commit ≤ t ∧ t < k.1.tail
  unique : ∀ i j t, (k.2.own i).ticket = some t → (k.2.own j).ticket = some t → i = j

/-- What the others leave to thread `i`: its own slot stays as it is. -/
structure Rely (p : Nat) (i : ι) (k l : Shared ι T) : Prop where
  own : l.2.own i = k.2.own i
  head : k.1.head ≤ l.1.head
  tail : k.1.tail ≤ l.1.tail
  commit : k.1.commit ≤ l.1.commit
  reserved : k.2.reserved <+: l.2.reserved
  dequeued : k.2.dequeued <+: l.2.dequeued
  slot : ∀ t, (k.2.own i).ticket = some t → l.1.pool (t % p) = k.1.pool (t % p)

omit [DecidableEq ι] in
theorem Rely.refl (p : Nat) (i : ι) (k : Shared ι T) : Rely p i k k :=
  ⟨rfl, Nat.le_refl _, Nat.le_refl _, Nat.le_refl _, List.prefix_rfl, List.prefix_rfl,
    fun _ _ => rfl⟩

omit [DecidableEq ι] in
theorem Rely.trans {p : Nat} {i : ι} {k l m : Shared ι T} (h : Rely p i k l)
    (h' : Rely p i l m) : Rely p i k m where
  own := h'.own.trans h.own
  head := h.head.trans h'.head
  tail := h.tail.trans h'.tail
  commit := h.commit.trans h'.commit
  reserved := h.reserved.trans h'.reserved
  dequeued := h.dequeued.trans h'.dequeued
  slot t ht := (h'.slot t (h.own ▸ ht)).trans (h.slot t ht)

/-- `tail_` does not wrap around; and what else the steps of the run are taken to meet. -/
def Cond (C : Locals → Op T → Shared ι T → Prop) (i : ι) (r : Locals) (o : Op T) (x : Bool)
    (k : Shared ι T) : Prop :=
  (noted i o x k).2.2.reserved.length + 1 < 2 ^ 64 ∧ C r o k

/-- What a thread knows when it performs an operation. -/
def Pre (p : Nat) (i : ι) (_ : Locals) (o : Op T) (k : Shared ι T) : Prop :=
  match o with
  | .casTail old new => (k.2.own i).ticket = none ∧ (k.2.own i).reserved = none ∧
      (k.2.own i).element.isSome ∧ new = plusOne old ∧
      (k.1.tail = old → old + 1 < 2 ^ 64 → old + 1 ≤ k.1.head + (p - 1))
  | .casCommit old new => (k.2.own i).ticket = some old ∧ new = plusOne old ∧
      k.2.reserved[old - 1]? = some (k.1.pool (old % p))
  | .casHead old new => (k.2.own i).claimed = none ∧ new = plusOne old ∧
      (k.1.head = old → old + 1 < k.1.commit ∧
        ∃ e, (k.2.own i).copy = some e ∧ k.2.reserved[old]? = some e)
  | .write idx _ => ∃ t, (k.2.own i).ticket = some t ∧ idx = t % p
  | _ => True

/-! ### What the operations keep -/

section Keeps

variable {p : Nat} {i : ι} {k l : Shared ι T}

omit [DecidableEq ι] in
/-- Numbers between the head and the tail have slots of their own. -/
theorem slot_ne (hk : Inv p k) {s t : Nat} (hs : k.1.head < s) (hs' : s < k.1.tail)
    (ht : k.1.head < t) (ht' : t < k.1.tail) (hst : s ≠ t) : s % p ≠ t % p := by
  have hroom := hk.room
  rcases Nat.lt_or_gt_of_ne hst with h | h
  · exact Ring.slot_ne h (by omega)
  · exact (Ring.slot_ne h (by omega)).symm

theorem keeps_casTail {e : T} (hk : Inv p k) (hticket : (k.2.own i).ticket = none)
    (helement : (k.2.own i).element = some e)
    (hroom : k.1.tail + 1 ≤ k.1.head + (p - 1)) (hbound : k.1.tail + 1 < 2 ^ 64)
    (hl : l = ({ k.1 with tail := k.1.tail + 1 },
      { k.2.setOwn i { k.2.own i with
          ticket := some (k.2.reserved.length + 1)
          reserved := some k.2.reserved.length } with
        reserved := k.2.reserved ++ [e] })) :
    Inv p l ∧ ∀ j, j ≠ i → Rely p j k l := by
  subst hl
  have hprefix : k.2.reserved <+: k.2.reserved ++ [e] := List.prefix_append _ _
  have hle := hk.le
  have htail := hk.tail
  have hown : ∀ j t, (Function.update k.2.own i { k.2.own i with
      ticket := some (k.2.reserved.length + 1)
      reserved := some k.2.reserved.length } j).ticket = some t →
      j = i ∧ t = k.1.tail ∨ j ≠ i ∧ (k.2.own j).ticket = some t := by
    intro j t ht
    by_cases hj : j = i
    · subst hj
      rw [Function.update_self] at ht
      exact .inl ⟨rfl, by rw [htail, ← Option.some.inj ht]⟩
    · rw [Function.update_of_ne hj] at ht
      exact .inr ⟨hj, ht⟩
  refine ⟨⟨hk.head, ?_, hbound, hk.lt, ?_, ?_, fun j hj hj' => ?_, hk.fifo.trans hprefix,
    fun j t ht => ?_, fun j j' t hj hj' => ?_⟩, fun j hj => ⟨?_, Nat.le_refl _, ?_, Nat.le_refl _,
    hprefix, List.prefix_rfl, fun _ _ => rfl⟩⟩
  · simp [htail]
  · exact hle.trans (Nat.le_succ _)
  · exact hroom.trans (Nat.add_le_add_left (Nat.le_max_right _ _) _)
  · exact Ring.getElem?_of_prefix hprefix (hk.slots j hj hj')
  · rcases hown j t ht with ⟨_, rfl⟩ | ⟨_, ht⟩
    · exact ⟨hle, Nat.lt_succ_self _⟩
    · exact ⟨(hk.ticket j t ht).1, (hk.ticket j t ht).2.trans (Nat.lt_succ_self _)⟩
  · rcases hown j t hj with ⟨rfl, ht⟩ | ⟨_, ht⟩ <;> rcases hown j' t hj' with ⟨rfl, ht'⟩ | ⟨_, ht'⟩
    · rfl
    · exact absurd (hk.ticket j' t ht').2 (by omega)
    · exact absurd (hk.ticket j t ht).2 (by omega)
    · exact hk.unique j j' t ht ht'
  · exact Function.update_of_ne hj _ _
  · exact Nat.le_succ _

/-- What is changed in the history of a thread leaves it no ticket but its own. -/
theorem ticket_of_setOwn {h : History ι T} {o : Own T}
    (ho : ∀ t, o.ticket = some t → (h.own i).ticket = some t) {j : ι} {t : Nat}
    (ht : ((h.setOwn i o).own j).ticket = some t) : (h.own j).ticket = some t := by
  have ht : (Function.update h.own i o j).ticket = some t := ht
  by_cases hj : j = i
  · subst hj
    rw [Function.update_self] at ht
    exact ho t ht
  · rwa [Function.update_of_ne hj] at ht

/-- An operation that changes only what the history keeps of the thread itself. -/
theorem keeps_of_own {o : Own T} (hk : Inv p k)
    (ho : ∀ t, o.ticket = some t → (k.2.own i).ticket = some t)
    (hl : l = (k.1, k.2.setOwn i o)) : Inv p l ∧ ∀ j, j ≠ i → Rely p j k l := by
  subst hl
  refine ⟨{ hk with
    ticket := fun j t ht => hk.ticket j t (ticket_of_setOwn ho ht)
    unique := fun j j' t ht ht' => hk.unique j j' t (ticket_of_setOwn ho ht) (ticket_of_setOwn ho ht')
    }, fun j hj => { Rely.refl p j k with own := Function.update_of_ne hj _ _ }⟩

/-- A number is committed by the thread that has reserved it, after it has written the slot. -/
theorem keeps_casCommit (hk : Inv p k) (hticket : (k.2.own i).ticket = some k.1.commit)
    (hslot : k.2.reserved[k.1.commit - 1]? = some (k.1.pool (k.1.commit % p)))
    (hl : l = ({ k.1 with commit := k.1.commit + 1 },
      k.2.setOwn i { k.2.own i with ticket := none })) :
    Inv p l ∧ ∀ j, j ≠ i → Rely p j k l := by
  subst hl
  have hlt := hk.lt
  have hnone : ∀ t, ({ k.2.own i with ticket := none } : Own T).ticket = some t →
      (k.2.own i).ticket = some t := fun t ht => by cases ht
  refine ⟨⟨hk.head, hk.tail, hk.bound, ?_, ?_, hk.room, fun j hj hj' => ?_, hk.fifo,
    fun j t ht => ?_, fun j j' t ht ht' => ?_⟩, fun j hj => ⟨?_, Nat.le_refl _, Nat.le_refl _, ?_,
    List.prefix_rfl, List.prefix_rfl, fun _ _ => rfl⟩⟩
  · exact hlt.trans (Nat.lt_succ_self _)
  · exact (hk.ticket i _ hticket).2
  · by_cases hcommit : j = k.1.commit
    · rw [hcommit]
      exact hslot
    · have hj' : j < k.1.commit + 1 := hj'
      exact hk.slots j hj (by omega)
  · have hold := ticket_of_setOwn hnone ht
    have hne : t ≠ k.1.commit := by
      rintro rfl
      obtain rfl := hk.unique j i _ hold hticket
      have ht : (Function.update k.2.own j _ j).ticket = some k.1.commit := ht
      rw [Function.update_self] at ht
      cases ht
    have hle := (hk.ticket j t hold).1
    exact ⟨Nat.succ_le_of_lt (Nat.lt_of_le_of_ne hle hne.symm), (hk.ticket j t hold).2⟩
  · exact hk.unique j j' t (ticket_of_setOwn hnone ht) (ticket_of_setOwn hnone ht')
  · exact Function.update_of_ne hj _ _
  · exact Nat.le_succ _

/-- What is claimed is the element after the ones that were. -/
theorem keeps_casHead {e : T} (hk : Inv p k) (hlt : k.1.head + 1 < k.1.commit)
    (he : k.2.reserved[k.1.head]? = some e)
    (hl : l = ({ k.1 with head := k.1.head + 1 },
      { k.2.setOwn i { k.2.own i with claimed := some k.2.dequeued.length } with
        dequeued := k.2.dequeued ++ [e] })) :
    Inv p l ∧ ∀ j, j ≠ i → Rely p j k l := by
  subst hl
  have hhead := hk.head
  have hroom := hk.room
  have hsame : ∀ t, ({ k.2.own i with claimed := some k.2.dequeued.length } : Own T).ticket =
      some t → (k.2.own i).ticket = some t := fun _ ht => ht
  refine ⟨⟨?_, hk.tail, hk.bound, hlt, hk.le, ?_, fun j hj hj' => ?_, ?_,
    fun j t ht => hk.ticket j t (ticket_of_setOwn hsame ht),
    fun j j' t ht ht' => hk.unique j j' t (ticket_of_setOwn hsame ht) (ticket_of_setOwn hsame ht')⟩,
    fun j hj => ⟨?_, Nat.le_succ _, Nat.le_refl _, Nat.le_refl _, List.prefix_rfl,
    List.prefix_append _ _, fun _ _ => rfl⟩⟩
  · simp [hhead]
  · show k.1.tail ≤ k.1.head + 1 + _
    omega
  · have hj : k.1.head + 1 < j := hj
    exact hk.slots j (by omega) hj'
  · show k.2.dequeued ++ [e] <+: k.2.reserved
    rw [hhead] at he
    exact Ring.concat_prefix hk.fifo he
  · exact Function.update_of_ne hj _ _

omit [DecidableEq ι] in
/-- A producer writes the slot of its number, which is nobody else's and not committed. -/
theorem keeps_write {t : Nat} {e : T} (hk : Inv p k) (hticket : (k.2.own i).ticket = some t)
    (hl : l = ({ k.1 with pool := Function.update k.1.pool (t % p) e }, k.2)) :
    Inv p l ∧ ∀ j, j ≠ i → Rely p j k l := by
  subst hl
  obtain ⟨hcommit, htail⟩ := hk.ticket i t hticket
  have hlt := hk.lt
  have hle := hk.le
  refine ⟨{ hk with slots := fun j hj hj' => ?_ }, fun j hj => { Rely.refl p j k with
    slot := fun s hs => ?_ }⟩
  · have hj : k.1.head < j := hj
    have hj' : j < k.1.commit := hj'
    have hne : j % p ≠ t % p := slot_ne hk hj (by omega) (by omega) htail (by omega)
    show _ = some (Function.update k.1.pool (t % p) e (j % p))
    rw [Function.update_of_ne hne]
    exact hk.slots j hj hj'
  · obtain ⟨hcommit', htail'⟩ := hk.ticket j s hs
    have hst : s ≠ t := by
      rintro rfl
      exact hj (hk.unique j i s hs hticket)
    exact Function.update_of_ne (slot_ne hk (by omega) htail' (by omega) htail hst) _ _

end Keeps

theorem keeps {p : Nat} {C : Locals → Op T → Shared ι T → Prop} {i : ι} {r : Locals} {o : Op T}
    {x : Bool} {k : Shared ι T} (hk : Inv p k) (hpre : Pre p i r o k) (hcond : Cond C i r o x k) :
    Inv p (noted i o x k).2 ∧ ∀ j, j ≠ i → Rely p j k (noted i o x k).2 := by
  have hrefl : Inv p k ∧ ∀ j, j ≠ i → Rely p j k k := ⟨hk, fun j _ => Rely.refl p j k⟩
  cases o with
  | loadHead => exact hrefl
  | loadTail => exact hrefl
  | loadCommit => exact hrefl
  | casHead old new =>
      obtain ⟨_, rfl, hhead⟩ := hpre
      rcases casHead_cases i old (plusOne old) x k with ⟨rfl, h⟩ | h
      · obtain ⟨hlt, e, hcopy, he⟩ := hhead rfl
        have hbound : k.1.head + 1 < 2 ^ 64 := hlt.trans (hk.le.trans_lt hk.bound)
        refine keeps_casHead hk hlt he ?_
        rw [h, hcopy, plusOne_of_lt hbound]
        rfl
      · rw [h]
        exact hrefl
  | casTail old new =>
      obtain ⟨hticket, _, helement, rfl, htail⟩ := hpre
      obtain ⟨e, helement⟩ := Option.isSome_iff_exists.mp helement
      rcases casTail_cases i old (plusOne old) x k with ⟨rfl, h⟩ | h
      · have hbound : k.1.tail + 1 < 2 ^ 64 := by
          have hcond := hcond.1
          rw [h, helement] at hcond
          rw [hk.tail]
          simpa using hcond
        refine keeps_casTail hk hticket helement (htail rfl hbound) hbound ?_
        rw [h, helement, plusOne_of_lt hbound]
        rfl
      · rw [h]
        exact hrefl
  | casCommit old new =>
      obtain ⟨hticket, rfl, hslot⟩ := hpre
      rcases casCommit_cases i old (plusOne old) x k with ⟨rfl, h⟩ | h
      · have hlt := (hk.ticket i _ hticket).2
        refine keeps_casCommit hk hticket hslot ?_
        rw [h, plusOne_of_lt (lt_of_le_of_lt (Nat.succ_le_of_lt hlt) hk.bound)]
      · rw [h]
        exact hrefl
  | write idx e =>
      obtain ⟨t, hticket, rfl⟩ := hpre
      exact keeps_write hk hticket rfl
  | read idx =>
      exact keeps_of_own (o := { k.2.own i with copy := some (k.1.pool idx) }) hk (fun _ h => h) rfl
  | notifyOne => exact hrefl

variable (ι T) in
/-- A queue without slots dies of a division by zero. -/
def protocol (p : Nat) (C : Locals → Op T → Shared ι T → Prop) :
    Protocol (sig T) ι Locals (Shared ι T) Bool noted where
  Inv := Inv p
  Rely := Rely p
  Cond := Cond C
  Pre := Pre p
  Crash := True
  Hang _ _ := True
  refl := Rely.refl p
  trans := Rely.trans
  hang_stable h _ := h
  keeps hk hpre hcond := keeps hk hpre hcond

/-! ### What the functions keep to -/

section Functions

variable {p : Nat} {C : Locals → Op T → Shared ι T → Prop} {i : ι} {r : Locals} {o : Own T}
  {k : Shared ι T}

theorem loadHead_safe {Q : Locals → Nat → Shared ι T → Prop}
    (hQ : ∀ l, Rely p i k l → Inv p l → C r .loadHead l → Q r l.1.head l) :
    (protocol ι T p C).Safe i Q (Op.loadHead.get r) k :=
  Protocol.safe_op (fun _ _ _ => trivial) fun _ l hkl hl hcond => hQ l hkl hl hcond.2

theorem loadTail_safe {Q : Locals → Nat → Shared ι T → Prop}
    (hQ : ∀ l, Rely p i k l → Inv p l → Q r l.1.tail l) :
    (protocol ι T p C).Safe i Q (Op.loadTail.get r) k :=
  Protocol.safe_op (fun _ _ _ => trivial) fun _ l hkl hl _ => hQ l hkl hl

theorem loadCommit_safe {Q : Locals → Nat → Shared ι T → Prop}
    (hQ : ∀ l, Rely p i k l → Inv p l → Q r l.1.commit l) :
    (protocol ι T p C).Safe i Q (Op.loadCommit.get r) k :=
  Protocol.safe_op (fun _ _ _ => trivial) fun _ l hkl hl _ => hQ l hkl hl

theorem read_safe {idx : Nat} {Q : Locals → T → Shared ι T → Prop} (hown : k.2.own i = o)
    (hQ : ∀ l l', Rely p i k l → Inv p l → l'.1 = l.1 → l'.2.reserved = l.2.reserved →
      l'.2.own i = { o with copy := some (l.1.pool idx) } → Q r (l.1.pool idx) l') :
    (protocol ι T p C).Safe i Q ((Op.read idx).get r) k := by
  refine Protocol.safe_op (fun _ _ _ => trivial) fun _ l hkl hl _ => hQ l _ hkl hl rfl rfl ?_
  show Function.update l.2.own i { l.2.own i with copy := some (l.1.pool idx) } i = _
  rw [Function.update_self, hkl.own, hown]

/-- Where the slots of the next number and of a head differ, the next number has room
behind the head. -/
theorem room_of_ne {old head a b : Nat} (ha : getIndex p (old + 1) = some a)
    (hb : getIndex p head = some b) (hab : a ≠ b) (hroom : old ≤ head + max 1 (p - 1)) :
    old + 1 ≤ head + (p - 1) := by
  rw [getIndex_eq ha, getIndex_eq hb] at hab
  rcases Nat.lt_trichotomy p 1 with hp | rfl | hp
  · obtain rfl : p = 0 := by omega
    cases ha
  · exact absurd (by rw [Nat.mod_one, Nat.mod_one]) hab
  · have hne : old + 1 ≠ head + p := fun h => hab (Ring.slot_eq h)
    omega

/-- To an `Enqueue` that has seen the tail `old`, the queue looks full. -/
def LooksFull (p old : Nat) (k : Shared ι T) : Prop :=
  getIndex p (plusOne old) = getIndex p k.1.head

theorem reserve_safe {left old : Nat} {e : T} {Q : Locals → Option Nat → Shared ι T → Prop}
    (hown : k.2.own i = o) (hticket : o.ticket = none) (hfree : o.reserved = none)
    (helement : o.element = some e) (hold : old ≤ k.1.tail)
    (hfull : ∀ x old l, l.2.own i = o → LooksFull p old l →
      C { oldTail := some old } .loadHead l → Q x none l)
    (hreserved : ∀ x t l, l.2.own i = { o with ticket := some (t + 1), reserved := some t } →
      l.2.reserved[t]? = some e → Q x (some (t + 1)) l) :
    (protocol ι T p C).Safe i Q (reserve p left old r) k := by
  induction left generalizing old k r with
  | zero => trivial
  | succ left ih =>
      simp only [reserve, Protocol.safe_seq, Protocol.safe_modify, Protocol.safe_deref,
        Protocol.safe_ite, Protocol.safe_pure]
      refine ⟨fun a ha => loadHead_safe fun l hkl hl hcond => ?_, fun _ => trivial⟩
      have hown : l.2.own i = o := hkl.own.trans hown
      refine ⟨fun b hb => ⟨fun hab => ?_, fun hab => ?_⟩, fun _ => trivial⟩
      · exact hfull _ old l hown (ha.trans ((congrArg some hab).trans hb.symm)) hcond
      refine Protocol.safe_op (fun m hlm _ => ⟨?_, ?_, ?_, rfl, fun htail hlt => ?_⟩)
        fun x m hlm hm _ => ?_
      · rw [hlm.own, hown, hticket]
      · rw [hlm.own, hown, hfree]
      · rw [hlm.own, hown, helement]
        rfl
      · -- the tail has been the same since the head was loaded
        have hle := hold.trans hkl.tail
        have hlm' := hlm.tail
        have hhead := hlm.head
        have hroom := hl.room
        rw [plusOne_of_lt hlt] at ha
        have := room_of_ne ha hb hab (by omega)
        omega
      · have hown : m.2.own i = o := hlm.own.trans hown
        rcases casTail_cases i old (plusOne old) x m with ⟨htail, h⟩ | h
        · rw [h, hown, helement]
          refine ⟨fun _ => ?_, fun hne => absurd rfl hne⟩
          obtain rfl : m.2.reserved.length + 1 = old := hm.tail.symm.trans htail
          exact hreserved _ _ _ (Function.update_self ..) List.getElem?_concat_length
        · rw [h]
          exact ⟨fun heq => absurd heq Bool.false_ne_true, fun _ => ih hown (Nat.le_refl _)⟩

theorem publish_safe {left t : Nat} {Q : Locals → Unit → Shared ι T → Prop}
    (hown : k.2.own i = o) (hticket : o.ticket = some (t + 1))
    (hslot : k.2.reserved[t]? = some (k.1.pool ((t + 1) % p)))
    (hQ : ∀ l, l.2.own i = { o with ticket := none } → k.2.reserved <+: l.2.reserved →
      t + 1 < l.1.commit → Q r () l) :
    (protocol ι T p C).Safe i Q (publish left (t + 1) (plusOne (t + 1)) r) k := by
  induction left generalizing k with
  | zero => trivial
  | succ left ih =>
      simp only [publish, Protocol.safe_seq, Protocol.safe_ite, Protocol.safe_pure]
      have hstable : ∀ l, Rely p i k l → l.2.reserved[t]? = some (l.1.pool ((t + 1) % p)) := by
        intro l hkl
        rw [hkl.slot (t + 1) (by rw [hown, hticket])]
        exact Ring.getElem?_of_prefix hkl.reserved hslot
      refine Protocol.safe_op (fun l hkl _ => ⟨?_, rfl, hstable l hkl⟩) fun x l hkl hl _ => ?_
      · rw [hkl.own, hown, hticket]
      · have hown : l.2.own i = o := hkl.own.trans hown
        rcases casCommit_cases i (t + 1) (plusOne (t + 1)) x l with ⟨hcommit, h⟩ | h
        · have htail := (hl.ticket i (t + 1) (by rw [hown, hticket])).2
          have hplus : plusOne (t + 1) = t + 2 :=
            plusOne_of_lt (lt_of_le_of_lt (Nat.succ_le_of_lt htail) hl.bound)
          rw [h, hown, hplus]
          exact ⟨fun _ => hQ _ (Function.update_self ..) hkl.reserved (Nat.lt_succ_self _),
            fun hne => absurd rfl hne⟩
        · rw [h]
          refine ⟨fun heq => absurd heq Bool.false_ne_true, fun _ => ?_⟩
          exact ih hown (hstable l hkl) fun m hm hlm => hQ m hm (hkl.reserved.trans hlm)

theorem enqueue_safe {left : Nat} {e : T} {Q : Locals → Bool → Shared ι T → Prop}
    (hown : k.2.own i = o) (hticket : o.ticket = none) (hfree : o.reserved = none)
    (helement : o.element = some e)
    (hfull : ∀ x old l, l.2.own i = o → LooksFull p old l →
      C { oldTail := some old } .loadHead l → Q x false l)
    (hstored : ∀ x t l, l.2.own i = { o with reserved := some t } →
      l.2.reserved[t]? = some e → t + 1 < l.1.commit → Q x true l) :
    (protocol ι T p C).Safe i Q (enqueue p left e r) k := by
  simp only [enqueue, Protocol.safe_seq, Protocol.safe_modify, Protocol.safe_deref,
    Protocol.safe_ite, Protocol.safe_pure]
  refine loadTail_safe fun l hkl _ => ?_
  refine reserve_safe (hkl.own.trans hown) hticket hfree helement (Nat.le_refl _)
    (fun x old m hm hlooks hcond => ⟨fun _ => hfull _ old m hm hlooks hcond, fun h => absurd rfl h⟩)
    fun x t m hm he => ?_
  refine ⟨fun hnone => absurd hnone Bool.false_ne_true, fun _ => ⟨fun u hu => ?_, fun _ => trivial⟩⟩
  refine ⟨fun idx hidx => ?_, fun _ => trivial⟩
  obtain rfl := Option.some.inj hu
  obtain rfl := getIndex_eq hidx
  refine Protocol.safe_op (fun n hmn _ => ⟨t + 1, by rw [hmn.own, hm], rfl⟩) fun _ n hmn _ _ => ?_
  have hn : n.2.own i = { o with ticket := some (t + 1), reserved := some t } := hmn.own.trans hm
  have he : n.2.reserved[t]? = some e := Ring.getElem?_of_prefix hmn.reserved he
  refine publish_safe hn rfl ?_ fun q hq hnq hcommit => ?_
  · show n.2.reserved[t]? = some (Function.update n.1.pool ((t + 1) % p) e ((t + 1) % p))
    rw [Function.update_self, he]
  · refine Protocol.safe_op (fun _ _ _ => trivial) fun _ q' hqq' _ _ => ?_
    refine hstored _ t q' ?_ (Ring.getElem?_of_prefix (hnq.trans hqq'.reserved) he)
      (lt_of_lt_of_le hcommit hqq'.commit)
    rw [hqq'.own, hq, ← hticket]

theorem claim_safe {left old : Nat} {Q : Locals → Option T → Shared ι T → Prop}
    (hown : k.2.own i = o) (hticket : o.ticket = none) (hclaimed : o.claimed = none)
    (hold : old ≤ k.1.head)
    (hempty : ∀ o' l, l.2.own i = o' → o'.ticket = none → o'.claimed = none → Q r none l)
    (htaken : ∀ o' m e l, l.2.own i = o' → o'.ticket = none → o'.claimed = some m →
      l.2.dequeued[m]? = some e → Q r (some e) l) :
    (protocol ι T p C).Safe i Q (claim p left old r) k := by
  induction left generalizing old k o with
  | zero => trivial
  | succ left ih =>
      simp only [claim, Protocol.safe_seq, Protocol.safe_deref, Protocol.safe_ite,
        Protocol.safe_pure]
      refine loadCommit_safe fun l hkl hl => ?_
      have hown : l.2.own i = o := hkl.own.trans hown
      refine ⟨fun _ => hempty o l hown hticket hclaimed, fun hne => ⟨fun idx hidx => ?_,
        fun _ => trivial⟩⟩
      obtain rfl := getIndex_eq hidx
      -- where the head is still the same, there is an element after it
      have hnext : l.1.head = old → plusOne old = old + 1 ∧ old + 1 < l.1.commit := by
        intro hhead
        have hlt := hl.lt
        have hle := hl.le
        have hbound := hl.bound
        have hplus : plusOne old = old + 1 := plusOne_of_lt (by omega)
        have hne : plusOne old ≠ l.1.commit := hne
        exact ⟨hplus, by omega⟩
      refine read_safe hown fun m m' hlm hm hmem hreserved hown => ?_
      have hcopy : m'.1.head = old → old + 1 < m'.1.commit ∧
          m'.2.reserved[old]? = some (m.1.pool (plusOne old % p)) := by
        intro hhead
        rw [hmem] at hhead ⊢
        rw [hreserved]
        have hle := hold.trans hkl.head
        have hle' := hlm.head
        obtain ⟨hplus, hlt⟩ := hnext (by omega)
        have hlt := lt_of_lt_of_le hlt hlm.commit
        rw [hplus]
        exact ⟨hlt, hm.slots (old + 1) (by omega) hlt⟩
      refine Protocol.safe_op (fun n hmn _ => ⟨?_, rfl, fun hhead => ?_⟩) fun x n hmn hn _ => ?_
      · rw [hmn.own, hown]
        exact hclaimed
      · have hle := hmn.head
        have hle' := (hold.trans hkl.head).trans hlm.head
        rw [← hmem] at hle'
        obtain ⟨hlt, he⟩ := hcopy (by omega)
        refine ⟨lt_of_lt_of_le hlt hmn.commit, _, ?_, Ring.getElem?_of_prefix hmn.reserved he⟩
        rw [hmn.own, hown]
      · have hown := hmn.own.trans hown
        rcases casHead_cases i old (plusOne old) x n with ⟨hhead, h⟩ | h
        · rw [h, hown]
          refine ⟨fun _ => ?_, fun hne => absurd rfl hne⟩
          exact htaken _ _ _ _ (Function.update_self ..) hticket rfl List.getElem?_concat_length
        · rw [h]
          refine ⟨fun heq => absurd heq Bool.false_ne_true, fun _ => ?_⟩
          exact ih hown hticket hclaimed (Nat.le_refl _)

theorem dequeue_safe {left : Nat} {Q : Locals → Option T → Shared ι T → Prop}
    (hown : k.2.own i = o) (hticket : o.ticket = none) (hclaimed : o.claimed = none)
    (hempty : ∀ o' l, l.2.own i = o' → o'.ticket = none → o'.claimed = none → Q r none l)
    (htaken : ∀ o' m e l, l.2.own i = o' → o'.ticket = none → o'.claimed = some m →
      l.2.dequeued[m]? = some e → Q r (some e) l) :
    (protocol ι T p C).Safe i Q (dequeue p left r) k := by
  simp only [dequeue, Protocol.safe_seq]
  refine loadHead_safe fun l hkl _ _ => ?_
  exact claim_safe (hkl.own.trans hown) hticket hclaimed (Nat.le_refl _) hempty htaken

end Functions

/-! ### Every run -/

/-- What a thread has returned is what the history says of its call. -/
def Returned (o : Own T) (h : History ι T) : Answer T → Prop
  | .initialised => True
  | .enqueued false => o.reserved = none
  | .enqueued true =>
      ∃ n e, o.reserved = some n ∧ o.element = some e ∧ h.reserved[n]? = some e
  | .dequeued none => o.claimed = none
  | .dequeued (some e) => ∃ n, o.claimed = some n ∧ h.dequeued[n]? = some e

def Rest (i : ι) (_ : Locals) (a : Answer T) (k : Shared ι T) : Prop :=
  ∃ o, k.2.own i = o ∧ o.ticket = none ∧ Returned o k.2 a

omit [DecidableEq ι] in
theorem rest_of_rely {p : Nat} {i : ι} {r : Locals} {a : Answer T} {k l : Shared ι T}
    (h : Rest i r a k) (hkl : Rely p i k l) : Rest i r a l := by
  obtain ⟨o, hown, hticket, h⟩ := h
  refine ⟨o, hkl.own.trans hown, hticket, ?_⟩
  cases a with
  | initialised => trivial
  | enqueued result =>
      cases result with
      | false => exact h
      | true =>
          obtain ⟨n, e, hn, he, hplace⟩ := h
          exact ⟨n, e, hn, he, Ring.getElem?_of_prefix hkl.reserved hplace⟩
  | dequeued element =>
      cases element with
      | none => exact h
      | some e =>
          obtain ⟨n, hn, hplace⟩ := h
          exact ⟨n, hn, Ring.getElem?_of_prefix hkl.dequeued hplace⟩

theorem keeps_enter {p : Nat} {i : ι} {call : Call T} {k : Shared ι T} (hk : Inv p k) :
    Inv p (enter i call k) ∧ ∀ j, j ≠ i → Rely p j k (enter i call k) := by
  cases call with
  | enqueue left e => exact keeps_of_own hk (fun t ht => by cases ht) rfl
  | dequeue left => exact keeps_of_own hk (fun t ht => by cases ht) rfl

theorem body_safe {p : Nat} {C : Locals → Op T → Shared ι T → Prop} {i : ι} {call : Call T}
    {r : Locals} {k : Shared ι T} :
    (protocol ι T p C).Safe i (Rest i) (call.body p r) (enter i call k) := by
  cases call with
  | enqueue left e =>
      simp only [Call.body, Protocol.safe_seq, Protocol.safe_pure]
      refine enqueue_safe (Function.update_self ..) rfl rfl rfl (fun x old l hl _ _ => ?_)
        fun x n l hl he _ => ?_
      · exact ⟨_, hl, rfl, rfl⟩
      · exact ⟨_, hl, rfl, n, e, rfl, rfl, he⟩
  | dequeue left =>
      simp only [Call.body, Protocol.safe_seq, Protocol.safe_pure]
      refine dequeue_safe (Function.update_self ..) rfl rfl (fun o l hl hticket hclaimed => ?_)
        fun o n e l hl hticket hclaimed he => ?_
      · exact ⟨o, hl, hticket, hclaimed⟩
      · exact ⟨o, hl, hticket, n, hclaimed, he⟩

/-- Numbers are only reserved. -/
theorem reserved_le_step (size : BitVec 64) (cfg : State ι T) (e : Step ι T) :
    cfg.shared.2.reserved.length ≤ (step size cfg e).shared.2.reserved.length := by
  have hnoted : ∀ i (o : Op T) x (k : Shared ι T),
      k.2.reserved.length ≤ (noted i o x k).2.2.reserved.length := by
    intro i o x k
    cases o with
    | casTail old new =>
        rcases casTail_cases i old new x k with ⟨_, h⟩ | h
        · simp [h]
        · rw [h]
    | casHead old new =>
        rcases casHead_cases i old new x k with ⟨_, h⟩ | h
        · simp [h, History.setOwn]
        · rw [h]
    | casCommit old new =>
        rcases casCommit_cases i old new x k with ⟨_, h⟩ | h
        · simp [h, History.setOwn]
        · rw [h]
    | _ => exact Nat.le_refl _
  cases e with
  | call i c =>
      cases hi : cfg.threads i with
      | done r a => cases c <;> simp [step, Thread.step, hi, enter, History.setOwn]
      | _ => simp [step, Thread.step, hi]
  | act i x =>
      cases hi : cfg.threads i with
      | call r o k => simpa [step, Thread.step, hi] using hnoted i o x cfg.shared
      | _ => simp [step, Thread.step, hi]

/-- The queue is first in, first out: what the claims have returned, in their order, is
where the reserved elements begin; no more than `size` elements are stored; and what a
call has returned is what it has reserved or claimed. -/
structure Sequence (size : BitVec 64) (t : State ι T) : Prop where
  fifo : t.shared.2.dequeued <+: t.shared.2.reserved
  stored : t.shared.1.tail - t.shared.1.head - 1 ≤ size.toNat
  lt : t.shared.1.head < t.shared.1.commit
  le : t.shared.1.commit ≤ t.shared.1.tail
  returned : ∀ i r a, t.threads i = .done r a → Returned (t.shared.2.own i) t.shared.2 a

theorem holds_start (p : Nat) (C : Locals → Op T → Shared ι T → Prop) (fresh : T) :
    (protocol ι T p C).Holds Rest (start ι fresh) where
  inv :=
    { head := rfl
      tail := rfl
      bound := show 1 < 2 ^ 64 by decide
      lt := Nat.zero_lt_one
      le := Nat.le_refl _
      room := show 1 ≤ 0 + max 1 (p - 1) by omega
      slots := fun j hj hj' => absurd hj (Nat.not_lt.mpr (Nat.le_of_lt_succ hj'))
      fifo := List.prefix_rfl
      ticket := nofun
      unique := nofun }
  safe _ := ⟨{}, rfl, rfl, trivial⟩

theorem holds_of_lt {size : BitVec 64} {fresh : T} {es : List (Step ι T)}
    (hes : (Run.exec (step size) (start ι fresh) es).shared.2.reserved.length < 2 ^ 64 - 1) :
    ∀ t ∈ Run.states (step size) (start ι fresh) es,
      (protocol ι T (poolSize size) fun _ _ _ => True).Holds Rest t := by
  have hmeets : Run.Along (step size)
      ((protocol ι T (poolSize size) fun _ _ _ => True).Meets fun _ _ _ _ => True)
      (start ι fresh) es := by
    refine Run.along_mono ?_ (Run.along_of_lt (reserved_le_step size) hes)
    intro cfg e h
    cases e with
    | call i c => exact fun _ _ _ => trivial
    | act i x =>
        intro r o k hi
        have h : (step size cfg (.act i x)).shared.2.reserved.length < 2 ^ 64 - 1 := h
        simp only [step, Thread.step, hi] at h
        exact ⟨Nat.add_lt_of_lt_sub h, trivial⟩
  refine Protocol.sound ?_ ?_ ?_ (holds_start (poolSize size) _ fresh) hmeets
  · exact fun i r a k l h hkl _ => rest_of_rely h hkl
  · exact fun i call r a k hk _ _ => keeps_enter hk
  · exact fun i call r a k _ _ _ => body_safe

theorem stored_le {size : BitVec 64} {head tail : Nat}
    (h : tail ≤ head + max 1 (poolSize size - 1)) : tail - head - 1 ≤ size.toNat := by
  have hsize := size.isLt
  have hpool : poolSize size ≤ size.toNat + 2 := by
    rw [poolSize, BitVec.toNat_add]
    exact Nat.mod_le _ _
  omega

theorem sequence {size : BitVec 64} {fresh : T} {es : List (Step ι T)}
    (hes : (Run.exec (step size) (start ι fresh) es).shared.2.reserved.length < 2 ^ 64 - 1) :
    ∀ t ∈ Run.states (step size) (start ι fresh) es, Sequence size t := by
  intro t ht
  have hholds := holds_of_lt hes t ht
  refine ⟨hholds.inv.fifo, stored_le hholds.inv.room, hholds.inv.lt, hholds.inv.le,
    fun i r a hi => ?_⟩
  obtain ⟨o, hown, _, hreturned⟩ := hholds.rest hi
  rw [hown]
  exact hreturned

/-- The second producer waits for the first one to commit. -/
def overtaking : List (Step Nat Nat) :=
  [.call 0 (.enqueue 2 10), .call 1 (.enqueue 2 20), .act 0 false, .act 1 false, .act 0 false,
    .act 1 false, .act 0 false, .act 1 false, .act 1 false, .act 1 false, .act 1 false,
    .act 1 false, .act 0 false, .act 0 false, .act 1 false, .act 0 false, .act 1 false,
    .call 2 (.dequeue 1), .act 2 false, .act 2 false, .act 2 false, .act 2 false]

theorem sequence_overtaking : Sequence 2 (Run.exec (step 2) (start Nat 0) overtaking) := by
  have hreserved : (Run.exec (step 2) (start Nat 0) overtaking).shared.2.reserved = [10, 20] := rfl
  refine sequence ?_ _ (Run.exec_mem_states _ _ _)
  rw [hreserved]
  decide

/-! ### The last number -/

/-- What the only thread has enqueued it has dequeued. -/
structure Quiet (n : Nat) (k : Shared Unit Unit) : Prop where
  head : k.1.head = n
  tail : k.1.tail = n + 1
  commit : k.1.commit = n + 1
  reserved : k.2.reserved.length = n

/-- An element has been enqueued after that. -/
structure Stored (n : Nat) (k : Shared Unit Unit) : Prop where
  head : k.1.head = n
  tail : k.1.tail = plusOne (n + 1)
  commit : k.1.commit = plusOne (n + 1)
  reserved : k.2.reserved.length = n + 1

theorem getIndex_three (n : Nat) : getIndex (poolSize 1) n = some (n % 3) := by
  have hp : poolSize 1 = 3 := rfl
  rw [hp, getIndex, if_neg (by decide), Nat.mod_eq_sub, Nat.mul_comm]

/-- An `Enqueue` alone, in an empty queue for one element. -/
theorem enqueue_ends {n : Nat} {r : Locals} {k : Shared Unit Unit} (hk : Quiet n k)
    (helement : (k.2.own ()).element = some ()) (hne : plusOne (n + 1) % 3 ≠ n % 3) :
    Prog.Ends (alone ()) (fun _ _ s => Stored n s) (Call.body (poolSize 1) (.enqueue 1 ()) r) k := by
  obtain ⟨hhead, htail, hcommit, hreserved⟩ := hk
  simp only [Call.body, enqueue, reserve, publish, Code.ends_seq, Code.ends_modify, Code.ends_deref, Code.ends_ite,
    Code.ends_pure, ends_loadHead, ends_loadTail, ends_casTail, ends_casCommit, ends_write,
    ends_notifyOne, getIndex_three]
  simp [alone, noted, noting, exec, exchange, note, History.setOwn, hhead, htail, hcommit,
    hreserved, hne, helement]
  exact ⟨rfl, rfl, rfl, by simp [hreserved]⟩

theorem dequeue_ends {n : Nat} {r : Locals} {k : Shared Unit Unit} (hk : Stored n k) (hlt : n + 2 < 2 ^ 64) :
    Prog.Ends (alone ()) (fun _ _ s => Quiet (n + 1) s) (Call.body (poolSize 1) (.dequeue 1) r) k := by
  obtain ⟨hhead, htail, hcommit, hreserved⟩ := hk
  have hplus : plusOne (n + 1) = n + 2 := plusOne_of_lt hlt
  have hplus' : plusOne n = n + 1 := plusOne_of_lt (by omega)
  simp only [Call.body, dequeue, claim, Code.ends_seq, Code.ends_deref, Code.ends_ite, Code.ends_pure,
    ends_loadHead, ends_loadCommit, ends_casHead, ends_read, getIndex_three]
  simp [alone, noted, noting, exec, exchange, note, History.setOwn, hhead, htail, hcommit,
    hplus, hplus']
  exact ⟨rfl, rfl, rfl, hreserved⟩

/-- The only thread makes a call. -/
theorem exists_call {t : State Unit Unit} {r : Locals} {a : Answer Unit} {call : Call Unit}
    {Q : Shared Unit Unit → Prop} (ha : t.threads () = .done r a)
    (h : Prog.Ends (alone ()) (fun _ _ s => Q s) (call.body (poolSize 1) r) (enter () call t.shared)) :
    ∃ es r b, (Run.exec (step 1) t es).threads () = .done r b ∧ Q (Run.exec (step 1) t es).shared := by
  obtain ⟨es, x, b, k, hrun, hQ⟩ := call_alone ha h
  have hrun : Run.exec (step 1) t es = _ := hrun
  refine ⟨es, x, b, ?_, ?_⟩
  · rw [hrun]
    exact Function.update_self () (Prog.done x b) t.threads
  · rw [hrun]
    exact hQ

theorem exists_stored {n : Nat} {t : State Unit Unit} {r : Locals} {a : Answer Unit}
    (ha : t.threads () = .done r a) (hquiet : Quiet n t.shared)
    (hne : plusOne (n + 1) % 3 ≠ n % 3) :
    ∃ es r b, (Run.exec (step 1) t es).threads () = .done r b ∧
      Stored n (Run.exec (step 1) t es).shared := by
  have henter : Quiet n (enter () (.enqueue 1 ()) t.shared) :=
    ⟨hquiet.head, hquiet.tail, hquiet.commit, hquiet.reserved⟩
  exact exists_call ha (enqueue_ends henter rfl hne)

theorem exists_quiet {n : Nat} (hn : n + 1 < 2 ^ 64) : ∃ es : List (Step Unit Unit), ∃ r a,
    (Run.exec (step 1) (start Unit ()) es).threads () = .done r a ∧
      Quiet n (Run.exec (step 1) (start Unit ()) es).shared := by
  induction n with
  | zero => exact ⟨[], {}, .initialised, rfl, rfl, rfl, rfl, rfl⟩
  | succ n ih =>
      obtain ⟨es, r, a, ha, hquiet⟩ := ih (by omega)
      have hne : plusOne (n + 1) % 3 ≠ n % 3 := by
        rw [plusOne_of_lt hn]
        omega
      obtain ⟨es', r', b, hb, hstored⟩ := exists_stored ha hquiet hne
      have henter : Stored n (enter () (.dequeue 1)
          (Run.exec (step 1) (Run.exec (step 1) (start Unit ()) es) es').shared) :=
        ⟨hstored.head, hstored.tail, hstored.commit, hstored.reserved⟩
      obtain ⟨es'', r'', c, hc, hquiet⟩ := exists_call hb (dequeue_ends henter hn)
      refine ⟨es ++ es' ++ es'', r'', c, ?_, ?_⟩
      · rw [Run.exec_append, Run.exec_append]
        exact hc
      · rw [Run.exec_append, Run.exec_append]
        exact hquiet

/-- With the number 2^64 − 1, `tail_` and `commit_` wrap around: they are no longer
after the head. -/
theorem not_sequence_of_last_number :
    ¬ ∀ (size : BitVec 64) (es : List (Step Unit Unit)), 1 ≤ size.toNat →
      (Run.exec (step size) (start Unit ()) es).shared.2.reserved.length < 2 ^ 64 →
        ∀ t ∈ Run.states (step size) (start Unit ()) es, Sequence size t := by
  intro h
  obtain ⟨n, hn⟩ : ∃ n, n + 2 = 2 ^ 64 := ⟨2 ^ 64 - 2, by decide⟩
  have hplus : plusOne (n + 1) = 0 := by
    rw [plusOne, hn, Nat.mod_self]
  obtain ⟨es, r, a, ha, hquiet⟩ := exists_quiet (n := n) (by omega)
  obtain ⟨es', r', b, hb, hstored⟩ := exists_stored ha hquiet (by rw [hplus]; omega)
  rw [← Run.exec_append] at hstored
  have hlt := (h 1 (es ++ es') (by decide) (by rw [hstored.reserved]; omega) _
    (Run.exec_mem_states _ _ _)).lt
  rw [hstored.commit, hplus] at hlt
  exact Nat.not_lt_zero _ hlt

end Queue
end Base
end Cmw
