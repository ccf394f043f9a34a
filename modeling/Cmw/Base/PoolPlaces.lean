import Cmw.Base.ConcurrentObjectPool
import Mathlib.Data.List.Perm.Basic
import Mathlib.Data.List.Nodup
import Mathlib.Order.Nat

/-!
# Where the nodes of the pool are

Any number of `GetObject` and `ReleaseObject`, in any order of their steps, as long as
the count of the head does not wrap around.  A thread that swaps the head has read the
next node of the top while the head was the same: no update has come in between, as the
count is the number of updates, and only nodes in transit are written.
-/

namespace Cmw
namespace Base
namespace Pool

open Library
open Library.Thread

variable {ι : Type} [DecidableEq ι]

/-- The nodes of the arena, by where they are. -/
def History.nodes (h : History ι) : List Nat :=
  h.free ++ h.held.map Prod.snd ++ h.transit.map Prod.snd

structure Inv (capacity : Nat) (k : Shared ι) : Prop where
  count : k.1.freeHead.count = k.2.updates
  bound : k.2.updates < 2 ^ 64
  linked : Linked k.1.next k.1.freeHead.node k.2.free
  places : k.2.nodes.Perm (List.range capacity)
  transit : ∀ i n, (i, n) ∈ k.2.transit ↔ (k.2.own i).releasing = some n

/-- What the others leave to thread `i`: the stack, as long as its head is not updated,
and the node that it releases. -/
structure Rely (i : ι) (k l : Shared ι) : Prop where
  own : l.2.own i = k.2.own i
  updates : k.2.updates ≤ l.2.updates
  same : l.2.updates = k.2.updates → l.1.freeHead = k.1.freeHead ∧ l.2.free = k.2.free ∧
    ∀ n ∈ k.2.free, l.1.next n = k.1.next n
  next : ∀ n, (k.2.own i).releasing = some n → l.1.next n = k.1.next n

omit [DecidableEq ι] in
theorem Rely.refl (i : ι) (k : Shared ι) : Rely i k k :=
  ⟨rfl, le_refl _, fun _ => ⟨rfl, rfl, fun _ _ => rfl⟩, fun _ _ => rfl⟩

omit [DecidableEq ι] in
theorem Rely.trans {i : ι} {k l m : Shared ι} (h : Rely i k l) (h' : Rely i l m) : Rely i k m := by
  refine ⟨h'.own.trans h.own, h.updates.trans h'.updates, fun hsame => ?_, fun n hn => ?_⟩
  · have hle := h.updates
    have hle' := h'.updates
    obtain ⟨hhead, hfree, hnext⟩ := h.same (by omega)
    obtain ⟨hhead', hfree', hnext'⟩ := h'.same (by omega)
    refine ⟨hhead'.trans hhead, hfree'.trans hfree, fun n hn => ?_⟩
    rw [hnext' n (by rwa [hfree]), hnext n hn]
  · rw [h'.next n (by rwa [h.own]), h.next n hn]

/-- The count of the head does not wrap around. -/
def Cond (i : ι) (_ : Unit) (o : Op) (x : Bool) (k : Shared ι) : Prop :=
  (noted i o x k).2.2.updates < 2 ^ 64

/-- An exchange puts back the node that is released, or takes the top; the next node of
the top is what has been read, as long as the head is the same. -/
def Pre (i : ι) (_ : Unit) (o : Op) (k : Shared ι) : Prop :=
  match o with
  | .writeNext node _ => (k.2.own i).releasing = some node
  | .casHead old new => new.count = plusOne old.count ∧
      (((k.2.own i).releasing = new.node ∧ ∃ n, new.node = some n ∧ k.1.next n = old.node) ∨
        (k.2.own i).releasing = none ∧
          ∃ n, old.node = some n ∧ (k.1.freeHead = old → k.1.next n = new.node))
  | _ => True

/-! ### What the operations keep -/

section Keeps

variable {capacity : Nat} {i : ι} {k l : Shared ι}

omit [DecidableEq ι] in
theorem nodup (hk : Inv capacity k) : k.2.nodes.Nodup :=
  hk.places.nodup_iff.mpr List.nodup_range

omit [DecidableEq ι] in
theorem not_mem_free (hk : Inv capacity k) {n : Nat} (hn : (i, n) ∈ k.2.transit) :
    n ∉ k.2.free := by
  have hdisjoint := List.nodup_append.mp (nodup hk)
  intro hfree
  exact hdisjoint.2.2 n (List.mem_append_left _ hfree) n (List.mem_map_of_mem hn) rfl

omit [DecidableEq ι] in
/-- No two threads release one node. -/
theorem releasing_ne (hk : Inv capacity k) {j : ι} {m n : Nat}
    (hm : (k.2.own i).releasing = some m) (hn : (k.2.own j).releasing = some n) (hj : j ≠ i) :
    n ≠ m := by
  rintro rfl
  have hnodup := (List.nodup_append.mp (nodup hk)).2.1
  have heq := List.inj_on_of_nodup_map hnodup ((hk.transit i n).mpr hm) ((hk.transit j n).mpr hn) rfl
  exact hj (Prod.ext_iff.mp heq).1.symm

/-- An operation that changes only what the history keeps of the thread itself. -/
theorem keeps_of_own {o : Own} (hk : Inv capacity k) (ho : o.releasing = (k.2.own i).releasing)
    (hl : l = (k.1, k.2.setOwn i o)) : Inv capacity l ∧ ∀ j, j ≠ i → Rely j k l := by
  subst hl
  refine ⟨{ hk with transit := fun j n => ?_ }, fun j hj =>
    { Rely.refl j k with own := Function.update_of_ne hj _ _ }⟩
  show (j, n) ∈ k.2.transit ↔ (Function.update k.2.own i o j).releasing = some n
  by_cases hj : j = i
  · subst hj
    rw [Function.update_self, ho]
    exact hk.transit j n
  · rw [Function.update_of_ne hj]
    exact hk.transit j n

theorem keeps_look (hk : Inv capacity k) :
    Inv capacity (k.1, k.2.look i) ∧ ∀ j, j ≠ i → Rely j k (k.1, k.2.look i) :=
  keeps_of_own (o := { k.2.own i with sawEmpty := (k.2.own i).sawEmpty || k.2.free.isEmpty })
    hk rfl rfl

omit [DecidableEq ι] in
/-- Only a node in transit is written. -/
theorem keeps_writeNext {n : Nat} {next : Option Nat} (hk : Inv capacity k)
    (hn : (k.2.own i).releasing = some n)
    (hl : l = ({ k.1 with next := Function.update k.1.next n next }, k.2)) :
    Inv capacity l ∧ ∀ j, j ≠ i → Rely j k l := by
  subst hl
  have hfree : n ∉ k.2.free := not_mem_free hk ((hk.transit i n).mpr hn)
  refine ⟨{ hk with linked := hk.linked.update hfree next }, fun j hj =>
    ⟨rfl, le_refl _, fun _ => ⟨rfl, rfl, fun m hm => ?_⟩, fun m hm => ?_⟩⟩
  · exact Function.update_of_ne (ne_of_mem_of_not_mem hm hfree) _ _
  · exact Function.update_of_ne (releasing_ne hk hn hm hj) _ _

omit [DecidableEq ι] in
/-- An update of the head leaves the nodes of the others as they are. -/
theorem rely_of_update {h : History ι} {new : Head} (hown : ∀ j, j ≠ i → h.own j = k.2.own j)
    (hupdates : h.updates = k.2.updates + 1) {j : ι} (hj : j ≠ i) :
    Rely j k ({ k.1 with freeHead := new }, h) := by
  refine ⟨hown j hj, ?_, fun hsame => ?_, fun _ _ => rfl⟩
  · exact hupdates ▸ Nat.le_succ _
  · have hsame : h.updates = k.2.updates := hsame
    omega

theorem keeps_take {n : Nat} {new : Head} (hk : Inv capacity k)
    (hhead : k.1.freeHead.node = some n) (hnext : k.1.next n = new.node)
    (hcount : new.count = k.2.updates + 1) (hbound : k.2.updates + 1 < 2 ^ 64)
    (hl : l = ({ k.1 with freeHead := new }, k.2.take i n)) :
    Inv capacity l ∧ ∀ j, j ≠ i → Rely j k l := by
  subst hl
  have hlinked := hk.linked
  rw [hhead] at hlinked
  obtain ⟨rest, hfree, hrest⟩ := hlinked.exists_cons
  rw [hnext] at hrest
  refine ⟨⟨hcount, hbound, ?_, ?_, fun j m => ?_⟩, fun j hj =>
    rely_of_update (fun j hj => Function.update_of_ne hj _ _) rfl hj⟩
  · show Linked k.1.next new.node k.2.free.tail
    rwa [hfree]
  · refine List.perm_iff_count.mpr fun m => ?_
    have hplaces := List.perm_iff_count.mp hk.places m
    simp only [History.nodes, History.take, History.setOwn, hfree, List.count_append, List.count_cons,
      List.map_cons, List.tail_cons] at hplaces ⊢
    omega
  · show (j, m) ∈ k.2.transit ↔ (Function.update k.2.own i _ j).releasing = some m
    by_cases hj : j = i
    · subst hj
      rw [Function.update_self]
      exact hk.transit j m
    · rw [Function.update_of_ne hj]
      exact hk.transit j m

theorem keeps_put {n : Nat} {new : Head} (hk : Inv capacity k)
    (hreleasing : (k.2.own i).releasing = some n) (hnode : new.node = some n)
    (hnext : k.1.next n = k.1.freeHead.node)
    (hcount : new.count = k.2.updates + 1) (hbound : k.2.updates + 1 < 2 ^ 64)
    (hl : l = ({ k.1 with freeHead := new }, k.2.put i n)) :
    Inv capacity l ∧ ∀ j, j ≠ i → Rely j k l := by
  subst hl
  have hmem : (i, n) ∈ k.2.transit := (hk.transit i n).mpr hreleasing
  have hnodup : k.2.transit.Nodup := ((List.nodup_append.mp (nodup hk)).2.1).of_map
  refine ⟨⟨hcount, hbound, ⟨hnode, ?_⟩, ?_, fun j m => ?_⟩, fun j hj =>
    rely_of_update (fun j hj => Function.update_of_ne hj _ _) rfl hj⟩
  · rw [hnext]
    exact hk.linked
  · refine List.perm_iff_count.mpr fun m => ?_
    have hplaces := List.perm_iff_count.mp hk.places m
    have herase := List.perm_iff_count.mp ((List.perm_cons_erase hmem).map Prod.snd) m
    simp only [History.nodes, History.put, History.setOwn, List.count_append, List.count_cons,
      List.map_cons, List.cons_append] at hplaces herase ⊢
    omega
  · show (j, m) ∈ k.2.transit.erase (i, n) ↔ (Function.update k.2.own i _ j).releasing = some m
    rw [hnodup.mem_erase_iff]
    by_cases hj : j = i
    · subst hj
      rw [Function.update_self, hk.transit j m, hreleasing]
      simp [eq_comm]
    · rw [Function.update_of_ne hj, hk.transit j m]
      simp [hj]

theorem casHead_cases (i : ι) (old new : Head) (x : Bool) (k : Shared ι) :
    k.1.freeHead = old ∧ noted i (.casHead old new) x k =
        (⟨true, old⟩, { k.1 with freeHead := new }, (k.2.look i).swap i old) ∨
      noted i (.casHead old new) x k = (⟨false, k.1.freeHead⟩, k.1, k.2.look i) := by
  rcases exchange_cases k.1.freeHead old new x with ⟨heq, h⟩ | h
  · exact .inl ⟨heq, by simp [noted, noting, exec, note, h]⟩
  · exact .inr (by simp [noted, noting, exec, note, h])

end Keeps

theorem keeps_casHead {capacity : Nat} {i : ι} {r : Unit} {old new : Head} {x : Bool}
    {k : Shared ι} (hk : Inv capacity k) (hpre : Pre i r (.casHead old new) k)
    (hcond : Cond i r (.casHead old new) x k) :
    Inv capacity (noted i (.casHead old new) x k).2 ∧
      ∀ j, j ≠ i → Rely j k (noted i (.casHead old new) x k).2 := by
  obtain ⟨hlook, hrely⟩ := keeps_look (i := i) hk
  rcases casHead_cases i old new x k with ⟨hold, h⟩ | h
  · obtain ⟨hcount, hnode⟩ := hpre
    rcases hnode with ⟨hreleasing, n, hn, hnext⟩ | ⟨hreleasing, n, hn, hnext⟩
    · have hswap : (k.2.look i).swap i old = (k.2.look i).put i n := by
        rw [History.swap, own_look, hreleasing, hn]
      rw [Cond, h, hswap] at hcond
      have hbound : k.2.updates + 1 < 2 ^ 64 := hcond
      rw [← hold, hk.count, plusOne_of_lt hbound] at hcount
      have hput := keeps_put (n := n) hlook (by rw [own_look, hreleasing, hn]) hn
        (hnext.trans (congrArg Head.node hold.symm)) hcount hbound rfl
      rw [h, hswap]
      exact ⟨hput.1, fun j hj => (hrely j hj).trans (hput.2 j hj)⟩
    · have hswap : (k.2.look i).swap i old = (k.2.look i).take i n := by
        rw [History.swap, own_look, hreleasing, hn]
      rw [Cond, h, hswap] at hcond
      have hbound : k.2.updates + 1 < 2 ^ 64 := hcond
      rw [← hold, hk.count, plusOne_of_lt hbound] at hcount
      have htake := keeps_take (n := n) (i := i) hlook ((congrArg Head.node hold).trans hn)
        (hnext hold) hcount hbound rfl
      rw [h, hswap]
      exact ⟨htake.1, fun j hj => (hrely j hj).trans (htake.2 j hj)⟩
  · rw [h]
    exact ⟨hlook, hrely⟩

theorem keeps {capacity : Nat} {i : ι} {r : Unit} {o : Op} {x : Bool} {k : Shared ι}
    (hk : Inv capacity k) (hpre : Pre i r o k) (hcond : Cond i r o x k) :
    Inv capacity (noted i o x k).2 ∧ ∀ j, j ≠ i → Rely j k (noted i o x k).2 := by
  have hlook := keeps_look (i := i) hk
  cases o with
  | loadHead => exact hlook
  | readNext node => exact hlook
  | writeNext node next =>
      have hown : ((k.2.look i).own i).releasing = some node := by
        rw [own_look]
        exact hpre
      have hwrite : Inv capacity (noted i (.writeNext node next) x k).2 ∧ ∀ j, j ≠ i →
          Rely j (k.1, k.2.look i) (noted i (.writeNext node next) x k).2 :=
        keeps_writeNext hlook.1 hown rfl
      exact ⟨hwrite.1, fun j hj => (hlook.2 j hj).trans (hwrite.2 j hj)⟩
  | casHead old new => exact keeps_casHead hk hpre hcond

variable (ι) in
def protocol (capacity : Nat) : Protocol sig ι Unit (Shared ι) Bool noted where
  Inv := Inv capacity
  Rely := Rely
  Cond := Cond
  Pre := Pre
  Crash := False
  Hang _ _ := True
  refl := Rely.refl
  trans := Rely.trans
  hang_stable h _ := h
  keeps hk hpre hcond := keeps hk hpre hcond

/-! ### What the functions keep to -/

section Functions

variable {capacity : Nat} {i : ι} {k : Shared ι}

/-- A thread that has found the head has seen an empty stack where it points to nothing. -/
theorem sawEmpty_of_head {h : History ι} {d : CCObjectPool}
    (hlinked : Linked d.next d.freeHead.node h.free) (hnone : d.freeHead.node = none) :
    ((h.look i).own i).sawEmpty = true := by
  rw [hnone] at hlinked
  rw [own_look, hlinked.eq_nil]
  exact Bool.or_true _

theorem loadHead_safe {Q : Unit → Head → Shared ι → Prop}
    (hQ : ∀ l, Rely i k l → Inv capacity l → Q () l.1.freeHead (l.1, l.2.look i)) :
    (protocol ι capacity).Safe i Q (Op.loadHead.get ()) k :=
  Protocol.safe_op (fun _ _ _ => trivial) fun _ l hkl hl _ => hQ l hkl hl

theorem findFreeHead_safe {left : Nat} {old : Head} {Q : Unit → Option Nat → Shared ι → Prop}
    (hreleasing : (k.2.own i).releasing = none) (hcount : old.count ≤ k.2.updates)
    (hempty : old.node = none → (k.2.own i).sawEmpty = true)
    (hnull : ∀ l, (l.2.own i).releasing = none → (l.2.own i).sawEmpty = true → Q () none l)
    (htaken : ∀ n l, (l.2.own i).releasing = none → (l.2.own i).taken = some n →
      Q () (some n) l) :
    (protocol ι capacity).Safe i Q (findFreeHead left old ()) k := by
  induction left generalizing old k with
  | zero => trivial
  | succ left ih =>
      simp only [findFreeHead, Protocol.safe_ite, Protocol.safe_seq, Protocol.safe_deref,
        Protocol.safe_pure]
      refine ⟨fun hnone => hnull k hreleasing (hempty (Option.isNone_iff_eq_none.mp hnone)),
        fun hsome => ⟨fun node hnode => ?_, fun hnone => hsome (by rw [hnone]; rfl)⟩⟩
      refine Protocol.safe_op (fun _ _ _ => trivial) fun _ l hkl hl _ => ?_
      have hown : ((l.2.look i).own i).releasing = none := by
        rw [own_look, hkl.own]
        exact hreleasing
      have hcount : old.count ≤ l.2.updates := hcount.trans hkl.updates
      refine Protocol.safe_op (fun m hlm hm => ⟨rfl, .inr ⟨?_, node, hnode, fun hhead => ?_⟩⟩)
        fun x m hlm hm _ => ?_
      · rw [hlm.own]
        exact hown
      · -- the head has not been updated since the next node was read
        have hcount' : m.2.updates = old.count := by rw [← hm.count, hhead]
        have hupdates : l.2.updates ≤ m.2.updates := hlm.updates
        obtain ⟨hsame, _, hnext⟩ := hlm.same (show m.2.updates = l.2.updates by omega)
        have hlinked := hl.linked
        rw [← show m.1.freeHead = l.1.freeHead from hsame, hhead, hnode] at hlinked
        obtain ⟨rest, hfree, _⟩ := hlinked.exists_cons
        have hmem : node ∈ l.2.free := hfree ▸ List.mem_cons_self
        exact hnext node hmem
      · have hown : (m.2.own i).releasing = none := by
          rw [hlm.own]
          exact hown
        have hlook : ((m.2.look i).own i).releasing = none := by
          rw [own_look]
          exact hown
        rcases casHead_cases i old _ x m with ⟨hhead, h⟩ | h
        · have hswap : (m.2.look i).swap i old = (m.2.look i).take i node := by
            rw [History.swap, hlook, hnode]
          rw [h, hswap, hnode]
          have htake : ((m.2.look i).take i node).own i =
              { (m.2.look i).own i with taken := some node } := Function.update_self ..
          refine ⟨fun _ => htaken node _ ?_ ?_, fun hne => absurd rfl hne⟩
          · rw [htake]
            exact hlook
          · rw [htake]
        · rw [h]
          refine ⟨fun heq => absurd heq Bool.false_ne_true,
            fun _ => ih hlook (le_of_eq hm.count) fun hnone => ?_⟩
          exact sawEmpty_of_head hm.linked hnone

theorem putBack_safe {left node : Nat} {old : Head} {Q : Unit → Unit → Shared ι → Prop}
    (hreleasing : (k.2.own i).releasing = some node)
    (hQ : ∀ l, (l.2.own i).releasing = none → Q () () l) :
    (protocol ι capacity).Safe i Q (putBack node left old ()) k := by
  induction left generalizing old k with
  | zero => trivial
  | succ left ih =>
      simp only [putBack, Protocol.safe_seq, Protocol.safe_ite, Protocol.safe_pure]
      refine Protocol.safe_op (fun l hkl _ => ?_) fun _ l hkl _ _ => ?_
      · show (l.2.own i).releasing = some node
        rw [hkl.own, hreleasing]
      · have hown : ((l.2.look i).own i).releasing = some node := by
          rw [own_look, hkl.own]
          exact hreleasing
        refine Protocol.safe_op (fun m hlm _ => ⟨rfl, .inl ⟨?_, node, rfl, ?_⟩⟩) fun x m hlm _ _ => ?_
        · rw [hlm.own]
          exact hown
        · rw [hlm.next node hown]
          exact Function.update_self ..
        · have hlook : ((m.2.look i).own i).releasing = some node := by
            rw [own_look, hlm.own]
            exact hown
          rcases casHead_cases i old _ x m with ⟨_, h⟩ | h
          · have hswap : (m.2.look i).swap i old = (m.2.look i).put i node := by
              rw [History.swap, hlook]
            rw [h, hswap]
            have hput : ((m.2.look i).put i node).own i =
                { (m.2.look i).own i with releasing := none } := Function.update_self ..
            exact ⟨fun _ => hQ _ (by rw [hput]), fun hne => absurd rfl hne⟩
          · rw [h]
            exact ⟨fun heq => absurd heq Bool.false_ne_true, fun _ => ih hlook⟩

end Functions

/-! ### Every run -/

/-- What a thread has returned is what the history says of its call. -/
def Returned (o : Own) : Answer → Prop
  | .got none => o.sawEmpty = true
  | .got (some node) => o.taken = some node
  | _ => True

def Rest (i : ι) (_ : Unit) (a : Answer) (k : Shared ι) : Prop :=
  (k.2.own i).releasing = none ∧ Returned (k.2.own i) a

/-- A holder releases what it got. -/
def Released (_ : ι) (call : Call) (_ : Unit) (k : Shared ι) : Prop :=
  match call with
  | .getObject _ => True
  | .releaseObject _ node => ∃ j, (j, node) ∈ k.2.held

theorem keeps_enter {capacity : Nat} {i : ι} {call : Call} {k : Shared ι} (hk : Inv capacity k)
    (hreleasing : (k.2.own i).releasing = none) (hcall : Released i call () k) :
    Inv capacity (enter i call k) ∧ ∀ j, j ≠ i → Rely j k (enter i call k) := by
  cases call with
  | getObject left => exact keeps_of_own hk hreleasing.symm rfl
  | releaseObject left node =>
      obtain ⟨holder, hheld⟩ := hcall
      refine ⟨{ hk with places := ?_, transit := fun j m => ?_ }, fun j hj =>
        { Rely.refl j k with own := Function.update_of_ne hj _ _ }⟩
      · obtain ⟨e, before, after, _, he, hsplit, herase⟩ :=
          List.exists_of_eraseP (p := (·.2 == node)) hheld (by simp)
        have he : e.2 = node := by simpa using he
        have hnodes : (enter i (.releaseObject left node) k).2.nodes =
            k.2.free ++ (before ++ after).map Prod.snd ++ node :: k.2.transit.map Prod.snd := by
          rw [← herase]
          rfl
        rw [hnodes]
        refine List.perm_iff_count.mpr fun m => ?_
        have hplaces := List.perm_iff_count.mp hk.places m
        simp only [History.nodes, hsplit, he, List.count_append, List.count_cons,
          List.map_append, List.map_cons] at hplaces ⊢
        omega
      · show (j, m) ∈ (i, node) :: k.2.transit ↔
          (Function.update k.2.own i { releasing := some node } j).releasing = some m
        by_cases hj : j = i
        · subst hj
          rw [Function.update_self, List.mem_cons, hk.transit j m, hreleasing]
          simp [eq_comm]
        · rw [Function.update_of_ne hj, List.mem_cons, hk.transit j m]
          simp [hj]

theorem body_safe {capacity : Nat} {i : ι} {call : Call} {k : Shared ι} :
    (protocol ι capacity).Safe i (Rest i) (call.body ()) (enter i call k) := by
  cases call with
  | getObject left =>
      simp only [Call.body, getObject, Protocol.safe_seq, Protocol.safe_pure]
      refine loadHead_safe fun l hkl hl => ?_
      have hown : l.2.own i = {} := hkl.own.trans (Function.update_self ..)
      refine findFreeHead_safe ?_ (le_of_eq hl.count) (sawEmpty_of_head hl.linked)
        (fun m hm hsaw => ⟨hm, hsaw⟩) fun n m hm htaken => ⟨hm, htaken⟩
      rw [own_look, hown]
  | releaseObject left node =>
      simp only [Call.body, releaseObject, Protocol.safe_seq, Protocol.safe_pure]
      refine loadHead_safe fun l hkl _ => ?_
      have hown : l.2.own i = { releasing := some node } :=
        hkl.own.trans (Function.update_self ..)
      refine putBack_safe ?_ fun m hm => ⟨hm, trivial⟩
      rw [own_look, hown]

/-- The head is only updated. -/
theorem updates_le_step (cfg : State ι) (e : Step ι) :
    cfg.shared.2.updates ≤ (step cfg e).shared.2.updates := by
  have hswap : ∀ i old (h : History ι), h.updates ≤ ((h.look i).swap i old).updates := by
    intro i old h
    rw [History.swap]
    split
    · exact Nat.le_succ _
    · exact Nat.le_succ _
    · exact le_refl _
  have hnoted : ∀ i o x (k : Shared ι), k.2.updates ≤ (noted i o x k).2.2.updates := by
    intro i o x k
    cases o with
    | casHead old new =>
        rcases casHead_cases i old new x k with ⟨_, h⟩ | h
        · rw [h]
          exact hswap i old k.2
        · rw [h]
          exact le_refl _
    | _ => exact le_refl _
  cases e with
  | call i c =>
      cases hi : cfg.threads i with
      | done r a => cases c <;> simp [step, Thread.step, hi, enter, History.setOwn]
      | _ => simp [step, Thread.step, hi]
  | act i x =>
      cases hi : cfg.threads i with
      | call r o k => simpa [step, Thread.step, hi] using hnoted i o x cfg.shared
      | _ => simp [step, Thread.step, hi]

/-- The stack is a list without cycles; every node of the arena is at one place, free, held
or in transit of the thread that releases it; and who got nothing has seen the stack empty. -/
structure Places (capacity : Nat) (t : State ι) : Prop where
  linked : Linked t.shared.1.next t.shared.1.freeHead.node t.shared.2.free
  acyclic : t.shared.2.free.Nodup
  places : t.shared.2.nodes.Perm (List.range capacity)
  transit : ∀ i n, (i, n) ∈ t.shared.2.transit ↔ (t.shared.2.own i).releasing = some n
  rest : ∀ i a, t.threads i = .done () a → (t.shared.2.own i).releasing = none
  returned : ∀ i a, t.threads i = .done () a → Returned (t.shared.2.own i) a

/-- Who calls `ReleaseObject` gives back a node that is held. -/
def GivesBack (t : State ι) : Step ι → Prop
  | .call i call => ∀ a, t.threads i = .done () a → Released i call () t.shared
  | .act _ _ => True

theorem onePlace {capacity : Nat} {es : List (Step ι)} (hcapacity : 0 < capacity)
    (hrelease : Run.Along step GivesBack (start ι capacity) es)
    (hupdates : (Run.exec step (start ι capacity) es).shared.2.updates < 2 ^ 64) :
    ∀ t ∈ Run.states step (start ι capacity) es, Places capacity t := by
  have hstart : (protocol ι capacity).Holds Rest (start ι capacity) :=
    { inv :=
        { count := rfl
          bound := Nat.two_pow_pos 64
          linked := linked_new hcapacity
          places := by simp [start, Config.start, History.nodes]
          transit := fun i n => by simp [start, Config.start] }
      safe := fun _ => ⟨rfl, trivial⟩ }
  have hes : Run.Along step ((protocol ι capacity).Meets Released) (start ι capacity) es := by
    refine Run.along_mono ?_ (Run.along_and hrelease (Run.along_of_lt updates_le_step hupdates))
    intro cfg e he
    obtain ⟨hcall, hlt⟩ := he
    cases e with
    | call i c => exact fun r a hi => hcall a hi
    | act i x =>
        intro r o k hi
        have hlt : (step cfg (.act i x)).shared.2.updates < 2 ^ 64 := hlt
        simp only [step, Thread.step, hi] at hlt
        exact hlt
  intro t ht
  have hholds : (protocol ι capacity).Holds Rest t := by
    refine Protocol.sound ?_ ?_ ?_ hstart hes t ht
    · intro i r a k l h hkl _
      rw [Rest, hkl.own]
      exact h
    · exact fun i call r a k hk hrest hcall => keeps_enter hk hrest.1 hcall
    · exact fun i call r a k _ _ _ => body_safe
  have hnodup := List.nodup_append.mp (List.nodup_append.mp (nodup hholds.inv)).1
  exact ⟨hholds.inv.linked, hnodup.1, hholds.inv.places, hholds.inv.transit,
    fun i a hi => (hholds.rest hi).1, fun i a hi => (hholds.rest hi).2⟩

/-- The head that thread 1 has loaded is updated before it swaps. -/
def updated : List (Step Nat) :=
  [.call 0 (.getObject 1), .act 0 false, .act 0 false, .act 0 false, .call 1 (.getObject 2),
    .act 1 false, .call 0 (.releaseObject 1 0), .act 0 false, .act 0 false, .act 0 false,
    .act 1 false, .act 1 false, .act 1 false, .act 1 false]

theorem onePlace_updated : Places 2 (Run.exec step (start Nat 2) updated) := by
  refine onePlace (by decide) ?_ ?_ _ (Run.exec_mem_states _ _ _)
  · refine ⟨fun a _ => trivial, trivial, trivial, trivial, fun a _ => trivial, trivial,
      fun a _ => ⟨0, List.mem_cons_self⟩, trivial, trivial, trivial, trivial, trivial, trivial,
      trivial, trivial⟩
  · have hupdates : (Run.exec step (start Nat 2) updated).shared.2.updates = 3 := rfl
    rw [hupdates]
    decide

end Pool
end Base
end Cmw
