import Cmw.Library.Ring
import Cmw.Transport.Shm.ConditionNotifier
import Mathlib.Data.List.Basic

/-!
# Notifications, step by step

Any number of `Notify` and `Listen`, in any order of their steps.  A listener that
finds a number in a slot takes it for published, and takes the information of the slot
in another step: it is that of the number as long as the two were written by the same
`Notify`, and are not written again in between.
-/

namespace Cmw
namespace Transport
namespace Notifier

open Shm (ReadableInfo)
open Library
open Library.Thread

namespace Publication

variable {ι : Type} [DecidableEq ι]

def enter (i : ι) (call : Call) (k : Shared ι) : Shared ι :=
  match call with
  | .notify info => (k.1, k.2.setOwn i { k.2.own i with request := info })
  | _ => k

def step : State ι → Step ι → State ι := Thread.step exec enter Call.body

/-- What a listener has taken. -/
structure Sound (h : History ι) (r : Receipt) : Prop where
  written : r.number ∈ h.written
  le : r.cursor ≤ r.number
  slot : r.number % kBufLength = r.cursor % kBufLength
  lt : r.number < r.issued
  issued : r.issued ≤ h.issued.length

/-- A slot holds what the history says of it. -/
structure Inv (k : Shared ι) : Prop where
  nextSeq : k.1.nextSeq = BitVec.ofNat 64 k.2.issued.length
  lt : k.2.issued.length < 2 ^ 64
  infos : ∀ (idx n : Nat), k.2.infoBy idx = some n → k.2.issued[n]? = some (k.1.infos idx)
  seqs : ∀ (idx n : Nat), k.2.seqBy idx = some n →
    n % kBufLength = idx ∧ n < k.2.issued.length ∧ n ∈ k.2.written ∧
      k.1.seqs idx = BitVec.ofNat 64 n
  cursor : ∀ i, (k.2.own i).cursor ≤ k.2.issued.length
  taking : ∀ i r, (k.2.own i).taking = some r → Sound k.2 r ∧
    r.cursor = (k.2.own i).cursor ∧ k.2.infoBy (r.number % kBufLength) = some r.number
  returned : ∀ i, ∀ e ∈ (k.2.own i).returned, Sound k.2 e.1 ∧
    e.1.number < (k.2.own i).cursor ∧ k.2.issued[e.1.number]? = some e.2
  increasing : ∀ i, (k.2.own i).returned.Pairwise fun e f => e.1.number < f.1.number

/-- What the others leave to process `i`. -/
structure Rely (i : ι) (k l : Shared ι) : Prop where
  own : l.2.own i = k.2.own i
  issued : k.2.issued <+: l.2.issued

omit [DecidableEq ι] in
theorem Rely.refl (i : ι) (k : Shared ι) : Rely i k k := ⟨rfl, List.prefix_rfl⟩

omit [DecidableEq ι] in
theorem Rely.trans {i : ι} {k l m : Shared ι} (h : Rely i k l) (h' : Rely i l m) : Rely i k m :=
  ⟨h'.own.trans h.own, h.issued.trans h'.issued⟩

/-- A listener takes a number from a slot that has been written, its number and its
information by the same `Notify` last; nobody writes the information of a slot from
which a listener has taken the number and not yet the information; and there are fewer
than 2^64 notifications. -/
def Cond (_ : ι) (x : ConditionNotifier) (o : Op) (_ : Unit) (k : Shared ι) : Prop :=
  match o with
  | .fetchAddNextSeq => k.2.issued.length + 1 < 2 ^ 64
  | .setInfo idx _ => ∀ j r, (k.2.own j).taking = some r → r.number % kBufLength ≠ idx
  | .seq idx => ∀ next, x.nextSeq = some next → k.1.seqs idx ≥ next →
      (k.2.seqBy idx).isSome ∧ k.2.infoBy idx = k.2.seqBy idx
  | _ => True

/-- What a process knows when it performs an operation. -/
def Pre (i : ι) (x : ConditionNotifier) (o : Op) (k : Shared ι) : Prop :=
  match o with
  | .firstNextSeq => (k.2.own i).taking = none ∧ (k.2.own i).returned = []
  | .setInfo idx info => idx = (k.2.own i).ticket % kBufLength ∧
      k.2.issued[(k.2.own i).ticket]? = some info
  | .setSeq idx seq => idx = (k.2.own i).ticket % kBufLength ∧
      (k.2.own i).ticket < k.2.issued.length ∧ seq = BitVec.ofNat 64 (k.2.own i).ticket
  | .seq idx => ∃ next, x.nextSeq = some next ∧ next.toNat = (k.2.own i).cursor ∧
      idx = (k.2.own i).cursor % kBufLength ∧ (k.2.own i).cursor < k.2.issued.length
  | .info idx => ∃ r, (k.2.own i).taking = some r ∧ idx = r.number % kBufLength
  | .fetchAddNextSeq | .nextSeq => True

/-! ### What the operations keep -/

section Keeps

variable {i : ι} {k l : Shared ι}

omit [DecidableEq ι] in
theorem Sound.mono {h h' : History ι} {r : Receipt} (hr : Sound h r)
    (hwritten : h.written ⊆ h'.written) (hissued : h.issued.length ≤ h'.issued.length) :
    Sound h' r :=
  { hr with written := hwritten hr.written, issued := hr.issued.trans hissued }

omit [DecidableEq ι] in
/-- An operation that changes nothing of what the listeners have taken. -/
theorem keeps_of_listeners (hk : Inv k)
    (hown : ∀ j, (l.2.own j).cursor = (k.2.own j).cursor ∧
      (l.2.own j).taking = (k.2.own j).taking ∧ (l.2.own j).returned = (k.2.own j).returned)
    (hother : ∀ j, j ≠ i → l.2.own j = k.2.own j)
    (hissued : k.2.issued <+: l.2.issued) (hwritten : k.2.written ⊆ l.2.written)
    (hnext : l.1.nextSeq = BitVec.ofNat 64 l.2.issued.length) (hlt : l.2.issued.length < 2 ^ 64)
    (hinfos : ∀ (idx n : Nat), l.2.infoBy idx = some n → l.2.issued[n]? = some (l.1.infos idx))
    (hseqs : ∀ (idx n : Nat), l.2.seqBy idx = some n →
      n % kBufLength = idx ∧ n < l.2.issued.length ∧ n ∈ l.2.written ∧
        l.1.seqs idx = BitVec.ofNat 64 n)
    (htaken : ∀ j r, (k.2.own j).taking = some r →
      l.2.infoBy (r.number % kBufLength) = k.2.infoBy (r.number % kBufLength)) :
    Inv l ∧ ∀ j, j ≠ i → Rely j k l := by
  have hle : k.2.issued.length ≤ l.2.issued.length := hissued.length_le
  refine ⟨⟨hnext, hlt, hinfos, hseqs, fun j => ?_, fun j r hr => ?_, fun j e he => ?_, fun j => ?_⟩,
    fun j hj => ⟨hother j hj, hissued⟩⟩
  · rw [(hown j).1]
    exact (hk.cursor j).trans hle
  · rw [(hown j).2.1] at hr
    obtain ⟨hsound, hcursor, hinfo⟩ := hk.taking j r hr
    exact ⟨hsound.mono hwritten hle, hcursor.trans (hown j).1.symm, (htaken j r hr).trans hinfo⟩
  · rw [(hown j).2.2] at he
    obtain ⟨hsound, hcursor, hinfo⟩ := hk.returned j e he
    exact ⟨hsound.mono hwritten hle, (hown j).1.symm ▸ hcursor, Ring.getElem?_of_prefix hissued hinfo⟩
  · rw [(hown j).2.2]
    exact hk.increasing j

omit [DecidableEq ι] in
theorem toNat_nextSeq (hk : Inv k) : k.1.nextSeq.toNat = k.2.issued.length := by
  rw [hk.nextSeq, BitVec.toNat_ofNat, Nat.mod_eq_of_lt hk.lt]

theorem keeps_fetchAddNextSeq (hk : Inv k) (hlt : k.2.issued.length + 1 < 2 ^ 64) :
    Inv (exec i .fetchAddNextSeq () k).2 ∧
      ∀ j, j ≠ i → Rely j k (exec i .fetchAddNextSeq () k).2 := by
  have hprefix : k.2.issued <+: k.2.issued ++ [(k.2.own i).request] := List.prefix_append _ _
  refine keeps_of_listeners hk (fun j => ?_) (fun j hj => Function.update_of_ne hj _ _) hprefix
    (List.Subset.refl _) ?_ ?_ (fun idx n hn => ?_) (fun idx n hn => ?_) fun _ _ _ => rfl
  · by_cases hj : j = i
    · subst hj
      simp [exec, noting, note, History.setOwn]
    · simp [exec, noting, note, History.setOwn, hj]
  · show k.1.nextSeq + 1 = BitVec.ofNat 64 (k.2.issued ++ [_]).length
    rw [hk.nextSeq, List.length_append, BitVec.ofNat_add]
    rfl
  · show (k.2.issued ++ [_]).length < _
    rw [List.length_append]
    exact hlt
  · exact Ring.getElem?_of_prefix hprefix (hk.infos idx n hn)
  · obtain ⟨hidx, hn, hwritten, hseq⟩ := hk.seqs idx n hn
    exact ⟨hidx, hn.trans_le hprefix.length_le, hwritten, hseq⟩

theorem keeps_setInfo {info : ReadableInfo} (hk : Inv k)
    (hinfo : k.2.issued[(k.2.own i).ticket]? = some info) {idx : Nat}
    (hfree : ∀ j r, (k.2.own j).taking = some r → r.number % kBufLength ≠ idx) :
    Inv (exec i (.setInfo idx info) () k).2 ∧
      ∀ j, j ≠ i → Rely j k (exec i (.setInfo idx info) () k).2 := by
  refine keeps_of_listeners hk (fun _ => ⟨rfl, rfl, rfl⟩) (fun _ _ => rfl) List.prefix_rfl
    (List.Subset.refl _) hk.nextSeq hk.lt (fun idx' n hn => ?_) hk.seqs fun j r hr => ?_
  · show k.2.issued[n]? = some (Function.update k.1.infos idx info idx')
    have hn : Function.update k.2.infoBy idx (some (k.2.own i).ticket) idx' = some n := hn
    by_cases hidx : idx' = idx
    · subst hidx
      rw [Function.update_self] at hn ⊢
      rw [← Option.some.inj hn]
      exact hinfo
    · rw [Function.update_of_ne hidx] at hn ⊢
      exact hk.infos idx' n hn
  · exact Function.update_of_ne (hfree j r hr) _ _

theorem keeps_setSeq (hk : Inv k) (hticket : (k.2.own i).ticket < k.2.issued.length) :
    Inv (exec i (.setSeq ((k.2.own i).ticket % kBufLength)
        (BitVec.ofNat 64 (k.2.own i).ticket)) () k).2 ∧
      ∀ j, j ≠ i → Rely j k (exec i (.setSeq ((k.2.own i).ticket % kBufLength)
        (BitVec.ofNat 64 (k.2.own i).ticket)) () k).2 := by
  refine keeps_of_listeners hk (fun _ => ⟨rfl, rfl, rfl⟩) (fun _ _ => rfl) List.prefix_rfl
    (List.subset_cons_self _ _) hk.nextSeq hk.lt hk.infos (fun idx n hn => ?_) fun _ _ _ => rfl
  have hn : Function.update k.2.seqBy ((k.2.own i).ticket % kBufLength)
      (some (k.2.own i).ticket) idx = some n := hn
  show n % kBufLength = idx ∧ n < k.2.issued.length ∧ n ∈ (k.2.own i).ticket :: k.2.written ∧
    Function.update k.1.seqs ((k.2.own i).ticket % kBufLength)
      (BitVec.ofNat 64 (k.2.own i).ticket) idx = BitVec.ofNat 64 n
  by_cases hidx : idx = (k.2.own i).ticket % kBufLength
  · subst hidx
    rw [Function.update_self] at hn ⊢
    obtain rfl := Option.some.inj hn
    exact ⟨rfl, hticket, List.mem_cons_self, rfl⟩
  · rw [Function.update_of_ne hidx] at hn ⊢
    obtain ⟨hslot, hlt, hwritten, hseq⟩ := hk.seqs idx n hn
    exact ⟨hslot, hlt, List.mem_cons_of_mem _ hwritten, hseq⟩

theorem keeps_enter {call : Call} (hk : Inv k) :
    Inv (enter i call k) ∧ ∀ j, j ≠ i → Rely j k (enter i call k) := by
  cases call with
  | notify info =>
      refine keeps_of_listeners hk (fun j => ?_) (fun j hj => Function.update_of_ne hj _ _)
        List.prefix_rfl (List.Subset.refl _) hk.nextSeq hk.lt hk.infos hk.seqs fun _ _ _ => rfl
      by_cases hj : j = i
      · subst hj
        simp [enter, History.setOwn]
      · simp [enter, History.setOwn, hj]
  | construct => exact ⟨hk, fun j _ => Rely.refl j k⟩
  | listen left => exact ⟨hk, fun j _ => Rely.refl j k⟩

/-- An operation that changes only what the history keeps of the listener itself. -/
theorem keeps_of_own {o : Own} (hk : Inv k) (hd : l.1 = k.1)
    (hl : l.2 = { k.2.setOwn i o with lagged := l.2.lagged })
    (hcursor : o.cursor ≤ k.2.issued.length)
    (htaking : ∀ r, o.taking = some r → Sound k.2 r ∧ r.cursor = o.cursor ∧
      k.2.infoBy (r.number % kBufLength) = some r.number)
    (hreturned : ∀ e ∈ o.returned, Sound k.2 e.1 ∧ e.1.number < o.cursor ∧
      k.2.issued[e.1.number]? = some e.2)
    (hincreasing : o.returned.Pairwise fun e f => e.1.number < f.1.number) :
    Inv l ∧ ∀ j, j ≠ i → Rely j k l := by
  obtain ⟨d, h⟩ := k
  obtain ⟨d', h'⟩ := l
  obtain rfl : d' = d := hd
  generalize h'.lagged = lagged at hl
  obtain rfl : h' = { h.setOwn i o with lagged := lagged } := hl
  have hsound : ∀ {r}, Sound h r → Sound { h.setOwn i o with lagged := lagged } r :=
    fun hr => hr.mono (List.Subset.refl _) (Nat.le_refl _)
  have hown : ∀ j, j ≠ i → (h.setOwn i o).own j = h.own j := fun j hj => Function.update_of_ne hj _ _
  have hself : (h.setOwn i o).own i = o := Function.update_self ..
  refine ⟨⟨hk.nextSeq, hk.lt, hk.infos, hk.seqs, fun j => ?_, fun j r hr => ?_, fun j e he => ?_,
    fun j => ?_⟩, fun j hj => ⟨hown j hj, List.prefix_rfl⟩⟩
  all_goals by_cases hj : j = i
  · subst hj
    show ((h.setOwn j o).own j).cursor ≤ _
    rw [hself]
    exact hcursor
  · show ((h.setOwn i o).own j).cursor ≤ _
    rw [hown j hj]
    exact hk.cursor j
  · subst hj
    have hr : ((h.setOwn j o).own j).taking = some r := hr
    rw [hself] at hr
    obtain ⟨hs, hc, hinfo⟩ := htaking r hr
    exact ⟨hsound hs, hc.trans (congrArg Own.cursor hself.symm), hinfo⟩
  · have hr : ((h.setOwn i o).own j).taking = some r := hr
    rw [hown j hj] at hr
    obtain ⟨hs, hc, hinfo⟩ := hk.taking j r hr
    exact ⟨hsound hs, hc.trans (congrArg Own.cursor (hown j hj).symm), hinfo⟩
  · subst hj
    have he : e ∈ ((h.setOwn j o).own j).returned := he
    rw [hself] at he
    obtain ⟨hs, hc, hinfo⟩ := hreturned e he
    exact ⟨hsound hs, hc.trans_eq (congrArg Own.cursor hself.symm), hinfo⟩
  · have he : e ∈ ((h.setOwn i o).own j).returned := he
    rw [hown j hj] at he
    obtain ⟨hs, hc, hinfo⟩ := hk.returned j e he
    exact ⟨hsound hs, hc.trans_eq (congrArg Own.cursor (hown j hj).symm), hinfo⟩
  · subst hj
    show ((h.setOwn j o).own j).returned.Pairwise _
    rw [hself]
    exact hincreasing
  · show ((h.setOwn i o).own j).returned.Pairwise _
    rw [hown j hj]
    exact hk.increasing j

/-- The first number that it expects is the next one. -/
theorem keeps_firstNextSeq (hk : Inv k) (htaking : (k.2.own i).taking = none)
    (hreturned : (k.2.own i).returned = []) :
    Inv (exec i .firstNextSeq () k).2 ∧ ∀ j, j ≠ i → Rely j k (exec i .firstNextSeq () k).2 := by
  refine keeps_of_own (o := { k.2.own i with
    since := k.1.nextSeq.toNat, cursor := k.1.nextSeq.toNat }) hk rfl rfl ?_ ?_ ?_ ?_
  · exact (toNat_nextSeq hk).le
  · simp [htaking]
  · simp [hreturned]
  · simp [hreturned]

/-- A number that is taken is that of the information in the slot. -/
theorem keeps_seq {x : ConditionNotifier} {next : BitVec 64} (hk : Inv k)
    (hnext : next.toNat = (k.2.own i).cursor)
    (hcond : Cond i x (.seq ((k.2.own i).cursor % kBufLength)) () k) (hx : x.nextSeq = some next) :
    Inv (exec i (.seq ((k.2.own i).cursor % kBufLength)) () k).2 ∧
      ∀ j, j ≠ i → Rely j k (exec i (.seq ((k.2.own i).cursor % kBufLength)) () k).2 := by
  refine keeps_of_own (o := (k.2.own i).look k.2.issued.length
    (k.1.seqs ((k.2.own i).cursor % kBufLength)).toNat) hk rfl rfl (hk.cursor i) (fun r hr => ?_)
    (hk.returned i) (hk.increasing i)
  have hr : (if (k.2.own i).cursor ≤ (k.1.seqs ((k.2.own i).cursor % kBufLength)).toNat then
      some (Receipt.mk (k.2.own i).cursor (k.1.seqs ((k.2.own i).cursor % kBufLength)).toNat
        k.2.issued.length) else none) = some r := hr
  split at hr
  case isFalse => cases hr
  case isTrue hle =>
    obtain rfl := Option.some.inj hr
    have hge : k.1.seqs ((k.2.own i).cursor % kBufLength) ≥ next := by
      show next.toNat ≤ _
      rw [hnext]
      exact hle
    obtain ⟨hsome, hsame⟩ := hcond next hx hge
    obtain ⟨n, hn⟩ := Option.isSome_iff_exists.mp hsome
    obtain ⟨hslot, hlt, hwritten, hseq⟩ := hk.seqs _ n hn
    have hnumber : (k.1.seqs ((k.2.own i).cursor % kBufLength)).toNat = n := by
      rw [hseq, BitVec.toNat_ofNat, Nat.mod_eq_of_lt (hlt.trans hk.lt)]
    refine ⟨⟨?_, hle, ?_, ?_, Nat.le_refl _⟩, rfl, ?_⟩
    all_goals simp only [hnumber]
    · exact hwritten
    · exact hslot
    · exact hlt
    · rw [hslot, hsame, hn]

theorem keeps_info {r : Receipt} (hk : Inv k) (hr : (k.2.own i).taking = some r) :
    Inv (exec i (.info (r.number % kBufLength)) () k).2 ∧
      ∀ j, j ≠ i → Rely j k (exec i (.info (r.number % kBufLength)) () k).2 := by
  obtain ⟨hsound, hcursor, hinfo⟩ := hk.taking i r hr
  have hreceive := Own.receive_of_taking hr (k.1.infos (r.number % kBufLength))
  have hnew : Sound k.2 r ∧ r.number < r.number + 1 ∧
      k.2.issued[r.number]? = some (k.1.infos (r.number % kBufLength)) :=
    ⟨hsound, Nat.lt_succ_self _, hk.infos _ _ hinfo⟩
  have hbefore : ∀ e ∈ (k.2.own i).returned, e.1.number < r.number := by
    intro e he
    have hlt := (hk.returned i e he).2.1
    have hle := hsound.le
    omega
  refine keeps_of_own hk rfl (congrArg (fun o => k.2.setOwn i o) hreceive)
    (hsound.lt.trans_le hsound.issued) nofun (fun e he => ?_) ?_
  · rcases List.mem_append.mp he with he | he
    · obtain ⟨hs, _, hinfo⟩ := hk.returned i e he
      exact ⟨hs, (hbefore e he).trans (Nat.lt_succ_self _), hinfo⟩
    · rw [List.mem_singleton.mp he]
      exact hnew
  · refine List.pairwise_append.mpr ⟨hk.increasing i, List.pairwise_singleton _ _, fun e he f hf => ?_⟩
    rw [List.mem_singleton.mp hf]
    exact hbefore e he

end Keeps

theorem keeps {i : ι} {x : ConditionNotifier} {o : Op} {k : Shared ι} (hk : Inv k)
    (hpre : Pre i x o k) (hcond : Cond i x o () k) :
    Inv (exec i o () k).2 ∧ ∀ j, j ≠ i → Rely j k (exec i o () k).2 := by
  cases o with
  | firstNextSeq => exact keeps_firstNextSeq hk hpre.1 hpre.2
  | fetchAddNextSeq => exact keeps_fetchAddNextSeq hk hcond
  | setInfo idx info => exact keeps_setInfo hk hpre.2 hcond
  | setSeq idx seq =>
      obtain ⟨rfl, hticket, rfl⟩ := hpre
      exact keeps_setSeq hk hticket
  | nextSeq => exact ⟨hk, fun j _ => Rely.refl j k⟩
  | seq idx =>
      obtain ⟨next, hx, hnext, rfl, _⟩ := hpre
      exact keeps_seq hk hnext hcond hx
  | info idx =>
      obtain ⟨r, hr, rfl⟩ := hpre
      exact keeps_info hk hr

variable (ι) in
/-- A process that has no notifier, and listens, dies of the null pointer. -/
def protocol : Protocol sig ι ConditionNotifier (Shared ι) Unit exec where
  Inv := Inv
  Rely := Rely
  Cond := Cond
  Pre := Pre
  Crash := True
  Hang _ _ := True
  refl := Rely.refl
  trans := Rely.trans
  hang_stable h _ := h
  keeps hk hpre hcond := keeps hk hpre hcond

/-! ### What the functions keep to -/

/-- A process that is not in the middle of anything: `next_seq_` is its cursor. -/
structure Idle (i : ι) (o : Own) (x : ConditionNotifier) (k : Shared ι) : Prop where
  own : k.2.own i = o
  taking : o.taking = none
  none : x.nextSeq = none → o.returned = []
  cursor : ∀ next, x.nextSeq = some next → next.toNat = o.cursor

/-- Process `i` has drawn the number of its ticket for its request. -/
structure Issued (i : ι) (o : Own) (k : Shared ι) : Prop where
  own : k.2.own i = o
  issued : k.2.issued[o.ticket]? = some o.request

section Functions

variable {i : ι} {o : Own} {x : ConditionNotifier} {k : Shared ι}

omit [DecidableEq ι] in
theorem Idle.of_rely {l : Shared ι} (hk : Idle i o x k) (hkl : Rely i k l) : Idle i o x l :=
  { hk with own := hkl.own.trans hk.own }

omit [DecidableEq ι] in
theorem Issued.of_rely {l : Shared ι} (hk : Issued i o k) (hkl : Rely i k l) : Issued i o l :=
  ⟨hkl.own.trans hk.own, Ring.getElem?_of_prefix hkl.issued hk.issued⟩

theorem fetchAddNextSeq_safe {Q : ConditionNotifier → BitVec 64 → Shared ι → Prop}
    (hk : Idle i o x k)
    (hQ : ∀ n l, n < 2 ^ 64 → Issued i { o with ticket := n } l → Q x (BitVec.ofNat 64 n) l) :
    (protocol ι).Safe i Q (Op.fetchAddNextSeq.get x) k := by
  refine Protocol.safe_op (fun _ _ _ => trivial) fun _ l hkl hl _ => ?_
  have hseq : (exec i .fetchAddNextSeq () l).1 = BitVec.ofNat 64 l.2.issued.length := hl.nextSeq
  rw [hseq]
  refine hQ l.2.issued.length _ hl.lt ⟨?_, ?_⟩
  · rw [own_fetchAddNextSeq, hkl.own, hk.own]
  · show (l.2.issued ++ [(l.2.own i).request])[l.2.issued.length]? = _
    rw [hkl.own, hk.own]
    exact List.getElem?_concat_length

/-- The two writes leave what the history keeps of the process. -/
theorem write_safe {p : Op} {Q : ConditionNotifier → Ans p → Shared ι → Prop} (hk : Issued i o k)
    (hpre : ∀ l, Issued i o l → Pre i x p l)
    (hown : ∀ l, (exec i p () l).2.2.own = l.2.own ∧ (exec i p () l).2.2.issued = l.2.issued)
    (hQ : ∀ a l, Issued i o l → Q x a l) :
    (protocol ι).Safe i Q (p.get x) k := by
  refine Protocol.safe_op (fun l hkl _ => hpre l (hk.of_rely hkl)) fun _ l hkl _ _ => hQ _ _ ?_
  have hl := hk.of_rely hkl
  exact ⟨(congrFun (hown l).1 i).trans hl.own, (hown l).2.symm ▸ hl.issued⟩

theorem notify_safe {info : ReadableInfo} {Q : ConditionNotifier → Bool → Shared ι → Prop}
    (hk : Idle i o x k) (hinfo : o.request = info) (hQ : ∀ o' l, Idle i o' x l → Q x true l) :
    (protocol ι).Safe i Q (ConditionNotifier.notify info x) k := by
  simp only [ConditionNotifier.notify, Protocol.safe_seq, Protocol.safe_pure]
  refine fetchAddNextSeq_safe hk fun n l hlt hl => ?_
  have hn : (BitVec.ofNat 64 n).toNat = n := by rw [BitVec.toNat_ofNat, Nat.mod_eq_of_lt hlt]
  rw [hn]
  refine write_safe hl (fun m hm => ?_) (fun _ => ⟨rfl, rfl⟩) fun _ m hm => ?_
  · rw [Pre, hm.own, ← hinfo]
    exact ⟨rfl, hm.issued⟩
  · refine write_safe hm (fun q hq => ?_) (fun _ => ⟨rfl, rfl⟩) fun _ q hq => ?_
    · rw [Pre, hq.own]
      exact ⟨rfl, (List.getElem?_eq_some_iff.mp hq.issued).1, rfl⟩
    · exact hQ _ q ⟨hq.own, hk.taking, hk.none, hk.cursor⟩

/-- The operations of a listener. -/
def Listens : Op → Prop
  | .firstNextSeq | .nextSeq | .seq _ | .info _ => True
  | _ => False

/-- A protocol in which a listener may do what it does here. -/
structure Listening (P : Protocol sig ι ConditionNotifier (Shared ι) Unit exec) : Prop where
  rely : ∀ {i k l}, P.Rely i k l → Rely i k l
  inv : ∀ {k}, P.Inv k → Inv k
  pre : ∀ {i x o k}, Listens o → Pre i x o k → P.Pre i x o k
  crash : P.Crash

variable {P : Protocol sig ι ConditionNotifier (Shared ι) Unit exec}

theorem listens_safe {p : Op} {Q : ConditionNotifier → Ans p → Shared ι → Prop}
    (hP : Listening P) (hp : Listens p) (hpre : ∀ l, Rely i k l → Inv l → Pre i x p l)
    (hQ : ∀ l, Rely i k l → Inv l → Q x (exec i p () l).1 (exec i p () l).2) :
    P.Safe i Q (p.get x) k :=
  Protocol.safe_op (fun l hkl hl => hP.pre hp (hpre l (hP.rely hkl) (hP.inv hl)))
    fun _ l hkl hl _ => hQ l (hP.rely hkl) (hP.inv hl)

theorem construct_safe {Q : ConditionNotifier → Unit → Shared ι → Prop} (hP : Listening P)
    (hk : Idle i o x k)
    (hQ : ∀ y o' l, Idle i o' y l → Q y () l) :
    P.Safe i Q (ConditionNotifier.construct x) k := by
  simp only [ConditionNotifier.construct, Protocol.safe_seq, Protocol.safe_get, Protocol.safe_ite,
    Protocol.safe_pure]
  refine ⟨fun _ => hQ x o k hk, fun hnone => ?_⟩
  have hnone : x.nextSeq = none := by simpa using hnone
  refine listens_safe hP trivial (fun l hkl _ => ?_) fun l hkl _ => ?_
  · rw [Pre, hkl.own, hk.own]
    exact ⟨hk.taking, hk.none hnone⟩
  · refine hQ _ { o with since := l.1.nextSeq.toNat, cursor := l.1.nextSeq.toNat } _
      ⟨?_, hk.taking, by simp, fun next hnext => ?_⟩
    · rw [own_firstNextSeq, hkl.own, hk.own]
    · exact congrArg BitVec.toNat (Option.some.inj hnext).symm

theorem seq_safe {next : BitVec 64} {Q : ConditionNotifier → BitVec 64 → Shared ι → Prop}
    (hP : Listening P)
    (hk : Idle i o x k) (hx : x.nextSeq = some next) (hcursor : o.cursor < k.2.issued.length)
    (hless : ∀ seq l, ¬ seq ≥ next → Idle i o x l → Q x seq l)
    (htaken : ∀ seq l (r : Receipt), seq ≥ next → r.number = seq.toNat →
      l.2.own i = { o with taking := some r } → Q x seq l) :
    P.Safe i Q ((Op.seq (next.toNat % kBufLength)).get x) k := by
  have hnext : next.toNat = o.cursor := hk.cursor next hx
  refine listens_safe hP trivial (fun l hkl _ => ?_) fun l hkl hl => ?_
  · rw [Pre, hkl.own, hk.own]
    exact ⟨next, hx, hnext, by rw [hnext], hcursor.trans_le hkl.issued.length_le⟩
  · have hown : (exec i (.seq (next.toNat % kBufLength)) () l).2.2.own i =
        o.look l.2.issued.length (l.1.seqs (next.toNat % kBufLength)).toNat := by
      rw [own_seq, hkl.own, hk.own]
    show Q x (l.1.seqs (next.toNat % kBufLength)) _
    by_cases hge : l.1.seqs (next.toNat % kBufLength) ≥ next
    · refine htaken _ _ ⟨o.cursor, (l.1.seqs (next.toNat % kBufLength)).toNat, l.2.issued.length⟩
        hge rfl (hown.trans ?_)
      have hle : o.cursor ≤ (l.1.seqs (next.toNat % kBufLength)).toNat := by
        rw [← hnext]
        exact hge
      exact Own.look_of_le hle
    · refine hless _ _ hge { hk with own := hown.trans ?_ }
      have hlt : (l.1.seqs (next.toNat % kBufLength)).toNat < o.cursor := by
        rw [← hnext]
        exact Nat.not_le.mp hge
      rw [Own.look_of_lt hlt, ← hk.taking]

/-- A listener takes the number that it finds, unless that is less than the one that it
expects. -/
theorem take_safe {next : BitVec 64} {Q : ConditionNotifier → Option ReadableInfo → Shared ι → Prop}
    (hP : Listening P)
    (hk : Idle i o x k) (hx : x.nextSeq = some next) (hcursor : o.cursor < k.2.issued.length)
    (hnone : ∀ l, Idle i o x l → Q x none l)
    (hsome : ∀ y o' r info l, Idle i o' y l → o'.returned.getLast? = some (r, info) →
      o'.cursor = r.number + 1 → y.nextSeq.isSome → Q y (some info) l) :
    P.Safe i Q (ConditionNotifier.take next x) k := by
  simp only [ConditionNotifier.take, Protocol.safe_seq, Protocol.safe_ite, Protocol.safe_pure,
    Protocol.safe_modify]
  refine seq_safe hP hk hx hcursor (fun seq l hless hl => ?_) fun seq l r hge hr hown => ?_
  · exact ⟨fun hge => absurd hge hless, fun _ => hnone l hl⟩
  · refine ⟨fun _ => ?_, fun hless => absurd hge hless⟩
    refine listens_safe hP trivial (fun m hlm hm => ?_) fun m hlm hm => ?_
    all_goals
      have hown' : m.2.own i = { o with taking := some r } := hlm.own.trans hown
      have htaking : (m.2.own i).taking = some r := by rw [hown']
      obtain ⟨hsound, hcursor', _⟩ := hm.taking i r htaking
    · have hslot := hsound.slot
      rw [hcursor', hown'] at hslot
      exact ⟨r, htaking, by rw [hslot, hk.cursor next hx]⟩
    · have hlt : seq.toNat + 1 < 2 ^ 64 := by
        have hlt := hsound.lt.trans_le hsound.issued
        have := hm.lt
        omega
      have hown'' : (exec i (.info (next.toNat % kBufLength)) () m).2.2.own i =
          { o with
            cursor := r.number + 1
            taking := none
            returned := o.returned ++ [(r, m.1.infos (next.toNat % kBufLength))] } := by
        rw [own_info, hown', Own.receive_of_taking rfl]
      refine hsome _ _ r _ _ ⟨hown'', rfl, by simp, fun next' hnext' => ?_⟩ ?_ rfl rfl
      · obtain rfl : seq + 1 = next' := Option.some.inj hnext'
        rw [BitVec.toNat_add, hr]
        exact Nat.mod_eq_of_lt hlt
      · exact List.getLast?_concat

/-- What is loaded is a later number than that of the cursor, where it is another one. -/
theorem poll_safe {Q : ConditionNotifier → Option ReadableInfo → Shared ι → Prop}
    (hP : Listening P)
    (hk : Idle i o x k) (hnone : ∀ l, Idle i o x l → Q x none l)
    (hsome : ∀ y o' r info l, Idle i o' y l → o'.returned.getLast? = some (r, info) →
      o'.cursor = r.number + 1 → y.nextSeq.isSome → Q y (some info) l) :
    P.Safe i Q (ConditionNotifier.poll x) k := by
  simp only [ConditionNotifier.poll, Protocol.safe_seq, Protocol.safe_get, Protocol.safe_deref,
    Protocol.safe_ite, Protocol.safe_pure]
  refine listens_safe hP trivial (fun _ _ _ => trivial) fun l hkl hl => ⟨fun next hx => ?_, fun _ => hP.crash⟩
  have hl' : Idle i o x l := hk.of_rely hkl
  refine ⟨fun hne => take_safe hP hl' hx ?_ hnone hsome, fun _ => hnone l hl'⟩
  refine Nat.lt_of_le_of_ne ?_ fun heq => hne ?_
  · have hle := hl.cursor i
    rwa [hl'.own] at hle
  · show l.1.nextSeq = next
    apply BitVec.eq_of_toNat_eq
    rw [toNat_nextSeq hl, hl'.cursor next hx, heq]
    rfl

theorem listen_safe {left : Nat} {Q : ConditionNotifier → Option ReadableInfo → Shared ι → Prop}
    (hP : Listening P)
    (hk : Idle i o x k) (hnone : ∀ l, Idle i o x l → Q x none l)
    (hsome : ∀ y o' r info l, Idle i o' y l → o'.returned.getLast? = some (r, info) →
      o'.cursor = r.number + 1 → y.nextSeq.isSome → Q y (some info) l) :
    P.Safe i Q (ConditionNotifier.listen left x) k := by
  induction left generalizing k with
  | zero => exact poll_safe hP hk hnone hsome
  | succ left ih =>
      simp only [ConditionNotifier.listen, Protocol.safe_seq, Protocol.safe_ite, Protocol.safe_pure]
      refine poll_safe hP hk (fun l hl => ⟨by simp, fun _ => ih hl⟩) ?_
      exact fun y o' r info l hl hr hcursor hy =>
        ⟨fun _ => hsome y o' r info l hl hr hcursor hy, fun h => absurd rfl h⟩

end Functions

/-! ### Every run -/

/-- A process at rest; one that has listened with success has returned what it took last. -/
def Rest (i : ι) (x : ConditionNotifier) (a : Answer) (k : Shared ι) : Prop :=
  ∃ o, Idle i o x k ∧ ∀ info, a = .listened (some info) →
    ∃ r, o.returned.getLast? = some (r, info) ∧ o.cursor = r.number + 1 ∧ x.nextSeq.isSome

theorem listening : Listening (protocol ι) :=
  ⟨fun h => h, fun h => h, fun _ h => h, trivial⟩

theorem body_safe {i : ι} {call : Call} {x : ConditionNotifier} {a : Answer} {k : Shared ι}
    (hrest : Rest i x a k) : (protocol ι).Safe i (Rest i) (call.body x) (enter i call k) := by
  obtain ⟨o, hidle, _⟩ := hrest
  cases call with
  | construct =>
      simp only [Call.body, Protocol.safe_seq, Protocol.safe_pure]
      exact construct_safe listening hidle fun y o' l hl => ⟨o', hl, by simp⟩
  | notify info =>
      simp only [Call.body, Protocol.safe_seq, Protocol.safe_pure]
      have hown : (enter i (.notify info) k).2.own i = { o with request := info } := by
        show Function.update k.2.own i _ i = _
        rw [Function.update_self, hidle.own]
      refine notify_safe (o := { o with request := info }) { hidle with own := hown } rfl
        fun o' l hl => ?_
      exact ⟨o', hl, by simp⟩
  | listen left =>
      simp only [Call.body, Protocol.safe_seq, Protocol.safe_pure]
      refine listen_safe listening hidle (fun l hl => ⟨o, hl, by simp⟩) fun y o' r info l hl hr hc hy => ?_
      refine ⟨o', hl, fun info' heq => ?_⟩
      cases heq
      exact ⟨r, hr, hc, hy⟩

/-- A listener returns each number once, the information with it is that of the `Notify`
with the number, and that had written it. -/
structure Delivers (t : State ι) : Prop where
  issued : ∀ i, ∀ e ∈ (t.shared.2.own i).returned,
    t.shared.2.issued[e.1.number]? = some e.2 ∧ e.1.number ∈ t.shared.2.written
  increasing : ∀ i, (t.shared.2.own i).returned.Pairwise fun e f => e.1.number < f.1.number
  nextSeq : ∀ i x info, t.threads i = .done x (.listened (some info)) →
    ∃ r seq, (t.shared.2.own i).returned.getLast? = some (r, info) ∧ x.nextSeq = some seq ∧
      seq.toNat = r.number + 1

def Condition (cfg : State ι) (e : Step ι) : Prop :=
  (protocol ι).Meets (fun _ _ _ _ => True) cfg e

theorem holds_start : (protocol ι).Holds Rest (start ι) where
  inv :=
    { nextSeq := rfl
      lt := Nat.two_pow_pos 64
      infos := nofun
      seqs := nofun
      cursor := fun _ => Nat.zero_le _
      taking := nofun
      returned := nofun
      increasing := fun _ => List.Pairwise.nil }
  safe _ := ⟨{}, ⟨rfl, rfl, fun _ => rfl, nofun⟩, nofun⟩

theorem holds_of_along {es : List (Step ι)}
    (hes : Run.Along step ((protocol ι).Meets fun _ _ _ _ => True) (start ι) es) :
    ∀ t ∈ Run.states step (start ι) es, (protocol ι).Holds Rest t := by
  refine Protocol.sound ?_ ?_ ?_ holds_start hes
  · intro i x a k l h hkl _
    obtain ⟨o, hidle, hreturned⟩ := h
    exact ⟨o, hidle.of_rely hkl, hreturned⟩
  · exact fun i call x a k hk _ _ => keeps_enter hk
  · exact fun i call x a k _ hrest _ => body_safe hrest

theorem delivers {es : List (Step ι)} (hes : Run.Along step Condition (start ι) es) :
    ∀ t ∈ Run.states step (start ι) es, Delivers t := by
  intro t ht
  have hholds := holds_of_along hes t ht
  refine ⟨fun i e he => ?_, hholds.inv.increasing, fun i x info hi => ?_⟩
  · obtain ⟨hsound, _, hinfo⟩ := hholds.inv.returned i e he
    exact ⟨hinfo, hsound.written⟩
  · obtain ⟨o, hidle, hreturned⟩ := hholds.rest hi
    obtain ⟨r, hr, hcursor, hsome⟩ := hreturned info rfl
    obtain ⟨seq, hseq⟩ := Option.isSome_iff_exists.mp hsome
    refine ⟨r, seq, ?_, hseq, (hidle.cursor seq hseq).trans hcursor⟩
    rw [hidle.own, hr]

def blockOne : ReadableInfo := { blockIndex := 1 }

/-- A `Notify` comes to its end before the listener polls. -/
def inTurn : List (Step Nat) :=
  [.call 1 .construct, .act 1 (), .call 0 (.notify blockOne), .act 0 (), .act 0 (), .act 0 (),
    .call 1 (.listen 0), .act 1 (), .act 1 (), .act 1 ()]

theorem delivers_inTurn : Delivers (Run.exec step (start Nat) inTurn) := by
  refine delivers ?_ _ (Run.exec_mem_states _ _ _)
  refine ⟨fun x a _ => trivial, ?_, fun x a _ => trivial, ?_, ?_, ?_, fun x a _ => trivial, ?_, ?_,
    ?_, trivial⟩ <;> intro x o k hi <;> cases hi
  case refine_2 => exact show 0 + 1 < 2 ^ 64 by decide
  case refine_3 =>
    -- nobody is taking anything
    intro j r hr
    rcases j with _ | _ | j <;> cases hr
  case refine_6 => exact fun _ _ _ => ⟨rfl, rfl⟩
  all_goals trivial

/-- A listener polls after the number has been drawn and before anything is written. -/
def tooEarly : List (Step Nat) :=
  [.call 1 .construct, .act 1 (), .call 0 (.notify blockOne), .act 0 (),
    .call 1 (.listen 0), .act 1 (), .act 1 (), .act 1 ()]

/-- The number of a fresh slot is 0, and so is the one that the listener expects: it
takes the information that nobody has written. -/
theorem tooEarly_not_delivers : ¬ ∀ es, ∀ t ∈ Run.states step (start Nat) es, Delivers t := by
  intro h
  have hdelivers := h tooEarly _ (Run.exec_mem_states step _ tooEarly)
  have hreturned : ((Run.exec step (start Nat) tooEarly).shared.2.own 1).returned =
      [(⟨0, 0, 1⟩, {})] := by rfl
  have hissued := (hdelivers.issued 1 (⟨0, 0, 1⟩, {}) (by rw [hreturned]; simp)).1
  have hblock : (Run.exec step (start Nat) tooEarly).shared.2.issued[0]? = some blockOne := by rfl
  rw [hblock] at hissued
  exact absurd hissued (by decide)

end Publication
end Notifier
end Transport
end Cmw
