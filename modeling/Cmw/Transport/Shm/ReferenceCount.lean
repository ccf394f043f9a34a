import Cmw.Transport.Shm.SegmentRules
import Mathlib.Data.Finset.Card

/-!
# Who holds the segment of a channel

Any number of processes that open the segment of one channel and destroy their
`XsiSegment`, without `Recreate`.  A process holds the segment from its increment of
the count to its decrement.  The count is the number of holders as long as no process
counts itself in while another is on its way to remove the key, or into a segment
that is not the one under the key, or not constructed yet: nothing in the source
keeps it from that, and the condition on the steps is just this.
-/

namespace Cmw
namespace Transport
namespace Shm

open Library
open Library.Thread

namespace ReferenceCount

structure History (ι : Type) where
  /-- who has incremented the count, and not yet decremented it -/
  holders : Finset ι := ∅
  /-- who has read the count zero, and not yet removed the key -/
  removers : Finset ι := ∅
  creator : Nat → Option ι := fun _ => none
  constructed : Nat → Bool := fun _ => false

variable {ι : Type} [DecidableEq ι]

def note (i : ι) : (o : Op) → Ans o → History ι → History ι
  | .create _, .ok s, h => { h with creator := Function.update h.creator s (some i) }
  | .newState s _, _, h => { h with constructed := Function.update h.constructed s true }
  | .increaseReferenceCounts _, _, h => { h with holders := insert i h.holders }
  | .exchangeReferenceCount _ _, (true, _), h => { h with holders := h.holders.erase i }
  | .referenceCounts _, n, h => if n = 0 then { h with removers := insert i h.removers } else h
  | .lookup .removal, none, h => { h with removers := h.removers.erase i }
  | .rmid _, _, h => { h with removers := h.removers.erase i }
  | _, _, h => h

abbrev Shared (ι : Type) := Kernel × History ι

def exec (i : ι) (o : Op) (ok : Bool) (k : Shared ι) : Ans o × Shared ι :=
  noting (S := sig) (fun o ok k => k.exec ok o) note i o ok k

/-- The count of the segment under the key is the number of its holders. -/
structure Inv (k : Shared ι) : Prop where
  key_lt : ∀ s, k.1.key = some s → s < k.1.count
  fresh : ∀ s, k.1.count ≤ s → k.2.creator s = none ∧ k.2.constructed s = false
  size : ∀ s, k.1.key = some s → ShmConf.default.managedShmSize ≤ k.1.shmmax
  conf : ∀ s, ShmConf.update (k.1.segments s).ceilingMsgSize = .default
  no_key : k.1.key = none → k.2.holders = ∅
  raw : ∀ s, k.1.key = some s → k.2.constructed s = false → k.2.holders = ∅
  count : ∀ s, k.1.key = some s → k.2.constructed s = true →
    (k.1.segments s).referenceCount = BitVec.ofNat 32 k.2.holders.card
  card : k.2.holders.card < 2 ^ 32
  removing : k.2.removers ≠ ∅ → k.2.holders = ∅

/-- What the others leave to process `i`: whether it is a holder or a remover, the key
while it holds, and the segment that it constructs. -/
structure Rely (i : ι) (k l : Shared ι) : Prop where
  holder : i ∈ l.2.holders ↔ i ∈ k.2.holders
  remover : i ∈ l.2.removers ↔ i ∈ k.2.removers
  key : i ∈ k.2.holders → l.1.key = k.1.key
  constructed : ∀ s, k.2.constructed s = true → l.2.constructed s = true
  mine : ∀ s, k.2.creator s = some i →
    l.2.creator s = some i ∧ l.2.constructed s = k.2.constructed s
  shmmax : l.1.shmmax = k.1.shmmax

omit [DecidableEq ι] in
theorem Rely.refl (i : ι) (k : Shared ι) : Rely i k k :=
  ⟨Iff.rfl, Iff.rfl, fun _ => rfl, fun _ h => h, fun _ h => ⟨h, rfl⟩, rfl⟩

omit [DecidableEq ι] in
theorem Rely.trans {i : ι} {k l m : Shared ι} (h : Rely i k l) (h' : Rely i l m) : Rely i k m where
  holder := h'.holder.trans h.holder
  remover := h'.remover.trans h.remover
  key hi := (h'.key (h.holder.mpr hi)).trans (h.key hi)
  constructed s hs := h'.constructed s (h.constructed s hs)
  mine s hs := ⟨(h'.mine s (h.mine s hs).1).1, ((h'.mine s (h.mine s hs).1).2).trans (h.mine s hs).2⟩
  shmmax := h'.shmmax.trans h.shmmax

/-- A process counts itself in only in the segment under the key, once that is
constructed and while no other is on its way to remove the key; and one that reads the
count zero after its decrement reads it in the segment under the key, unless nobody
holds that. -/
def Cond (_ : ι) (_ : XsiSegment) (o : Op) (_ : Bool) (k : Shared ι) : Prop :=
  match o with
  | .increaseReferenceCounts s => k.1.key = some s ∧ k.2.constructed s = true ∧
      k.2.removers = ∅ ∧ k.2.holders.card + 1 < 2 ^ 32
  | .referenceCounts s => (k.1.segments s).referenceCount = 0 →
      k.1.key = some s ∨ k.2.holders = ∅
  | _ => True

/-- What a process knows when it performs an operation. -/
def Pre (i : ι) (_ : XsiSegment) (o : Op) (k : Shared ι) : Prop :=
  match o with
  | .create conf => conf = .default
  | .newState s c => k.2.creator s = some i ∧ k.2.constructed s = false ∧
      ShmConf.update c = .default
  | .increaseReferenceCounts _ => i ∉ k.2.holders
  | .exchangeReferenceCount s _ => i ∈ k.2.holders ∧ k.1.key = some s
  | .referenceCounts s => k.2.constructed s = true
  | .rmid s => i ∈ k.2.removers ∨ k.2.creator s = some i ∧ k.2.constructed s = false
  | .lookup _ | .shmat _ _ | .shmdt _ | .newBlocks _ _ | .ceilingMsgSize _ _
  | .loadReferenceCount _ => True
  | _ => False

/-! ### What the operations keep -/

omit [DecidableEq ι] in
/-- An operation that changes no count, no key and no ceiling. -/
theorem keeps_of_same {i : ι} {k l : Shared ι} (hk : Inv k) (hkey : l.1.key = k.1.key)
    (hcount : l.1.count = k.1.count) (hshmmax : l.1.shmmax = k.1.shmmax)
    (hseg : ∀ s, (l.1.segments s).referenceCount = (k.1.segments s).referenceCount ∧
      (l.1.segments s).ceilingMsgSize = (k.1.segments s).ceilingMsgSize)
    (hholders : l.2.holders = k.2.holders) (hcreator : l.2.creator = k.2.creator)
    (hconstructed : l.2.constructed = k.2.constructed)
    (hremovers : l.2.removers ⊆ k.2.removers)
    (hother : ∀ j, j ≠ i → (j ∈ l.2.removers ↔ j ∈ k.2.removers)) :
    Inv l ∧ ∀ j, j ≠ i → Rely j k l := by
  refine ⟨⟨?_, ?_, ?_, ?_, ?_, ?_, ?_, ?_, ?_⟩, fun j hj => ⟨?_, hother j hj, ?_, ?_, ?_, hshmmax⟩⟩
  · rw [hkey, hcount]
    exact hk.key_lt
  · rw [hcount, hcreator, hconstructed]
    exact hk.fresh
  · rw [hkey, hshmmax]
    exact hk.size
  · intro s
    rw [(hseg s).2]
    exact hk.conf s
  · rw [hkey, hholders]
    exact hk.no_key
  · rw [hkey, hholders, hconstructed]
    exact hk.raw
  · intro s hs hc
    rw [(hseg s).1, hholders]
    exact hk.count s (hkey ▸ hs) (hconstructed ▸ hc)
  · rw [hholders]
    exact hk.card
  · intro h
    rw [hholders]
    refine hk.removing fun hempty => h ?_
    exact Finset.subset_empty.mp (hempty ▸ hremovers)
  · rw [hholders]
  · exact fun _ => hkey
  · exact fun s hs => hconstructed ▸ hs
  · intro s hs
    rw [hcreator, hconstructed]
    exact ⟨hs, rfl⟩

/-- A new segment comes under the key. -/
def created (i : ι) (k : Shared ι) : Shared ι :=
  ({ k.1 with
      key := some k.1.count
      segments := Function.update k.1.segments k.1.count { conf := .default }
      count := k.1.count + 1 },
    { k.2 with creator := Function.update k.2.creator k.1.count (some i) })

omit [DecidableEq ι] in
theorem keeps_created {i : ι} {k : Shared ι} (hk : Inv k) (hkey : k.1.key = none)
    (hsize : ShmConf.default.managedShmSize ≤ k.1.shmmax) :
    Inv (created i k) ∧ ∀ j, j ≠ i → Rely j k (created i k) := by
  have hholders : k.2.holders = ∅ := hk.no_key hkey
  obtain ⟨hcreator, hconstructed⟩ := hk.fresh k.1.count (Nat.le_refl _)
  refine ⟨{ key_lt := ?_, fresh := ?_, size := ?_, conf := ?_, no_key := nofun, raw := ?_,
            count := ?_, card := hk.card, removing := hk.removing }, fun j hj => ?_⟩
  · intro s hs
    cases hs
    exact Nat.lt_succ_self _
  · intro s hs
    have hne : s ≠ k.1.count := by
      intro h
      rw [h] at hs
      exact Nat.not_succ_le_self _ hs
    simpa [created, hne] using hk.fresh s (Nat.le_of_succ_le hs)
  · exact fun _ _ => hsize
  · intro s
    show ShmConf.update (Function.update k.1.segments k.1.count _ s).ceilingMsgSize = _
    by_cases hs : s = k.1.count
    · simp only [hs, Function.update_self]
      decide
    · rw [Function.update_of_ne hs]
      exact hk.conf s
  · exact fun _ _ _ => hholders
  · intro s hs hc
    cases hs
    exact absurd (hconstructed.symm.trans hc) nofun
  · refine ⟨Iff.rfl, Iff.rfl, fun h => ?_, fun _ h => h, fun s hs => ?_, rfl⟩
    · rw [hholders] at h
      exact absurd h (Finset.notMem_empty j)
    · have hne : s ≠ k.1.count := by
        intro h
        rw [h, hcreator] at hs
        cases hs
      exact ⟨by simpa [created, hne] using hs, rfl⟩

/-- The creator puts the `State` in place. -/
def constructed (s c : Nat) (k : Shared ι) : Shared ι :=
  (k.1.update s fun m =>
    { m with needRemap := false, seq := 0, referenceCount := 0, ceilingMsgSize := c },
    { k.2 with constructed := Function.update k.2.constructed s true })

omit [DecidableEq ι] in
theorem keeps_constructed {i : ι} {s c : Nat} {k : Shared ι} (hk : Inv k)
    (hcreator : k.2.creator s = some i) (hraw : k.2.constructed s = false)
    (hc : ShmConf.update c = .default) :
    Inv (constructed s c k) ∧ ∀ j, j ≠ i → Rely j k (constructed s c k) := by
  refine ⟨{ key_lt := hk.key_lt, fresh := ?_, size := hk.size, conf := ?_, no_key := hk.no_key,
            raw := ?_, count := ?_, card := hk.card, removing := hk.removing }, fun j hj => ?_⟩
  · intro t ht
    have hne : t ≠ s := by
      intro h
      rw [h] at ht
      exact absurd ((hk.fresh s ht).1.symm.trans hcreator) nofun
    simpa [constructed, hne] using hk.fresh t ht
  · intro t
    simp only [constructed, Kernel.segments_update]
    split
    · exact hc
    · exact hk.conf t
  · intro t ht hct
    refine hk.raw t ht ?_
    by_cases hts : t = s
    · simp [constructed, hts] at hct
    · simpa [constructed, hts] using hct
  · intro t ht hct
    by_cases hts : t = s
    · subst hts
      simp [constructed, hk.raw t ht hraw]
    · simp only [constructed, Kernel.segments_update, if_neg hts]
      exact hk.count t ht (by simpa [constructed, hts] using hct)
  · refine ⟨Iff.rfl, Iff.rfl, fun _ => rfl, fun t ht => ?_, fun t ht => ⟨ht, ?_⟩, rfl⟩
    · by_cases hts : t = s
      · simp [constructed, hts]
      · simpa [constructed, hts] using ht
    · have hne : t ≠ s := by
        intro h
        rw [h, hcreator] at ht
        exact hj (Option.some.inj ht).symm
      simp [constructed, hne]

/-- A process counts itself in. -/
def counted (i : ι) (s : Nat) (k : Shared ι) : Shared ι :=
  (k.1.update s fun m => { m with referenceCount := m.referenceCount + 1 },
    { k.2 with holders := insert i k.2.holders })

theorem keeps_counted {i : ι} {s : Nat} {k : Shared ι} (hk : Inv k) (hi : i ∉ k.2.holders)
    (hkey : k.1.key = some s) (hconstructed : k.2.constructed s = true)
    (hremovers : k.2.removers = ∅) (hcard : k.2.holders.card + 1 < 2 ^ 32) :
    Inv (counted i s k) ∧ ∀ j, j ≠ i → Rely j k (counted i s k) := by
  have hcard' : (counted i s k).2.holders.card = k.2.holders.card + 1 :=
    Finset.card_insert_of_notMem hi
  refine ⟨{ key_lt := hk.key_lt, fresh := hk.fresh, size := hk.size, conf := ?_, no_key := ?_,
            raw := ?_, count := ?_, card := by omega, removing := ?_ }, fun j hj => ?_⟩
  · intro t
    simp only [counted, Kernel.segments_update]
    split
    case isTrue => exact hk.conf s
    case isFalse => exact hk.conf t
  · exact fun h => absurd (hkey.symm.trans h) nofun
  · intro t ht hraw
    cases hkey.symm.trans ht
    exact absurd (hconstructed.symm.trans hraw) nofun
  · intro t ht _
    cases hkey.symm.trans ht
    rw [hcard']
    simp [counted, hk.count s hkey hconstructed, BitVec.ofNat_add]
  · exact fun h => absurd hremovers h
  · refine ⟨?_, Iff.rfl, fun _ => rfl, fun _ h => h, fun _ h => ⟨h, rfl⟩, rfl⟩
    show j ∈ insert i k.2.holders ↔ _
    simp [hj]

/-- A holder counts itself out. -/
def uncounted (i : ι) (s : Nat) (expected : BitVec 32) (k : Shared ι) : Shared ι :=
  (k.1.update s fun m => { m with referenceCount := expected - 1 },
    { k.2 with holders := k.2.holders.erase i })

omit [DecidableEq ι] in
theorem Inv.constructed_of_holder {i : ι} {s : Nat} {k : Shared ι} (hk : Inv k)
    (hi : i ∈ k.2.holders) (hkey : k.1.key = some s) : k.2.constructed s = true := by
  by_contra h
  have hempty := hk.raw s hkey (by simpa using h)
  rw [hempty] at hi
  exact Finset.notMem_empty i hi

omit [DecidableEq ι] in
/-- A holder finds itself counted. -/
theorem Inv.count_ne_zero {i : ι} {s : Nat} {k : Shared ι} (hk : Inv k) (hi : i ∈ k.2.holders)
    (hkey : k.1.key = some s) : (k.1.segments s).referenceCount ≠ 0 := by
  have hcard := hk.card
  have hpos : 0 < k.2.holders.card := Finset.card_pos.mpr ⟨i, hi⟩
  rw [hk.count s hkey (hk.constructed_of_holder hi hkey)]
  intro h
  have hnat := congrArg BitVec.toNat h
  simp only [BitVec.toNat_ofNat, BitVec.ofNat_eq_ofNat, Nat.zero_mod] at hnat
  omega

theorem keeps_uncounted {i : ι} {s : Nat} {k : Shared ι} (hk : Inv k) (hi : i ∈ k.2.holders)
    (hkey : k.1.key = some s) :
    Inv (uncounted i s (k.1.segments s).referenceCount k) ∧
      ∀ j, j ≠ i → Rely j k (uncounted i s (k.1.segments s).referenceCount k) := by
  have hconstructed := hk.constructed_of_holder hi hkey
  have hcard : (k.2.holders.erase i).card = k.2.holders.card - 1 := Finset.card_erase_of_mem hi
  have hpos : 0 < k.2.holders.card := Finset.card_pos.mpr ⟨i, hi⟩
  have hmax := hk.card
  refine ⟨{ key_lt := hk.key_lt, fresh := hk.fresh, size := hk.size, conf := ?_, no_key := ?_,
            raw := ?_, count := ?_, card := ?_, removing := ?_ }, fun j hj => ?_⟩
  · intro t
    simp only [uncounted, Kernel.segments_update]
    split
    case isTrue => exact hk.conf s
    case isFalse => exact hk.conf t
  · exact fun h => absurd (hkey.symm.trans h) nofun
  · intro t ht hraw
    cases hkey.symm.trans ht
    exact absurd (hconstructed.symm.trans hraw) nofun
  · intro t ht _
    cases hkey.symm.trans ht
    have hleft : ((uncounted i s (k.1.segments s).referenceCount k).1.segments s).referenceCount =
        (k.1.segments s).referenceCount - 1 := by simp [uncounted]
    rw [hleft]
    show _ = BitVec.ofNat 32 (k.2.holders.erase i).card
    rw [hcard, hk.count s hkey hconstructed]
    apply BitVec.eq_of_toNat_eq
    simp only [BitVec.toNat_sub, BitVec.toNat_ofNat, BitVec.ofNat_eq_ofNat]
    omega
  · show (k.2.holders.erase i).card < 2 ^ 32
    omega
  · intro h
    rw [hk.removing h] at hi
    exact absurd hi (Finset.notMem_empty i)
  · refine ⟨?_, Iff.rfl, fun _ => rfl, fun _ h => h, fun _ h => ⟨h, rfl⟩, rfl⟩
    show j ∈ k.2.holders.erase i ↔ _
    simp [hj]

/-- A process that reads the count zero is on its way to remove the key. -/
theorem keeps_leaving {i : ι} {s : Nat} {k : Shared ι} (hk : Inv k)
    (hconstructed : k.2.constructed s = true) (hzero : (k.1.segments s).referenceCount = 0)
    (hkey : k.1.key = some s ∨ k.2.holders = ∅) :
    Inv (k.1, { k.2 with removers := insert i k.2.removers }) ∧
      ∀ j, j ≠ i → Rely j k (k.1, { k.2 with removers := insert i k.2.removers }) := by
  have hholders : k.2.holders = ∅ := by
    rcases hkey with hkey | h
    · have hcard := hk.card
      have hcount := hk.count s hkey hconstructed
      rw [hzero] at hcount
      have hnat := congrArg BitVec.toNat hcount
      simp only [BitVec.toNat_ofNat, BitVec.ofNat_eq_ofNat, Nat.zero_mod] at hnat
      apply Finset.card_eq_zero.mp
      omega
    · exact h
  refine ⟨{ hk with removing := fun _ => hholders }, fun j hj => ?_⟩
  refine ⟨Iff.rfl, ?_, fun _ => rfl, fun _ h => h, fun _ h => ⟨h, rfl⟩, rfl⟩
  show j ∈ insert i k.2.removers ↔ _
  simp [hj]

/-- The key is removed, where nobody holds the segment under it. -/
theorem keeps_removed {i : ι} {s : Nat} {k : Shared ι} (hk : Inv k)
    (hs : k.1.key = some s → k.2.holders = ∅) (ok : Bool) :
    Inv (exec i (.rmid s) ok k).2 ∧ ∀ j, j ≠ i → Rely j k (exec i (.rmid s) ok k).2 := by
  have hother : ∀ j, j ≠ i → (j ∈ k.2.removers.erase i ↔ j ∈ k.2.removers) := fun j hj => by
    simp [hj]
  by_cases hrm : ok = true ∧ k.1.key = some s
  · have hholders := hs hrm.2
    have hexec : (exec i (.rmid s) ok k).2 =
        ({ k.1 with key := none }, { k.2 with removers := k.2.removers.erase i }) := by
      simp [exec, noting, Kernel.exec, note, hrm]
    rw [hexec]
    refine ⟨{ key_lt := nofun, fresh := hk.fresh, size := nofun, conf := hk.conf,
              no_key := fun _ => hholders, raw := nofun, count := nofun, card := hk.card,
              removing := fun _ => hholders }, fun j hj => ?_⟩
    refine ⟨Iff.rfl, hother j hj, fun h => ?_, fun _ h => h, fun _ h => ⟨h, rfl⟩, rfl⟩
    rw [hholders] at h
    exact absurd h (Finset.notMem_empty j)
  · have hexec : (exec i (.rmid s) ok k).2 =
        (k.1, { k.2 with removers := k.2.removers.erase i }) := by
      simp only [exec, noting, Kernel.exec, note, if_neg hrm]
    rw [hexec]
    exact keeps_of_same hk rfl rfl rfl (fun _ => ⟨rfl, rfl⟩) rfl rfl rfl
      (Finset.erase_subset i _) hother

theorem keeps {i : ι} {x : XsiSegment} {o : Op} {ok : Bool} {k : Shared ι} (hk : Inv k)
    (hpre : Pre i x o k) (hc : Cond i x o ok k) :
    Inv (exec i o ok k).2 ∧ ∀ j, j ≠ i → Rely j k (exec i o ok k).2 := by
  have hsame : Inv k ∧ ∀ j, j ≠ i → Rely j k k := ⟨hk, fun j _ => Rely.refl j k⟩
  cases o with
  | create conf =>
      obtain rfl : conf = .default := hpre
      cases hkey : k.1.key with
      | some s => simpa [exec, noting, Kernel.exec, hkey, note] using hsame
      | none =>
          by_cases hsize : ShmConf.default.managedShmSize > k.1.shmmax
          · simpa [exec, noting, Kernel.exec, hkey, hsize, note] using hsame
          cases ok with
          | false => simpa [exec, noting, Kernel.exec, hkey, hsize, note] using hsame
          | true =>
              have hexec : (exec i (.create .default) true k).2 = created i k := by
                simp [exec, noting, Kernel.exec, hkey, hsize, note, created]
              rw [hexec]
              exact keeps_created hk hkey (Nat.le_of_not_lt hsize)
  | lookup site =>
      have hexec : (exec i (.lookup site) ok k).2 =
          (k.1, note i (.lookup site) (if ok then k.1.key else none) k.2) := rfl
      rw [hexec]
      generalize (if ok then k.1.key else none) = shmid
      by_cases hrm : site = .removal ∧ shmid = none
      · obtain ⟨rfl, rfl⟩ := hrm
        exact keeps_of_same hk rfl rfl rfl (fun _ => ⟨rfl, rfl⟩) rfl rfl rfl
          (Finset.erase_subset i _) fun j hj => by simp [note, hj]
      · have hnote : note i (.lookup site) shmid k.2 = k.2 := by
          cases shmid with
          | some s => cases site <;> rfl
          | none => cases site <;> first | rfl | exact absurd ⟨rfl, rfl⟩ hrm
        rw [hnote]
        exact hsame
  | shmat s site => exact hsame
  | shmdt s => exact hsame
  | ceilingMsgSize s site => exact hsame
  | loadReferenceCount s => exact hsame
  | newBlocks s n =>
      refine keeps_of_same hk rfl rfl rfl (fun t => ?_) rfl rfl rfl (Finset.Subset.refl _)
        fun _ _ => Iff.rfl
      simp only [exec, noting, Kernel.exec, Kernel.segments_update]
      split
      case isTrue h => exact h ▸ ⟨rfl, rfl⟩
      case isFalse => exact ⟨rfl, rfl⟩
  | newState s c => exact keeps_constructed hk hpre.1 hpre.2.1 hpre.2.2
  | increaseReferenceCounts s => exact keeps_counted hk hpre hc.1 hc.2.1 hc.2.2.1 hc.2.2.2
  | exchangeReferenceCount s expected =>
      by_cases h : (k.1.segments s).referenceCount = expected
      · subst h
        have hexec : (exec i (.exchangeReferenceCount s (k.1.segments s).referenceCount) ok k).2 =
            uncounted i s (k.1.segments s).referenceCount k := by
          simp [exec, noting, Kernel.exec, note, uncounted]
        rw [hexec]
        exact keeps_uncounted hk hpre.1 hpre.2
      · have hexec : (exec i (.exchangeReferenceCount s expected) ok k).2 = k := by
          simp [exec, noting, Kernel.exec, note, h]
        rw [hexec]
        exact hsame
  | referenceCounts s =>
      have hexec : (exec i (.referenceCounts s) ok k).2 =
          (k.1, if (k.1.segments s).referenceCount = 0 then
            { k.2 with removers := insert i k.2.removers } else k.2) := rfl
      rw [hexec]
      split
      case isTrue hzero => exact keeps_leaving hk hpre hzero (hc hzero)
      case isFalse => exact hsame
  | rmid s =>
      refine keeps_removed hk (fun hkey => ?_) ok
      rcases hpre with h | ⟨_, hraw⟩
      · exact hk.removing (Finset.ne_empty_of_mem h)
      · exact hk.raw s hkey hraw
  | _ => exact absurd hpre id

def protocol (ι : Type) [DecidableEq ι] :
    Protocol sig ι XsiSegment (Shared ι) Bool (exec (ι := ι)) where
  Inv := Inv
  Rely := Rely
  Cond := Cond
  Pre := Pre
  Crash := True
  Hang _ _ := True
  refl := Rely.refl
  trans := Rely.trans
  hang_stable _ _ := trivial
  keeps := keeps

/-! ### What a process knows -/

/-- It neither holds the segment nor is on its way to remove the key. -/
def Out (i : ι) (k : Shared ι) : Prop := i ∉ k.2.holders ∧ i ∉ k.2.removers

/-- It holds the segment under the key. -/
def In (i : ι) (s : Nat) (k : Shared ι) : Prop :=
  i ∈ k.2.holders ∧ i ∉ k.2.removers ∧ k.1.key = some s

/-- It has created segment `s`, and not constructed it yet. -/
def Creating (i : ι) (s : Nat) (k : Shared ι) : Prop :=
  Out i k ∧ k.2.creator s = some i ∧ k.2.constructed s = false

section Knowledge

variable {i : ι} {s : Nat} {k l : Shared ι}

omit [DecidableEq ι] in
theorem Out.of_rely (h : Out i k) (hkl : Rely i k l) : Out i l :=
  ⟨fun hi => h.1 (hkl.holder.mp hi), fun hi => h.2 (hkl.remover.mp hi)⟩

omit [DecidableEq ι] in
theorem In.of_rely (h : In i s k) (hkl : Rely i k l) : In i s l :=
  ⟨hkl.holder.mpr h.1, fun hi => h.2.1 (hkl.remover.mp hi), (hkl.key h.1).trans h.2.2⟩

omit [DecidableEq ι] in
theorem Creating.of_rely (h : Creating i s k) (hkl : Rely i k l) : Creating i s l :=
  ⟨h.1.of_rely hkl, (hkl.mine s h.2.1).1, ((hkl.mine s h.2.1).2).trans h.2.2⟩

/-- The operations that do not touch the count. -/
def quiet : Op → Bool
  | .increaseReferenceCounts _ | .exchangeReferenceCount _ _ | .referenceCounts _ => false
  | _ => true

theorem note_quiet {o : Op} (ho : quiet o = true) (a : Ans o) (h : History ι) :
    (note i o a h).holders = h.holders ∧ (note i o a h).removers ⊆ h.removers := by
  have hsame : h.holders = h.holders ∧ h.removers ⊆ h.removers := ⟨rfl, Finset.Subset.refl _⟩
  have herase : h.holders = h.holders ∧ h.removers.erase i ⊆ h.removers :=
    ⟨rfl, Finset.erase_subset i _⟩
  cases o with
  | create conf => cases a <;> exact hsame
  | lookup site => cases a <;> cases site <;> first | exact hsame | exact herase
  | rmid s => exact herase
  | increaseReferenceCounts s => cases ho
  | exchangeReferenceCount s e => cases ho
  | referenceCounts s => cases ho
  | _ => exact hsame

theorem Out.exec (h : Out i k) {o : Op} (ho : quiet o = true) (ok : Bool) :
    Out i (exec i o ok k).2 := by
  obtain ⟨hholders, hremovers⟩ := note_quiet (i := i) ho (k.1.exec ok o).1 k.2
  refine ⟨fun hi => h.1 ?_, fun hi => h.2 (hremovers hi)⟩
  rw [← hholders]
  exact hi

end Knowledge

section Functions

variable {i : ι} {x : XsiSegment} {k : Shared ι}

/-- An operation of a process that is out, on nothing that counts. -/
theorem out_safe {o : Op} {Q : XsiSegment → Ans o → Shared ι → Prop} (hk : Out i k)
    (ho : quiet o = true) (hpre : ∀ l, Rely i k l → Inv l → Pre i x o l)
    (hQ : ∀ ok l, Inv l → Out i (exec i o ok l).2 → Q x (exec i o ok l).1 (exec i o ok l).2) :
    (protocol ι).Safe i Q (o.get x) k :=
  Protocol.safe_op hpre fun ok l hkl hl _ => hQ ok l hl ((hk.of_rely hkl).exec ho ok)

/-- Another one, whose answer does not matter. -/
theorem unanswered_safe {o : Op} {Q : XsiSegment → Ans o → Shared ι → Prop} (hk : Out i k)
    (ho : quiet o = true) (hpre : ∀ l, Rely i k l → Inv l → Pre i x o l)
    (hQ : ∀ a l, Out i l → Q x a l) :
    (protocol ι).Safe i Q (o.get x) k :=
  out_safe hk ho hpre fun _ _ _ h => hQ _ _ h

theorem ceiling_safe {s : Nat} {site : Site} {Q : XsiSegment → Nat → Shared ι → Prop}
    (hk : Out i k) (hQ : ∀ c l, Out i l → ShmConf.update c = .default → Q x c l) :
    (protocol ι).Safe i Q ((Op.ceilingMsgSize s site).get x) k :=
  out_safe hk rfl (fun _ _ _ => trivial) fun _ _ hl h => hQ _ _ h (hl.conf s)

theorem shmat_safe {s : Nat} {site : Site} {Q : XsiSegment → Bool → Shared ι → Prop}
    (hQ : ∀ a l, Rely i k l → Q x a l) :
    (protocol ι).Safe i Q ((Op.shmat s site).get x) k :=
  Protocol.safe_op (fun _ _ _ => trivial) fun ok l hkl _ _ => hQ ok l hkl

theorem increase_safe {s : Nat} {Q : XsiSegment → Unit → Shared ι → Prop} (hk : Out i k)
    (hQ : ∀ l, In i s l → Q x () l) :
    (protocol ι).Safe i Q ((Op.increaseReferenceCounts s).get x) k := by
  refine Protocol.safe_op (fun l hkl _ => (hk.of_rely hkl).1)
    fun ok l hkl _ hc => hQ _ ⟨?_, ?_, hc.1⟩
  · exact Finset.mem_insert_self i _
  · exact (hk.of_rely hkl).2

theorem openOnly_safe {site : Site} {Q : XsiSegment → Bool → Shared ι → Prop} (hk : Out i k)
    (hx : x.init = false) (hconf : x.conf = .default)
    (hfalse : ∀ (y : XsiSegment) (l : Shared ι), y.init = false → y.conf = .default → Out i l →
      Q y false l)
    (htrue : ∀ (y : XsiSegment) (s : Nat) (l : Shared ι), y.init = true → y.conf = .default →
      y.managedShm = .mapped s → y.state = some s → In i s l → Q y true l) :
    (protocol ι).Safe i Q (XsiSegment.openOnly site x) k := by
  refine safe_openOnly hx (unanswered_safe hk rfl (fun _ _ _ => trivial) fun _ l hl =>
    ⟨fun _ => hfalse x l hx hconf hl, fun s _ => ?_⟩)
  refine unanswered_safe hl rfl (fun _ _ _ => trivial) fun _ m hm =>
    ⟨fun _ => hfalse _ m hx hconf hm, fun _ => ?_⟩
  refine ceiling_safe hm fun c n hn hc => ?_
  exact increase_safe hn fun p hp => htrue _ s p rfl hc rfl rfl hp

theorem setUp_safe {s : Nat} {Q : XsiSegment → Bool → Shared ι → Prop} (hk : Creating i s k)
    (hx : x.init = false) (hconf : x.conf = .default)
    (hfalse : ∀ (y : XsiSegment) (l : Shared ι), y.init = false → y.conf = .default → Out i l →
      Q y false l)
    (htrue : ∀ (y : XsiSegment) (s : Nat) (l : Shared ι), y.init = true → y.conf = .default →
      y.managedShm = .mapped s → y.state = some s → In i s l → Q y true l) :
    (protocol ι).Safe i Q (XsiSegment.setUp s x) k := by
  refine safe_setUp (shmat_safe fun _ l hkl => ?_)
  have hl : Creating i s l := hk.of_rely hkl
  refine ⟨fun _ => ?_, fun _ => ?_⟩
  · refine unanswered_safe hl.1 rfl (fun m hlm _ => .inr (hl.of_rely hlm).2) fun _ m hm => ?_
    exact hfalse _ m hx hconf hm
  refine unanswered_safe hl.1 rfl (fun m hlm _ => ?_) fun _ m hm => ?_
  · obtain ⟨_, hcreator, hraw⟩ := hl.of_rely hlm
    exact ⟨hcreator, hraw, by rw [ShmConf.update_ceilingMsgSize, hconf]⟩
  · refine ceiling_safe hm fun c n hn hc => ?_
    refine unanswered_safe hn rfl (fun _ _ _ => trivial) fun _ p hp => ?_
    exact increase_safe hp fun q hq => htrue _ s q rfl hc rfl rfl hq

theorem reset_safe {Q : XsiSegment → Unit → Shared ι → Prop} (hx : x.init = false)
    (hconf : x.conf = .default)
    (hQ : ∀ (y : XsiSegment) (l : Shared ι), y.init = false → y.conf = .default → Rely i k l →
      Q y () l) :
    (protocol ι).Safe i Q (XsiSegment.reset x) k :=
  safe_reset (hQ _ k hx hconf (Rely.refl i k)) fun _ =>
    Protocol.safe_op (fun _ _ _ => trivial) fun _ l hkl _ _ => hQ _ l hx hconf hkl

/-- Where the system has no room for a segment there is none to remove. -/
def Small (k : Shared ι) : Prop := k.1.shmmax < ShmConf.default.managedShmSize

omit [DecidableEq ι] in
theorem Small.no_key {k : Shared ι} (h : Small k) (hk : Inv k) : k.1.key = none := by
  by_contra hne
  obtain ⟨s, hs⟩ := Option.ne_none_iff_exists'.mp hne
  have hsize := hk.size s hs
  rw [Small] at h
  omega

theorem remove_small {Q : XsiSegment → Bool → Shared ι → Prop} (hk : Out i k) (hsmall : Small k)
    (hQ : ∀ b l, Out i l → Small l → Q x b l) :
    (protocol ι).Safe i Q (XsiSegment.remove x) k := by
  refine safe_remove (Protocol.safe_op (fun _ _ _ => trivial) fun ok l hkl hl _ => ?_)
  have hsmall' : Small l := by
    rw [Small, hkl.shmmax]
    exact hsmall
  have hnone : (exec i (.lookup .removal) ok l).1 = none := by
    show (if ok then l.1.key else none) = none
    rw [hsmall'.no_key hl, ite_self]
  refine ⟨fun _ => hQ false _ ((hk.of_rely hkl).exec rfl ok) hsmall', fun s hs => ?_⟩
  cases hnone.symm.trans hs

theorem create_safe {Q : XsiSegment → Except Errno Nat → Shared ι → Prop} (hk : Out i k)
    (hok : ∀ s l, Creating i s l → Q x (.ok s) l)
    (hsmall : ∀ l, Out i l → Small l → Q x (.error .EINVAL) l)
    (herror : ∀ e l, e ≠ .EINVAL → Out i l → Q x (.error e) l) :
    (protocol ι).Safe i Q ((Op.create .default).get x) k := by
  refine Protocol.safe_op (fun _ _ _ => rfl) fun ok l hkl hl _ => ?_
  have hout : Out i l := hk.of_rely hkl
  cases hkey : l.1.key with
  | some s =>
      have hexec : exec i (.create .default) ok l = (.error .EEXIST, l) := by
        simp [exec, noting, Kernel.exec, hkey, note]
      rw [hexec]
      exact herror .EEXIST l nofun hout
  | none =>
      by_cases hsize : ShmConf.default.managedShmSize > l.1.shmmax
      · have hexec : exec i (.create .default) ok l = (.error .EINVAL, l) := by
          simp [exec, noting, Kernel.exec, hkey, hsize, note]
        rw [hexec]
        exact hsmall l hout hsize
      cases ok with
      | false =>
          have hexec : exec i (.create .default) false l = (.error .other, l) := by
            simp [exec, noting, Kernel.exec, hkey, hsize, note]
          rw [hexec]
          exact herror .other l nofun hout
      | true =>
          have hexec : exec i (.create .default) true l = (.ok l.1.count, created i l) := by
            simp [exec, noting, Kernel.exec, hkey, hsize, note, created]
          rw [hexec]
          refine hok _ _ ⟨hout, ?_, (hl.fresh l.1.count (Nat.le_refl _)).2⟩
          simp [created]

theorem createFrom_safe {site : Site} {retry : Nat} {Q : XsiSegment → Bool → Shared ι → Prop}
    (hk : Out i k) (hx : x.init = false) (hconf : x.conf = .default)
    (hfalse : ∀ (y : XsiSegment) (l : Shared ι), y.init = false → y.conf = .default → Out i l →
      Q y false l)
    (htrue : ∀ (y : XsiSegment) (s : Nat) (l : Shared ι), y.init = true → y.conf = .default →
      y.managedShm = .mapped s → y.state = some s → In i s l → Q y true l) :
    (protocol ι).Safe i Q (XsiSegment.createFrom site retry x) k := by
  induction retry generalizing x k with
  | zero => exact hfalse x k hx hconf hk
  | succ retry ih =>
      refine safe_createFrom ?_
      rw [hconf]
      refine create_safe hk (fun s l hl => ?_) (fun l hl hsmall => ?_) fun e l he hl => ?_
      · refine ⟨?_, nofun, nofun, nofun⟩
        rintro _ ⟨⟩
        exact setUp_safe hl hx hconf hfalse htrue
      · refine ⟨nofun, fun _ => ?_, nofun, nofun⟩
        refine reset_safe hx hconf fun y m hy hyconf hlm => ?_
        have hsmall' : Small m := by
          rw [Small, hlm.shmmax]
          exact hsmall
        exact remove_small (hl.of_rely hlm) hsmall' fun _ n hn _ => ih hn hy hyconf
      · refine ⟨nofun, fun h => absurd (Except.error.inj h) he, fun _ => ?_, fun _ => ?_⟩
        · exact openOnly_safe hl hx hconf hfalse htrue
        · exact hfalse x l hx hconf hl

/-- A holder leaves the count. -/
theorem decreaseFrom_safe {s fuel : Nat} {current : BitVec 32}
    {Q : XsiSegment → Unit → Shared ι → Prop} (hk : In i s k) (hcurrent : current ≠ 0)
    (hQ : ∀ l, Out i l → l.2.constructed s = true → Q x () l) :
    (protocol ι).Safe i Q (State.decreaseFrom s fuel current x) k := by
  induction fuel generalizing current k with
  | zero => trivial
  | succ fuel ih =>
      refine safe_decreaseFrom (fun h => absurd h hcurrent) fun _ => ?_
      refine Protocol.safe_op (fun l hkl _ => ?_) fun ok l hkl hl _ => ?_
      · exact ⟨(hk.of_rely hkl).1, (hk.of_rely hkl).2.2⟩
      · obtain ⟨hi, hremover, hkey⟩ := hk.of_rely hkl
        by_cases h : (l.1.segments s).referenceCount = current
        · have hexec : exec i (.exchangeReferenceCount s current) ok l =
              ((true, current), uncounted i s current l) := by
            simp [exec, noting, Kernel.exec, note, uncounted, h]
          rw [hexec]
          refine ⟨fun _ => hQ _ ⟨?_, hremover⟩ (hl.constructed_of_holder hi hkey), by simp⟩
          exact Finset.notMem_erase i _
        · have hexec : exec i (.exchangeReferenceCount s current) ok l =
              ((false, (l.1.segments s).referenceCount), l) := by
            simp [exec, noting, Kernel.exec, note, h]
          rw [hexec]
          exact ⟨by simp, fun _ => ih ⟨hi, hremover, hkey⟩ (hl.count_ne_zero hi hkey)⟩

/-- It is on its way to remove the key. -/
def Leaving (i : ι) (k : Shared ι) : Prop := i ∉ k.2.holders ∧ i ∈ k.2.removers

theorem referenceCounts_safe {s : Nat} {Q : XsiSegment → BitVec 32 → Shared ι → Prop}
    (hk : Out i k) (hc : k.2.constructed s = true) (hzero : ∀ l, Leaving i l → Q x 0 l)
    (hpos : ∀ n l, n ≠ 0 → Out i l → Q x n l) :
    (protocol ι).Safe i Q ((Op.referenceCounts s).get x) k := by
  refine Protocol.safe_op (fun l hkl _ => hkl.constructed s hc) fun ok l hkl _ _ => ?_
  have hl : Out i l := hk.of_rely hkl
  have hexec : exec i (.referenceCounts s) ok l =
      ((l.1.segments s).referenceCount,
        (l.1, if (l.1.segments s).referenceCount = 0 then
          { l.2 with removers := insert i l.2.removers } else l.2)) := rfl
  rw [hexec]
  by_cases h : (l.1.segments s).referenceCount = 0
  · rw [if_pos h, h]
    exact hzero _ ⟨hl.1, Finset.mem_insert_self i _⟩
  · rw [if_neg h]
    exact hpos _ _ h hl

/-- Afterwards it is not. -/
theorem remove_safe {Q : XsiSegment → Bool → Shared ι → Prop} (hk : Leaving i k)
    (hQ : ∀ b l, Out i l → Q x b l) :
    (protocol ι).Safe i Q (XsiSegment.remove x) k := by
  have herase : ∀ (l : Kernel) (m : Shared ι), Rely i k m →
      Out i (l, { m.2 with removers := m.2.removers.erase i }) := fun l m hkm =>
    ⟨fun hi => hk.1 (hkm.holder.mp hi), Finset.notMem_erase i _⟩
  refine safe_remove (Protocol.safe_op (fun _ _ _ => trivial) fun ok l hkl _ _ => ?_)
  have hexec : exec i (.lookup .removal) ok l = ((if ok then l.1.key else none),
      (l.1, note i (.lookup .removal) (if ok then l.1.key else none) l.2)) := rfl
  rw [hexec]
  cases (if ok then l.1.key else none) with
  | none => exact ⟨fun _ => hQ false _ (herase l.1 l hkl), nofun⟩
  | some s =>
      refine ⟨nofun, fun t _ => ?_⟩
      refine Protocol.safe_op (fun m hlm _ => .inl ?_) fun ok m hlm _ _ => hQ _ _ (herase _ m ?_)
      · exact hlm.remover.mpr (hkl.remover.mpr hk.2)
      · exact hkl.trans hlm

theorem destroy_safe {fuel : Nat} {Q : XsiSegment → Bool → Shared ι → Prop}
    (hconf : x.conf = .default)
    (hin : x.init = true → ∃ s, x.state = some s ∧ In i s k) (hout : x.init = false → Out i k)
    (hQ : ∀ (y : XsiSegment) (b : Bool) (l : Shared ι), y.init = false → y.conf = .default →
      Out i l → Q y b l) :
    (protocol ι).Safe i Q (XsiSegment.destroy fuel x) k := by
  refine safe_destroy (fun hx => hQ x true k hx hconf (hout hx)) (fun _ _ => trivial)
    fun state hx hstate => ?_
  obtain ⟨s, hs, hk⟩ := hin hx
  obtain rfl : s = state := Option.some.inj (hs.symm.trans hstate)
  refine Protocol.safe_op (fun _ _ _ => trivial) fun ok l hkl hl _ => ?_
  have hl' : In i s l := hk.of_rely hkl
  refine decreaseFrom_safe hl' (hl.count_ne_zero hl'.1 hl'.2.2) fun m hm hc => ?_
  refine referenceCounts_safe hm hc (fun n hn => ?_) fun c n hc hn => ?_
  · exact ⟨fun _ => remove_safe hn fun b p hp => hQ _ b p rfl hconf hp, fun h => absurd rfl h⟩
  · exact ⟨fun h => absurd h hc, fun _ => hQ _ true n rfl hconf hn⟩

end Functions

/-! ### Every run -/

inductive OpenCall
  | openOrCreate
  | openOnly
  | destroy (fuel : Nat)

def OpenCall.body : OpenCall → ShmCode Bool
  | openOrCreate => XsiSegment.openOrCreate .opening
  | openOnly => XsiSegment.openOnly .opening
  | destroy fuel => XsiSegment.destroy fuel

/-- A process at rest that has the segment open holds the one under the key. -/
def Rest (i : ι) (x : XsiSegment) (_ : Bool) (k : Shared ι) : Prop :=
  x.conf = .default ∧
    (x.init = true → ∃ s, x.managedShm = .mapped s ∧ x.state = some s ∧ In i s k) ∧
    (x.init = false → Out i k)

theorem body_safe (i : ι) (c : OpenCall) (x : XsiSegment) (a : Bool) (k : Shared ι)
    (hrest : Rest i x a k) : (protocol ι).Safe i (Rest i) (c.body x) k := by
  obtain ⟨hconf, hin, hout⟩ := hrest
  have hfalse : ∀ (y : XsiSegment) (b : Bool) (l : Shared ι), y.init = false → y.conf = .default →
      Out i l → Rest i y b l := fun y b l hy hyconf hl => ⟨hyconf, by simp [hy], fun _ => hl⟩
  have htrue : ∀ (y : XsiSegment) (s : Nat) (l : Shared ι), y.init = true → y.conf = .default →
      y.managedShm = .mapped s → y.state = some s → In i s l → Rest i y true l :=
    fun y s l hy hyconf hmap hs hl => ⟨hyconf, fun _ => ⟨s, hmap, hs, hl⟩, by simp [hy]⟩
  cases c with
  | openOrCreate =>
      show (protocol ι).Safe i (Rest i) (XsiSegment.openOrCreate .opening x) k
      refine safe_openOrCreate (fun _ => ⟨hconf, hin, hout⟩) fun hx => ?_
      exact createFrom_safe (hout hx) hx hconf (fun y => hfalse y false) htrue
  | openOnly =>
      show (protocol ι).Safe i (Rest i) (XsiSegment.openOnly .opening x) k
      cases hx : x.init with
      | false => exact openOnly_safe (hout hx) hx hconf (fun y => hfalse y false) htrue
      | true =>
          rw [XsiSegment.openOnly]
          simp only [Protocol.safe_seq, Protocol.safe_get, hx, if_true, Protocol.safe_pure]
          exact ⟨hconf, hin, hout⟩
  | destroy fuel =>
      refine destroy_safe hconf (fun hx => ?_) hout hfalse
      obtain ⟨s, _, hs, hk⟩ := hin hx
      exact ⟨s, hs, hk⟩

abbrev State (ι : Type) := Config sig ι XsiSegment Bool (Shared ι)

abbrev Step (ι : Type) := Event ι OpenCall Bool

def start (ι : Type) (shmmax : Nat) : State ι :=
  Config.start (fun _ => {}) false ({ shmmax }, {})

def step : State ι → Step ι → State ι := Thread.step exec (fun _ _ k => k) OpenCall.body

/-- The key is never removed from a segment that a process holds, and the processes that
are done with opening it have one and the same mapped. -/
structure OneSegment (t : State ι) : Prop where
  removal : ∀ i x s k, t.threads i = .call x (.rmid s) k → t.shared.1.key = some s →
    t.shared.2.holders = ∅
  holder : ∀ i x a, t.threads i = .done x a → x.init = true → i ∈ t.shared.2.holders
  same : ∀ i j x y a b, t.threads i = .done x a → t.threads j = .done y b →
    x.init = true → y.init = true → x.managedShm = y.managedShm

/-- `Cond`, on the steps of a run. -/
def Condition (cfg : State ι) (e : Step ι) : Prop :=
  (protocol ι).Meets (fun _ _ _ _ => True) cfg e

theorem holds_start (shmmax : Nat) : (protocol ι).Holds Rest (start ι shmmax) where
  inv :=
    { key_lt := nofun
      fresh := fun _ _ => ⟨rfl, rfl⟩
      size := nofun
      conf := fun _ => show ShmConf.update 0 = .default by decide
      no_key := fun _ => rfl
      raw := nofun
      count := nofun
      card := by simp [start, Config.start]
      removing := fun h => absurd rfl h }
  safe i := ⟨rfl, nofun, fun _ => ⟨Finset.notMem_empty i, Finset.notMem_empty i⟩⟩

theorem holds_of_along {shmmax : Nat} {es : List (Step ι)}
    (hes : Run.Along step ((protocol ι).Meets fun _ _ _ _ => True) (start ι shmmax) es) :
    ∀ t ∈ Run.states step (start ι shmmax) es, (protocol ι).Holds Rest t := by
  refine Protocol.sound ?_ ?_ ?_ (holds_start shmmax) hes
  · intro i x a k l h hkl _
    refine ⟨h.1, fun hx => ?_, fun hx => (h.2.2 hx).of_rely hkl⟩
    obtain ⟨s, hmap, hs, hk⟩ := h.2.1 hx
    exact ⟨s, hmap, hs, hk.of_rely hkl⟩
  · exact fun i c x a k hk _ _ => ⟨hk, fun j _ => Rely.refl j k⟩
  · exact fun i c x a k _ hrest _ => body_safe i c x a k hrest

theorem oneSegment {shmmax : Nat} {es : List (Step ι)}
    (hes : Run.Along step Condition (start ι shmmax) es) :
    ∀ t ∈ Run.states step (start ι shmmax) es, OneSegment t := by
  intro t ht
  have hholds := holds_of_along hes t ht
  refine ⟨fun i x s k hi hkey => ?_, fun i x a hi hx => ?_,
    fun i j x y a b hi hj hx hy => ?_⟩
  · rcases hholds.pre hi with hremover | ⟨_, hraw⟩
    · exact hholds.inv.removing (Finset.ne_empty_of_mem hremover)
    · exact hholds.inv.raw s hkey hraw
  · obtain ⟨s, _, _, hin⟩ := (hholds.rest hi).2.1 hx
    exact hin.1
  · obtain ⟨s, hs, _, hins⟩ := (hholds.rest hi).2.1 hx
    obtain ⟨t', ht', _, hint⟩ := (hholds.rest hj).2.1 hy
    cases hins.2.2.symm.trans hint.2.2
    rw [hs, ht']

/-- Two processes open the segment, one after the other, and both destroy it. -/
def inTurn : List (Step Nat) :=
  .call 0 .openOrCreate :: List.replicate 6 (.act 0 true) ++
    .call 1 .openOrCreate :: List.replicate 5 (.act 1 true) ++
    .call 0 (.destroy 1) :: List.replicate 3 (.act 0 true) ++
    .call 1 (.destroy 1) :: List.replicate 5 (.act 1 true)

theorem oneSegment_inTurn : OneSegment (Run.exec step (start Nat (2 ^ 32)) inTurn) := by
  refine oneSegment ?_ _ (Run.exec_mem_states _ _ _)
  refine ⟨fun x a _ => trivial, ?_⟩
  refine ⟨?_, ?_, ?_, ?_, ?_, ?_, fun x a _ => trivial, ?_, ?_, ?_, ?_, ?_,
    fun x a _ => trivial, ?_, ?_, ?_, fun x a _ => trivial, ?_, ?_, ?_, ?_, ?_, trivial⟩ <;>
    intro x o k hi <;> cases hi
  all_goals first | trivial | exact fun _ => .inl rfl

/-- The first process counts itself out and reads the count zero; before it removes the
key the second one opens the segment. -/
def lateRemoval : List (Step Nat) :=
  .call 0 .openOrCreate :: List.replicate 6 (.act 0 true) ++
    .call 0 (.destroy 1) :: List.replicate 3 (.act 0 true) ++
    .call 1 .openOrCreate :: List.replicate 5 (.act 1 true) ++ [.act 0 true]

theorem lateRemoval_not_oneSegment :
    ¬ ∀ es, ∀ t ∈ Run.states step (start Nat (2 ^ 32)) es, OneSegment t := by
  intro h
  have hremoval : ∃ x k, (Run.exec step (start Nat (2 ^ 32)) lateRemoval).threads 0 =
      .call x (.rmid 0) k := ⟨_, _, rfl⟩
  obtain ⟨x, k, hi⟩ := hremoval
  have hholders := (h lateRemoval _ (Run.exec_mem_states step _ lateRemoval)).removal 0 x 0 k hi
    rfl
  have hone : 1 ∈ (Run.exec step (start Nat (2 ^ 32)) lateRemoval).shared.2.holders := by
    decide +kernel
  rw [hholders] at hone
  exact absurd hone (Finset.notMem_empty 1)

end ReferenceCount
end Shm
end Transport
end Cmw
