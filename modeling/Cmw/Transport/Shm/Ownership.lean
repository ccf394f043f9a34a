import Cmw.Transport.Shm.Blocks
import Cmw.Transport.Shm.SegmentRules
import Mathlib.Data.Finset.Card

/-!
# Who owns a block

Any number of transmitters and readers on one segment of a channel, with messages that
fit into its blocks, so that nobody has a reason to recreate it.  A `Transmit` is known
by the value that it has drawn last from the counter of the segment, here one that
never wraps around.  A block that is not being written holds the message of the value
that has locked it last, whoever reads it.

That need not be the greatest value which selects the block: a transmitter may draw a
value, and try the lock only after others have drawn `block_num` more.
-/

namespace Cmw
namespace Transport
namespace Shm

open Library
open Library.ByteImage
open Library.Thread
open XsiSegment

namespace Ownership

/-- What a reader has found when it obtained a read lock. -/
structure Reading where
  /-- the number of the notification that it serves -/
  notice : Nat
  /-- the value that the `Transmit` of its notification had drawn -/
  value : Nat
  /-- how many values had been drawn -/
  drawn : Nat
  /-- the values that had locked the block, the latest first -/
  turns : List Nat

/-- What the history keeps of one process. -/
structure Own where
  request : Sending := {}
  /-- the value that it has drawn last -/
  ticket : Nat := 0
  /-- the notification that it serves, with its value -/
  serving : Option (Nat × Nat) := none
  reading : Option Reading := none

structure History (ι : Type) where
  own : ι → Own := fun _ => {}
  drawn : Nat := 0
  /-- what is transmitted with a value -/
  content : Nat → Sending := fun _ => {}
  turns : Nat → List Nat := fun _ => []
  writer : Nat → Option ι := fun _ => none
  readers : Nat → Finset ι := fun _ => ∅
  /-- the values of the notifications -/
  sent : List Nat := []

variable {ι : Type} [DecidableEq ι]

def History.setOwn (h : History ι) (i : ι) (o : Own) : History ι :=
  { h with own := Function.update h.own i o }

def note (i : ι) : (o : Op) → Ans o → History ι → History ι
  | .fetchAddSeq _, _, h =>
      { h.setOwn i { h.own i with ticket := h.drawn } with
        drawn := h.drawn + 1
        content := Function.update h.content h.drawn (h.own i).request }
  | .tryLockForWrite _ b, true, h =>
      { h with
        writer := Function.update h.writer b (some i)
        turns := Function.update h.turns b ((h.own i).ticket :: h.turns b) }
  | .releaseWriteLock _ b, _, h => { h with writer := Function.update h.writer b none }
  | .exchangeLockNum _ b _ _, true, h =>
      { h.setOwn i { h.own i with
          reading := (h.own i).serving.map fun (notice, value) =>
            ⟨notice, value, h.drawn, h.turns b⟩ } with
        readers := Function.update h.readers b (insert i (h.readers b)) }
  | .releaseReadLock _ b, _, h =>
      { h with readers := Function.update h.readers b ((h.readers b).erase i) }
  | .notify _, _, h => { h with sent := h.sent ++ [(h.own i).ticket] }
  | .listen n, _, h => 
      h.setOwn i { h.own i with serving := h.sent[n]?.map fun value => (n, value) }
  | _, _, h => h

abbrev Shared (ι : Type) := Kernel × History ι

def exec (i : ι) (o : Op) (ok : Bool) (k : Shared ι) : Ans o × Shared ι :=
  noting (S := sig) (fun o ok k => k.exec ok o) note i o ok k

/-- The read lock was obtained before the counter had advanced by `block_num`. -/
def Reading.Before (c : ShmConf) (r : Reading) : Prop := r.drawn ≤ r.value + c.blockNum

/-- No `Transmit` with a smaller value has locked the block since that of the
notification. -/
def Reading.InOrder (r : Reading) : Prop :=
  ∀ w ∈ r.turns.takeWhile (· ≠ r.value), r.value < w

/-- What is true of a reading when the lock is obtained. -/
structure Reading.Sound (c : ShmConf) (b : Nat) (r : Reading) : Prop where
  mem : r.value ∈ r.turns
  turns : ∀ w ∈ r.turns, w < r.drawn ∧ w % c.blockNum = b

/-- Only the value of the notification itself can have locked the block last. -/
theorem Reading.Sound.head {c : ShmConf} {b : Nat} {r : Reading} (h : r.Sound c b)
    (hbefore : r.Before c) (horder : r.InOrder) : r.turns.head? = some r.value := by
  obtain ⟨hmem, hturns⟩ := h
  cases hr : r.turns with
  | nil => simp [hr] at hmem
  | cons w ws =>
      by_cases hw : w = r.value
      · rw [hw, List.head?_cons]
      · -- the value is drawn later, selects the same block, and comes too early for that
        have hlt : r.value < w := horder w (by simp [hr, hw])
        obtain ⟨hdrawn, hb⟩ := hturns w (by simp [hr])
        have hsame : r.value % c.blockNum = w % c.blockNum := (hturns _ hmem).2.trans hb.symm
        have hdvd : c.blockNum ∣ w - r.value := (Nat.modEq_iff_dvd' hlt.le).mp hsame
        have hle : c.blockNum ≤ w - r.value := Nat.le_of_dvd (by omega) hdvd
        have hbefore : r.drawn ≤ r.value + c.blockNum := hbefore
        omega

variable (order : ByteOrder) (c : ShmConf)

/-- A block that is not being written holds what was transmitted with the value that has
locked it last. -/
structure Inv (k : Shared ι) : Prop where
  key : k.1.key = some 0
  needRemap : (k.1.segments 0).needRemap = false
  ceiling : (k.1.segments 0).ceilingMsgSize = c.ceilingMsgSize
  seq : (k.1.segments 0).seq = BitVec.ofNat 32 k.2.drawn
  unlocked : ∀ b, k.2.writer b = none →
    (k.1.segments 0).lockNum b = BitVec.ofNat 32 (k.2.readers b).card ∧
      (k.2.readers b).card ≤ 2 ^ 31
  locked : ∀ b i, k.2.writer b = some i →
    (k.1.segments 0).lockNum b = ManagedShm.kWriteExclusive ∧ k.2.readers b = ∅
  turns : ∀ b, ∀ v ∈ k.2.turns b, v < k.2.drawn ∧ v % c.blockNum = b
  fits : ∀ v < k.2.drawn, (k.2.content v).msg.length ≤ c.ceilingMsgSize
  stored : ∀ b v, k.2.writer b = none → (k.2.turns b).head? = some v →
    Stored order c b (k.2.content v) (k.1.segments 0)
  count : k.2.sent.length = k.1.notices.length
  notices : ∀ (n v : Nat) (info : ReadableInfo), k.2.sent[n]? = some v →
    k.1.notices[n]? = some info → info.blockIndex = v % c.blockNum
  sent : ∀ v ∈ k.2.sent, v ∈ k.2.turns (v % c.blockNum)
  serving : ∀ i (n v : Nat), (k.2.own i).serving = some (n, v) → k.2.sent[n]? = some v
  reading : ∀ i r, (k.2.own i).reading = some r → k.2.sent[r.notice]? = some r.value
  readers : ∀ b, ∀ i ∈ k.2.readers b, ∃ r, (k.2.own i).reading = some r ∧
    r.turns = k.2.turns b ∧ r.Sound c b

/-- What the others leave to process `i`: its own history, its locks, the block that it
writes, and what has been transmitted. -/
structure Rely (i : ι) (k l : Shared ι) : Prop where
  own : l.2.own i = k.2.own i
  reader : ∀ b, i ∈ l.2.readers b ↔ i ∈ k.2.readers b
  writer : ∀ b, l.2.writer b = some i ↔ k.2.writer b = some i
  written : ∀ b, k.2.writer b = some i →
    SameBlock c b (k.1.segments 0) (l.1.segments 0) ∧ l.2.turns b = k.2.turns b
  drawn : k.2.drawn ≤ l.2.drawn
  content : ∀ v < k.2.drawn, l.2.content v = k.2.content v
  turns : ∀ b, k.2.turns b ⊆ l.2.turns b

omit [DecidableEq ι] in
theorem Rely.refl (i : ι) (k : Shared ι) : Rely c i k k :=
  ⟨rfl, fun _ => Iff.rfl, fun _ => Iff.rfl, fun _ _ => ⟨.refl, rfl⟩, Nat.le_refl _, fun _ _ => rfl,
    fun _ => List.Subset.refl _⟩

variable {order c}

omit [DecidableEq ι] in
theorem Rely.trans {i : ι} {k l m : Shared ι} (h : Rely c i k l) (h' : Rely c i l m) :
    Rely c i k m where
  own := h'.own.trans h.own
  reader b := (h'.reader b).trans (h.reader b)
  writer b := (h'.writer b).trans (h.writer b)
  written b hb :=
    have hl := h'.written b ((h.writer b).mpr hb)
    ⟨(h.written b hb).1.trans hl.1, hl.2.trans (h.written b hb).2⟩
  drawn := h.drawn.trans h'.drawn
  content v hv := (h'.content v (hv.trans_le h.drawn)).trans (h.content v hv)
  turns b := List.Subset.trans (h.turns b) (h'.turns b)

variable (order c)

/-- What a process knows when it performs an operation. -/
def Pre (i : ι) (_ : XsiSegment) (o : Op) (k : Shared ι) : Prop :=
  match o with
  | .fetchAddSeq s => s = 0 ∧ (k.2.own i).request.msg.length ≤ c.ceilingMsgSize
  | .tryLockForWrite s b =>
      s = 0 ∧ (k.2.own i).ticket < k.2.drawn ∧ (k.2.own i).ticket % c.blockNum = b
  | .write a bytes => a.segment = 0 ∧ ∃ b, k.2.writer b = some i ∧ Fits c b a.offset bytes.length
  | .setMsgSize s b _ | .setMsgInfoSize s b _ => s = 0 ∧ k.2.writer b = some i
  | .releaseWriteLock s b => s = 0 ∧ k.2.writer b = some i ∧
      ∀ v, (k.2.turns b).head? = some v → Stored order c b (k.2.content v) (k.1.segments 0)
  | .notify info => info.blockIndex = (k.2.own i).ticket % c.blockNum ∧
      (k.2.own i).ticket ∈ k.2.turns info.blockIndex
  | .exchangeLockNum s b expected _ => s = 0 ∧ expected.slt ManagedShm.kRWLockFree = false ∧
      (∀ b, i ∉ k.2.readers b) ∧
      ∃ n v, (k.2.own i).serving = some (n, v) ∧ v % c.blockNum = b
  | .releaseReadLock s b => s = 0 ∧ i ∈ k.2.readers b
  | .create _ | .lookup _ | .shmat _ _ | .ceilingMsgSize _ _ | .increaseReferenceCounts _
  | .needRemap _ | .loadLockNum _ _ | .msgSize _ _ | .read _ _ | .listen _ => True
  | _ => False

/-! ### What the operations keep -/

section Keeps

variable {order c} {i : ι} {k l : Shared ι}

omit [DecidableEq ι] in
/-- An operation that writes at most into blocks that the process has locked. -/
theorem keeps_of_memory (hk : Inv order c k) (hkey : l.1.key = k.1.key)
    (hnotices : l.1.notices = k.1.notices) (hhistory : l.2 = k.2)
    (hremap : (l.1.segments 0).needRemap = (k.1.segments 0).needRemap)
    (hceiling : (l.1.segments 0).ceilingMsgSize = (k.1.segments 0).ceilingMsgSize)
    (hseq : (l.1.segments 0).seq = (k.1.segments 0).seq)
    (hlock : (l.1.segments 0).lockNum = (k.1.segments 0).lockNum)
    (hblocks : ∀ b, k.2.writer b ≠ some i → SameBlock c b (k.1.segments 0) (l.1.segments 0)) :
    Inv order c l ∧ ∀ j, j ≠ i → Rely c j k l := by
  obtain ⟨m, h⟩ := k
  obtain ⟨n, h'⟩ := l
  obtain rfl : h' = h := hhistory
  refine ⟨{ hk with
      key := hkey.trans hk.key
      needRemap := hremap.trans hk.needRemap
      ceiling := hceiling.trans hk.ceiling
      seq := hseq.trans hk.seq
      unlocked := fun b hb => (congrFun hlock b).symm ▸ hk.unlocked b hb
      locked := fun b j hb => (congrFun hlock b).symm ▸ hk.locked b j hb
      stored := fun b v hb hv => ?_
      count := hk.count.trans (congrArg List.length hnotices.symm)
      notices := fun p v info hv hinfo => hk.notices p v info hv (hnotices ▸ hinfo) },
    fun j hj => { Rely.refl c j (m, h') with
      written := fun b hb => ⟨hblocks b fun h => hj ?_, rfl⟩ }⟩
  · have hlt := (hk.turns b v (List.mem_of_mem_head? hv)).1
    exact (hk.stored b v hb hv).of_same (hk.fits v hlt) (hblocks b (ne_of_eq_of_ne hb (by simp)))
  · exact Option.some.inj (hb.symm.trans h)

omit [DecidableEq ι] in
theorem Inv.stored_of_same (hk : Inv order c k) {b v : Nat} (hb : k.2.writer b = none)
    (hv : (k.2.turns b).head? = some v) {m : ManagedShm} (hm : SameBlock c b (k.1.segments 0) m) :
    Stored order c b (k.2.content v) m :=
  (hk.stored b v hb hv).of_same (hk.fits v (hk.turns b v (List.mem_of_mem_head? hv)).1) hm

/-- The value that is drawn is a new one, and is drawn for the request of the process. -/
theorem keeps_fetchAddSeq {ok : Bool} (hk : Inv order c k)
    (hfits : (k.2.own i).request.msg.length ≤ c.ceilingMsgSize) :
    Inv order c (exec i (.fetchAddSeq 0) ok k).2 ∧
      ∀ j, j ≠ i → Rely c j k (exec i (.fetchAddSeq 0) ok k).2 := by
  have hcontent : ∀ v < k.2.drawn, Function.update k.2.content k.2.drawn (k.2.own i).request v =
      k.2.content v := fun v hv => Function.update_of_ne hv.ne _ _
  have hown : ∀ j, ∃ n, Function.update k.2.own i { k.2.own i with ticket := k.2.drawn } j =
      { k.2.own j with ticket := n } := by
    intro j
    by_cases hj : j = i
    · subst hj
      exact ⟨_, Function.update_self ..⟩
    · exact ⟨_, Function.update_of_ne hj _ _⟩
  refine ⟨{ hk with
      seq := ?_
      turns := fun b v hv => ⟨(hk.turns b v hv).1.trans (Nat.lt_succ_self _), (hk.turns b v hv).2⟩
      fits := fun v hv => ?_
      stored := fun b v hb hv => ?_
      serving := fun j n v hv => ?_
      reading := fun j r hr => ?_
      readers := fun b j hj => ?_ },
    fun j hj => { Rely.refl c j k with
      own := Function.update_of_ne hj _ _
      drawn := Nat.le_succ _
      written := fun b _ => ⟨⟨rfl, rfl, fun _ _ => rfl⟩, rfl⟩
      content := hcontent }⟩
  · show (k.1.segments 0).seq + 1 = BitVec.ofNat 32 (k.2.drawn + 1)
    rw [hk.seq, BitVec.ofNat_add]
    rfl
  · show (Function.update k.2.content k.2.drawn (k.2.own i).request v).msg.length ≤ _
    by_cases hlt : v < k.2.drawn
    · rw [hcontent v hlt]
      exact hk.fits v hlt
    · obtain rfl : v = k.2.drawn := Nat.le_antisymm (Nat.le_of_lt_succ hv) (Nat.le_of_not_lt hlt)
      rw [Function.update_self]
      exact hfits
  · show Stored order c b (Function.update k.2.content k.2.drawn (k.2.own i).request v) _
    rw [hcontent v (hk.turns b v (List.mem_of_mem_head? hv)).1]
    exact hk.stored_of_same hb hv ⟨rfl, rfl, fun _ _ => rfl⟩
  · obtain ⟨t, ht⟩ := hown j
    exact hk.serving j n v ((congrArg Own.serving ht).symm.trans hv)
  · obtain ⟨t, ht⟩ := hown j
    exact hk.reading j r ((congrArg Own.reading ht).symm.trans hr)
  · obtain ⟨r, hr, hturns⟩ := hk.readers b j hj
    obtain ⟨n, hn⟩ := hown j
    exact ⟨r, (congrArg Own.reading hn).trans hr, hturns⟩

omit [DecidableEq ι] in
/-- A lock that is taken was free, so nobody reads the block. -/
theorem Inv.readers_of_free (hk : Inv order c k) {b : Nat}
    (hb : (k.1.segments 0).lockNum b = ManagedShm.kRWLockFree) :
    k.2.writer b = none ∧ k.2.readers b = ∅ := by
  cases hw : k.2.writer b with
  | some j => simp [(hk.locked b j hw).1, ManagedShm.kWriteExclusive, ManagedShm.kRWLockFree] at hb
  | none =>
      obtain ⟨hlock, hcard⟩ := hk.unlocked b hw
      rw [hlock] at hb
      have hzero : (k.2.readers b).card % 2 ^ 32 = 0 := by
        simpa [ManagedShm.kRWLockFree] using congrArg BitVec.toNat hb
      exact ⟨rfl, Finset.card_eq_zero.mp (by omega)⟩

theorem keeps_tryLockForWrite {ok : Bool} {b : Nat} (hk : Inv order c k)
    (hticket : (k.2.own i).ticket < k.2.drawn) (hb : (k.2.own i).ticket % c.blockNum = b) :
    Inv order c (exec i (.tryLockForWrite 0 b) ok k).2 ∧
      ∀ j, j ≠ i → Rely c j k (exec i (.tryLockForWrite 0 b) ok k).2 := by
  by_cases hfree : (k.1.segments 0).lockNum b = ManagedShm.kRWLockFree ∧ ok
  · have hexec : (exec i (.tryLockForWrite 0 b) ok k).2 =
        (k.1.update 0 fun m =>
          { m with lockNum := Function.update m.lockNum b ManagedShm.kWriteExclusive },
        { k.2 with
          writer := Function.update k.2.writer b (some i)
          turns := Function.update k.2.turns b ((k.2.own i).ticket :: k.2.turns b) }) := by
      simp only [exec, noting, Kernel.exec, if_pos hfree, note]
    obtain ⟨hwriter, hreaders⟩ := hk.readers_of_free hfree.1
    have hturns : ∀ b', k.2.turns b' ⊆
        Function.update k.2.turns b ((k.2.own i).ticket :: k.2.turns b) b' := by
      intro b'
      by_cases hb' : b' = b
      · subst hb'
        simp
      · simp [hb']
    rw [hexec]
    refine ⟨{ hk with
        unlocked := fun b' hw => ?_
        locked := fun b' j hw => ?_
        turns := fun b' v hv => ?_
        stored := fun b' v hw hv => ?_
        sent := fun v hv => hturns _ (hk.sent v hv)
        readers := fun b' j hj => ?_ },
      fun j hj => { Rely.refl c j k with
        writer := fun b' => ?_
        written := fun b' hw => ⟨⟨rfl, rfl, fun _ _ => rfl⟩, ?_⟩
        turns := hturns }⟩
    · by_cases hb' : b' = b
      · subst hb'
        simp at hw
      · simpa [hb'] using hk.unlocked b' (by simpa [hb'] using hw)
    · by_cases hb' : b' = b
      · subst hb'
        simp [hreaders]
      · simpa [hb'] using hk.locked b' j (by simpa [hb'] using hw)
    · by_cases hb' : b' = b
      · subst hb'
        rcases List.mem_cons.mp (by simpa using hv) with hv | hv
        · rw [hv]
          exact ⟨hticket, hb⟩
        · exact hk.turns b' v hv
      · exact hk.turns b' v (by simpa [hb'] using hv)
    · by_cases hb' : b' = b
      · subst hb'
        simp at hw
      · exact hk.stored_of_same (by simpa [hb'] using hw) (by simpa [hb'] using hv)
          ⟨rfl, rfl, fun _ _ => rfl⟩
    · by_cases hb' : b' = b
      · subst hb'
        simp [hreaders] at hj
      · simpa [hb'] using hk.readers b' j hj
    · by_cases hb' : b' = b
      · subst hb'
        simp [hwriter, hj.symm]
      · simp [hb']
    · have hb' : b' ≠ b := by
        intro hb'
        simp [hb', hwriter] at hw
      simp [hb']
  · have hexec : (exec i (.tryLockForWrite 0 b) ok k).2 = k := by
      simp only [exec, noting, Kernel.exec, if_neg hfree, note]
    rw [hexec]
    exact ⟨hk, fun j _ => Rely.refl c j k⟩

theorem keeps_releaseWriteLock {ok : Bool} {b : Nat} (hk : Inv order c k)
    (hwriter : k.2.writer b = some i)
    (hstored : ∀ v, (k.2.turns b).head? = some v → Stored order c b (k.2.content v) (k.1.segments 0)) :
    Inv order c (exec i (.releaseWriteLock 0 b) ok k).2 ∧
      ∀ j, j ≠ i → Rely c j k (exec i (.releaseWriteLock 0 b) ok k).2 := by
  obtain ⟨hlock, hreaders⟩ := hk.locked b i hwriter
  refine ⟨{ hk with
      unlocked := fun b' hw => ?_
      locked := fun b' j hw => ?_
      stored := fun b' v hw hv => ?_ },
    fun j hj => { Rely.refl c j k with
      writer := fun b' => ?_
      written := fun b' hw => ⟨⟨rfl, rfl, fun _ _ => rfl⟩, rfl⟩ }⟩
  · show Function.update (k.1.segments 0).lockNum b ((k.1.segments 0).lockNum b + 1) b' =
      BitVec.ofNat 32 (k.2.readers b').card ∧ (k.2.readers b').card ≤ 2 ^ 31
    by_cases hb' : b' = b
    · subst hb'
      simp [hlock, hreaders, ManagedShm.kWriteExclusive]
    · rw [Function.update_of_ne hb']
      exact hk.unlocked b' ((Function.update_of_ne hb' _ _).symm.trans hw)
  · show Function.update (k.1.segments 0).lockNum b ((k.1.segments 0).lockNum b + 1) b' =
      ManagedShm.kWriteExclusive ∧ k.2.readers b' = ∅
    have hw : Function.update k.2.writer b none b' = some j := hw
    have hb' : b' ≠ b := by
      intro hb'
      simp [hb'] at hw
    rw [Function.update_of_ne hb'] at hw ⊢
    exact hk.locked b' j hw
  · by_cases hb' : b' = b
    · subst hb'
      exact (hstored v hv).of_same (hk.fits v (hk.turns _ v (List.mem_of_mem_head? hv)).1)
        ⟨rfl, rfl, fun _ _ => rfl⟩
    · exact hk.stored_of_same ((Function.update_of_ne hb' _ _).symm.trans hw) hv
        ⟨rfl, rfl, fun _ _ => rfl⟩
  · show Function.update k.2.writer b none b' = some j ↔ k.2.writer b' = some j
    by_cases hb' : b' = b
    · subst hb'
      simp [hwriter, hj.symm]
    · rw [Function.update_of_ne hb']

omit [DecidableEq ι] in
/-- A lock that is not negative is not taken, and counts its readers. -/
theorem Inv.unlocked_of_nonneg (hk : Inv order c k) {b : Nat}
    (hb : ((k.1.segments 0).lockNum b).slt ManagedShm.kRWLockFree = false) :
    k.2.writer b = none ∧ (k.2.readers b).card < 2 ^ 31 := by
  cases hw : k.2.writer b with
  | some j =>
      rw [(hk.locked b j hw).1] at hb
      exact absurd hb (by decide)
  | none =>
      obtain ⟨hlock, hcard⟩ := hk.unlocked b hw
      refine ⟨rfl, Nat.lt_of_le_of_ne hcard fun heq => ?_⟩
      rw [hlock, heq] at hb
      exact absurd hb (by decide)

theorem keeps_exchangeLockNum {ok : Bool} {b left n v : Nat} {expected : BitVec 32}
    (hk : Inv order c k) (hexpected : expected.slt ManagedShm.kRWLockFree = false)
    (hidle : ∀ b, i ∉ k.2.readers b) 
    (hserving : (k.2.own i).serving = some (n, v)) (hv : v % c.blockNum = b) :
    Inv order c (exec i (.exchangeLockNum 0 b expected left) ok k).2 ∧
      ∀ j, j ≠ i → Rely c j k (exec i (.exchangeLockNum 0 b expected left) ok k).2 := by
  by_cases hequal : (k.1.segments 0).lockNum b = expected ∧ ok
  · have hexec : (exec i (.exchangeLockNum 0 b expected left) ok k).2 =
        (k.1.update 0 fun m => { m with lockNum := Function.update m.lockNum b (expected + 1) },
        { k.2.setOwn i { k.2.own i with reading := some ⟨n, v, k.2.drawn, k.2.turns b⟩ } with
          readers := Function.update k.2.readers b (insert i (k.2.readers b)) }) := by
      simp only [exec, noting, Kernel.exec, if_pos hequal, note, hserving, Option.map_some]
    obtain ⟨hwriter, hcard⟩ := hk.unlocked_of_nonneg (by rw [hequal.1]; exact hexpected)
    have hsent : k.2.sent[n]? = some v := hk.serving i n v hserving
    have hsound : Reading.Sound c b ⟨n, v, k.2.drawn, k.2.turns b⟩ :=
      ⟨hv ▸ hk.sent v (List.mem_of_getElem? hsent), hk.turns b⟩
    rw [hexec]
    refine ⟨{ hk with
        unlocked := fun b' hw => ?_
        locked := fun b' j hw => ?_
        stored := fun b' w hw hv => hk.stored_of_same hw hv ⟨rfl, rfl, fun _ _ => rfl⟩
        serving := fun j m w hw => ?_
        reading := fun j r hr => ?_
        readers := fun b' j hj => ?_ },
      fun j hj => { Rely.refl c j k with
        own := Function.update_of_ne hj _ _
        reader := fun b' => ?_
        written := fun b' hw => ⟨⟨rfl, rfl, fun _ _ => rfl⟩, rfl⟩ }⟩
    · show Function.update (k.1.segments 0).lockNum b (expected + 1) b' =
        BitVec.ofNat 32 (Function.update k.2.readers b (insert i (k.2.readers b)) b').card ∧
          (Function.update k.2.readers b (insert i (k.2.readers b)) b').card ≤ 2 ^ 31
      by_cases hb' : b' = b
      · subst hb'
        rw [Function.update_self, Function.update_self, Finset.card_insert_of_notMem (hidle b'),
          ← hequal.1, (hk.unlocked b' hwriter).1, BitVec.ofNat_add]
        exact ⟨rfl, hcard⟩
      · rw [Function.update_of_ne hb', Function.update_of_ne hb']
        exact hk.unlocked b' hw
    · have hb' : b' ≠ b := by
        intro hb'
        exact absurd (hwriter.symm.trans ((congrArg _ hb'.symm).trans hw)) (by simp)
      show Function.update (k.1.segments 0).lockNum b (expected + 1) b' = _ ∧
        Function.update k.2.readers b (insert i (k.2.readers b)) b' = ∅
      rw [Function.update_of_ne hb', Function.update_of_ne hb']
      exact hk.locked b' j hw
    · by_cases hj : j = i
      · subst hj
        exact hk.serving j m w (by simpa [History.setOwn] using hw)
      · exact hk.serving j m w (by simpa [History.setOwn, hj] using hw)
    · by_cases hj : j = i
      · subst hj
        obtain rfl : ⟨n, v, k.2.drawn, k.2.turns b⟩ = r := by simpa [History.setOwn] using hr
        exact hsent
      · exact hk.reading j r (by simpa [History.setOwn, hj] using hr)
    · by_cases hji : j = i
      · subst hji
        have hb' : b' = b := by
          by_contra hb'
          exact hidle b' (by simpa [hb'] using hj)
        subst hb'
        exact ⟨_, by simp [History.setOwn], rfl, hsound⟩
      · have hj : j ∈ k.2.readers b' := by
          by_cases hb' : b' = b
          · subst hb'
            simpa [hji] using hj
          · simpa [hb'] using hj
        obtain ⟨r, hr, hturns⟩ := hk.readers b' j hj
        exact ⟨r, (congrArg Own.reading (Function.update_of_ne hji _ _)).trans hr, hturns⟩
    · by_cases hb' : b' = b
      · subst hb'
        simp [hj]
      · simp [hb']
  · have hexec : (exec i (.exchangeLockNum 0 b expected left) ok k).2 = k := by
      simp only [exec, noting, Kernel.exec, if_neg hequal, note]
    rw [hexec]
    exact ⟨hk, fun j _ => Rely.refl c j k⟩

theorem keeps_releaseReadLock {ok : Bool} {b : Nat} (hk : Inv order c k)
    (hreader : i ∈ k.2.readers b) :
    Inv order c (exec i (.releaseReadLock 0 b) ok k).2 ∧
      ∀ j, j ≠ i → Rely c j k (exec i (.releaseReadLock 0 b) ok k).2 := by
  have hwriter : k.2.writer b = none := by
    cases hw : k.2.writer b with
    | none => rfl
    | some j => simp [(hk.locked b j hw).2] at hreader
  obtain ⟨hlock, hcard⟩ := hk.unlocked b hwriter
  have hpos : 0 < (k.2.readers b).card := Finset.card_pos.mpr ⟨i, hreader⟩
  refine ⟨{ hk with
      unlocked := fun b' hw => ?_
      locked := fun b' j hw => ?_
      stored := fun b' w hw hv => hk.stored_of_same hw hv ⟨rfl, rfl, fun _ _ => rfl⟩
      readers := fun b' j hj => hk.readers b' j ?_ },
    fun j hj => { Rely.refl c j k with
      reader := fun b' => ?_
      written := fun b' hw => ⟨⟨rfl, rfl, fun _ _ => rfl⟩, rfl⟩ }⟩
  · show Function.update (k.1.segments 0).lockNum b ((k.1.segments 0).lockNum b - 1) b' =
      BitVec.ofNat 32 (Function.update k.2.readers b ((k.2.readers b).erase i) b').card ∧
        (Function.update k.2.readers b ((k.2.readers b).erase i) b').card ≤ 2 ^ 31
    by_cases hb' : b' = b
    · subst hb'
      rw [Function.update_self, Function.update_self, Finset.card_erase_of_mem hreader, hlock]
      refine ⟨?_, by omega⟩
      obtain ⟨n, hn⟩ : ∃ n, (k.2.readers b').card = n + 1 := ⟨_, (Nat.succ_pred_eq_of_pos hpos).symm⟩
      rw [hn, BitVec.ofNat_add]
      exact BitVec.add_sub_cancel _ _
    · rw [Function.update_of_ne hb', Function.update_of_ne hb']
      exact hk.unlocked b' hw
  · have hb' : b' ≠ b := by
      intro hb'
      exact absurd (hwriter.symm.trans ((congrArg _ hb'.symm).trans hw)) (by simp)
    show Function.update (k.1.segments 0).lockNum b ((k.1.segments 0).lockNum b - 1) b' = _ ∧
      Function.update k.2.readers b ((k.2.readers b).erase i) b' = ∅
    rw [Function.update_of_ne hb', Function.update_of_ne hb']
    exact hk.locked b' j hw
  · have hj : j ∈ Function.update k.2.readers b ((k.2.readers b).erase i) b' := hj
    by_cases hb' : b' = b
    · subst hb'
      rw [Function.update_self] at hj
      exact Finset.mem_of_mem_erase hj
    · rwa [Function.update_of_ne hb'] at hj
  · show j ∈ Function.update k.2.readers b ((k.2.readers b).erase i) b' ↔ _
    by_cases hb' : b' = b
    · subst hb'
      simp [hj]
    · rw [Function.update_of_ne hb']

theorem keeps_notify {ok : Bool} {info : ReadableInfo} (hk : Inv order c k)
    (hindex : info.blockIndex = (k.2.own i).ticket % c.blockNum)
    (hturn : (k.2.own i).ticket ∈ k.2.turns info.blockIndex) :
    Inv order c (exec i (.notify info) ok k).2 ∧
      ∀ j, j ≠ i → Rely c j k (exec i (.notify info) ok k).2 := by
  have hsent : ∀ n v : Nat, k.2.sent[n]? = some v →
      (k.2.sent ++ [(k.2.own i).ticket])[n]? = some v := fun n v hv =>
    (List.getElem?_append_left (List.getElem?_eq_some_iff.mp hv).1).trans hv
  refine ⟨{ hk with
      count := by simp [exec, noting, Kernel.exec, note, hk.count]
      notices := fun n v info' hv hinfo => ?_
      sent := fun v hv => ?_
      serving := fun j n v hv => hsent n v (hk.serving j n v hv)
      reading := fun j r hr => hsent _ _ (hk.reading j r hr) },
    fun j _ => { Rely.refl c j k with written := fun b _ => ⟨.refl, rfl⟩ }⟩
  · have hv : (k.2.sent ++ [(k.2.own i).ticket])[n]? = some v := hv
    have hinfo : (k.1.notices ++ [info])[n]? = some info' := hinfo
    rw [List.getElem?_append] at hv hinfo
    rw [hk.count] at hv
    split at hinfo
    case isTrue hn =>
      rw [if_pos hn] at hv
      exact hk.notices n v info' hv hinfo
    case isFalse hn =>
      rw [if_neg hn] at hv
      obtain ⟨_, hv⟩ := List.getElem?_eq_some_iff.mp hv
      obtain ⟨_, hinfo⟩ := List.getElem?_eq_some_iff.mp hinfo
      rw [List.getElem_singleton] at hv hinfo
      rw [← hinfo, ← hv, hindex]
  · rcases List.mem_append.mp hv with hv | hv
    · exact hk.sent v hv
    · rw [List.mem_singleton.mp hv, ← hindex]
      exact hturn

theorem keeps_listen {ok : Bool} {n : Nat} (hk : Inv order c k) :
    Inv order c (exec i (.listen n) ok k).2 ∧
      ∀ j, j ≠ i → Rely c j k (exec i (.listen n) ok k).2 := by
  refine ⟨{ hk with
      serving := fun j m v hv => ?_
      reading := fun j r hr => ?_
      readers := fun b j hj => ?_ },
    fun j hj => { Rely.refl c j k with
      own := Function.update_of_ne hj _ _
      written := fun b _ => ⟨.refl, rfl⟩ }⟩
  · by_cases hj : j = i
    · subst hj
      have hv : ∃ w, k.2.sent[n]? = some w ∧ (n, w) = (m, v) := by
        simpa [exec, noting, Kernel.exec, note, History.setOwn, Option.map_eq_some_iff] using hv
      obtain ⟨w, hw, hpair⟩ := hv
      obtain ⟨rfl, rfl⟩ := Prod.mk.inj hpair
      exact hw
    · exact hk.serving j m v (by simpa [exec, noting, Kernel.exec, note, History.setOwn, hj] using hv)
  · by_cases hj : j = i
    · subst hj
      exact hk.reading j r (by simpa [exec, noting, Kernel.exec, note, History.setOwn] using hr)
    · exact hk.reading j r (by simpa [exec, noting, Kernel.exec, note, History.setOwn, hj] using hr)
  · obtain ⟨r, hr, hturns⟩ := hk.readers b j hj
    refine ⟨r, ?_, hturns⟩
    by_cases hji : j = i
    · subst hji
      simpa [exec, noting, Kernel.exec, note, History.setOwn] using hr
    · simpa [exec, noting, Kernel.exec, note, History.setOwn, hji] using hr

omit [DecidableEq ι] in
/-- An operation that writes into a block which the process has locked. -/
theorem keeps_of_write (hk : Inv order c k) {b : Nat} (hb : k.2.writer b = some i)
    {f : ManagedShm → ManagedShm} (hl : l = (k.1.update 0 f, k.2))
    (hf : ∀ m, (f m).needRemap = m.needRemap ∧ (f m).ceilingMsgSize = m.ceilingMsgSize ∧
      (f m).seq = m.seq ∧ (f m).lockNum = m.lockNum ∧ ∀ b', b' ≠ b → SameBlock c b' m (f m)) :
    Inv order c l ∧ ∀ j, j ≠ i → Rely c j k l := by
  subst hl
  obtain ⟨hremap, hceiling, hseq, hlock, hblocks⟩ := hf (k.1.segments 0)
  refine keeps_of_memory hk rfl rfl rfl ?_ ?_ ?_ ?_ fun b' hb' => ?_
  all_goals rw [Kernel.update_same]
  · exact hremap
  · exact hceiling
  · exact hseq
  · exact hlock
  · refine hblocks b' fun h => hb' ?_
    rw [h, hb]

end Keeps

theorem keeps {i : ι} {x : XsiSegment} {o : Op} {ok : Bool} {k : Shared ι} (hk : Inv order c k)
    (hpre : Pre order c i x o k) :
    Inv order c (exec i o ok k).2 ∧ ∀ j, j ≠ i → Rely c j k (exec i o ok k).2 := by
  have hsame : (exec i o ok k).2 = k → Inv order c (exec i o ok k).2 ∧
      ∀ j, j ≠ i → Rely c j k (exec i o ok k).2 := by
    intro h
    rw [h]
    exact ⟨hk, fun j _ => Rely.refl c j k⟩
  cases o with
  | create conf => exact hsame (by simp [exec, noting, Kernel.exec, hk.key, note])
  | lookup => exact hsame rfl
  | shmat => exact hsame rfl
  | ceilingMsgSize => exact hsame rfl
  | needRemap => exact hsame rfl
  | loadLockNum => exact hsame rfl
  | msgSize => exact hsame rfl
  | read => exact hsame rfl
  | increaseReferenceCounts s =>
      have hseg : (exec i (.increaseReferenceCounts s) ok k).2.1.segments 0 =
          if 0 = s then { k.1.segments 0 with referenceCount := (k.1.segments 0).referenceCount + 1 }
          else k.1.segments 0 := by
        simp only [exec, noting, Kernel.exec, Kernel.segments_update]
        split
        case isTrue h => rw [h]
        case isFalse => rfl
      refine keeps_of_memory hk rfl rfl rfl ?_ ?_ ?_ ?_ fun b _ => ?_
      all_goals rw [hseg]
      all_goals split <;> first | rfl | exact ⟨rfl, rfl, fun _ _ => rfl⟩
  | fetchAddSeq s =>
      obtain ⟨rfl, hfits⟩ := hpre
      exact keeps_fetchAddSeq hk hfits
  | tryLockForWrite s b =>
      obtain ⟨rfl, hticket, hb⟩ := hpre
      exact keeps_tryLockForWrite hk hticket hb
  | exchangeLockNum s b expected left =>
      obtain ⟨rfl, hexpected, hidle, n, v, hserving, hv⟩ := hpre
      exact keeps_exchangeLockNum hk hexpected hidle hserving hv
  | releaseWriteLock s b =>
      obtain ⟨rfl, hwriter, hstored⟩ := hpre
      exact keeps_releaseWriteLock hk hwriter hstored
  | releaseReadLock s b =>
      obtain ⟨rfl, hreader⟩ := hpre
      exact keeps_releaseReadLock hk hreader
  | setMsgSize s b size =>
      obtain ⟨rfl, hb⟩ := hpre
      refine keeps_of_write hk hb
        (f := fun m => { m with msgSize := Function.update m.msgSize b size }) rfl fun m =>
          ⟨rfl, rfl, rfl, rfl, fun b' hb' => ?_⟩
      exact ⟨Function.update_of_ne hb' _ _, rfl, fun _ _ => rfl⟩
  | setMsgInfoSize s b size =>
      obtain ⟨rfl, hb⟩ := hpre
      refine keeps_of_write hk hb
        (f := fun m => { m with msgInfoSize := Function.update m.msgInfoSize b size }) rfl fun m =>
          ⟨rfl, rfl, rfl, rfl, fun b' hb' => ?_⟩
      exact ⟨rfl, Function.update_of_ne hb' _ _, fun _ _ => rfl⟩
  | write a bytes =>
      obtain ⟨hsegment, b, hb, hfits⟩ := hpre
      refine keeps_of_write hk hb (f := fun m => m.write a.offset bytes) ?_ fun m =>
        ⟨rfl, rfl, rfl, rfl, fun b' hb' => SameBlock.of_write hb' hfits⟩
      simp only [exec, noting, Kernel.exec, note, hsegment]
  | notify info => exact keeps_notify hk hpre.1 hpre.2
  | listen n => exact keeps_listen hk
  | _ => exact hpre.elim

/-- A reader that cannot lock its block dies, of the null pointer that it has then. -/
def protocol : Protocol sig ι XsiSegment (Shared ι) Bool exec where
  Inv := Inv order c
  Rely := Rely c
  Cond _ _ _ _ _ := True
  Pre := Pre order c
  Crash := True
  Hang _ _ := True
  refl := Rely.refl c
  trans := Rely.trans
  hang_stable h _ := h
  keeps hk hpre _ := keeps order c hk hpre

/-! ### What the functions keep to -/

/-- Process `i` holds no lock. -/
structure Idle (i : ι) (o : Own) (k : Shared ι) : Prop where
  own : k.2.own i = o
  reader : ∀ b, i ∉ k.2.readers b
  writer : ∀ b, k.2.writer b ≠ some i

/-- The segment is mapped, and laid out as it was made. -/
structure Opened (x : XsiSegment) : Prop where
  init : x.init = true
  conf : x.conf = c
  state : x.state = some 0
  blocks : x.blocks = some 0
  bufs : ∀ b < c.blockNum, x.blockBufAddrs b = some ⟨0, c.bufOffset b⟩

/-- Process `i` has drawn value `v` for its request, and holds no lock. -/
structure Drawn (i : ι) (o : Own) (v : Nat) (k : Shared ι) : Prop where
  idle : Idle i { o with ticket := v } k
  drawn : v < k.2.drawn
  content : k.2.content v = o.request

/-- Process `i` writes block `b`, which it has made what it is in `m` so far. -/
structure Writing (i : ι) (o : Own) (b : Nat) (m : ManagedShm) (k : Shared ι) : Prop where
  own : k.2.own i = o
  reader : ∀ b', i ∉ k.2.readers b'
  writer : ∀ b', k.2.writer b' = some i ↔ b' = b
  turns : (k.2.turns b).head? = some o.ticket
  index : b = o.ticket % c.blockNum
  drawn : o.ticket < k.2.drawn
  content : k.2.content o.ticket = o.request
  block : SameBlock c b m (k.1.segments 0)

/-- Process `i` has released block `b`, which holds its request for now. -/
structure Released (i : ι) (o : Own) (b : Nat) (k : Shared ι) : Prop where
  idle : Idle i o k
  index : b = o.ticket % c.blockNum
  turn : o.ticket ∈ k.2.turns b

/-- Process `i` reads block `b`, and has found `r` when it locked that; `s` is what was
transmitted with the value of its notification. -/
structure Holding (i : ι) (o : Own) (r : Reading) (s : Sending) (b : Nat) (k : Shared ι) :
    Prop where
  own : k.2.own i = o
  reading : o.reading = some r
  reader : ∀ b', i ∈ k.2.readers b' ↔ b' = b
  writer : ∀ b', k.2.writer b' ≠ some i
  drawn : r.value < k.2.drawn
  content : k.2.content r.value = s

/-- Process `i` has delivered `d` for notification `n` to so many listeners. -/
structure Delivered (i : ι) (o : Own) (n listeners : Nat) (d : Delivery) (k : Shared ι) :
    Prop where
  idle : Idle i o k
  reading : ∃ r, o.reading = some r ∧ r.notice = n ∧ r.value < k.2.drawn ∧
    (r.Before c → r.InOrder → d.Carries (k.2.content r.value) listeners)

section Functions

variable {order c} {α : Type} {i : ι} {x : XsiSegment} {o : Own} {k : Shared ι}

omit [DecidableEq ι] in
theorem Idle.of_rely {l : Shared ι} (hk : Idle i o k) (hkl : Rely c i k l) : Idle i o l :=
  ⟨hkl.own.trans hk.own, fun b hb => hk.reader b ((hkl.reader b).mp hb),
    fun b hb => hk.writer b ((hkl.writer b).mp hb)⟩

/-- An operation that the history does not keep. -/
theorem idle_safe {p : Op} {Q : XsiSegment → Ans p → Shared ι → Prop} (hk : Idle i o k)
    (hpre : ∀ l, Pre order c i x p l) (hnote : ∀ a h, note i p a h = h)
    (hQ : ∀ l m ok, Inv order c l → Idle i o m → Q x (exec i p ok l).1 m) :
    (protocol order c).Safe i Q (p.get x) k := by
  refine Protocol.safe_keep (F := Idle i o) (fun _ hkl => hk.of_rely hkl) (fun l _ _ => hpre l)
    (fun ok l _ h => ?_) fun ok l hl _ _ hm => hQ l _ ok hl hm
  have hsame : (exec i p ok l).2.2 = l.2 := hnote _ _
  exact ⟨hsame ▸ h.own, hsame ▸ h.reader, hsame ▸ h.writer⟩

theorem lookup_safe {site : Site} {Q : XsiSegment → Option Nat → Shared ι → Prop}
    (hk : Idle i o k) (hnone : ∀ l, Idle i o l → Q x none l)
    (hsome : ∀ l, Idle i o l → Q x (some 0) l) :
    (protocol order c).Safe i Q ((Op.lookup site).get x) k := by
  refine idle_safe hk (fun _ => trivial) (fun _ _ => rfl) fun l m ok hl hm => ?_
  have hlookup : (exec i (.lookup site) ok l).1 = if ok then some 0 else none :=
    congrArg (fun key => if ok then key else none) hl.key
  rw [hlookup]
  cases ok with
  | false => exact hnone m hm
  | true => exact hsome m hm

theorem shmat_safe {s : Nat} {site : Site} {Q : XsiSegment → Bool → Shared ι → Prop}
    (hk : Idle i o k) (hQ : ∀ a l, Idle i o l → Q x a l) :
    (protocol order c).Safe i Q ((Op.shmat s site).get x) k :=
  idle_safe hk (fun _ => trivial) (fun _ _ => rfl) fun _ m ok _ hm => hQ ok m hm

theorem ceiling_safe {site : Site} {Q : XsiSegment → Nat → Shared ι → Prop}
    (hk : Idle i o k) (hQ : ∀ l, Idle i o l → Q x c.ceilingMsgSize l) :
    (protocol order c).Safe i Q ((Op.ceilingMsgSize 0 site).get x) k := by
  refine idle_safe hk (fun _ => trivial) (fun _ _ => rfl) fun l m ok hl hm => ?_
  have hceiling : (exec i (.ceilingMsgSize 0 site) ok l).1 = c.ceilingMsgSize := hl.ceiling
  rw [hceiling]
  exact hQ m hm

theorem openOnly_safe {site : Site} {Q : XsiSegment → Bool → Shared ι → Prop} (hk : Idle i o k)
    (hx : x.init = false)
    (hfalse : ∀ (y : XsiSegment) (l : Shared ι), y.init = false → Idle i o l → Q y false l)
    (htrue : ∀ (y : XsiSegment) (l : Shared ι), Opened c y → Idle i o l → Q y true l) :
    (protocol order c).Safe i Q (XsiSegment.openOnly site x) k := by
  refine safe_openOnly hx (lookup_safe hk (fun l hl => ⟨fun _ => hfalse x l hx hl, nofun⟩)
    fun l hl => ⟨nofun, ?_⟩)
  rintro _ ⟨⟩
  refine shmat_safe hl fun _ m hm => ⟨fun _ => hfalse _ m hx hm, fun _ => ?_⟩
  refine ceiling_safe hm fun n hn => ?_
  refine idle_safe hn (fun _ => trivial) (fun _ _ => rfl) fun _ p _ _ hp => ?_
  exact htrue _ p ⟨rfl, ShmConf.update_ceilingMsgSize c, rfl, rfl, fun b hb => by
    simp [XsiSegment.layOut, hb]⟩ hp

/-- The key exists, so a transmitter opens the segment as a reader does. -/
theorem openOrCreate_safe {site : Site} {Q : XsiSegment → Bool → Shared ι → Prop}
    (hk : Idle i o k) (hx : x.init = false)
    (hfalse : ∀ (y : XsiSegment) (l : Shared ι), y.init = false → Idle i o l → Q y false l)
    (htrue : ∀ (y : XsiSegment) (l : Shared ι), Opened c y → Idle i o l → Q y true l) :
    (protocol order c).Safe i Q (XsiSegment.openOrCreate site x) k := by
  refine safe_openOrCreate (fun h => absurd (hx.symm.trans h) Bool.false_ne_true) fun _ => ?_
  refine safe_createFrom (idle_safe hk (fun _ => trivial) (fun _ _ => rfl) fun l m ok hl hm => ?_)
  have hcreate : (exec i (.create x.conf) ok l).1 = .error .EEXIST := by
    simp [exec, noting, Kernel.exec, hl.key]
  rw [hcreate]
  exact ⟨nofun, nofun, fun _ => openOnly_safe hm hx hfalse htrue, nofun⟩

theorem remapIfNeeded_safe {site : Site} {Q : XsiSegment → Bool → Shared ι → Prop}
    (hk : Idle i o k) (hx : Opened c x) (hQ : ∀ l, Idle i o l → Q x true l) :
    (protocol order c).Safe i Q (XsiSegment.remapIfNeeded site x) k := by
  refine safe_remapIfNeeded (fun _ => trivial) fun s hs => ?_
  obtain rfl : 0 = s := Option.some.inj (hx.state.symm.trans hs)
  refine idle_safe hk (fun _ => trivial) (fun _ _ => rfl) fun l m ok hl hm => ?_
  have hneed : (exec i (.needRemap 0) ok l).1 = false := hl.needRemap
  rw [hneed]
  exact ⟨fun _ => hQ m hm, nofun⟩

/-! ### Transmitting -/

omit [DecidableEq ι] in
theorem Drawn.of_rely {v : Nat} {l : Shared ι} (hk : Drawn i o v k) (hkl : Rely c i k l) :
    Drawn i o v l :=
  ⟨hk.idle.of_rely hkl, hk.drawn.trans_le hkl.drawn, (hkl.content v hk.drawn).trans hk.content⟩

omit [DecidableEq ι] in
theorem Writing.of_rely {b : Nat} {m : ManagedShm} {l : Shared ι} (hk : Writing c i o b m k)
    (hkl : Rely c i k l) : Writing c i o b m l := by
  have hb : k.2.writer b = some i := (hk.writer b).mpr rfl
  exact {
    own := hkl.own.trans hk.own
    reader := fun b' hb' => hk.reader b' ((hkl.reader b').mp hb')
    writer := fun b' => (hkl.writer b').trans (hk.writer b')
    turns := (congrArg _ (hkl.written b hb).2).trans hk.turns
    index := hk.index
    drawn := hk.drawn.trans_le hkl.drawn
    content := (hkl.content _ hk.drawn).trans hk.content
    block := hk.block.trans (hkl.written b hb).1 }

/-- The counter selects a block as one does that never wraps around. -/
theorem fetchAddSeq_safe {Q : XsiSegment → BitVec 32 → Shared ι → Prop} (hk : Idle i o k)
    (hfits : o.request.msg.length ≤ c.ceilingMsgSize)
    (hQ : ∀ (seq : BitVec 32) v l, seq.toNat % c.blockNum = v % c.blockNum → Drawn i o v l →
      Q x seq l) :
    (protocol order c).Safe i Q ((Op.fetchAddSeq 0).get x) k := by
  refine Protocol.safe_op (fun l hkl _ => ⟨rfl, ?_⟩) fun ok l hkl hl _ => ?_
  · rw [(hk.of_rely hkl).own]
    exact hfits
  · obtain ⟨hown, hreader, hwriter⟩ := hk.of_rely hkl
    refine hQ _ l.2.drawn _ ?_ ⟨⟨?_, hreader, hwriter⟩, Nat.lt_succ_self _, ?_⟩
    · show (l.1.segments 0).seq.toNat % c.blockNum = _
      rw [hl.seq, BitVec.toNat_ofNat, Nat.mod_mod_of_dvd _ c.blockNum_dvd]
    · simp [exec, noting, note, History.setOwn, hown]
    · simp [exec, noting, note, hown]

theorem tryLockForWrite_safe {v b : Nat} {Q : XsiSegment → Bool → Shared ι → Prop}
    (hk : Drawn i o v k) (hb : b = v % c.blockNum)
    (hfalse : ∀ l, Idle i { o with ticket := v } l → Q x false l)
    (htrue : ∀ m l, Writing c i { o with ticket := v } b m l → Q x true l) :
    (protocol order c).Safe i Q ((Op.tryLockForWrite 0 b).get x) k := by
  refine Protocol.safe_op (fun l hkl _ => ?_) fun ok l hkl hl _ => ?_
  · have hl := hk.of_rely hkl
    show 0 = 0 ∧ (l.2.own i).ticket < l.2.drawn ∧ (l.2.own i).ticket % c.blockNum = b
    rw [hl.idle.own]
    exact ⟨rfl, hl.drawn, hb.symm⟩
  · obtain ⟨⟨hown, hreader, hwriter⟩, hdrawn, hcontent⟩ := hk.of_rely hkl
    by_cases hfree : (l.1.segments 0).lockNum b = ManagedShm.kRWLockFree ∧ ok
    · have hexec : exec i (.tryLockForWrite 0 b) ok l =
          (true, l.1.update 0 fun m =>
            { m with lockNum := Function.update m.lockNum b ManagedShm.kWriteExclusive },
          { l.2 with
            writer := Function.update l.2.writer b (some i)
            turns := Function.update l.2.turns b ((l.2.own i).ticket :: l.2.turns b) }) := by
        simp only [exec, noting, Kernel.exec, if_pos hfree, note]
      rw [hexec]
      refine htrue (l.1.segments 0) _ ⟨hown, hreader, fun b' => ?_, ?_, hb, hdrawn, hcontent,
        ⟨rfl, rfl, fun _ _ => rfl⟩⟩
      · by_cases hb' : b' = b
        · simp [hb']
        · simp [hb', hwriter b']
      · simp [hown]
    · have hexec : exec i (.tryLockForWrite 0 b) ok l = (false, l) := by
        simp only [exec, noting, Kernel.exec, if_neg hfree, note]
      rw [hexec]
      exact hfalse l ⟨hown, hreader, hwriter⟩

theorem nextWritableFrom_safe {fuel : Nat} {Q : XsiSegment → Nat → Shared ι → Prop}
    (hk : Idle i o k) (hx : Opened c x) (hfits : o.request.msg.length ≤ c.ceilingMsgSize)
    (hQ : ∀ v b m l, b < c.blockNum → Writing c i { o with ticket := v } b m l → Q x b l) :
    (protocol order c).Safe i Q (XsiSegment.nextWritableFrom c.blockNum fuel x) k := by
  induction fuel generalizing o k with
  | zero => trivial
  | succ fuel ih =>
      refine safe_nextWritableFrom (fun _ => trivial) (fun _ => trivial) fun s hs => ?_
      obtain rfl : 0 = s := Option.some.inj (hx.state.symm.trans hs)
      refine fetchAddSeq_safe hk hfits fun seq v l hseq hl b hb => ?_
      obtain rfl : 0 = b := Option.some.inj (hx.blocks.symm.trans hb)
      rw [hseq]
      refine tryLockForWrite_safe hl rfl (fun n hn => ⟨nofun, fun _ => ?_⟩)
        fun m n hn => ⟨fun _ => ?_, nofun⟩
      · exact ih hn hfits hQ
      · exact hQ v _ m n (Nat.mod_lt _ c.blockNum_pos) hn

/-- An operation that writes into the block. -/
theorem inBlock_safe {p : Op} {b : Nat} {m : ManagedShm} {f : ManagedShm → ManagedShm}
    {Q : XsiSegment → Ans p → Shared ι → Prop} (hk : Writing c i o b m k)
    (hpre : ∀ l, l.2.writer b = some i → Pre order c i x p l)
    (hexec : ∀ ok l, (exec i p ok l).2 = (l.1.update 0 f, l.2))
    (hf : ∀ n, SameBlock c b m n → SameBlock c b (f m) (f n))
    (hQ : ∀ a l, Writing c i o b (f m) l → Q x a l) :
    (protocol order c).Safe i Q (p.get x) k := by
  refine Protocol.safe_op (fun l hkl _ => hpre l (((hk.of_rely hkl).writer b).mpr rfl))
    fun ok l hkl _ _ => ?_
  refine hQ _ _ ?_
  have hl := hk.of_rely hkl
  rw [hexec]
  refine { hl with block := ?_ }
  rw [Kernel.update_same]
  exact hf _ hl.block

theorem write_safe {b off : Nat} {bs : List Byte} {m : ManagedShm}
    {Q : XsiSegment → Unit → Shared ι → Prop} (hk : Writing c i o b m k)
    (hfits : Fits c b off bs.length)
    (hQ : ∀ l, Writing c i o b (m.write off bs) l → Q x () l) :
    (protocol order c).Safe i Q ((Op.write ⟨0, off⟩ bs).get x) k :=
  inBlock_safe (f := fun m => m.write off bs) hk (fun _ hl => ⟨rfl, b, hl, hfits⟩)
    (fun _ _ => rfl) (fun _ h => h.write off bs) fun _ l hl => hQ l hl

theorem setMsgSize_safe {b size : Nat} {m : ManagedShm}
    {Q : XsiSegment → Unit → Shared ι → Prop} (hk : Writing c i o b m k)
    (hQ : ∀ l, Writing c i o b { m with msgSize := Function.update m.msgSize b size } l → Q x () l) :
    (protocol order c).Safe i Q ((Op.setMsgSize 0 b size).get x) k :=
  inBlock_safe (f := fun m => { m with msgSize := Function.update m.msgSize b size }) hk
    (fun _ hl => ⟨rfl, hl⟩) (fun _ _ => rfl) (fun _ h => h.setMsgSize size) fun _ l hl => hQ l hl

theorem setMsgInfoSize_safe {b size : Nat} {m : ManagedShm}
    {Q : XsiSegment → Unit → Shared ι → Prop} (hk : Writing c i o b m k)
    (hQ : ∀ l, Writing c i o b { m with msgInfoSize := Function.update m.msgInfoSize b size } l →
      Q x () l) :
    (protocol order c).Safe i Q ((Op.setMsgInfoSize 0 b size).get x) k :=
  inBlock_safe (f := fun m => { m with msgInfoSize := Function.update m.msgInfoSize b size }) hk
    (fun _ hl => ⟨rfl, hl⟩) (fun _ _ => rfl) (fun _ h => h.setMsgInfoSize size)
    fun _ l hl => hQ l hl

theorem releaseWrittenBlock_safe {b : Nat} {wb : WritableBlock} {m : ManagedShm}
    {Q : XsiSegment → Unit → Shared ι → Prop} (hx : Opened c x) (hwb : wb.index = b)
    (hb : b < c.blockNum) (hfits : o.request.msg.length ≤ c.ceilingMsgSize)
    (hk : Writing c i o b (transmitted order c b o.request m) k)
    (hQ : ∀ l, Released c i o b l → Q x () l) :
    (protocol order c).Safe i Q (XsiSegment.releaseWrittenBlock wb x) k := by
  subst hwb
  refine safe_releaseWrittenBlock (fun hge => absurd hb (Nat.not_lt.mpr (hx.conf ▸ hge)))
    (fun _ _ => trivial) fun s _ hs => ?_
  obtain rfl : 0 = s := Option.some.inj (hx.blocks.symm.trans hs)
  refine Protocol.safe_op (fun l hkl _ => ?_) fun ok l hkl _ _ => ?_
  · have hl := hk.of_rely hkl
    refine ⟨rfl, (hl.writer _).mpr rfl, fun v hv => ?_⟩
    obtain rfl : o.ticket = v := Option.some.inj (hl.turns.symm.trans hv)
    rw [hl.content]
    exact (stored_transmitted order c _ o.request m).of_same hfits hl.block
  · have hl := hk.of_rely hkl
    refine hQ _ ⟨⟨hl.own, hl.reader, fun b' => ?_⟩, hl.index, List.mem_of_mem_head? hl.turns⟩
    show Function.update l.2.writer wb.index none b' ≠ some i
    by_cases hb' : b' = wb.index
    · simp [hb']
    · rw [Function.update_of_ne hb']
      exact fun h => hb' ((hl.writer b').mp h)

theorem notify_safe {b : Nat} {info : ReadableInfo} {Q : XsiSegment → Bool → Shared ι → Prop}
    (hk : Released c i o b k) (hinfo : info.blockIndex = b) (hQ : ∀ a l, Idle i o l → Q x a l) :
    (protocol order c).Safe i Q ((Op.notify info).get x) k := by
  refine Protocol.safe_op (fun l hkl _ => ?_) fun ok l hkl _ _ => ?_
  · have hturn := hkl.turns b hk.turn
    show _ = (l.2.own i).ticket % c.blockNum ∧ (l.2.own i).ticket ∈ _
    rw [(hk.idle.of_rely hkl).own, hinfo]
    exact ⟨hk.index, hturn⟩
  · obtain ⟨hown, hreader, hwriter⟩ := hk.idle.of_rely hkl
    exact hQ _ _ ⟨hown, hreader, hwriter⟩

theorem acquireBlockToWrite_safe {fuel : Nat}
    {Q : XsiSegment → Bool × WritableBlock → Shared ι → Prop} (hk : Idle i o k)
    (hx : x.init = true → Opened c x) (hfits : o.request.msg.length ≤ c.ceilingMsgSize)
    (hfalse : ∀ (y : XsiSegment) (l : Shared ι), (y.init = true → Opened c y) → Idle i o l →
      Q y (false, {}) l)
    (htrue : ∀ (y : XsiSegment) v b m l, Opened c y → b < c.blockNum →
      Writing c i { o with ticket := v } b m l →
      Q y (true, { index := b, block := some (0, b), buf := some ⟨0, c.bufOffset b⟩ }) l) :
    (protocol order c).Safe i Q
      (XsiSegment.acquireBlockToWrite fuel o.request.msg.length x) k := by
  rw [XsiSegment.acquireBlockToWrite]
  simp only [Protocol.safe_seq]
  have hopened : ∀ (y : XsiSegment) (l : Shared ι), Opened c y → Idle i o l →
      (protocol order c).Safe i Q
        (XsiSegment.acquireOpenedToWrite fuel o.request.msg.length y) l := by
    intro y l hy hl
    rw [XsiSegment.acquireOpenedToWrite]
    simp only [Protocol.safe_seq]
    refine remapIfNeeded_safe hl hy fun m hm => ?_
    simp only [XsiSegment.recreateIfLarger, Protocol.safe_seq, Protocol.safe_get, hy.conf,
      Protocol.safe_ite, Protocol.safe_pure]
    refine ⟨fun hlarger => absurd hfits (Nat.not_le.mpr hlarger), fun _ => ⟨by simp, fun _ => ?_⟩⟩
    simp only [XsiSegment.takeWritable, XsiSegment.getNextWritableBlockIndex, Protocol.safe_seq,
      Protocol.safe_get, hy.conf, Protocol.safe_pure]
    refine nextWritableFrom_safe hm hy hfits fun v b n p hb hp => ?_
    rw [hy.blocks, hy.bufs b hb]
    exact htrue y v b n p hy hb hp
  refine safe_ensureOpen (fun hinit => hopened x k (hx hinit) hk) fun hinit => ?_
  refine openOrCreate_safe hk hinit (fun y l hy hl => ?_) fun y l hy hl => hopened y l hy hl
  exact hfalse y l (fun h => by simp [hy] at h) hl

theorem transmit_safe {t : ShmTransmitter} {fuel : Nat} {Q : XsiSegment → Bool → Shared ι → Prop}
    (hk : Idle i o k) (hx : x.init = true → Opened c x)
    (hfits : o.request.msg.length ≤ c.ceilingMsgSize)
    (hQ : ∀ (y : XsiSegment) a o' l, (y.init = true → Opened c y) → Idle i o' l → Q y a l) :
    (protocol order c).Safe i Q (t.transmit order fuel o.request.msg o.request.info x) k := by
  rw [ShmTransmitter.transmit]
  simp only [Protocol.safe_ite, Protocol.safe_seq, Protocol.safe_pure]
  refine ⟨fun _ => hQ x false o k hx hk, fun _ => ?_⟩
  refine acquireBlockToWrite_safe hk hx hfits (fun y l hy hl => ?_) fun y v b m l hy hb hl => ?_
  · exact ⟨fun _ => hQ y false o l hy hl, by simp⟩
  · refine ⟨by simp, fun _ => ?_⟩
    simp only [Protocol.safe_deref, Option.some.injEq, forall_eq', reduceCtorEq, false_implies,
      and_true]
    refine write_safe hl (fits_msg hfits) fun l hl => ?_
    refine setMsgSize_safe hl fun l hl => ?_
    refine write_safe hl (fits_msgInfo (o := 0) hfits (by simp [idSize])) fun l hl => ?_
    refine write_safe hl (fits_msgInfo hfits (by simp [idSize])) fun l hl => ?_
    refine write_safe hl (fits_msgInfo hfits (by simp [idSize])) fun l hl => ?_
    refine setMsgInfoSize_safe hl fun l hl => ?_
    refine releaseWrittenBlock_safe (o := { o with ticket := v }) (m := m) hy rfl hb hfits hl
      fun l hl => ?_
    exact notify_safe hl rfl fun a l hl => hQ y a _ l (fun _ => hy) hl

/-! ### Reading -/

variable {r : Reading} {s : Sending} {b : Nat}

omit [DecidableEq ι] in
theorem Holding.of_rely {l : Shared ι} (hk : Holding i o r s b k) (hkl : Rely c i k l) :
    Holding i o r s b l where
  own := hkl.own.trans hk.own
  reading := hk.reading
  reader b' := (hkl.reader b').trans (hk.reader b')
  writer b' hb' := hk.writer b' ((hkl.writer b').mp hb')
  drawn := hk.drawn.trans_le hkl.drawn
  content := (hkl.content _ hk.drawn).trans hk.content

omit [DecidableEq ι] in
/-- Nobody writes the block, and the value of the notification has locked it last. -/
theorem Holding.stored (hk : Holding i o r s b k) (hinv : Inv order c k) (hbefore : r.Before c)
    (horder : r.InOrder) : Stored order c b s (k.1.segments 0) := by
  have hi : i ∈ k.2.readers b := (hk.reader b).mpr rfl
  obtain ⟨r', hr', hturns, hsound⟩ := hinv.readers b i hi
  obtain rfl : r = r' := by
    rw [hk.own, hk.reading] at hr'
    exact Option.some.inj hr'
  have hwriter : k.2.writer b = none := by
    cases hw : k.2.writer b with
    | none => rfl
    | some j => simp [(hinv.locked b j hw).2] at hi
  rw [← hk.content]
  exact hinv.stored b r.value hwriter (hturns ▸ hsound.head hbefore horder)

theorem tryReadFrom_safe {left n v : Nat} {lockNum : BitVec 32}
    {Q : XsiSegment → Bool → Shared ι → Prop} (hk : Idle i o k)
    (hnonneg : lockNum.slt ManagedShm.kRWLockFree = false) (hserving : o.serving = some (n, v))
    (hb : v % c.blockNum = b) (hfalse : ∀ l, Q x false l)
    (htrue : ∀ o' r s l, r.notice = n → Holding i o' r s b l → Q x true l) :
    (protocol order c).Safe i Q (Block.tryReadFrom 0 b left lockNum x) k := by
  induction left generalizing lockNum k with
  | zero => exact hfalse k
  | succ left ih =>
      refine safe_tryReadFrom (Protocol.safe_op (fun l hkl _ => ?_) fun ok l hkl hl _ => ?_)
      · obtain ⟨hown, hreader, _⟩ := hk.of_rely hkl
        exact ⟨rfl, hnonneg, hreader, n, v, by rw [hown, hserving], hb⟩
      · obtain ⟨hown, hreader, hwriter⟩ := hk.of_rely hkl
        by_cases hequal : (l.1.segments 0).lockNum b = lockNum ∧ ok
        · have hexec : exec i (.exchangeLockNum 0 b lockNum left) ok l =
              (true,
              l.1.update 0 fun m => { m with lockNum := Function.update m.lockNum b (lockNum + 1) },
              { l.2.setOwn i { o with reading := some ⟨n, v, l.2.drawn, l.2.turns b⟩ } with
                readers := Function.update l.2.readers b (insert i (l.2.readers b)) }) := by
            simp only [exec, noting, Kernel.exec, if_pos hequal, note, hown, hserving,
              Option.map_some]
          rw [hexec]
          refine ⟨fun _ => ?_, nofun⟩
          refine htrue _ ⟨n, v, l.2.drawn, l.2.turns b⟩ (l.2.content v) _ rfl
            ⟨Function.update_self .., rfl, fun b' => ?_, hwriter, ?_, rfl⟩
          · by_cases hb' : b' = b
            · simp [hb']
            · simp [hb', hreader b']
          · have hv := hl.serving i n v (by rw [hown, hserving])
            exact (hl.turns _ v (hl.sent v (List.mem_of_getElem? hv))).1
        · have hexec : exec i (.exchangeLockNum 0 b lockNum left) ok l = (false, l) := by
            simp only [exec, noting, Kernel.exec, if_neg hequal, note]
          rw [hexec]
          refine ⟨nofun, fun _ => ⟨fun _ => hfalse l, fun _ => ?_⟩⟩
          refine idle_safe ⟨hown, hreader, hwriter⟩ (fun _ => trivial) (fun _ _ => rfl)
            fun m n _ _ hn => ⟨fun _ => hfalse n, fun hnonneg => ?_⟩
          exact ih hn hnonneg

/-- A block that is not acquired is a null pointer. -/
theorem readBlock_unacquired_safe {listeners index : Nat}
    {Q : XsiSegment → Delivery → Shared ι → Prop} :
    (protocol order c).Safe i Q (readBlock order listeners { index } x) k := by
  simp only [readBlock, Protocol.safe_seq, Protocol.safe_deref, reduceCtorEq, false_implies,
    implies_true, true_and]
  exact fun _ => trivial

/-- An operation that only looks at the memory. -/
theorem look_safe {p : Op} {Q : XsiSegment → Ans p → Shared ι → Prop}
    (hk : Holding i o r s b k) (hpre : ∀ l, Pre order c i x p l)
    (hexec : ∀ ok l, (exec i p ok l).2 = l)
    (hQ : ∀ ok l, Inv order c l → Holding i o r s b l → Q x (exec i p ok l).1 l) :
    (protocol order c).Safe i Q (p.get x) k :=
  Protocol.safe_op (fun l _ _ => hpre l) fun ok l hkl hl _ => by
    rw [hexec]
    exact hQ ok l hl (hk.of_rely hkl)

theorem msgSize_safe {Q : XsiSegment → Nat → Shared ι → Prop} (hk : Holding i o r s b k)
    (hQ : ∀ n l, Holding i o r s b l → (r.Before c → r.InOrder → n = s.msg.length) → Q x n l) :
    (protocol order c).Safe i Q ((Op.msgSize 0 b).get x) k :=
  look_safe hk (fun _ => trivial) (fun _ _ => rfl) fun _ l hl hh =>
    hQ _ l hh fun hbefore horder => (hh.stored hl hbefore horder).msgSize

theorem read_safe {off len : Nat} (bs : List Byte)
    {Q : XsiSegment → List Byte → Shared ι → Prop} (hk : Holding i o r s b k)
    (hread : ∀ m, Stored order c b s m → r.Before c → r.InOrder → m.read off len = bs)
    (hQ : ∀ as l, Holding i o r s b l → (r.Before c → r.InOrder → as = bs) → Q x as l) :
    (protocol order c).Safe i Q ((Op.read ⟨0, off⟩ len).get x) k :=
  look_safe hk (fun _ => trivial) (fun _ _ => rfl) fun _ l hl hh =>
    hQ _ l hh fun hbefore horder => hread _ (hh.stored hl hbefore horder) hbefore horder

/-- Each listener is given the message. -/
theorem onMessage_safe {listeners : Nat} {Q : XsiSegment → List (List Byte) → Shared ι → Prop}
    (hk : Holding i o r s b k)
    (hQ : ∀ ps l, Holding i o r s b l →
      (r.Before c → r.InOrder → ps = List.replicate listeners s.msg) → Q x ps l) :
    (protocol order c).Safe i Q (onMessage 0 b ⟨0, c.bufOffset b⟩ listeners x) k := by
  induction listeners generalizing k Q with
  | zero => exact hQ [] k hk fun _ _ => rfl
  | succ listeners ih =>
      rw [onMessage]
      simp only [Protocol.safe_seq]
      refine msgSize_safe hk fun n l hl hn => ?_
      refine read_safe s.msg hl (fun m hm hbefore horder => ?_) fun p l hl hp => ?_
      · rw [hn hbefore horder]
        exact hm.msg
      · refine ih hl fun ps l hl hps => hQ _ l hl fun hbefore horder => ?_
        rw [hp hbefore horder, hps hbefore horder, List.replicate_succ]

theorem releaseReadBlock_safe {rb : ReadableBlock} {Q : XsiSegment → Unit → Shared ι → Prop}
    (hx : Opened c x) (hk : Holding i o r s rb.index k) (hb : rb.index < c.blockNum)
    (hQ : ∀ l, Idle i o l → r.value < l.2.drawn → l.2.content r.value = s → Q x () l) :
    (protocol order c).Safe i Q (XsiSegment.releaseReadBlock rb x) k := by
  refine safe_releaseReadBlock (fun hge => absurd hb (Nat.not_lt.mpr (hx.conf ▸ hge)))
    (fun _ _ => trivial) fun t _ ht => ?_
  obtain rfl : 0 = t := Option.some.inj (hx.blocks.symm.trans ht)
  refine Protocol.safe_op (fun l hkl _ => ⟨rfl, ((hk.of_rely hkl).reader _).mpr rfl⟩)
    fun ok l hkl _ _ => ?_
  have hl := hk.of_rely hkl
  refine hQ _ ⟨hl.own, fun b' => ?_, hl.writer⟩ hl.drawn hl.content
  show i ∉ Function.update l.2.readers rb.index ((l.2.readers rb.index).erase i) b'
  by_cases hb' : b' = rb.index
  · subst hb'
    simp
  · rw [Function.update_of_ne hb']
    exact fun h => hb' ((hl.reader b').mp h)

theorem readBlock_safe {listeners : Nat} {Q : XsiSegment → Delivery → Shared ι → Prop}
    (hx : Opened c x) (hk : Holding i o r s b k) (hb : b < c.blockNum)
    (hQ : ∀ d l, Idle i o l → r.value < l.2.drawn → l.2.content r.value = s →
      (r.Before c → r.InOrder → d.Carries s listeners) → Q x d l) :
    (protocol order c).Safe i Q
      (readBlock order listeners
        { index := b, block := some (0, b), buf := some ⟨0, c.bufOffset b⟩ } x) k := by
  simp only [readBlock, Protocol.safe_seq, Protocol.safe_deref, Option.some.injEq, forall_eq',
    reduceCtorEq, false_implies, and_true]
  refine msgSize_safe hk fun n l hl hn => ?_
  refine read_safe s.info.senderId.data.toList hl (fun m hm hbefore horder => ?_)
    fun senderId l hl hsender => ?_
  · rw [← hm.senderId, hn hbefore horder]
  refine read_safe s.info.spareId.data.toList hl (fun m hm hbefore horder => ?_)
    fun spareId l hl hspare => ?_
  · rw [← hm.spareId, ← hn hbefore horder]
    rfl
  refine read_safe (image order (k := 8) s.info.seqNum) hl (fun m hm hbefore horder => ?_)
    fun seqNum l hl hseq => ?_
  · rw [← hm.seqNum, ← hn hbefore horder]
    rfl
  refine onMessage_safe hl fun payloads l hl hpayloads => ?_
  refine releaseReadBlock_safe hx hl hb fun l hl hdrawn hcontent => ?_
  refine hQ _ l hl hdrawn hcontent fun hbefore horder => ?_
  refine ⟨?_, ?_, ?_, hpayloads hbefore horder⟩
  · rw [hsender hbefore horder, Identity.copyIn_data]
  · rw [hspare hbefore horder, Identity.copyIn_data]
  · rw [hseq hbefore horder]
    exact ofImage_image (k := 8) order s.info.seqNum

theorem acquireBlockToRead_safe {n v : Nat}
    {Q : XsiSegment → Bool × ReadableBlock → Shared ι → Prop} (hk : Idle i o k)
    (hx : x.init = true → Opened c x) (hserving : o.serving = some (n, v))
    (hb : v % c.blockNum = b)
    (hfalse : ∀ y l, Q y (false, { index := b }) l)
    (htrue : ∀ y o' r s l, Opened c y → r.notice = n → Holding i o' r s b l →
      Q y (true, { index := b, block := some (0, b), buf := some ⟨0, c.bufOffset b⟩ }) l) :
    (protocol order c).Safe i Q (XsiSegment.acquireBlockToRead b x) k := by
  rw [XsiSegment.acquireBlockToRead]
  simp only [Protocol.safe_seq]
  have hlt : b < c.blockNum := hb ▸ Nat.mod_lt _ c.blockNum_pos
  have hopened : ∀ (y : XsiSegment) (l : Shared ι), Opened c y → Idle i o l →
      (protocol order c).Safe i Q (XsiSegment.acquireOpenedToRead b y) l := by
    intro y l hy hl
    simp only [XsiSegment.acquireOpenedToRead, Protocol.safe_seq, Protocol.safe_get, hy.conf,
      Protocol.safe_ite, Protocol.safe_pure]
    refine ⟨fun _ => hfalse y l, fun _ => remapIfNeeded_safe hl hy fun m hm => ⟨by simp, fun _ => ?_⟩⟩
    refine safe_takeReadable (fun _ => trivial) fun t ht => ?_
    obtain rfl : 0 = t := Option.some.inj (hy.blocks.symm.trans ht)
    simp only [Block.tryLockForRead, Protocol.safe_seq, Protocol.safe_ite, Protocol.safe_pure]
    refine idle_safe hm (fun _ => trivial) (fun _ _ => rfl) fun _ p _ _ hp => ?_
    refine ⟨fun _ => ⟨fun _ => hfalse y p, by simp⟩, fun hnonneg => ?_⟩
    refine tryReadFrom_safe hp (by simpa using hnonneg) hserving hb
      (fun q => ⟨fun _ => hfalse y q, by simp⟩) fun o' r s q hr hq => ⟨by simp, fun _ => ?_⟩
    rw [hy.bufs b hlt]
    exact htrue y o' r s q hy hr hq
  refine safe_ensureOpen (fun hinit => hopened x k (hx hinit) hk) fun hinit => ?_
  exact openOnly_safe hk hinit (fun y l _ _ => hfalse y l) fun y l hy hl => hopened y l hy hl

theorem listen_safe {n : Nat} {Q : XsiSegment → Option ReadableInfo → Shared ι → Prop}
    (hk : Idle i o k) (hnone : ∀ o' l, Idle i o' l → Q x none l)
    (hsome : ∀ o' v info l, Idle i o' l → o'.serving = some (n, v) →
      info.blockIndex = v % c.blockNum → Q x (some info) l) :
    (protocol order c).Safe i Q ((Op.listen n).get x) k := by
  refine Protocol.safe_op (fun _ _ _ => trivial) fun ok l hkl hl _ => ?_
  obtain ⟨hown, hreader, hwriter⟩ := hk.of_rely hkl
  have hidle : Idle i { o with serving := l.2.sent[n]?.map fun value => (n, value) }
      (exec i (.listen n) ok l).2 :=
    ⟨by simp [exec, noting, note, History.setOwn, hown], hreader, hwriter⟩
  show Q x l.1.notices[n]? (exec i (.listen n) ok l).2
  cases hinfo : l.1.notices[n]? with
  | none => exact hnone _ _ hidle
  | some info =>
      have hn : n < l.2.sent.length := hl.count ▸ (List.getElem?_eq_some_iff.mp hinfo).1
      have hsent : l.2.sent[n]? = some l.2.sent[n] := List.getElem?_eq_getElem hn
      exact hsome _ _ info _ hidle (by simp [hsent]) (hl.notices n _ info hsent hinfo)

theorem receive_safe {d : ShmDispatcher} {listeners n : Nat}
    {Q : XsiSegment → Option Delivery → Shared ι → Prop} (hk : Idle i o k)
    (hx : x.init = true → Opened c x)
    (hnone : ∀ o' l, Idle i o' l → Q x none l)
    (hsome : ∀ y a o' l, Opened c y → Delivered c i o' n listeners a l → Q y (some a) l) :
    (protocol order c).Safe i Q (d.receive order listeners n x) k := by
  rw [ShmDispatcher.receive]
  simp only [Protocol.safe_seq]
  refine listen_safe hk hnone fun o' v info l hl hserving hindex => ?_
  simp only [Protocol.safe_ite, Protocol.safe_pure, Protocol.safe_seq]
  refine ⟨fun _ => hnone o' l hl, fun _ => ⟨fun _ => hnone o' l hl, fun _ => ?_⟩⟩
  simp only [readMessage, Protocol.safe_seq]
  refine acquireBlockToRead_safe hl hx hserving hindex.symm (fun _ _ => readBlock_unacquired_safe)
    fun y o' r s m hy hr hm => ?_
  refine readBlock_safe hy hm (hindex ▸ Nat.mod_lt _ c.blockNum_pos)
    fun a p hp hdrawn hcontent hcarries => ?_
  exact hsome y a o' p hy ⟨hp, r, hm.reading, hr, hdrawn, hcontent.symm ▸ hcarries⟩

omit [DecidableEq ι] in
theorem Delivered.of_rely {n listeners : Nat} {d : Delivery} {l : Shared ι}
    (hk : Delivered c i o n listeners d k) (hkl : Rely c i k l) :
    Delivered c i o n listeners d l := by
  obtain ⟨hidle, r, hr, hn, hdrawn, hcarries⟩ := hk
  refine ⟨hidle.of_rely hkl, r, hr, hn, hdrawn.trans_le hkl.drawn, ?_⟩
  rw [hkl.content _ hdrawn]
  exact hcarries

end Functions

/-! ### Every run -/

inductive Call
  | transmit (t : ShmTransmitter) (fuel : Nat) (msg : List Byte) (info : MessageInfo)
  | receive (d : ShmDispatcher) (listeners n : Nat)

inductive Answer
  | transmitted (result : Bool)
  | received (listeners n : Nat) (delivery : Option Delivery)

def Call.body : Call → ShmCode Answer
  | transmit t fuel msg info => do
      let result ← t.transmit order fuel msg info
      pure (.transmitted result)
  | receive d listeners n => do
      let delivery ← d.receive order listeners n
      pure (.received listeners n delivery)

def enter (i : ι) (call : Call) (k : Shared ι) : Shared ι :=
  match call with
  | .transmit _ _ msg info => (k.1, k.2.setOwn i { k.2.own i with request := { msg, info } })
  | .receive _ _ _ => k

/-- A call that gives nobody a reason to recreate the segment. -/
def Call.NoRemap : Call → Prop
  | .transmit _ _ msg _ => msg.length ≤ c.ceilingMsgSize
  | .receive _ _ _ => True

instance (call : Call) : Decidable (call.NoRemap c) :=
  match call with
  | .transmit _ _ msg _ => inferInstanceAs (Decidable (msg.length ≤ c.ceilingMsgSize))
  | .receive _ _ _ => inferInstanceAs (Decidable True)

/-- A process at rest holds no lock. -/
def Rest (i : ι) (x : XsiSegment) (a : Answer) (k : Shared ι) : Prop :=
  ∃ o, Idle i o k ∧ (x.init = true → Opened c x) ∧
    ∀ listeners n d, a = .received listeners n (some d) → Delivered c i o n listeners d k

section Runs

variable {order c}

theorem keeps_enter {i : ι} {call : Call} {k : Shared ι} (hk : Inv order c k) :
    Inv order c (enter i call k) ∧ ∀ j, j ≠ i → Rely c j k (enter i call k) := by
  cases call with
  | receive d listeners n => exact ⟨hk, fun j _ => Rely.refl c j k⟩
  | transmit t fuel msg info =>
      have hown : ∀ j, ∃ s, Function.update k.2.own i { k.2.own i with request := ⟨msg, info⟩ } j =
          { k.2.own j with request := s } := by
        intro j
        by_cases hj : j = i
        · subst hj
          exact ⟨_, Function.update_self ..⟩
        · exact ⟨_, Function.update_of_ne hj _ _⟩
      refine ⟨{ hk with
          serving := fun j n v hv => ?_
          reading := fun j r hr => ?_
          readers := fun b j hj => ?_ },
        fun j hj => { Rely.refl c j k with
          own := Function.update_of_ne hj _ _
          written := fun b _ => ⟨.refl, rfl⟩ }⟩
      · obtain ⟨s, hs⟩ := hown j
        exact hk.serving j n v ((congrArg Own.serving hs).symm.trans hv)
      · obtain ⟨s, hs⟩ := hown j
        exact hk.reading j r ((congrArg Own.reading hs).symm.trans hr)
      · obtain ⟨r, hr, hturns⟩ := hk.readers b j hj
        obtain ⟨s, hs⟩ := hown j
        exact ⟨r, (congrArg Own.reading hs).trans hr, hturns⟩

theorem body_safe {i : ι} {call : Call} {x : XsiSegment} {a : Answer} {k : Shared ι}
    (hrest : Rest c i x a k) (hcall : call.NoRemap c) :
    (protocol order c).Safe i (Rest c i) (call.body order x) (enter i call k) := by
  obtain ⟨o, hidle, hx, _⟩ := hrest
  cases call with
  | transmit t fuel msg info =>
      simp only [Call.body, Protocol.safe_seq, Protocol.safe_pure]
      have hidle : Idle i { o with request := ⟨msg, info⟩ }
          (enter i (.transmit t fuel msg info) k) :=
        ⟨by simp [enter, History.setOwn, hidle.own], hidle.reader, hidle.writer⟩
      have hfits : msg.length ≤ c.ceilingMsgSize := hcall
      refine transmit_safe (o := { o with request := ⟨msg, info⟩ }) hidle hx hfits
        fun y b o' l hy hl => ?_
      exact ⟨o', hl, hy, by simp⟩
  | receive d listeners n =>
      simp only [Call.body, Protocol.safe_seq, Protocol.safe_pure]
      refine receive_safe hidle hx (fun o' l hl => ⟨o', hl, hx, by simp⟩) fun y d o' l hy hl => ?_
      refine ⟨o', hl.idle, fun _ => hy, fun listeners' n' d' heq => ?_⟩
      cases heq
      exact hl

end Runs

abbrev State (ι : Type) := Config sig ι XsiSegment Answer (Shared ι)

abbrev Step (ι : Type) := Event ι Call Bool

/-- A segment that has just been constructed. -/
def constructed : Kernel :=
  { key := some 0
    segments := fun _ => { conf := c, ceilingMsgSize := c.ceilingMsgSize }
    count := 1 }

def start (ι : Type) : State ι :=
  Config.start (fun _ => {}) (.transmitted false) (constructed c, {})

def step : State ι → Step ι → State ι := Thread.step exec enter (Call.body order)

/-- It changes what block `b` holds. -/
def Modifies (b : Nat) : Op → Prop
  | .setMsgSize s b' _ | .setMsgInfoSize s b' _ => s = 0 ∧ b' = b
  | .newBlocks s blockNum => s = 0 ∧ b < blockNum
  | .write a bytes =>
      a.segment = 0 ∧ ∃ off, InBlock c b off ∧ a.offset ≤ off ∧ off < a.offset + bytes.length
  | _ => False

/-- A reader that obtained its lock `onTime` has in its block, and delivers, just what
was transmitted with the value of its notification; and nobody changes a block that is
read. -/
structure ReadsWhatWasSent (onTime : Reading → Prop) (t : State ι) : Prop where
  held : ∀ b, ∀ i ∈ t.shared.2.readers b, ∃ r, (t.shared.2.own i).reading = some r ∧
    t.shared.2.sent[r.notice]? = some r.value ∧
    (onTime r → Stored order c b (t.shared.2.content r.value) (t.shared.1.segments 0))
  delivered : ∀ i x listeners n d, t.threads i = .done x (.received listeners n (some d)) →
    ∃ r, (t.shared.2.own i).reading = some r ∧ r.notice = n ∧
      t.shared.2.sent[n]? = some r.value ∧
      (onTime r → d.Carries (t.shared.2.content r.value) listeners)
  exclusive : ∀ i x o k b, t.threads i = .call x o k → Modifies c b o → t.shared.2.readers b = ∅

variable {order c}

theorem rest_stable (i : ι) : (protocol order c).Stable i (Rest c i) := by
  intro x a k l h hkl _
  obtain ⟨o, hidle, hx, hdelivered⟩ := h
  refine ⟨o, hidle.of_rely hkl, hx, fun listeners n d ha => ?_⟩
  exact (hdelivered listeners n d ha).of_rely hkl

theorem holds_start : (protocol order c).Holds (Rest c) (start c ι) where
  inv :=
    { key := rfl
      needRemap := rfl
      ceiling := rfl
      seq := rfl
      unlocked := fun _ _ => ⟨rfl, Nat.zero_le _⟩
      locked := nofun
      turns := nofun
      fits := nofun
      stored := nofun
      count := rfl
      notices := nofun
      sent := nofun
      serving := nofun
      reading := nofun
      readers := fun _ i hi => absurd hi (Finset.notMem_empty i) }
  safe i := ⟨{}, ⟨rfl, fun _ => Finset.notMem_empty i, nofun⟩, nofun, nofun⟩

theorem holds_of_along {es : List (Step ι)}
    (hes : Run.Along (step order) ((protocol order c).Meets fun _ call _ _ => call.NoRemap c)
      (start c ι) es) :
    ∀ t ∈ Run.states (step order) (start c ι) es, (protocol order c).Holds (Rest c) t := by
  refine Protocol.sound rest_stable ?_ ?_ holds_start hes
  · exact fun i call x a k hk _ _ => keeps_enter hk
  · exact fun i call x a k _ hrest hcall => body_safe hrest hcall

omit [DecidableEq ι] in
/-- A block that is to be changed is locked for it. -/
theorem readers_of_modifies {i : ι} {x : XsiSegment} {o : Op} {b : Nat} {k : Shared ι}
    (hk : Inv order c k) (hpre : Pre order c i x o k) (ho : Modifies c b o) :
    k.2.readers b = ∅ := by
  cases o with
  | setMsgSize s b' n =>
      obtain ⟨_, rfl⟩ := ho
      exact (hk.locked b' i hpre.2).2
  | setMsgInfoSize s b' n =>
      obtain ⟨_, rfl⟩ := ho
      exact (hk.locked b' i hpre.2).2
  | write a bytes =>
      obtain ⟨_, off, hoff, hle, hlt⟩ := ho
      obtain ⟨_, b', hwriter, hfits⟩ := hpre
      have hb' : InBlock c b' off := ⟨hfits.1.trans hle, hlt.trans_le hfits.2⟩
      obtain rfl := hb'.unique hoff
      exact (hk.locked b' i hwriter).2
  | newBlocks s n => exact hpre.elim
  | _ => exact ho.elim

/-- A step without remap: a message that is transmitted fits into the blocks. -/
def NoRemap (c : ShmConf) : Step ι → Prop
  | .call _ call => call.NoRemap c
  | .act _ _ => True

instance : DecidablePred (NoRemap c : Step ι → Prop) := fun e =>
  match e with
  | .call _ call => inferInstanceAs (Decidable (call.NoRemap c))
  | .act _ _ => inferInstanceAs (Decidable True)

theorem readsWhatWasSent {es : List (Step ι)} (hes : ∀ e ∈ es, NoRemap c e) :
    ∀ t ∈ Run.states (step order) (start c ι) es,
      ReadsWhatWasSent order c (fun r => r.Before c ∧ r.InOrder) t := by
  intro t ht
  have halong : Run.Along (step order)
      ((protocol order c).Meets fun _ call _ _ => call.NoRemap c) (start c ι) es := by
    refine Run.along_of_forall_mem fun e he s => ?_
    cases e with
    | call i call => exact fun _ _ _ => hes (.call i call) he
    | act i ok => exact fun _ _ _ _ => trivial
  have hholds := holds_of_along halong t ht
  refine ⟨fun b i hi => ?_, fun i x listeners n d hi => ?_, fun i x o k b hi ho => ?_⟩
  · obtain ⟨r, hr, hturns, hsound⟩ := hholds.inv.readers b i hi
    refine ⟨r, hr, hholds.inv.reading i r hr, fun hon => ?_⟩
    have hwriter : t.shared.2.writer b = none := by
      cases hw : t.shared.2.writer b with
      | none => rfl
      | some j => simp [(hholds.inv.locked b j hw).2] at hi
    exact hholds.inv.stored b r.value hwriter (hturns ▸ hsound.head hon.1 hon.2)
  · obtain ⟨o, _, _, hdelivered⟩ := hholds.rest hi
    obtain ⟨hidle, r, hr, hn, _, hcarries⟩ := hdelivered listeners n d rfl
    have hreading : (t.shared.2.own i).reading = some r := by rw [hidle.own, hr]
    refine ⟨r, hreading, hn, ?_, fun hon => hcarries hon.1 hon.2⟩
    rw [← hn]
    exact hholds.inv.reading i r hreading
  · exact readers_of_modifies (x := x) hholds.inv (hholds.pre hi) ho

/-- A segment of eight blocks. -/
def eightBlocks : ShmConf := .update ShmConf.messageSizeMore

def transmitByte (b : Byte) : Call :=
  .transmit { hostId := 0, channelId := 0, enabled := true } 1 [b] {}

def receiveNotice (n : Nat) : Call := .receive { hostId := 0, channelId := 0 } 1 n

/-- One process transmits, and another one receives. -/
def inTurn : List (Step Nat) :=
  .call 0 (transmitByte 1) :: List.replicate 16 (.act 0 true) ++
    .call 1 (receiveNotice 0) :: List.replicate 15 (.act 1 true)

theorem readsWhatWasSent_inTurn :
    ReadsWhatWasSent .littleEndian eightBlocks (fun r => r.Before eightBlocks ∧ r.InOrder)
      (Run.exec (step .littleEndian) (start eightBlocks Nat) inTurn) := by
  refine readsWhatWasSent ?_ _ (Run.exec_mem_states _ _ _)
  decide +kernel

/-- Process 0 draws 0 and is delayed; process 1 transmits eight messages, the last of them
with value 8 and in block 0 again; then process 0 goes on, and process 2 receives the
eighth notification. -/
def overtaken : List (Step Nat) :=
  .call 0 (transmitByte 1) :: List.replicate 7 (.act 0 true) ++
    .call 1 (transmitByte 2) :: List.replicate 16 (.act 1 true) ++
    (List.replicate 7 (.call 1 (transmitByte 2) :: List.replicate 11 (.act 1 true))).flatten ++
    List.replicate 9 (.act 0 true) ++
    .call 2 (receiveNotice 7) :: List.replicate 15 (.act 2 true)

/-- To how many listeners a process has delivered, for which notification, and what. -/
def payloads (t : State ι) (i : ι) : Option (Nat × Nat × List (List Byte)) :=
  match t.threads i with
  | .done _ (.received listeners n (some d)) => some (listeners, n, d.payloads)
  | _ => none

omit [DecidableEq ι] in
theorem exists_of_payloads {t : State ι} {i : ι} {listeners n : Nat} {ps : List (List Byte)}
    (h : payloads t i = some (listeners, n, ps)) :
    ∃ x d, t.threads i = .done x (.received listeners n (some d)) ∧ d.payloads = ps := by
  rw [payloads] at h
  split at h
  case h_1 x l m d hi =>
    cases h
    exact ⟨x, d, hi, rfl⟩
  case h_2 => cases h

/-- The reader is early, and is given the message of the delayed transmitter. -/
theorem overtaken_not_readsWhatWasSent :
    ¬ ∀ (order : ByteOrder) (c : ShmConf) (es : List (Step Nat)), (∀ e ∈ es, NoRemap c e) →
      ∀ t ∈ Run.states (step order) (start c Nat) es,
        ReadsWhatWasSent order c (fun r => r.Before c) t := by
  intro h
  have hstates := Run.exec_mem_states (step .littleEndian) (start eightBlocks Nat) overtaken
  have hreads := h .littleEndian eightBlocks overtaken (by decide +kernel) _ hstates
  obtain ⟨x, d, hi, hd⟩ := exists_of_payloads
    (show payloads (Run.exec (step .littleEndian) (start eightBlocks Nat) overtaken) 2 =
      some (1, 7, [[1]]) by decide +kernel)
  obtain ⟨r, hr, _, _, hcarries⟩ := hreads.delivered 2 x 1 7 d hi
  have hreading : (((Run.exec (step .littleEndian) (start eightBlocks Nat)
      overtaken).shared.2.own 2).reading.map fun r => (r.value, r.drawn)) = some (8, 9) := by
    decide +kernel
  rw [hr] at hreading
  obtain ⟨hvalue, hdrawn⟩ := Prod.mk.inj (Option.some.inj hreading)
  have hsent := (hcarries (show r.drawn ≤ r.value + 8 by omega)).payloads
  have hmsg : ((Run.exec (step .littleEndian) (start eightBlocks Nat)
      overtaken).shared.2.content 8).msg = [2] := by decide +kernel
  rw [hvalue, hmsg, hd] at hsent
  exact absurd hsent (by decide)

end Ownership
end Shm
end Transport
end Cmw
