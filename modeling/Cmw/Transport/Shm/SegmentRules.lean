import Cmw.Transport.Shm.Segment

/-!
# Rules for the segment of a channel

The functions of segment.cpp and xsi_segment.cpp, taken apart once for every protocol that
the processes may keep to: what has to hold of their operations, one after the other, for a
function to be safe.
-/

namespace Cmw
namespace Transport
namespace Shm

open Library.Thread

section Rules

variable {ι κ χ : Type} {exec : ι → (o : Op) → χ → κ → Ans o × κ}
  {P : Protocol sig ι XsiSegment κ χ exec} {i : ι} {x : XsiSegment} {k : κ} {site : Site}
  {Q : XsiSegment → Bool → κ → Prop}

/-! ### transport/shm/xsi_segment.cpp -/

/-- What `Reset` leaves. -/
def XsiSegment.detached (x : XsiSegment) : XsiSegment :=
  { x with state := none, blocks := none, managedShm := .null, blockBufAddrs := fun _ => none }

theorem safe_reset {Q : XsiSegment → Unit → κ → Prop} (hQ : Q x.detached () k)
    (hshmdt : ∀ s, P.Safe i (fun y _ t => Q { y with managedShm := .null } () t)
      ((Op.shmdt s).get { x.detached with managedShm := .mapped s }) k) :
    P.Safe i Q (XsiSegment.reset x) k := by
  rw [XsiSegment.reset]
  simp only [Protocol.safe_seq, Protocol.safe_modify, Protocol.safe_get]
  cases x with
  | mk init conf state blocks managedShm blockBufAddrs =>
      cases managedShm with
      | null => exact hQ
      | failed => exact hQ
      | mapped s => exact Protocol.safe_seq.mpr (hshmdt s)

theorem safe_remove
    (h : P.Safe i (fun y shmid t => (shmid = none → Q y false t) ∧
      ∀ s, shmid = some s → P.Safe i Q ((Op.rmid s).get y) t) ((Op.lookup .removal).get x) k) :
    P.Safe i Q (XsiSegment.remove x) k := by
  rw [XsiSegment.remove, Protocol.safe_seq]
  refine h.imp fun y shmid t ht => ?_
  cases shmid with
  | none => exact ht.1 rfl
  | some s => exact ht.2 s rfl

theorem safe_openOnly (hx : x.init = false)
    (h : P.Safe i (fun y shmid t => (shmid = none → Q y false t) ∧ ∀ s, shmid = some s →
        P.Safe i (fun y attached t =>
            (attached = false → Q { y with managedShm := .failed } false t) ∧
            (attached = true → P.Safe i
              (fun y ceiling t => P.Safe i (fun y _ t => Q { y with init := true } true t)
                ((Op.increaseReferenceCounts s).get (y.layOut s (.update ceiling))) t)
              ((Op.ceilingMsgSize s site).get
                { y with managedShm := .mapped s, state := some s }) t))
          ((Op.shmat s site).get y) t)
      ((Op.lookup site).get x) k) :
    P.Safe i Q (XsiSegment.openOnly site x) k := by
  rw [XsiSegment.openOnly]
  simp only [Protocol.safe_seq, Protocol.safe_get, hx, Bool.false_eq_true, if_false]
  refine h.imp fun y shmid t ht => ?_
  cases shmid with
  | none => exact ht.1 rfl
  | some s =>
      simp only [Protocol.safe_seq]
      refine (ht.2 s rfl).imp fun y attached t ht => ?_
      cases attached with
      | false => exact ht.1 rfl
      | true =>
          simp only [if_true, Protocol.safe_seq, Protocol.safe_modify, Protocol.safe_pure]
          exact ht.2 rfl

theorem safe_setUp {s : Nat}
    (h : P.Safe i (fun y attached t =>
        (attached = false → P.Safe i (fun y _ t => Q y false t)
          ((Op.rmid s).get { y with managedShm := .failed }) t) ∧
        (attached = true → P.Safe i
          (fun y _ t => P.Safe i
            (fun y ceiling t => P.Safe i
              (fun y _ t => P.Safe i (fun y _ t => Q { y with init := true } true t)
                ((Op.increaseReferenceCounts s).get (y.layOut s (.update ceiling))) t)
              ((Op.newBlocks s (ShmConf.update ceiling).blockNum).get y) t)
            ((Op.ceilingMsgSize s .creation).get { y with state := some s }) t)
          ((Op.newState s y.conf.ceilingMsgSize).get { y with managedShm := .mapped s }) t))
      ((Op.shmat s .creation).get x) k) :
    P.Safe i Q (XsiSegment.setUp s x) k := by
  rw [XsiSegment.setUp]
  simp only [Protocol.safe_seq]
  refine h.imp fun y attached t ht => ?_
  cases attached with
  | false =>
      simp only [Bool.false_eq_true, if_false, Protocol.safe_seq, Protocol.safe_modify]
      exact ht.1 rfl
  | true =>
      simp only [if_true, Protocol.safe_seq, Protocol.safe_modify, Protocol.safe_get,
        Protocol.safe_pure]
      exact ht.2 rfl

/-- A round of the loop of `OpenOrCreate`. -/
theorem safe_createFrom {retry : Nat}
    (h : P.Safe i (fun y shmid t => (∀ s, shmid = .ok s → P.Safe i Q (XsiSegment.setUp s y) t) ∧
        (shmid = .error .EINVAL → P.Safe i
          (fun y _ t => P.Safe i (fun y _ t => P.Safe i Q (XsiSegment.createFrom site retry y) t)
            (XsiSegment.remove y) t)
          (XsiSegment.reset y) t) ∧
        (shmid = .error .EEXIST → P.Safe i Q (XsiSegment.openOnly site y) t) ∧
        (shmid = .error .other → Q y false t))
      ((Op.create x.conf).get x) k) :
    P.Safe i Q (XsiSegment.createFrom site (retry + 1) x) k := by
  rw [XsiSegment.createFrom]
  simp only [Protocol.safe_seq, Protocol.safe_get]
  refine h.imp fun y shmid t ht => ?_
  obtain ⟨hok, hEINVAL, hEEXIST, hother⟩ := ht
  cases shmid with
  | ok s => exact hok s rfl
  | error e =>
      cases e with
      | EINVAL =>
          simp only [Protocol.safe_seq]
          exact hEINVAL rfl
      | EEXIST => exact hEEXIST rfl
      | other => exact hother rfl

theorem safe_openOrCreate (htrue : x.init = true → Q x true k)
    (hopen : x.init = false → P.Safe i Q (XsiSegment.createFrom site 2 x) k) :
    P.Safe i Q (XsiSegment.openOrCreate site x) k := by
  rw [XsiSegment.openOrCreate]
  simp only [Protocol.safe_seq, Protocol.safe_get]
  cases hinit : x.init with
  | false => exact hopen hinit
  | true => exact htrue hinit

/-! ### transport/shm/segment.cpp -/

theorem safe_remap
    (h : P.Safe i (fun y _ t => P.Safe i Q (XsiSegment.openOnly site y) t)
      (XsiSegment.reset { x with init := false }) k) :
    P.Safe i Q (XsiSegment.remap site x) k := by
  rw [XsiSegment.remap]
  simp only [Protocol.safe_seq, Protocol.safe_modify]
  exact h

theorem safe_recreate {msgSize : Nat} (hnone : x.state = none → P.Crash)
    (h : ∀ s, x.state = some s → P.Safe i
      (fun y _ t => P.Safe i
        (fun y _ t => P.Safe i
          (fun y _ t => P.Safe i Q
            (XsiSegment.openOrCreate (.recreate msgSize) { y with conf := .update msgSize }) t)
          (XsiSegment.remove y) t)
        (XsiSegment.reset y) t)
      ((Op.setNeedRemap s true).get { x with init := false }) k) :
    P.Safe i Q (XsiSegment.recreate msgSize x) k := by
  rw [XsiSegment.recreate]
  simp only [Protocol.safe_seq, Protocol.safe_modify, Protocol.safe_get, Protocol.safe_deref]
  exact ⟨h, hnone⟩

theorem safe_ensureOpen {openIt : ShmCode Bool} (htrue : x.init = true → Q x true k)
    (hopen : x.init = false → P.Safe i Q (openIt x) k) :
    P.Safe i Q (XsiSegment.ensureOpen openIt x) k := by
  rw [XsiSegment.ensureOpen]
  simp only [Protocol.safe_seq, Protocol.safe_get]
  cases hinit : x.init with
  | false => exact hopen hinit
  | true => exact htrue hinit

theorem safe_remapIfNeeded (hnone : x.state = none → P.Crash)
    (h : ∀ s, x.state = some s → P.Safe i
      (fun y needRemap t => (needRemap = false → Q y true t) ∧
        (needRemap = true → P.Safe i Q (XsiSegment.remap site y) t))
      ((Op.needRemap s).get x) k) :
    P.Safe i Q (XsiSegment.remapIfNeeded site x) k := by
  rw [XsiSegment.remapIfNeeded]
  simp only [Protocol.safe_seq, Protocol.safe_get, Protocol.safe_deref]
  refine ⟨fun s hs => (h s hs).imp fun y needRemap t ht => ?_, hnone⟩
  cases needRemap with
  | false => exact ht.1 rfl
  | true => exact ht.2 rfl

/-- A round of the loop of `GetNextWritableBlockIndex`. -/
theorem safe_nextWritableFrom {blockNum fuel : Nat} {Q : XsiSegment → Nat → κ → Prop}
    (hstate : x.state = none → P.Crash) (hblocks : x.blocks = none → P.Crash)
    (h : ∀ s, x.state = some s → P.Safe i
      (fun y seq t => ∀ b, x.blocks = some b → P.Safe i
        (fun y locked t => (locked = true → Q y (seq.toNat % blockNum) t) ∧
          (locked = false → P.Safe i Q (XsiSegment.nextWritableFrom blockNum fuel y) t))
        ((Op.tryLockForWrite b (seq.toNat % blockNum)).get y) t)
      ((Op.fetchAddSeq s).get x) k) :
    P.Safe i Q (XsiSegment.nextWritableFrom blockNum (fuel + 1) x) k := by
  rw [XsiSegment.nextWritableFrom]
  simp only [Protocol.safe_seq, Protocol.safe_get, Protocol.safe_deref]
  refine ⟨fun s hs => (h s hs).imp fun y seq t ht => ⟨fun b hb => ?_, hblocks⟩, hstate⟩
  refine (ht b hb).imp fun y locked t ht => ?_
  cases locked with
  | false => exact ht.2 rfl
  | true => exact ht.1 rfl

theorem safe_takeReadable {index : Nat} {Q : XsiSegment → Bool × ReadableBlock → κ → Prop}
    (hnone : x.blocks = none → P.Crash)
    (h : ∀ s, x.blocks = some s → P.Safe i
      (fun y locked t => (locked = false → Q y (false, { index }) t) ∧
        (locked = true → Q y
          (true, { index, block := some (s, index), buf := x.blockBufAddrs index }) t))
      (Block.tryLockForRead s index x) k) :
    P.Safe i Q (XsiSegment.takeReadable index x) k := by
  rw [XsiSegment.takeReadable]
  simp only [Protocol.safe_seq, Protocol.safe_get, Protocol.safe_deref]
  refine ⟨fun s hs => (h s hs).imp fun y locked t ht => ?_, hnone⟩
  cases locked with
  | false => exact ht.1 rfl
  | true => exact ht.2 rfl

theorem safe_releaseWrittenBlock {b : WritableBlock} {Q : XsiSegment → Unit → κ → Prop}
    (hge : x.conf.blockNum ≤ b.index → Q x () k)
    (hnone : b.index < x.conf.blockNum → x.blocks = none → P.Crash)
    (h : ∀ s, b.index < x.conf.blockNum → x.blocks = some s →
      P.Safe i Q ((Op.releaseWriteLock s b.index).get x) k) :
    P.Safe i Q (XsiSegment.releaseWrittenBlock b x) k := by
  rw [XsiSegment.releaseWrittenBlock]
  simp only [Protocol.safe_seq, Protocol.safe_get, Protocol.safe_ite, Protocol.safe_deref]
  exact ⟨hge, fun hlt => ⟨fun s => h s (Nat.lt_of_not_le hlt), hnone (Nat.lt_of_not_le hlt)⟩⟩

theorem safe_releaseReadBlock {b : ReadableBlock} {Q : XsiSegment → Unit → κ → Prop}
    (hge : x.conf.blockNum ≤ b.index → Q x () k)
    (hnone : b.index < x.conf.blockNum → x.blocks = none → P.Crash)
    (h : ∀ s, b.index < x.conf.blockNum → x.blocks = some s →
      P.Safe i Q ((Op.releaseReadLock s b.index).get x) k) :
    P.Safe i Q (XsiSegment.releaseReadBlock b x) k := by
  rw [XsiSegment.releaseReadBlock]
  simp only [Protocol.safe_seq, Protocol.safe_get, Protocol.safe_ite, Protocol.safe_deref]
  exact ⟨hge, fun hlt => ⟨fun s => h s (Nat.lt_of_not_le hlt), hnone (Nat.lt_of_not_le hlt)⟩⟩

theorem safe_destroy {fuel : Nat} (hclosed : x.init = false → Q x true k)
    (hnone : x.init = true → x.state = none → P.Crash)
    (h : ∀ s, x.init = true → x.state = some s → P.Safe i
      (fun y current t => P.Safe i
        (fun y _ t => P.Safe i
          (fun y referenceCounts t =>
            (referenceCounts = 0 → P.Safe i Q (XsiSegment.remove y) t) ∧
            (referenceCounts ≠ 0 → Q y true t))
          ((Op.referenceCounts s).get y) t)
        (State.decreaseFrom s fuel current y) t)
      ((Op.loadReferenceCount s).get { x with init := false }) k) :
    P.Safe i Q (XsiSegment.destroy fuel x) k := by
  rw [XsiSegment.destroy]
  simp only [Protocol.safe_seq, Protocol.safe_get, State.decreaseReferenceCounts]
  cases hinit : x.init with
  | false => exact hclosed hinit
  | true =>
      simp only [Bool.not_true, Bool.false_eq_true, if_false, Protocol.safe_seq,
        Protocol.safe_modify, Protocol.safe_deref, Protocol.safe_ite, Protocol.safe_pure]
      exact ⟨fun s => h s hinit, hnone hinit⟩

/-! ### transport/shm/block.cpp and transport/shm/state.h -/

/-- A round of the loop of `TryLockForRead`. -/
theorem safe_tryReadFrom {s index left : Nat} {lockNum : BitVec 32}
    (h : P.Safe i
      (fun y exchanged t => (exchanged = true → Q y true t) ∧
        (exchanged = false → (left = 0 → Q y false t) ∧ (left ≠ 0 → P.Safe i
          (fun y lockNum t => (lockNum.slt ManagedShm.kRWLockFree = true → Q y false t) ∧
            (lockNum.slt ManagedShm.kRWLockFree = false →
              P.Safe i Q (Block.tryReadFrom s index left lockNum y) t))
          ((Op.loadLockNum s index).get y) t)))
      ((Op.exchangeLockNum s index lockNum left).get x) k) :
    P.Safe i Q (Block.tryReadFrom s index (left + 1) lockNum x) k := by
  rw [Block.tryReadFrom]
  simp only [Protocol.safe_seq]
  refine h.imp fun y exchanged t ht => ?_
  cases exchanged with
  | true => exact ht.1 rfl
  | false =>
      simp only [Bool.false_eq_true, if_false, Protocol.safe_ite, Protocol.safe_seq,
        Protocol.safe_pure, Bool.not_eq_true]
      exact ht.2 rfl

/-- A round of the loop of `DecreaseReferenceCounts`. -/
theorem safe_decreaseFrom {s fuel : Nat} {current : BitVec 32} {Q : XsiSegment → Unit → κ → Prop}
    (hzero : current = 0 → Q x () k)
    (h : current ≠ 0 → P.Safe i
      (fun y result t => (result.1 = true → Q y () t) ∧
        (result.1 = false → P.Safe i Q (State.decreaseFrom s fuel result.2 y) t))
      ((Op.exchangeReferenceCount s current).get x) k) :
    P.Safe i Q (State.decreaseFrom s (fuel + 1) current x) k := by
  rw [State.decreaseFrom]
  simp only [Protocol.safe_ite, Protocol.safe_seq, Protocol.safe_pure]
  refine ⟨hzero, fun hne => (h hne).imp fun y result t ht => ⟨ht.1, fun hfalse => ht.2 ?_⟩⟩
  exact (Bool.not_eq_true _).mp hfalse

end Rules

end Shm
end Transport
end Cmw
