import Cmw.Transport.Shm.Layout
import Cmw.Transport.Shm.Message

/-!
# Reading a message alone

`ShmDispatcher::ReadMessage` while no other process acts.  `fate` is what the system
lets succeed.  The block is used and released whether it was acquired or not, so the
call comes to its end, with the locks as they were, exactly where it can be acquired
in the segment that is mapped then.
-/

namespace Cmw
namespace Transport
namespace Shm

open Library.ByteImage
open Library.Thread

namespace ReadMessage

variable (fate : Op → Bool)

def alone (o : Op) (k : Kernel) : Ans o × Kernel := k.exec (fate o) o

/-- Every block has the same lock. -/
def SameLocks (k l : Kernel) : Prop :=
  ∀ s i, (l.segments s).lockNum i = (k.segments s).lockNum i

/-! ### When a block can be read -/

/-- `OpenOnly` maps segment `s`. -/
def Maps (site : Site) (k : Kernel) (s : Nat) : Prop :=
  k.key = some s ∧ fate (.lookup site) = true ∧ fate (.shmat s site) = true

/-- The layout that `OpenOnly` reads in segment `s`. -/
def confOf (k : Kernel) (s : Nat) : ShmConf := .update (k.segments s).ceilingMsgSize

/-- One of the five attempts adds a reader: no writer holds the block, and not every
attempt fails for no reason. -/
def Locks (k : Kernel) (s index : Nat) : Prop :=
  (((k.segments s).lockNum index).slt ManagedShm.kRWLockFree) = false ∧
    ∃ left < Block.kMaxTryLockTimes,
      fate (.exchangeLockNum s index ((k.segments s).lockNum index) left) = true

/-- `Remap` maps a segment with a block of this index, and the block can be locked. -/
def RemapsAndLocks (k : Kernel) (index : Nat) : Prop :=
  ∃ s, Maps fate (.remapToRead index) k s ∧ index < (confOf k s).blockNum ∧ Locks fate k s index

/-- The block of this index can be acquired, in the segment that is mapped then. -/
def Readable (x : XsiSegment) (k : Kernel) (index : Nat) : Prop :=
  if x.init then
    index < x.conf.blockNum ∧ ∃ state, x.state = some state ∧
      if (k.segments state).needRemap then RemapsAndLocks fate k index
      else ∃ s, x.blocks = some s ∧ (x.blockBufAddrs index).isSome ∧ Locks fate k s index
  else
    ∃ s, Maps fate .opening k s ∧ index < (confOf k s).blockNum ∧
      if (k.segments s).needRemap then RemapsAndLocks fate k index else Locks fate k s index

/-! ### What the functions come to -/

section Functions

variable {fate} {α : Type} {x : XsiSegment} {k : Kernel}

/-- A reader is added to the block. -/
def locked (k : Kernel) (s index : Nat) : Kernel :=
  k.update s fun m => { m with lockNum := Function.update m.lockNum index (m.lockNum index + 1) }

theorem ends_tryReadFrom {s index left : Nat} {Q : XsiSegment → Bool → Kernel → Prop}
    (hfree : ((k.segments s).lockNum index).slt ManagedShm.kRWLockFree = false)
    (hfalse : ¬ Q x false k) :
    (Block.tryReadFrom s index left ((k.segments s).lockNum index) x).Ends (alone fate) Q k ↔
      (∃ l < left, fate (.exchangeLockNum s index ((k.segments s).lockNum index) l) = true) ∧
        Q x true (locked k s index) := by
  induction left with
  | zero =>
      refine iff_of_false hfalse fun h => ?_
      obtain ⟨⟨l, hl, _⟩, _⟩ := h
      omega
  | succ left ih =>
      rw [Block.tryReadFrom]
      simp only [Code.ends_seq]
      refine ends_op.trans ?_
      simp only [alone, Kernel.exec, Code.ends_ite, Code.ends_seq, Code.ends_pure, true_and]
      cases hfate : fate (.exchangeLockNum s index ((k.segments s).lockNum index) left) with
      | true =>
          simp only [if_true]
          exact (and_iff_right ⟨left, Nat.lt_succ_self left, hfate⟩).symm
      | false =>
          simp only [Bool.false_eq_true, if_false]
          -- the last attempt is the one that counts from here on
          have hlast : (∃ l < left + 1,
              fate (.exchangeLockNum s index ((k.segments s).lockNum index) l) = true) ↔
              ∃ l < left, fate (.exchangeLockNum s index ((k.segments s).lockNum index) l) = true := by
            constructor
            · intro h
              obtain ⟨l, hl, hl'⟩ := h
              refine ⟨l, Nat.lt_of_le_of_ne (Nat.le_of_lt_succ hl) ?_, hl'⟩
              intro heq
              simp [heq, hfate] at hl'
            · exact fun h => h.imp fun l hl => ⟨Nat.lt_succ_of_lt hl.1, hl.2⟩
          rw [hlast, ← ih]
          by_cases hleft : left = 0
          · subst hleft
            simp only [if_true]
            exact Iff.rfl
          · rw [if_neg hleft]
            refine ends_op.trans ?_
            simp only [alone, Kernel.exec, hfree, Bool.false_eq_true, if_false]

theorem ends_takeReadable {index : Nat} {Q : XsiSegment → Bool × ReadableBlock → Kernel → Prop}
    (hfalse : ∀ y l, ¬ Q y (false, { index }) l) :
    (XsiSegment.takeReadable index x).Ends (alone fate) Q k ↔
      ∃ s, x.blocks = some s ∧ Locks fate k s index ∧
        Q x (true, { index, block := some (s, index), buf := x.blockBufAddrs index })
          (locked k s index) := by
  simp only [XsiSegment.takeReadable, Block.tryLockForRead, Code.ends_seq, Code.ends_get,
    Code.ends_deref]
  refine exists_congr fun s => and_congr_right fun _ => ends_op.trans (Code.ends_ite.trans ?_)
  simp only [alone, Kernel.exec, Code.ends_ite, Code.ends_pure]
  cases hfree : ((k.segments s).lockNum index).slt ManagedShm.kRWLockFree with
  | true => exact iff_of_false (hfalse x k) fun h => by simp [Locks, hfree] at h
  | false =>
      simp only [Bool.false_eq_true, if_false]
      refine (ends_tryReadFrom hfree ?_).trans ?_
      · simpa using hfalse x k
      · simp [Locks, hfree]

/-- `Reset` detaches the memory and forgets all that pointed into it. -/
def cleared (x : XsiSegment) : XsiSegment :=
  { x with state := none, blocks := none, managedShm := .null, blockBufAddrs := fun _ => none }

theorem ends_reset {Q : XsiSegment → Unit → Kernel → Prop} :
    (XsiSegment.reset x).Ends (alone fate) Q k ↔ Q (cleared x) () k := by
  simp only [XsiSegment.reset, Code.ends_seq, Code.ends_modify, Code.ends_get]
  cases hshm : x.managedShm with
  | null =>
      simp only [cleared, ← hshm]
      exact Iff.rfl
  | failed => exact Iff.rfl
  | mapped s => exact Iff.rfl

/-- What `OpenOnly` leaves in a process, and in the segment. -/
def mappedTo (x : XsiSegment) (s : Nat) (conf : ShmConf) : XsiSegment :=
  { XsiSegment.layOut s conf { x with managedShm := .mapped s, state := some s } with init := true }

def counted (k : Kernel) (s : Nat) : Kernel :=
  k.update s fun m => { m with referenceCount := m.referenceCount + 1 }

theorem ends_openOnly {site : Site} {Q : XsiSegment → Bool → Kernel → Prop} (hx : x.init = false)
    (hfalse : ∀ y l, ¬ Q y false l) :
    (XsiSegment.openOnly site x).Ends (alone fate) Q k ↔
      ∃ s, Maps fate site k s ∧ Q (mappedTo x s (confOf k s)) true (counted k s) := by
  simp only [XsiSegment.openOnly, Code.ends_seq, Code.ends_get, hx, Bool.false_eq_true, if_false]
  refine ends_op.trans ?_
  simp only [alone, Kernel.exec]
  cases hlookup : fate (.lookup site) with
  | false =>
      refine iff_of_false (hfalse _ _) fun h => ?_
      obtain ⟨s, ⟨_, hs, _⟩, _⟩ := h
      simp [hlookup] at hs
  | true =>
      cases hkey : k.key with
      | none =>
          refine iff_of_false (hfalse _ _) fun h => ?_
          obtain ⟨s, ⟨hs, _⟩, _⟩ := h
          simp [hkey] at hs
      | some s =>
          simp only [if_true, Code.ends_seq]
          refine ends_op.trans (Code.ends_ite.trans ?_)
          split
          case isTrue hattach =>
            constructor
            · exact fun h => ⟨s, ⟨hkey, hlookup, hattach⟩, h⟩
            · intro h
              obtain ⟨t, ⟨ht, _⟩, hQ⟩ := h
              simp only [hkey, Option.some.injEq] at ht
              subst ht
              exact hQ
          case isFalse hattach =>
            refine iff_of_false (hfalse _ _) fun h => hattach ?_
            obtain ⟨t, ⟨ht, _, ht'⟩, _⟩ := h
            simp only [hkey, Option.some.injEq] at ht
            exact ht ▸ ht'

theorem ends_remapIfNeeded {site : Site} {Q : XsiSegment → Bool → Kernel → Prop}
    (hfalse : ∀ y l, ¬ Q y false l) :
    (XsiSegment.remapIfNeeded site x).Ends (alone fate) Q k ↔
      ∃ state, x.state = some state ∧
        if (k.segments state).needRemap then
          ∃ s, Maps fate site k s ∧
            Q (mappedTo (cleared { x with init := false }) s (confOf k s)) true (counted k s)
        else Q x true k := by
  simp only [XsiSegment.remapIfNeeded, Code.ends_seq, Code.ends_get, Code.ends_deref]
  refine exists_congr fun state => and_congr_right fun _ => ends_op.trans (Code.ends_ite.trans ?_)
  simp only [Code.ends_pure, XsiSegment.remap, Code.ends_seq, Code.ends_modify]
  split
  case isTrue hneed =>
    rw [if_pos (show (k.segments state).needRemap = true from hneed)]
    exact ends_reset.trans (ends_openOnly rfl hfalse)
  case isFalse hneed =>
    rw [if_neg (show ¬ (k.segments state).needRemap = true from hneed)]
    exact Iff.rfl

/-! ### The block, used and released -/

theorem ends_onMessage {s index listeners : Nat} {buf : Addr} {R : XsiSegment → Kernel → Prop} :
    (onMessage s index buf listeners x).Ends (alone fate) (fun y _ l => R y l) k ↔ R x k := by
  induction listeners with
  | zero => exact Iff.rfl
  | succ listeners ih =>
      rw [onMessage]
      simp only [Code.ends_seq]
      exact ends_op.trans (ends_op.trans ih)

/-- The release takes back the reader that was added, where the index is one of the
layout. -/
theorem ends_releaseReadBlock {s index : Nat} {buf : Option Addr} {k₀ : Kernel}
    (hblocks : x.blocks = some s) (hk : SameLocks k₀ k) :
    (XsiSegment.releaseReadBlock { index, block := some (s, index), buf } x).Ends (alone fate)
      (fun _ _ l => SameLocks k₀ l) (locked k s index) ↔ index < x.conf.blockNum := by
  simp only [XsiSegment.releaseReadBlock, Code.ends_seq, Code.ends_get, Code.ends_ite,
    Code.ends_pure, Code.ends_deref]
  split
  case isTrue hge =>
    refine iff_of_false (fun h => ?_) (by omega)
    have hlock := h s index
    rw [← hk s index] at hlock
    simp [locked] at hlock
  case isFalse hlt =>
    refine iff_of_true ⟨s, hblocks, ?_⟩ (by omega)
    intro t i
    rw [← hk t i]
    simp only [alone, Kernel.exec, locked, Kernel.segments_update, if_true]
    split
    case isTrue ht =>
      subst ht
      by_cases hi : i = index
      · simp [hi]
      · simp [hi]
    case isFalse => rfl

theorem ends_readBlock {order : ByteOrder} {listeners s index : Nat} {k₀ : Kernel}
    (hblocks : x.blocks = some s) (hk : SameLocks k₀ k) :
    (readBlock order listeners
        { index, block := some (s, index), buf := x.blockBufAddrs index } x).Ends (alone fate)
      (fun _ _ l => SameLocks k₀ l) (locked k s index) ↔
      (x.blockBufAddrs index).isSome ∧ index < x.conf.blockNum := by
  simp only [readBlock, Code.ends_seq, Code.ends_deref, Option.some.injEq, exists_eq_left',
    Option.isSome_iff_exists, exists_and_right.symm]
  refine ends_op.trans (exists_congr fun buf => and_congr_right fun _ => ?_)
  refine ends_op.trans (ends_op.trans (ends_op.trans ?_))
  refine Iff.trans (ends_onMessage (R := fun y l => Prog.Ends (alone fate)
    (fun _ _ l => SameLocks k₀ l) (XsiSegment.releaseReadBlock _ y) l)) ?_
  exact ends_releaseReadBlock hblocks hk

theorem locks_counted {s t index : Nat} : Locks fate (counted k t) s index ↔ Locks fate k s index := by
  have hlock : ((counted k t).segments s).lockNum index = (k.segments s).lockNum index := by
    simp only [counted, Kernel.segments_update]
    split
    case isTrue h => rw [h]
    case isFalse => rfl
  rw [Locks, Locks, hlock]

theorem sameLocks_counted {s : Nat} {k₀ : Kernel} (hk : SameLocks k₀ k) :
    SameLocks k₀ (counted k s) := by
  intro t i
  rw [← hk t i, counted, Kernel.segments_update]
  split
  case isTrue h => rw [h]
  case isFalse => rfl

theorem remapsAndLocks_counted {s index : Nat} :
    RemapsAndLocks fate (counted k s) index ↔ RemapsAndLocks fate k index := by
  refine exists_congr fun t => and_congr_right fun _ => ?_
  have hceiling : ((counted k s).segments t).ceilingMsgSize = (k.segments t).ceilingMsgSize := by
    simp only [counted, Kernel.segments_update]
    split
    case isTrue h => rw [h]
    case isFalse => rfl
  rw [locks_counted, confOf, confOf, hceiling]

/-- Without a block the message information is read from nowhere. -/
theorem not_ends_readBlock {order : ByteOrder} {listeners index : Nat}
    {Q : XsiSegment → Delivery → Kernel → Prop} :
    ¬ (readBlock order listeners { index } x).Ends (alone fate) Q k := by
  simp [readBlock]

theorem ends_takeAndRead {order : ByteOrder} {listeners index : Nat} {k₀ : Kernel}
    (hk : SameLocks k₀ k) :
    (XsiSegment.takeReadable index x).Ends (alone fate)
      (fun y b l => (readBlock order listeners b.2 y).Ends (alone fate)
        (fun _ _ m => SameLocks k₀ m) l) k ↔
      ∃ s, x.blocks = some s ∧ Locks fate k s index ∧
        (x.blockBufAddrs index).isSome ∧ index < x.conf.blockNum := by
  refine (ends_takeReadable fun y l => not_ends_readBlock).trans ?_
  refine exists_congr fun s => and_congr_right fun hblocks => and_congr_right fun _ => ?_
  exact ends_readBlock hblocks hk

/-- The layout of `OpenOnly` has a buffer for each of its blocks, and after `Reset` for
no others. -/
theorem isSome_mappedTo {s index : Nat} {conf : ShmConf} (hx : x.blockBufAddrs = fun _ => none) :
    ((mappedTo x s conf).blockBufAddrs index).isSome ↔ index < conf.blockNum := by
  show (if index < conf.blockNum then some _ else x.blockBufAddrs index).isSome = true ↔ _
  split
  case isTrue h => exact iff_of_true rfl h
  case isFalse h => simp [hx, h]

/-- `AcquireBlockToRead` in an open segment, and what follows it. -/
theorem ends_acquireOpenedToRead {order : ByteOrder} {listeners index : Nat} {k₀ : Kernel}
    (hk : SameLocks k₀ k) :
    (XsiSegment.acquireOpenedToRead index x).Ends (alone fate)
      (fun y b l => (readBlock order listeners b.2 y).Ends (alone fate)
        (fun _ _ m => SameLocks k₀ m) l) k ↔
      index < x.conf.blockNum ∧ ∃ state, x.state = some state ∧
        if (k.segments state).needRemap then RemapsAndLocks fate k index
        else ∃ s, x.blocks = some s ∧ (x.blockBufAddrs index).isSome ∧ Locks fate k s index := by
  simp only [XsiSegment.acquireOpenedToRead, Code.ends_seq, Code.ends_get, Code.ends_ite,
    Code.ends_pure]
  split
  case isTrue hge => exact iff_of_false not_ends_readBlock fun h => absurd h.1 (by omega)
  case isFalse hlt =>
    have hindex : index < x.conf.blockNum := by omega
    rw [and_iff_right hindex]
    refine (ends_remapIfNeeded ?_).trans (exists_congr fun state => and_congr_right fun _ => ?_)
    · intro y l
      show ¬ (readBlock order listeners { index } y).Ends (alone fate) (fun _ _ m => SameLocks k₀ m) l
      exact not_ends_readBlock
    simp only [Bool.not_true, Bool.false_eq_true, if_false]
    split
    · refine exists_congr fun s => and_congr_right fun _ => ?_
      refine (ends_takeAndRead (sameLocks_counted hk)).trans ?_
      simp only [isSome_mappedTo (x := cleared { x with init := false }) rfl, locks_counted]
      constructor
      · intro h
        obtain ⟨t, ht, hlocks, hindex', _⟩ := h
        cases ht
        exact ⟨hindex', hlocks⟩
      · exact fun h => ⟨s, rfl, h.2, h.1, h.1⟩
    · refine (ends_takeAndRead hk).trans (exists_congr fun s => and_congr_right fun _ => ?_)
      rw [and_iff_left hindex, and_comm]

end Functions

/-- `ReadMessage` comes to its end, so it uses no block but one it acquired, and leaves
every lock as it was. -/
def Clean (order : ByteOrder) (listeners index : Nat) (x : XsiSegment) (k : Kernel) : Prop :=
  (readMessage order listeners index x).Ends (alone fate) (fun _ _ l => SameLocks k l) k

theorem clean_iff_readable (order : ByteOrder) (listeners index : Nat) (x : XsiSegment)
    (k : Kernel) : Clean fate order listeners index x k ↔ Readable fate x k index := by
  have hk : SameLocks k k := fun _ _ => rfl
  simp only [Clean, readMessage, XsiSegment.acquireBlockToRead, XsiSegment.ensureOpen, Readable,
    Code.ends_seq, Code.ends_get, Code.ends_ite, Code.ends_pure]
  split
  case isTrue => exact ends_acquireOpenedToRead hk
  case isFalse hinit =>
    have hinit : x.init = false := by simpa using hinit
    refine (ends_openOnly hinit ?_).trans (exists_congr fun s => and_congr_right fun _ => ?_)
    · intro y l
      show ¬ (readBlock order listeners { index } y).Ends (alone fate) (fun _ _ m => SameLocks k m) l
      exact not_ends_readBlock
    refine (ends_acquireOpenedToRead (sameLocks_counted hk)).trans (and_congr_right fun hindex => ?_)
    have hneed : ((counted k s).segments s).needRemap = (k.segments s).needRemap := by
      simp [counted]
    constructor
    · intro h
      obtain ⟨state, hstate, h⟩ := h
      cases hstate
      rw [hneed, remapsAndLocks_counted] at h
      split at h
      case isTrue hneed' => rwa [if_pos hneed']
      case isFalse hneed' =>
        rw [if_neg hneed']
        obtain ⟨t, ht, _, hlocks⟩ := h
        cases ht
        exact locks_counted.mp hlocks
    · intro h
      refine ⟨s, rfl, ?_⟩
      rw [hneed, remapsAndLocks_counted]
      split at h
      case isTrue hneed' => rwa [if_pos hneed']
      case isFalse hneed' =>
        rw [if_neg hneed']
        refine ⟨s, rfl, ?_, locks_counted.mpr h⟩
        have hbuf : (mappedTo x s (confOf k s)).blockBufAddrs index =
            some ⟨s, (confOf k s).bufOffset index⟩ := if_pos hindex
        rw [hbuf]
        rfl

/-- A process has acquired block 0 and is still writing. -/
def beingWritten : Kernel :=
  (Library.Run.exec Layout.step (Layout.start Nat (2 ^ 32)) (Layout.firstWrite 0 8)).shared

/-- A process that is told of block 0 then takes the message information from a null
pointer. -/
theorem beingWritten_not_clean :
    ¬ ∀ fate order listeners index x k, Clean fate order listeners index x k := by
  intro h
  have hclean := h (fun _ => true) .littleEndian 1 0 {} beingWritten
  have hfalse : ¬ Clean (fun _ => true) .littleEndian 1 0 {} beingWritten := fun h => h
  exact hfalse hclean

end ReadMessage
end Shm
end Transport
end Cmw
