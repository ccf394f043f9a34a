import Cmw.Transport.Shm.Blocks

/-!
# Where two processes find the buffers

`OpenOrCreate` and `OpenOnly` of transport/shm/xsi_segment.cpp and of
transport/shm/posix_segment.cpp, from the memory that is shared to the addresses that a
process keeps.  The sizes of `State` and `Block` are any that fit the room that
transport/shm/shm_conf.cpp reserves for them.  What the system refuses makes a call return
false, which is nothing here.
-/

namespace Cmw
namespace Transport
namespace Shm
namespace Openers

open ShmConf

inductive Kind
  | xsi
  | posix
deriving DecidableEq

/-- `sizeof(State)` and `sizeof(Block)` -/
structure Sizes where
  state : Nat
  block : Nat
  state_le : state ≤ stateSize
  block_le : block ≤ blockSize

/-- The sizes in the other models. -/
def usual : Sizes := ⟨sizeofState, sizeofBlock, by decide, by decide⟩

/-- The shared memory, with the ceiling in its `State`. -/
structure Memory where
  size : Nat
  ceilingMsgSize : Nat
  sized : size = (ShmConf.update ceilingMsgSize).managedShmSize

/-- The memory that is made by a configuration. -/
def Memory.new (conf : ShmConf) : Memory :=
  { size := conf.managedShmSize, ceilingMsgSize := conf.ceilingMsgSize,
    sized := by rw [update_ceilingMsgSize] }

def Memory.conf (m : Memory) : ShmConf := .update m.ceilingMsgSize

/-- A segment in one process; an address is a number. -/
structure Segment where
  init : Bool := false
  conf : ShmConf := .default
  managedShm : Option Nat := none
  blockBufAddrs : Nat → Option Nat := fun _ => none

/-- `sizeof(State) + conf_.block_num() * sizeof(Block) + i * conf_.block_buf_size()` -/
def bufOffset (sizes : Sizes) (conf : ShmConf) (i : Nat) : Nat :=
  (sizes.state + conf.blockNum * sizes.block + i * conf.blockBufSize) % 2 ^ 64

/-- The loop over the blocks, where it keeps the addresses. -/
def Segment.layOut (x : Segment) (sizes : Sizes) (base : Nat) : Segment :=
  { x with blockBufAddrs := fun i =>
      if i < x.conf.blockNum then some (base + bufOffset sizes x.conf i) else x.blockBufAddrs i }

/-- What `OpenOnly` finds out before its loop. -/
def Segment.attach (x : Segment) (m : Memory) (base : Nat) : Segment :=
  { x with managedShm := some base, conf := m.conf }

/-- `OpenOnly()`, where the system maps the memory at `address`.  The loop of a `PosixSegment`
computes each address and keeps none. -/
def openOnly (kind : Kind) (sizes : Sizes) (memory : Option Memory) (address : Option Nat)
    (x : Segment) : Option Segment :=
  if x.init then some x
  else do
    let m ← memory
    let base ← address
    match kind with
    | .xsi => some { (x.attach m base).layOut sizes base with init := true }
    | .posix => some { x.attach m base with init := true }

/-- The creation of the memory by `OpenOrCreate`. -/
def create (kind : Kind) (sizes : Sizes) (base : Nat) (x : Segment) : Memory × Segment :=
  let m := Memory.new x.conf
  let x := { x with managedShm := some base }
  match kind with
  | .xsi => (m, { ({ x with conf := m.conf }).layOut sizes base with init := true })
  | .posix => (m, { x.layOut sizes base with init := true })

/-- `OpenOrCreate()`: the memory that there is then, and the segment. -/
def openOrCreate (kind : Kind) (sizes : Sizes) (memory : Option Memory) (address : Option Nat)
    (x : Segment) : Option (Option Memory × Segment) :=
  if x.init then some (memory, x)
  else match memory with
    | some m => (openOnly kind sizes (some m) address x).map fun x => (some m, x)
    | none => address.map fun base =>
        (some (create kind sizes base x).1, (create kind sizes base x).2)

/-! ## Agreement -/

/-- Two processes find the same buffers in the memory, which lie apart from each other and
from the `State` and the blocks. -/
def Agree (sizes : Sizes) (m : Memory) (x y : Segment) : Prop :=
  ∃ off : Nat → Nat, ∀ i < m.conf.blockNum,
    (∃ base, x.managedShm = some base ∧ x.blockBufAddrs i = some (base + off i)) ∧
    (∃ base, y.managedShm = some base ∧ y.blockBufAddrs i = some (base + off i)) ∧
    sizes.state + m.conf.blockNum * sizes.block ≤ off i ∧
    off i + m.conf.blockBufSize ≤ m.size ∧
    ∀ j < m.conf.blockNum, i ≠ j →
      off i + m.conf.blockBufSize ≤ off j ∨ off j + m.conf.blockBufSize ≤ off i

/-- The addresses that are kept are those of the memory at `base`. -/
def Segment.Right (x : Segment) (sizes : Sizes) (m : Memory) (base : Nat) : Prop :=
  ∀ i < m.conf.blockNum, x.blockBufAddrs i = some (base + bufOffset sizes m.conf i)

/-! ## Sizes -/

/-- All buffers are in the memory, behind the room for the `State` and the blocks. -/
theorem offset_le (sizes : Sizes) (c : ShmConf) {i : Nat} (hi : i < c.blockNum) :
    sizes.state + c.blockNum * sizes.block + i * c.blockBufSize + c.blockBufSize ≤
      c.managedShmSize := by
  have hblocks : c.blockNum * sizes.block ≤ c.blockNum * blockSize :=
    Nat.mul_le_mul_left _ sizes.block_le
  have hbufs : (i + 1) * c.blockBufSize ≤ c.blockNum * c.blockBufSize :=
    Nat.mul_le_mul_right _ hi
  have hstate := sizes.state_le
  rw [Nat.succ_mul] at hbufs
  rw [managedShmSize, Nat.add_mul, Nat.mul_comm blockSize, Nat.mul_comm c.blockBufSize]
  omega

theorem managedShmSize_lt (c : ShmConf) : c.managedShmSize < 2 ^ 64 := by
  rw [managedShmSize, blockBufSize, blockNum]
  rcases ceilings c with h | h | h | h | h | h <;> rw [h] <;> decide

/-- The sum of sizes does not wrap around. -/
theorem bufOffset_eq (sizes : Sizes) (c : ShmConf) {i : Nat} (hi : i < c.blockNum) :
    bufOffset sizes c i = sizes.state + c.blockNum * sizes.block + i * c.blockBufSize := by
  have hle := offset_le sizes c hi
  have hlt := managedShmSize_lt c
  exact Nat.mod_eq_of_lt (by omega)

theorem bufOffset_lt (sizes : Sizes) (c : ShmConf) {i j : Nat} (h : i < j) (hj : j < c.blockNum) :
    bufOffset sizes c i + c.blockBufSize ≤ bufOffset sizes c j := by
  have hmul : (i + 1) * c.blockBufSize ≤ j * c.blockBufSize := Nat.mul_le_mul_right _ h
  rw [Nat.succ_mul] at hmul
  rw [bufOffset_eq sizes c (Nat.lt_trans h hj), bufOffset_eq sizes c hj]
  omega

/-! ## The two calls -/

theorem Segment.right_layOut {x : Segment} {m : Memory} (h : x.conf = m.conf) (sizes : Sizes)
    (base : Nat) : (x.layOut sizes base).Right sizes m base := by
  intro i hi
  show (if i < x.conf.blockNum then _ else _) = _
  rw [h, if_pos hi]

/-- The addresses are the places in the segment that the other models keep, from where it is
mapped on. -/
theorem layOut_usual (x : Segment) (y : XsiSegment) (s base : Nat) {i : Nat}
    (hi : i < x.conf.blockNum) :
    (x.layOut usual base).blockBufAddrs i =
      ((y.layOut s x.conf).blockBufAddrs i).map fun a => base + a.offset := by
  have hoffset : bufOffset usual x.conf i = x.conf.bufOffset i := bufOffset_eq usual x.conf hi
  simp only [Segment.layOut, XsiSegment.layOut, if_pos hi, Option.map_some, hoffset]

theorem agree_of_right {sizes : Sizes} {m : Memory} {x y : Segment} {a b : Nat}
    (hx : x.managedShm = some a) (hy : y.managedShm = some b) (hrx : x.Right sizes m a)
    (hry : y.Right sizes m b) : Agree sizes m x y := by
  have hsize : m.size = m.conf.managedShmSize := m.sized
  refine ⟨bufOffset sizes m.conf, fun i hi =>
    ⟨⟨a, hx, hrx i hi⟩, ⟨b, hy, hry i hi⟩, ?_, ?_, fun j hj hij => ?_⟩⟩
  · rw [bufOffset_eq sizes m.conf hi]
    exact Nat.le_add_right _ _
  · rw [bufOffset_eq sizes m.conf hi, hsize]
    exact offset_le sizes m.conf hi
  · rcases Nat.lt_or_gt_of_ne hij with h | h
    · exact .inl (bufOffset_lt sizes m.conf h hj)
    · exact .inr (bufOffset_lt sizes m.conf h hi)

/-- Who agrees with one that has the right addresses has them too. -/
theorem agree_iff_right {sizes : Sizes} {m : Memory} {x y : Segment} {a b : Nat}
    (hx : x.managedShm = some a) (hy : y.managedShm = some b) (hrx : x.Right sizes m a) :
    Agree sizes m x y ↔ y.Right sizes m b := by
  refine ⟨fun h i hi => ?_, agree_of_right hx hy hrx⟩
  obtain ⟨off, hoff⟩ := h
  obtain ⟨⟨a', ha, hxi⟩, ⟨b', hb, hyi⟩, -⟩ := hoff i hi
  obtain rfl := Option.some.inj (hx.symm.trans ha)
  obtain rfl := Option.some.inj (hy.symm.trans hb)
  have heq : a + off i = a + bufOffset sizes m.conf i :=
    Option.some.inj (hxi.symm.trans (hrx i hi))
  rw [hyi, Nat.add_left_cancel heq]

theorem create_right (kind : Kind) (sizes : Sizes) (base : Nat) (x : Segment) :
    (create kind sizes base x).2.managedShm = some base ∧
      (create kind sizes base x).2.Right sizes (create kind sizes base x).1 base := by
  have hconf : (Memory.new x.conf).conf = x.conf := update_ceilingMsgSize x.conf
  cases kind with
  | xsi =>
      have h := ({ x with managedShm := some base, conf := (Memory.new x.conf).conf } :
        Segment).right_layOut rfl sizes base
      exact ⟨rfl, h⟩
  | posix =>
      have h := ({ x with managedShm := some base } : Segment).right_layOut hconf.symm sizes base
      exact ⟨rfl, h⟩

theorem openOnly_xsi {sizes : Sizes} {m : Memory} {b : Nat} {y y' : Segment}
    (hy : y.init = false) (h : openOnly .xsi sizes (some m) (some b) y = some y') :
    y'.managedShm = some b ∧ y'.Right sizes m b := by
  rw [openOnly, if_neg (ne_true_of_eq_false hy)] at h
  cases h
  exact ⟨rfl, (y.attach m b).right_layOut rfl sizes b⟩

/-- The addresses in a `PosixSegment` are those from before. -/
theorem openOnly_posix {sizes : Sizes} {m : Memory} {b : Nat} {y y' : Segment}
    (hy : y.init = false) (h : openOnly .posix sizes (some m) (some b) y = some y') :
    y' = { y.attach m b with init := true } := by
  rw [openOnly, if_neg (ne_true_of_eq_false hy)] at h
  cases h
  rfl

/-- A process that opens the memory finds the buffers where the one finds them that has made
it, except for a `PosixSegment` that did not have their addresses before. -/
theorem agree_iff (kind : Kind) (sizes : Sizes) (memory : Option Memory) (m : Memory)
    (x y x' y' : Segment) (a b : Nat) (hx : x.init = false) (hy : y.init = false)
    (hcreate : openOrCreate kind sizes memory (some a) x = some (some m, x'))
    (hopen : openOnly kind sizes (some m) (some b) y = some y') :
    Agree sizes m x' y' ↔ kind = .xsi ∨ memory = none ∧ y.Right sizes m b ∨
      memory ≠ none ∧ Agree sizes m (x.attach m a) (y.attach m b) := by
  have hinit : ¬ x.init = true := ne_true_of_eq_false hx
  cases memory with
  | none =>
      rw [openOrCreate, if_neg hinit] at hcreate
      cases hcreate
      obtain ⟨hmx, hrx⟩ := create_right kind sizes a x
      rw [or_iff_left (fun h => h.1 rfl : ¬ ((none : Option Memory) ≠ none ∧ _)), and_iff_right rfl]
      cases kind with
      | xsi =>
          obtain ⟨hmy, hry⟩ := openOnly_xsi hy hopen
          exact iff_of_true (agree_of_right hmx hmy hrx hry) (.inl rfl)
      | posix =>
          obtain rfl := openOnly_posix hy hopen
          rw [or_iff_right (by decide)]
          exact agree_iff_right hmx rfl hrx
  | some m' =>
      rw [openOrCreate, if_neg hinit] at hcreate
      obtain ⟨z, hz, heq⟩ := Option.map_eq_some_iff.mp hcreate
      cases heq
      cases kind with
      | xsi =>
          obtain ⟨hmx, hrx⟩ := openOnly_xsi hx hz
          obtain ⟨hmy, hry⟩ := openOnly_xsi hy hopen
          exact iff_of_true (agree_of_right hmx hmy hrx hry) (.inl rfl)
      | posix =>
          obtain rfl := openOnly_posix hx hz
          obtain rfl := openOnly_posix hy hopen
          rw [or_iff_right (by decide), or_iff_right (by simp), and_iff_right (by simp)]
          rfl

theorem agree_iff_fresh_xsi : ∃ m x' y',
    openOrCreate .xsi usual none (some 4096) {} = some (some m, x') ∧
    openOnly .xsi usual (some m) (some 8192) {} = some y' ∧ Agree usual m x' y' :=
  ⟨_, _, _, rfl, rfl,
    (agree_iff .xsi usual none _ {} {} _ _ 4096 8192 rfl rfl rfl rfl).mpr (.inl rfl)⟩

/-- Two processes that open a `PosixSegment` for the first time. -/
theorem fresh_posix_not_agree : ¬ ∀ (kind : Kind) (sizes : Sizes) (m : Memory) (x' y' : Segment),
    openOrCreate kind sizes none (some 4096) {} = some (some m, x') →
    openOnly kind sizes (some m) (some 8192) {} = some y' → Agree sizes m x' y' := by
  intro h
  obtain ⟨off, hoff⟩ := h .posix usual _ _ _ rfl rfl
  obtain ⟨-, ⟨base, -, haddr⟩, -⟩ := hoff 0 (ShmConf.blockNum_pos _)
  cases haddr

end Openers
end Shm
end Transport
end Cmw
