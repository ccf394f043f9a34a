import Mathlib.Algebra.Group.Nat.Defs
import Mathlib.Tactic.Common

/-!
# The sizes of a segment

transport/shm/shm_conf.cpp.  `Update` derives the other fields from the ceiling, and
nothing else writes them: a configuration is its ceiling, which is one of six sizes.
-/

namespace Cmw
namespace Transport
namespace Shm

namespace ShmConf

def extraSize : Nat := 1024 * 4
def stateSize : Nat := 1024
def blockSize : Nat := 1024
def messageInfoSize : Nat := 1024

def blockNum16K : Nat := 512
def messageSize16K : Nat := 1024 * 16
def blockNum128K : Nat := 128
def messageSize128K : Nat := 1024 * 128
def blockNum1M : Nat := 64
def messageSize1M : Nat := 1024 * 1024
def blockNum8M : Nat := 32
def messageSize8M : Nat := 1024 * 1024 * 8
def blockNum16M : Nat := 16
def messageSize16M : Nat := 1024 * 1024 * 16
def blockNumMore : Nat := 8
def messageSizeMore : Nat := 1024 * 1024 * 32

def getCeilingMessageSize (realMsgSize : Nat) : Nat :=
  if realMsgSize ≤ messageSize16K then messageSize16K
  else if realMsgSize ≤ messageSize128K then messageSize128K
  else if realMsgSize ≤ messageSize1M then messageSize1M
  else if realMsgSize ≤ messageSize8M then messageSize8M
  else if realMsgSize ≤ messageSize16M then messageSize16M
  else messageSizeMore

def getBlockBufSize (ceilingMsgSize : Nat) : Nat := ceilingMsgSize + messageInfoSize

def getBlockNum (ceilingMsgSize : Nat) : Nat :=
  if ceilingMsgSize = messageSize16K then blockNum16K
  else if ceilingMsgSize = messageSize128K then blockNum128K
  else if ceilingMsgSize = messageSize1M then blockNum1M
  else if ceilingMsgSize = messageSize8M then blockNum8M
  else if ceilingMsgSize = messageSize16M then blockNum16M
  else if ceilingMsgSize = messageSizeMore then blockNumMore
  else 0

end ShmConf

open ShmConf

structure ShmConf where
  ceilingMsgSize : Nat
  isCeiling : ∃ realMsgSize, getCeilingMessageSize realMsgSize = ceilingMsgSize

namespace ShmConf

/-- `Update(real_msg_size)` -/
def update (realMsgSize : Nat) : ShmConf :=
  { ceilingMsgSize := getCeilingMessageSize realMsgSize, isCeiling := ⟨realMsgSize, rfl⟩ }

def blockBufSize (c : ShmConf) : Nat := getBlockBufSize c.ceilingMsgSize

def blockNum (c : ShmConf) : Nat := getBlockNum c.ceilingMsgSize

def managedShmSize (c : ShmConf) : Nat :=
  extraSize + stateSize + (blockSize + c.blockBufSize) * c.blockNum

/-- `ShmConf()` -/
def default : ShmConf := update messageSize16K

instance : DecidableEq ShmConf := fun c d =>
  decidable_of_iff (c.ceilingMsgSize = d.ceilingMsgSize) (by cases c; cases d; simp)

theorem eq_of_ceiling {c d : ShmConf} (h : c.ceilingMsgSize = d.ceilingMsgSize) : c = d := by
  cases c
  cases d
  simpa using h

/-- The configurations are those of the six sizes. -/
theorem ceilings (c : ShmConf) :
    c.ceilingMsgSize = messageSize16K ∨ c.ceilingMsgSize = messageSize128K ∨
      c.ceilingMsgSize = messageSize1M ∨ c.ceilingMsgSize = messageSize8M ∨
      c.ceilingMsgSize = messageSize16M ∨ c.ceilingMsgSize = messageSizeMore := by
  obtain ⟨m, hm⟩ := c.isCeiling
  rw [← hm, getCeilingMessageSize]
  repeat' split
  all_goals simp

/-- A segment that is read with the ceiling it was made with gets its own sizes. -/
@[simp] theorem update_ceilingMsgSize (c : ShmConf) : update c.ceilingMsgSize = c := by
  apply eq_of_ceiling
  show getCeilingMessageSize c.ceilingMsgSize = c.ceilingMsgSize
  rcases ceilings c with h | h | h | h | h | h <;> rw [h] <;> decide

theorem blockNum_pos (c : ShmConf) : 0 < c.blockNum := by
  rw [blockNum]
  rcases ceilings c with h | h | h | h | h | h <;> rw [h] <;> decide

/-- A sequence number that wraps around selects the blocks as one that does not. -/
theorem blockNum_dvd (c : ShmConf) : c.blockNum ∣ 2 ^ 32 := by
  rw [blockNum]
  rcases ceilings c with h | h | h | h | h | h <;> rw [h] <;> decide

end ShmConf
end Shm
end Transport
end Cmw
