import Cmw.Library.Run
import Mathlib.Tactic.Ring

/-!
# Cycles of a constant length

time/rate.cpp.  A `Time` counts nanoseconds as a `uint64_t`, a `Duration` as an `int64_t`,
and both wrap.  `Sleep` is given the reading of the clock that it takes.
-/

namespace Cmw

open Library.Run

abbrev Time := BitVec 64

abbrev Duration := BitVec 64

structure Rate where
  start : Time
  expectedCycleTime : Duration
  actualCycleTime : Duration := 0

namespace Rate

/-- `Rate(d)`, where the clock shows `now`. -/
def new (now : Time) (d : Duration) : Rate := { start := now, expectedCycleTime := d }

/-- The end that `Sleep` expects of the cycle: after a backward jump that of a new one. -/
def expectedEnd (r : Rate) (actualEnd : Time) : Time :=
  if actualEnd < r.start then actualEnd + r.expectedCycleTime else r.start + r.expectedCycleTime

/-- The cycle has taken longer than expected. -/
def Overrun (r : Rate) (actualEnd : Time) : Prop :=
  BitVec.toInt (r.expectedEnd actualEnd - actualEnd) < 0

instance decidableOverrun (r : Rate) (actualEnd : Time) : Decidable (r.Overrun actualEnd) :=
  inferInstanceAs (Decidable (_ < _))

/-- `start_` after `Sleep`. -/
def nextStart (r : Rate) (actualEnd : Time) : Time :=
  if r.Overrun actualEnd ∧ r.expectedEnd actualEnd + r.expectedCycleTime < actualEnd then actualEnd
  else r.expectedEnd actualEnd

/-- `Sleep()` -/
def sleep (r : Rate) (actualEnd : Time) : Rate :=
  { r with start := r.nextStart actualEnd, actualCycleTime := actualEnd - r.start }

/-- The time that `Sleep` sleeps until, if it does. -/
def sleepsUntil (r : Rate) (actualEnd : Time) : Option Time :=
  if r.Overrun actualEnd then none else some (r.expectedEnd actualEnd)

@[simp] theorem sleep_start (r : Rate) (t : Time) : (r.sleep t).start = r.nextStart t := rfl

@[simp] theorem sleep_expectedCycleTime (r : Rate) (t : Time) :
    (r.sleep t).expectedCycleTime = r.expectedCycleTime := rfl

/-- The period, where it is positive. -/
def period (r : Rate) : Nat := r.expectedCycleTime.toNat

/-- The times and the sums of a call are small enough. -/
structure Fits (r : Rate) (t : Time) : Prop where
  start : r.start.toNat + r.period < 2 ^ 63
  reading : t.toNat + r.period < 2 ^ 63

/-- The reading is not before the cycle, and at most two periods after its start. -/
structure OnTime (r : Rate) (t : Time) : Prop where
  after : r.start ≤ t
  within : t.toNat ≤ r.start.toNat + 2 * r.period

/-- What a call with the reading `t` does. -/
structure Kept (r : Rate) (t : Time) : Prop where
  low : t.toNat ≤ (r.sleep t).start.toNat + r.period
  high : (r.sleep t).start.toNat ≤ t.toNat + r.period
  wait : ∀ u, r.sleepsUntil t = some u → t.toNat ≤ u.toNat ∧ u.toNat ≤ t.toNat + r.period
  advance : r.OnTime t → (r.sleep t).start.toNat = r.start.toNat + r.period

/-! ## A call -/

theorem toInt_sub {a b : BitVec 64} (ha : a.toNat < 2 ^ 63) (hb : b.toNat < 2 ^ 63) :
    (a - b).toInt = (a.toNat : Int) - b.toNat := by
  rw [BitVec.toInt_eq_toNat_cond, BitVec.toNat_sub]
  split <;> omega

theorem toNat_expectedEnd {r : Rate} {t : Time} (h : r.Fits t) :
    (r.expectedEnd t).toNat =
      if t < r.start then t.toNat + r.period else r.start.toNat + r.period := by
  have hstart := h.start
  have hreading := h.reading
  unfold period at *
  unfold expectedEnd
  split
  · rw [BitVec.toNat_add, Nat.mod_eq_of_lt (by omega)]
  · rw [BitVec.toNat_add, Nat.mod_eq_of_lt (by omega)]

theorem expectedEnd_lt {r : Rate} {t : Time} (h : r.Fits t) : (r.expectedEnd t).toNat < 2 ^ 63 := by
  rw [toNat_expectedEnd h]
  split
  · exact h.reading
  · exact h.start

theorem overrun_iff {r : Rate} {t : Time} (h : r.Fits t) :
    r.Overrun t ↔ (r.expectedEnd t).toNat < t.toNat := by
  have hreading := h.reading
  unfold Overrun
  rw [toInt_sub (expectedEnd_lt h) (by omega)]
  omega

/-- A cycle that has taken two periods is begun anew. -/
theorem toNat_nextStart {r : Rate} {t : Time} (h : r.Fits t) :
    (r.nextStart t).toNat =
      if t < r.start then t.toNat + r.period
      else if r.start.toNat + 2 * r.period < t.toNat then t.toNat
      else r.start.toNat + r.period := by
  have hend := toNat_expectedEnd h
  have hlt := expectedEnd_lt h
  have hreading := h.reading
  have hsum : (r.expectedEnd t + r.expectedCycleTime).toNat =
      (r.expectedEnd t).toNat + r.period := by
    rw [BitVec.toNat_add]
    unfold period at *
    exact Nat.mod_eq_of_lt (by omega)
  have hcond : r.Overrun t ∧ r.expectedEnd t + r.expectedCycleTime < t ↔
      (r.expectedEnd t).toNat + r.period < t.toNat := by
    rw [overrun_iff h, BitVec.lt_def, hsum]
    omega
  rw [nextStart, if_congr hcond rfl rfl]
  by_cases hback : t < r.start
  · rw [if_pos hback] at hend ⊢
    rw [if_neg (by omega), hend]
  · rw [if_neg hback] at hend ⊢
    by_cases hlong : r.start.toNat + 2 * r.period < t.toNat
    · rw [if_pos (by omega), if_pos hlong]
    · rw [if_neg (by omega), if_neg hlong, hend]

theorem kept {r : Rate} {t : Time} (h : r.Fits t) : r.Kept t := by
  have hnext := toNat_nextStart h
  have hend := toNat_expectedEnd h
  simp only [BitVec.lt_def] at hnext hend
  refine ⟨?_, ?_, fun u hu => ?_, fun htime => ?_⟩
  · rw [sleep_start, hnext]
    split_ifs <;> omega
  · rw [sleep_start, hnext]
    split_ifs <;> omega
  · unfold sleepsUntil at hu
    split at hu
    · cases hu
    case isFalse hover =>
      cases hu
      rw [overrun_iff h, hend] at hover
      rw [hend]
      split_ifs at hover ⊢ <;> omega
  · have hafter : r.start.toNat ≤ t.toNat := htime.after
    have hwithin := htime.within
    rw [sleep_start, hnext, if_neg (by omega), if_neg (by omega)]

/-! ## A sequence of calls -/

/-- On time from call to call there is no drift. -/
theorem start_of_onTime {r : Rate} {ts : List Time} (hfits : Along sleep Fits r ts)
    (htime : Along sleep OnTime r ts) :
    (exec sleep r ts).start.toNat = r.start.toNat + ts.length * r.period := by
  induction ts generalizing r with
  | nil => rw [exec_nil, List.length_nil, Nat.zero_mul, Nat.add_zero]
  | cons t ts ih =>
      have hstep := (kept hfits.1).advance htime.1
      rw [exec_cons, ih hfits.2 htime.2, hstep, List.length_cons]
      show _ + ts.length * r.period = _
      ring

theorem along_kept {r : Rate} {ts : List Time} (hfits : Along sleep Fits r ts) :
    Along sleep Kept r ts := by
  induction ts generalizing r with
  | nil => trivial
  | cons t ts ih => exact ⟨kept hfits.1, ih hfits.2⟩

/-- Whatever the clock shows, a cycle begins within a period of it; and where it shows no
jumps the cycles begin a period apart. -/
theorem sleep_along {r : Rate} {ts : List Time} (hfits : Along sleep Fits r ts) :
    Along sleep Kept r ts ∧ (Along sleep OnTime r ts →
      (exec sleep r ts).start.toNat = r.start.toNat + ts.length * r.period) :=
  ⟨along_kept hfits, start_of_onTime hfits⟩

/-- In time, late, after a jump back and after a jump ahead. -/
theorem sleep_along_jumps :
    Along sleep Kept (new 1000 100) [1040, 1250, 900, 5000] := by
  have hfits : Along sleep Fits (new 1000 100) [1040, 1250, 900, 5000] :=
    ⟨⟨by decide, by decide⟩, ⟨by decide, by decide⟩, ⟨by decide, by decide⟩,
      ⟨by decide, by decide⟩, trivial⟩
  exact (sleep_along hfits).1

end Rate
end Cmw
