import Cmw.Serialize.DataStream
import Mathlib.Data.Nat.Log

/-!
# How far the buffer grows

`reserve` over any vector, of which it reads the size and the capacity as `int`.  A
`DataStream` keeps both in the range of `int`; its own `reserve` is this one there.
-/

namespace Cmw
namespace Serialize

/-- A `size_t`, as an `int` holds it. -/
def intOf (n : Nat) : Int := (BitVec.ofNat 32 n).toInt

def InInt (i : Int) : Prop := -2 ^ 31 ≤ i ∧ i < 2 ^ 31

instance decidableInInt (i : Int) : Decidable (InInt i) := inferInstanceAs (Decidable (_ ∧ _))

/-- `while (size + len > cap)`, with a bound on its turns. -/
def doubled (target : Int) : Nat → Int → Outcome Int
  | 0, _ => .error .endlessLoop
  | turns + 1, cap =>
      if target ≤ cap then .ok cap
      else if cap = 0 then doubled target turns 1
      else if InInt (cap * 2) then doubled target turns (cap * 2)
      else .error .intOverflow

/-- `reserve(len)`: the capacity of the vector after it. -/
def reserveVector (turns size capacity : Nat) (len : Int) : Outcome Nat :=
  if ¬ InInt (intOf size + len) then .error .intOverflow
  else if intOf capacity < intOf size + len then do
    let cap ← doubled (intOf size + len) turns (intOf capacity)
    .ok (max capacity cap.toNat)
  else .ok capacity

/-- It returns, and `len` more bytes fit. -/
def Reserves (size capacity len : Nat) : Prop :=
  ∃ turns cap, reserveVector turns size capacity len = .ok cap ∧ size + len ≤ cap

/-- The last `int` that doubling `cap` comes to. -/
def lastDouble (cap : Nat) : Nat := max cap 1 * 2 ^ Nat.log 2 (maxInt / max cap 1)

theorem intOf_eq {n : Nat} (h : n ≤ maxInt) : intOf n = n := by
  have hlt : n < 2 ^ 31 := Nat.lt_succ_of_le h
  rw [intOf, BitVec.toInt_eq_toNat_of_lt, BitVec.toNat_ofNat]
  · omega
  · rw [BitVec.toNat_ofNat]
    omega

theorem intOf_le (n : Nat) : intOf n ≤ n := by
  have hle : (BitVec.ofNat 32 n).toInt ≤ (BitVec.ofNat 32 n).toNat := by
    rw [BitVec.toInt_eq_toNat_cond]
    split <;> omega
  have hmod : (BitVec.ofNat 32 n).toNat ≤ n := by
    rw [BitVec.toNat_ofNat]
    exact Nat.mod_le _ _
  exact Int.le_trans hle (Int.ofNat_le.mpr hmod)

theorem intOf_range (n : Nat) : InInt (intOf n) :=
  ⟨BitVec.le_toInt _, BitVec.toInt_lt⟩

/-! ## The loop -/

theorem doubled_ok {target cap : Nat} (k : Nat) (hpos : 0 < cap) (htarget : target ≤ cap * 2 ^ k)
    (hint : cap * 2 ^ k ≤ maxInt) :
    ∃ c : Nat, doubled target (k + 1) cap = .ok (c : Int) ∧ target ≤ c := by
  induction k generalizing cap with
  | zero =>
      rw [Nat.pow_zero, Nat.mul_one] at htarget
      exact ⟨cap, by rw [doubled, if_pos (Int.ofNat_le.mpr htarget)], htarget⟩
  | succ k ih =>
      rw [Nat.pow_succ', ← Nat.mul_assoc] at htarget hint
      have hcap : cap * 2 ≤ maxInt :=
        Nat.le_trans (Nat.le_mul_of_pos_right _ (Nat.two_pow_pos k)) hint
      rw [doubled]
      by_cases hfit : target ≤ cap
      · exact ⟨cap, by rw [if_pos (Int.ofNat_le.mpr hfit)], hfit⟩
      · have hdouble : InInt ((cap : Int) * 2) := by
          unfold maxInt at hcap
          constructor <;> omega
        have hpos' : 0 < cap * 2 := by omega
        rw [if_neg (by omega), if_neg (by omega), if_pos hdouble]
        exact ih hpos' htarget hint

/-- A negative capacity only grows further down. -/
theorem not_doubled_neg {target : Int} (htarget : 0 ≤ target) {turns : Nat} {cap c : Int}
    (hcap : cap < 0) : doubled target turns cap ≠ .ok c := by
  induction turns generalizing cap with
  | zero => intro h; cases h
  | succ turns ih =>
      rw [doubled, if_neg (by omega), if_neg (by omega)]
      split
      · exact ih (by omega)
      · intro h; cases h

theorem of_doubled {target turns cap : Nat} {c : Int} (hpos : 0 < cap) (hint : cap ≤ maxInt)
    (h : doubled target turns cap = .ok c) : ∃ k, target ≤ cap * 2 ^ k ∧ cap * 2 ^ k ≤ maxInt := by
  induction turns generalizing cap with
  | zero => cases h
  | succ turns ih =>
      rw [doubled] at h
      split at h
      case isTrue hfit => exact ⟨0, by omega, by omega⟩
      case isFalse =>
        rw [if_neg (by omega)] at h
        split at h
        case isTrue hdouble =>
          have hcap : cap * 2 ≤ maxInt := by
            have hlt := hdouble.2
            unfold maxInt
            omega
          have hpos' : 0 < cap * 2 := by omega
          obtain ⟨k, hk⟩ := ih hpos' hcap h
          rw [Nat.mul_assoc, ← Nat.pow_succ'] at hk
          exact ⟨k + 1, hk⟩
        case isFalse => cases h

theorem le_lastDouble_iff {target cap : Nat} (hcap : cap ≤ maxInt) :
    target ≤ lastDouble cap ↔
      ∃ k, target ≤ max cap 1 * 2 ^ k ∧ max cap 1 * 2 ^ k ≤ maxInt := by
  have hpos : 0 < max cap 1 := Nat.lt_of_lt_of_le Nat.one_pos (Nat.le_max_right _ _)
  have hone : max cap 1 ≤ maxInt := Nat.max_le.mpr ⟨hcap, by decide⟩
  have hquot : maxInt / max cap 1 ≠ 0 := (Nat.div_pos hone hpos).ne'
  constructor
  · intro h
    refine ⟨_, h, ?_⟩
    rw [Nat.mul_comm]
    exact (Nat.le_div_iff_mul_le hpos).mp (Nat.pow_log_le_self 2 hquot)
  · rintro ⟨k, htarget, hk⟩
    rw [Nat.mul_comm, ← Nat.le_div_iff_mul_le hpos] at hk
    refine Nat.le_trans htarget (Nat.mul_le_mul_left _ ?_)
    exact Nat.pow_le_pow_right Nat.two_pos (Nat.le_log_of_pow_le Nat.one_lt_two hk)

theorem le_of_doubled {target : Int} {turns : Nat} {cap c : Int}
    (h : doubled target turns cap = .ok c) : target ≤ c := by
  induction turns generalizing cap with
  | zero => cases h
  | succ turns ih =>
      rw [doubled] at h
      split at h
      · cases h
        assumption
      split at h
      · exact ih h
      split at h
      · exact ih h
      · cases h

/-- Where the loop comes to an end. -/
theorem doubled_iff {target cap : Nat} (hcap : cap ≤ maxInt) (hlt : cap < target) :
    (∃ turns c, doubled target turns cap = .ok c) ↔ target ≤ lastDouble cap := by
  rw [le_lastDouble_iff hcap]
  rcases Nat.eq_zero_or_pos cap with rfl | hpos
  · have hone : ∀ turns, doubled target (turns + 1) (0 : Nat) = doubled target turns (1 : Nat) := by
      intro turns
      rw [doubled, if_neg (by omega), if_pos Nat.cast_zero]
      rfl
    constructor
    · rintro ⟨turns, c, h⟩
      cases turns with
      | zero => cases h
      | succ turns =>
          rw [hone] at h
          exact of_doubled Nat.one_pos (by decide) h
    · rintro ⟨k, htarget, hint⟩
      obtain ⟨c, hc, -⟩ := doubled_ok k Nat.one_pos htarget hint
      exact ⟨k + 1 + 1, c, (hone _).trans hc⟩
  · rw [Nat.max_eq_left hpos]
    constructor
    · rintro ⟨turns, c, h⟩
      exact of_doubled hpos hcap h
    · rintro ⟨k, htarget, hint⟩
      obtain ⟨c, hc, -⟩ := doubled_ok k hpos htarget hint
      exact ⟨k + 1, c, hc⟩

/-! ## The call -/

theorem reserveVector_of_fits {turns size capacity len : Nat} (hneed : size + len ≤ maxInt)
    (hfit : ((size + len : Nat) : Int) ≤ intOf capacity) :
    reserveVector turns size capacity len = .ok capacity := by
  have hint := intOf_range capacity
  have hsize : intOf size = size := intOf_eq (by omega)
  have hsum : InInt (intOf size + len) := by
    unfold maxInt at hneed
    rw [hsize]
    constructor <;> omega
  rw [reserveVector, if_neg (not_not.mpr hsum), if_neg (by rw [hsize]; omega)]

/-- The buffer is too small: what the loop makes of it. -/
theorem reserveVector_of_lt {turns size capacity len : Nat} (hneed : size + len ≤ maxInt)
    (hlt : intOf capacity < ((size + len : Nat) : Int)) :
    reserveVector turns size capacity len =
      doubled ((size + len : Nat) : Int) turns (intOf capacity) >>= fun cap =>
        .ok (max capacity cap.toNat) := by
  have hsize : intOf size = size := intOf_eq (by omega)
  have hsum : intOf size + len = ((size + len : Nat) : Int) := by
    rw [hsize]
    omega
  have hint : InInt ((size + len : Nat) : Int) := by
    unfold maxInt at hneed
    constructor <;> omega
  rw [reserveVector, hsum, if_neg (not_not.mpr hint), if_pos hlt]

theorem reserves_of_fits {size capacity len : Nat} (hneed : size + len ≤ maxInt)
    (hfit : ((size + len : Nat) : Int) ≤ intOf capacity) : Reserves size capacity len := by
  have hle := intOf_le capacity
  exact ⟨0, capacity, reserveVector_of_fits hneed hfit, by omega⟩

theorem reserves_iff_doubled {size capacity len : Nat} (hneed : size + len ≤ maxInt)
    (hlt : intOf capacity < ((size + len : Nat) : Int)) :
    Reserves size capacity len ↔
      ∃ turns c, doubled ((size + len : Nat) : Int) turns (intOf capacity) = .ok c := by
  constructor
  · rintro ⟨turns, cap, h, -⟩
    rw [reserveVector_of_lt hneed hlt] at h
    obtain ⟨c, hc, -⟩ := of_bind_ok h
    exact ⟨turns, c, hc⟩
  · rintro ⟨turns, c, hc⟩
    have hle := le_of_doubled hc
    refine ⟨turns, max capacity c.toNat, ?_, Nat.le_trans ?_ (Nat.le_max_right _ _)⟩
    · rw [reserveVector_of_lt hneed hlt, hc]
      rfl
    · omega

/-- `reserve` makes room for all that an `int` can count just where doubling the capacity
comes that far within `int`. -/
theorem reserves_iff (size capacity len : Nat) (hneed : size + len ≤ maxInt) :
    Reserves size capacity len ↔
      0 ≤ intOf capacity ∧ size + len ≤ lastDouble (intOf capacity).toNat := by
  have hrange := intOf_range capacity
  have hcap : (intOf capacity).toNat ≤ maxInt := by
    have hlt := hrange.2
    unfold maxInt
    omega
  rcases Int.lt_or_le (intOf capacity) 0 with hneg | hpos
  · have hlt : intOf capacity < ((size + len : Nat) : Int) := by omega
    rw [reserves_iff_doubled hneed hlt]
    refine iff_of_false ?_ fun h => absurd h.1 (by omega)
    rintro ⟨turns, c, hc⟩
    exact not_doubled_neg (Int.natCast_nonneg _) hneg hc
  · rw [and_iff_right hpos]
    obtain ⟨cap, hc⟩ := Int.eq_ofNat_of_zero_le hpos
    rw [hc, Int.toNat_natCast] at hcap ⊢
    rcases Nat.lt_or_ge cap (size + len) with hlt | hfit
    · rw [reserves_iff_doubled hneed (by omega), hc]
      exact doubled_iff hcap hlt
    · refine iff_of_true (reserves_of_fits hneed (by omega)) ?_
      have hone : max cap 1 ≤ maxInt := Nat.max_le.mpr ⟨hcap, by decide⟩
      exact (le_lastDouble_iff hcap).mpr ⟨0, by omega, by omega⟩

theorem reserves_iff_eight : Reserves 5 8 4 :=
  (reserves_iff 5 8 4 (by decide)).mpr ⟨by decide, by decide⟩

/-- More than `2 ^ 30` bytes for an empty vector. -/
theorem empty_not_reserves : ¬ ∀ size capacity len : Nat, size ≤ capacity →
    size + len ≤ maxInt → Reserves size capacity len := by
  intro h
  have hneed : 0 + (2 ^ 30 + 1) ≤ maxInt := by decide
  have hres := h 0 0 (2 ^ 30 + 1) (Nat.le_refl 0) hneed
  rw [reserves_iff_doubled hneed (by decide)] at hres
  exact absurd ((doubled_iff (Nat.zero_le _) (by decide)).mp hres) (by decide)

/-! ## The stream's own -/

variable {host : Library.ByteImage.ByteOrder}

theorem doubled_grown {need turns cap : Nat} (hcap : cap ≤ maxInt) :
    doubled need turns cap = (DataStream.grown need turns cap hcap).map fun c => (c.1 : Int) := by
  induction turns generalizing cap with
  | zero => rfl
  | succ turns ih =>
      rw [doubled, DataStream.grown]
      by_cases hfit : need ≤ cap
      · rw [if_pos (Int.ofNat_le.mpr hfit), dif_pos hfit]
        rfl
      rw [if_neg (by omega), dif_neg hfit]
      by_cases hzero : cap = 0
      · rw [if_pos (by omega), if_pos hzero]
        exact ih (by decide)
      rw [if_neg (by omega), if_neg hzero]
      by_cases hdouble : cap * 2 ≤ maxInt
      · have hint : InInt ((cap : Int) * 2) := by
          unfold maxInt at hdouble
          constructor <;> omega
        rw [if_pos hint, dif_pos hdouble]
        exact ih hdouble
      · have hint : ¬ InInt ((cap : Int) * 2) := fun h => by
          have hlt := h.2
          unfold maxInt at hdouble
          omega
        rw [if_neg hint, dif_neg hdouble]
        rfl

/-- A `DataStream` reserves as any vector of its size and capacity does. -/
theorem reserve_eq_reserveVector (s : DataStream host) {len : Nat}
    (hneed : s.mBuf.length + len ≤ maxInt) :
    (s.reserve len).map (fun c => c.1) = reserveVector 33 s.mBuf.length s.mCap len := by
  have hcap : intOf s.mCap = s.mCap := intOf_eq s.capInt
  rw [DataStream.reserve, if_pos hneed]
  by_cases hfit : s.mBuf.length + len ≤ s.mCap
  · rw [reserveVector_of_fits hneed (by omega), DataStream.grown, dif_pos hfit]
    rfl
  · rw [reserveVector_of_lt hneed (by omega), hcap, doubled_grown s.capInt]
    cases hgrown : DataStream.grown (s.mBuf.length + len) 33 s.mCap s.capInt with
    | error e => rfl
    | ok c =>
        have hle : s.mCap ≤ c.1 := Nat.le_trans (by omega) c.2.1
        exact congrArg Except.ok (Nat.max_eq_right hle).symm

end Serialize
end Cmw
