import Mathlib.Data.Int.Log
import Mathlib.Data.Nat.Factorization.Basic
import Mathlib.Data.Rat.Floor
import Mathlib.Tactic.FieldSimp
import Mathlib.Tactic.Linarith
import Mathlib.Tactic.Positivity
import Mathlib.Tactic.Ring

/-! Rounding rational numbers to 53 significant bits: to the nearest, with ties to the even last bit. -/

namespace HelionDb

/-- The nearest integer, the even one of two. -/
def roundHalfEven (x : ℚ) : ℤ :=
  if x - ⌊x⌋ < 1 / 2 then ⌊x⌋
  else if 1 / 2 < x - ⌊x⌋ then ⌊x⌋ + 1
  else ⌊x⌋ + ⌊x⌋ % 2

/-- The exponent of the last of 53 bits. -/
def lastPlace (q : ℚ) : ℤ := Int.log 2 q - 52

/-- The number of 53 bits nearest to a magnitude. -/
def roundMagnitude (q : ℚ) : ℚ := roundHalfEven (q / 2 ^ lastPlace q) * 2 ^ lastPlace q

/-- The nearest number of 53 bits. -/
def nearest (q : ℚ) : ℚ := if q < 0 then -roundMagnitude (-q) else roundMagnitude q

/-- Towards zero. -/
def truncate (q : ℚ) : ℤ := if q < 0 then -⌊-q⌋ else ⌊q⌋

/-- An integer of at most 53 significant bits. -/
def FitsDouble (n : ℤ) : Prop := ∃ k place : ℕ, k < 2 ^ 53 ∧ n.natAbs = k * 2 ^ place

theorem roundHalfEven_intCast (n : ℤ) : roundHalfEven n = n := by
  rw [roundHalfEven, Int.floor_intCast, sub_self, if_pos (by norm_num)]

theorem abs_roundHalfEven_sub_le (x : ℚ) : |roundHalfEven x - x| ≤ 1 / 2 := by
  have hlow := Int.floor_le x
  have hhigh := Int.lt_floor_add_one x
  rw [roundHalfEven, abs_le]
  split
  · constructor <;> linarith
  · split
    · push_cast
      constructor <;> linarith
    · have hparity : ((⌊x⌋ % 2 : ℤ) : ℚ) = 0 ∨ ((⌊x⌋ % 2 : ℤ) : ℚ) = 1 := by
        rcases Int.emod_two_eq_zero_or_one ⌊x⌋ with h | h <;> simp [h]
      rw [Int.cast_add]
      rcases hparity with h | h <;> rw [h] <;> constructor <;> linarith

/-! ### Magnitudes -/

section

variable {q : ℚ}

theorem zpow_lastPlace_pos (q : ℚ) : (0 : ℚ) < 2 ^ lastPlace q := zpow_pos (by norm_num) _

/-- The last place is worth at most one part in 2^52. -/
theorem zpow_lastPlace_le (hq : 0 < q) : (2 : ℚ) ^ lastPlace q * 2 ^ 52 ≤ q := by
  have hlog : (2 : ℚ) ^ Int.log 2 q ≤ q := Int.zpow_log_le_self (by norm_num) hq
  have hsplit : (2 : ℚ) ^ lastPlace q * 2 ^ 52 = 2 ^ Int.log 2 q := by
    rw [lastPlace, ← zpow_natCast, ← zpow_add₀ (by norm_num)]
    norm_num
  rw [hsplit]
  exact hlog

theorem lt_zpow_lastPlace (q : ℚ) : q < (2 : ℚ) ^ lastPlace q * 2 ^ 53 := by
  have hlog : q < (2 : ℚ) ^ (Int.log 2 q + 1) := Int.lt_zpow_succ_log_self (by norm_num) q
  have hsplit : (2 : ℚ) ^ lastPlace q * 2 ^ 53 = 2 ^ (Int.log 2 q + 1) := by
    rw [lastPlace, ← zpow_natCast, ← zpow_add₀ (by norm_num)]
    norm_num
    ring_nf
  rw [hsplit]
  exact hlog

/-- A number whose bits end at its last place is itself. -/
theorem roundMagnitude_of_eq {k : ℤ} (hq : q = k * 2 ^ lastPlace q) : roundMagnitude q = q := by
  have hdiv : q / 2 ^ lastPlace q = k := by
    rw [div_eq_iff (zpow_lastPlace_pos q).ne']
    exact hq
  rw [roundMagnitude, hdiv, roundHalfEven_intCast]
  exact hq.symm

theorem abs_roundMagnitude_sub_le (hq : 0 < q) : |roundMagnitude q - q| ≤ q / 2 ^ 53 := by
  have hpos := zpow_lastPlace_pos q
  have hplace := zpow_lastPlace_le hq
  have hround := abs_roundHalfEven_sub_le (q / 2 ^ lastPlace q)
  have hscale : roundMagnitude q - q =
      (roundHalfEven (q / 2 ^ lastPlace q) - q / 2 ^ lastPlace q) * 2 ^ lastPlace q := by
    rw [roundMagnitude, sub_mul, div_mul_cancel₀ _ hpos.ne']
  calc |roundMagnitude q - q|
      = |roundHalfEven (q / 2 ^ lastPlace q) - q / 2 ^ lastPlace q| * 2 ^ lastPlace q := by
        rw [hscale, abs_mul, abs_of_pos hpos]
    _ ≤ 1 / 2 * 2 ^ lastPlace q := mul_le_mul_of_nonneg_right hround hpos.le
    _ ≤ q / 2 ^ 53 := by
        rw [le_div_iff₀ (by norm_num)]
        linarith

theorem roundMagnitude_bounds (hq : 0 < q) : q / 2 ≤ roundMagnitude q ∧ roundMagnitude q ≤ 2 * q := by
  have herror := abs_le.mp (abs_roundMagnitude_sub_le hq)
  have hsmall : q / 2 ^ 53 ≤ q / 2 := div_le_div_of_nonneg_left hq.le (by norm_num) (by norm_num)
  constructor <;> linarith [herror.1, herror.2]

theorem roundMagnitude_pos (hq : 0 < q) : 0 < roundMagnitude q := by
  have hlow := (roundMagnitude_bounds hq).1
  linarith

/-- An integer below 2^53 is itself. -/
theorem roundMagnitude_natCast {n : ℕ} (hn : n < 2 ^ 53) : roundMagnitude n = n := by
  rcases Nat.eq_zero_or_pos n with rfl | hpos
  · apply roundMagnitude_of_eq
    rw [Nat.cast_zero, Int.cast_zero, zero_mul]
  · have hplace : lastPlace n ≤ 0 := by
      have hlog : Int.log 2 (n : ℚ) < 53 := by
        rw [← Int.lt_zpow_iff_log_lt (by norm_num) (by exact_mod_cast hpos)]
        exact_mod_cast hn
      rw [lastPlace]
      omega
    obtain ⟨places, hplaces⟩ := Int.eq_ofNat_of_zero_le (neg_nonneg.mpr hplace)
    apply @roundMagnitude_of_eq n (n * 2 ^ places)
    have hinverse : (2 : ℚ) ^ places * 2 ^ lastPlace n = 1 := by
      rw [← zpow_natCast, ← zpow_add₀ (by norm_num), show (places : ℤ) + lastPlace n = 0 by omega, zpow_zero]
    push_cast
    rw [mul_assoc, hinverse, mul_one]

/-- An integer is rounded to one. -/
theorem exists_roundMagnitude_eq (n : ℕ) : ∃ m : ℕ, roundMagnitude n = m := by
  by_cases hn : n < 2 ^ 53
  · exact ⟨n, roundMagnitude_natCast hn⟩
  · have hplace : 0 ≤ lastPlace n := by
      have hlog : 53 ≤ Int.log 2 (n : ℚ) := by
        rw [← Int.zpow_le_iff_le_log (by norm_num) (by exact_mod_cast (by omega : 0 < n))]
        exact_mod_cast not_lt.mp hn
      rw [lastPlace]
      omega
    obtain ⟨places, hplaces⟩ := Int.eq_ofNat_of_zero_le hplace
    have hpos : 0 ≤ roundMagnitude n := (roundMagnitude_pos (by exact_mod_cast (by omega : 0 < n))).le
    have hint : roundMagnitude n = ((roundHalfEven (n / 2 ^ lastPlace n) * 2 ^ places : ℤ) : ℚ) := by
      rw [roundMagnitude, hplaces, zpow_natCast]
      push_cast
      rfl
    generalize roundHalfEven (n / 2 ^ lastPlace n) * 2 ^ places = rounded at hint
    rw [hint] at hpos ⊢
    obtain ⟨m, rfl⟩ := Int.eq_ofNat_of_zero_le (Int.cast_nonneg_iff.mp hpos)
    exact ⟨m, Int.cast_natCast m⟩

theorem natCast_div_add_mod (m : ℕ) {n : ℕ} (hn : 0 < n) : ((m / n : ℕ) : ℚ) + (m % n : ℕ) / n = m / n := by
  have hpos : (0 : ℚ) < n := by exact_mod_cast hn
  rw [add_div_eq_mul_add_div _ _ hpos.ne']
  congr 1
  exact_mod_cast Nat.div_add_mod' m n

/-- The rounded quotient of integers below 2^53 has the integral part of the quotient. -/
theorem floor_roundMagnitude_div {a b : ℕ} (ha : a < 2 ^ 53) (hb : 0 < b) :
    ⌊roundMagnitude (a / b)⌋ = (a / b : ℕ) := by
  have hbpos : (0 : ℚ) < b := by exact_mod_cast hb
  have hsplit := (natCast_div_add_mod a hb).symm
  rcases Nat.eq_zero_or_pos (a % b) with hzero | hrest
  · have hexact : (a : ℚ) / b = (a / b : ℕ) := by
      rw [hsplit, hzero, Nat.cast_zero, zero_div, add_zero]
    have hlt : a / b < 2 ^ 53 := (Nat.div_le_self a b).trans_lt ha
    rw [hexact, roundMagnitude_natCast hlt, Int.floor_natCast]
  · have hapos : 0 < a := Nat.pos_of_ne_zero fun h => by simp [h] at hrest
    have hqpos : (0 : ℚ) < a / b := div_pos (by exact_mod_cast hapos) hbpos
    -- The error is less than the distance from the next integer on either side.
    have herror : (a : ℚ) / b / 2 ^ 53 < 1 / b := by
      rw [div_div, mul_comm, ← div_div, div_lt_div_iff_of_pos_right hbpos, div_lt_one (by norm_num)]
      exact_mod_cast ha
    have hbounds := abs_le.mp (abs_roundMagnitude_sub_le hqpos)
    have hlow : (1 : ℚ) / b ≤ (a % b : ℕ) / b :=
      (div_le_div_iff_of_pos_right hbpos).mpr (by exact_mod_cast hrest)
    have hhigh : ((a % b : ℕ) : ℚ) / b + 1 / b ≤ 1 := by
      rw [← add_div, div_le_one hbpos]
      exact_mod_cast Nat.mod_lt a hb
    rw [Int.floor_eq_iff, Int.cast_natCast]
    constructor
    · linarith [hbounds.1]
    · linarith [hbounds.2]

theorem roundMagnitude_zero : roundMagnitude 0 = 0 := by
  have h := @roundMagnitude_natCast 0 (by norm_num)
  rw [Nat.cast_zero] at h
  exact h

theorem nearest_zero : nearest 0 = 0 := by rw [nearest, if_neg (lt_irrefl 0), roundMagnitude_zero]

theorem nearest_of_nonneg (hq : 0 ≤ q) : nearest q = roundMagnitude q := if_neg (not_lt.mpr hq)

theorem nearest_neg (q : ℚ) : nearest (-q) = -nearest q := by
  rcases lt_trichotomy q 0 with hq | rfl | hq
  · rw [nearest_of_nonneg (neg_nonneg.mpr hq.le), nearest, if_pos hq, neg_neg]
  · rw [neg_zero, nearest_zero, neg_zero]
  · rw [nearest_of_nonneg hq.le, nearest, if_pos (neg_lt_zero.mpr hq), neg_neg]

theorem truncate_neg (q : ℚ) : truncate (-q) = -truncate q := by
  rcases lt_trichotomy q 0 with hq | rfl | hq
  · rw [truncate, if_neg (not_lt.mpr (neg_nonneg.mpr hq.le)), truncate, if_pos hq, neg_neg]
  · rw [neg_zero]
    rfl
  · rw [truncate, if_pos (neg_lt_zero.mpr hq), neg_neg, truncate, if_neg (not_lt.mpr hq.le)]

theorem truncate_intCast (n : ℤ) : truncate n = n := by
  rw [truncate, ← Int.cast_neg, Int.floor_intCast, Int.floor_intCast, neg_neg, ite_self]

theorem truncate_nonneg (hq : 0 ≤ q) : 0 ≤ truncate q := by
  rw [truncate, if_neg (not_lt.mpr hq)]
  exact Int.floor_nonneg.mpr hq

theorem truncate_nonpos (hq : q ≤ 0) : truncate q ≤ 0 := by
  have h := truncate_nonneg (neg_nonneg.mpr hq)
  rw [truncate_neg] at h
  exact neg_nonneg.mp h

theorem nearest_natCast {n : ℕ} (hn : n < 2 ^ 53) : nearest n = n := by
  rw [nearest_of_nonneg (Nat.cast_nonneg n), roundMagnitude_natCast hn]

theorem nearest_intCast {n : ℤ} (hn : |n| < 2 ^ 53) : nearest n = n := by
  obtain ⟨m, rfl | rfl⟩ := Int.eq_nat_or_neg n
  · rw [Int.cast_natCast, nearest_natCast (by exact_mod_cast (abs_lt.mp hn).2)]
  · rw [abs_neg] at hn
    rw [Int.cast_neg, Int.cast_natCast, nearest_neg, nearest_natCast (by exact_mod_cast (abs_lt.mp hn).2)]

/-- An integer is rounded to one. -/
theorem exists_nearest_eq (n : ℤ) : ∃ k : ℤ, nearest n = k := by
  obtain ⟨m, rfl | rfl⟩ := Int.eq_nat_or_neg n
  · obtain ⟨k, hk⟩ := exists_roundMagnitude_eq m
    exact ⟨k, by rw [Int.cast_natCast, nearest_of_nonneg (Nat.cast_nonneg m), hk, Int.cast_natCast]⟩
  · obtain ⟨k, hk⟩ := exists_roundMagnitude_eq m
    refine ⟨-k, ?_⟩
    rw [Int.cast_neg, Int.cast_natCast, nearest_neg, nearest_of_nonneg (Nat.cast_nonneg m), hk, Int.cast_neg,
      Int.cast_natCast]

theorem abs_nearest (q : ℚ) : |nearest q| = nearest |q| := by
  have hnonneg {r : ℚ} (hr : 0 < r) : |nearest r| = nearest r := by
    rw [nearest_of_nonneg hr.le, abs_of_pos (roundMagnitude_pos hr)]
  rcases lt_trichotomy q 0 with hq | rfl | hq
  · rw [abs_of_neg hq, ← hnonneg (neg_pos.mpr hq), nearest_neg, abs_neg]
  · rw [nearest_zero, abs_zero, nearest_zero]
  · rw [hnonneg hq, abs_of_pos hq]

theorem abs_nearest_bounds (q : ℚ) : |q| / 2 ≤ |nearest q| ∧ |nearest q| ≤ 2 * |q| := by
  rw [abs_nearest, nearest_of_nonneg (abs_nonneg q)]
  rcases (abs_nonneg q).eq_or_lt with hzero | hpos
  · rw [← hzero, roundMagnitude_zero]
    norm_num
  · exact roundMagnitude_bounds hpos

/-- The rounded quotient of integers below 2^53, truncated, is the truncated quotient. -/
theorem truncate_nearest_div {m n : ℤ} (hm : |m| < 2 ^ 53) (hn : n ≠ 0) :
    truncate (nearest (m / n)) = m.tdiv n := by
  have hpos {a b : ℕ} (ha : a < 2 ^ 53) (hb : 0 < b) : truncate (nearest (a / b)) = (a : ℤ).tdiv b := by
    have hq : (0 : ℚ) ≤ a / b := div_nonneg (Nat.cast_nonneg a) (Nat.cast_nonneg b)
    have hrounded : 0 ≤ roundMagnitude ((a : ℚ) / b) := by
      rcases hq.eq_or_lt with hzero | hlt
      · rw [← hzero, roundMagnitude_zero]
      · exact (roundMagnitude_pos hlt).le
    rw [nearest_of_nonneg hq, truncate, if_neg (not_lt.mpr hrounded), floor_roundMagnitude_div ha hb]
    rfl
  obtain ⟨a, ha⟩ := Int.eq_nat_or_neg m
  obtain ⟨b, hb⟩ := Int.eq_nat_or_neg n
  have hab : a < 2 ^ 53 := by
    rcases ha with rfl | rfl
    · exact_mod_cast (abs_lt.mp hm).2
    · rw [abs_neg] at hm
      exact_mod_cast (abs_lt.mp hm).2
  have hbpos : 0 < b := by
    rcases hb with rfl | rfl <;> omega
  have h := hpos hab hbpos
  rcases ha with rfl | rfl <;> rcases hb with rfl | rfl <;>
    simp only [Int.cast_neg, Int.cast_natCast, neg_div, div_neg, neg_neg, nearest_neg, truncate_neg, Int.neg_tdiv,
      Int.tdiv_neg, h]

end

/-! ### Integers of 53 bits -/

theorem roundMagnitude_mul_zpow_of_lt {k : ℕ} (place : ℤ) (hk : k < 2 ^ 53) :
    roundMagnitude (k * 2 ^ place) = k * 2 ^ place := by
  rcases Nat.eq_zero_or_pos k with rfl | hpos
  · rw [Nat.cast_zero, zero_mul, roundMagnitude_zero]
  have hscale : (0 : ℚ) < 2 ^ place := zpow_pos (by norm_num) _
  have hvalue : (0 : ℚ) < k * 2 ^ place := mul_pos (by exact_mod_cast hpos) hscale
  have hplace : lastPlace (k * 2 ^ place) ≤ place := by
    have hlog : Int.log 2 ((k : ℚ) * 2 ^ place) < 53 + place := by
      rw [← Int.lt_zpow_iff_log_lt (by norm_num) hvalue, zpow_add₀ (by norm_num)]
      exact mul_lt_mul_of_pos_right (by exact_mod_cast hk) hscale
    rw [lastPlace]
    omega
  obtain ⟨places, hplaces⟩ := Int.eq_ofNat_of_zero_le (sub_nonneg.mpr hplace)
  apply @roundMagnitude_of_eq _ (k * 2 ^ places)
  have hsplit : (2 : ℚ) ^ places * 2 ^ lastPlace (k * 2 ^ place) = 2 ^ place := by
    rw [← zpow_natCast 2 places, ← zpow_add₀ (by norm_num)]
    congr 1
    omega
  push_cast
  rw [mul_assoc, hsplit]

theorem roundMagnitude_mul_zpow {k : ℕ} (place : ℤ) (hk : k ≤ 2 ^ 53) :
    roundMagnitude (k * 2 ^ place) = k * 2 ^ place := by
  rcases hk.eq_or_lt with rfl | hlt
  · have hshift : ((2 ^ 53 : ℕ) : ℚ) * 2 ^ place = ((2 ^ 52 : ℕ) : ℚ) * 2 ^ (place + 1) := by
      rw [zpow_add_one₀ (by norm_num)]
      push_cast
      ring
    rw [hshift]
    exact roundMagnitude_mul_zpow_of_lt _ (by norm_num)
  · exact roundMagnitude_mul_zpow_of_lt place hlt

/-- A rounded magnitude has 53 bits, or is the power of two after them. -/
theorem exists_roundMagnitude_eq_mul_zpow {q : ℚ} (hq : 0 < q) :
    ∃ k : ℕ, k ≤ 2 ^ 53 ∧ roundMagnitude q = k * 2 ^ lastPlace q := by
  have hscale := zpow_lastPlace_pos q
  have hround := abs_le.mp (abs_roundHalfEven_sub_le (q / 2 ^ lastPlace q))
  have hlow : (0 : ℚ) < q / 2 ^ lastPlace q := div_pos hq hscale
  have hhigh : q / 2 ^ lastPlace q < 2 ^ 53 := by
    rw [div_lt_iff₀ hscale, mul_comm]
    exact lt_zpow_lastPlace q
  have hnonneg : -1 < roundHalfEven (q / 2 ^ lastPlace q) := by
    have : (-1 : ℚ) < roundHalfEven (q / 2 ^ lastPlace q) := by linarith [hround.1]
    exact_mod_cast this
  have hle : roundHalfEven (q / 2 ^ lastPlace q) < 2 ^ 53 + 1 := by
    have : (roundHalfEven (q / 2 ^ lastPlace q) : ℚ) < 2 ^ 53 + 1 := by linarith [hround.2]
    exact_mod_cast this
  obtain ⟨k, hk⟩ := Int.eq_ofNat_of_zero_le (by omega : 0 ≤ roundHalfEven (q / 2 ^ lastPlace q))
  exact ⟨k, by omega, by rw [roundMagnitude, hk, Int.cast_natCast]⟩

theorem nearest_nearest (q : ℚ) : nearest (nearest q) = nearest q := by
  have hpos {r : ℚ} (hr : 0 < r) : nearest (nearest r) = nearest r := by
    obtain ⟨k, hk, hround⟩ := exists_roundMagnitude_eq_mul_zpow hr
    rw [nearest_of_nonneg hr.le, nearest_of_nonneg (roundMagnitude_pos hr).le, hround, roundMagnitude_mul_zpow _ hk]
  rcases lt_trichotomy q 0 with hq | rfl | hq
  · have h := hpos (neg_pos.mpr hq)
    rw [nearest_neg, nearest_neg] at h
    exact neg_inj.mp h
  · rw [nearest_zero, nearest_zero]
  · exact hpos hq

/-- A magnitude that rounding keeps has at most 53 bits. -/
theorem exists_mul_pow_of_roundMagnitude {n : ℕ} (h : roundMagnitude n = n) :
    ∃ k place : ℕ, k < 2 ^ 53 ∧ n = k * 2 ^ place := by
  by_cases hn : n < 2 ^ 53
  · exact ⟨n, 0, hn, by rw [pow_zero, mul_one]⟩
  have hpos : (0 : ℚ) < n := by exact_mod_cast (by omega : 0 < n)
  have hplace : 0 ≤ lastPlace n := by
    have hlog : 53 ≤ Int.log 2 (n : ℚ) := by
      rw [← Int.zpow_le_iff_le_log (by norm_num) hpos]
      exact_mod_cast not_lt.mp hn
    rw [lastPlace]
    omega
  obtain ⟨place, hlast⟩ := Int.eq_ofNat_of_zero_le hplace
  obtain ⟨k, hk, hround⟩ := exists_roundMagnitude_eq_mul_zpow hpos
  rw [h, hlast, zpow_natCast] at hround
  have hvalue : n = k * 2 ^ place := by exact_mod_cast hround
  rcases hk.eq_or_lt with rfl | hlt
  · exact ⟨2 ^ 52, place + 1, by norm_num, by rw [hvalue, pow_succ]; ring⟩
  · exact ⟨k, place, hlt, hvalue⟩

theorem nearest_eq_iff_fitsDouble (n : ℤ) : nearest n = n ↔ FitsDouble n := by
  have hnat (m : ℕ) : nearest m = m ↔ ∃ k place : ℕ, k < 2 ^ 53 ∧ m = k * 2 ^ place := by
    rw [nearest_of_nonneg (Nat.cast_nonneg m)]
    constructor
    · exact exists_mul_pow_of_roundMagnitude
    · rintro ⟨k, place, hk, rfl⟩
      push_cast
      rw [← zpow_natCast]
      exact roundMagnitude_mul_zpow place hk.le
  obtain ⟨m, rfl | rfl⟩ := Int.eq_nat_or_neg n
  · rw [FitsDouble, Int.natAbs_natCast, Int.cast_natCast]
    exact hnat m
  · rw [FitsDouble, Int.natAbs_neg, Int.natAbs_natCast, Int.cast_neg, Int.cast_natCast, nearest_neg, neg_inj]
    exact hnat m

/-- A factor of an integer of 53 bits has at most 53 bits. -/
theorem FitsDouble.of_mul {m n : ℤ} (h : FitsDouble (m * n)) (hn : n ≠ 0) : FitsDouble m := by
  rcases eq_or_ne m 0 with rfl | hm
  · exact ⟨0, 0, by norm_num, rfl⟩
  obtain ⟨k, place, hk, hvalue⟩ := h
  obtain ⟨power, odd, hodd, hsplit⟩ := Nat.exists_eq_two_pow_mul_odd (Int.natAbs_ne_zero.mpr hm)
  refine ⟨odd, power, ?_, by rw [hsplit, mul_comm]⟩
  have hdvd : odd ∣ k * 2 ^ place := by
    rw [← hvalue, Int.natAbs_mul, hsplit]
    exact (Dvd.intro_left (2 ^ power) rfl).mul_right _
  have hcoprime : odd.Coprime (2 ^ place) := (Nat.coprime_two_right.mpr hodd).pow_right place
  have hpos : 0 < k := by
    apply Nat.pos_of_ne_zero
    rintro rfl
    rw [zero_mul, Int.natAbs_eq_zero] at hvalue
    exact mul_ne_zero hm hn hvalue
  exact (Nat.le_of_dvd hpos (hcoprime.dvd_of_dvd_mul_right hdvd)).trans_lt hk

/-- The rounded product of rounded integers is their product exactly if that has at most 53 bits. -/
theorem nearest_mul_eq_iff (m n : ℤ) :
    nearest (nearest m * nearest n) = ((m * n : ℤ) : ℚ) ↔ FitsDouble (m * n) := by
  rcases eq_or_ne m 0 with rfl | hm
  · rw [Int.cast_zero, nearest_zero, zero_mul, nearest_zero, zero_mul, Int.cast_zero]
    exact iff_of_true rfl ⟨0, 0, by norm_num, rfl⟩
  rcases eq_or_ne n 0 with rfl | hn
  · rw [Int.cast_zero, nearest_zero, mul_zero, nearest_zero, mul_zero, Int.cast_zero]
    exact iff_of_true rfl ⟨0, 0, by norm_num, rfl⟩
  constructor
  · intro h
    obtain ⟨k, hk⟩ := exists_nearest_eq m
    obtain ⟨l, hl⟩ := exists_nearest_eq n
    rw [hk, hl, ← Int.cast_mul] at h
    rw [← nearest_eq_iff_fitsDouble, ← h, nearest_nearest]
  · intro h
    have hleft : nearest m = m := (nearest_eq_iff_fitsDouble m).mpr (h.of_mul hn)
    have hright : nearest n = n := by
      rw [mul_comm] at h
      exact (nearest_eq_iff_fitsDouble n).mpr (h.of_mul hm)
    rw [hleft, hright, ← Int.cast_mul]
    exact (nearest_eq_iff_fitsDouble _).mpr h

end HelionDb
