import HelionDb.Rounding
import Mathlib

/-! The operations of doubles as rounded operations of rational numbers, as long as no result leaves the range of
normal numbers. -/

namespace HelionDb

open Float.Model Float.Model.UnpackedFloat

/-- The exact value that a mantissa with its residual bits stands for lies here. -/
def Encloses (em : ExtendedMantissa) (x : ℚ) : Prop :=
  match em.roundBit, em.stickyBit with
  | false, false => x = em.mantissa
  | false, true => em.mantissa < x ∧ x < em.mantissa + 1 / 2
  | true, false => x = em.mantissa + 1 / 2
  | true, true => em.mantissa + 1 / 2 < x ∧ x < em.mantissa + 1

theorem Encloses.bounds {em : ExtendedMantissa} {x : ℚ} (h : Encloses em x) :
    em.mantissa ≤ x ∧ x < em.mantissa + 1 := by
  obtain ⟨mantissa, roundBit, stickyBit⟩ := em
  cases roundBit <;> cases stickyBit <;> simp only [Encloses] at h ⊢
  · constructor <;> linarith
  · constructor <;> linarith [h.1, h.2]
  · constructor <;> linarith
  · constructor <;> linarith [h.1, h.2]

theorem Encloses.floor_eq {em : ExtendedMantissa} {x : ℚ} (h : Encloses em x) : ⌊x⌋ = em.mantissa := by
  rw [Int.floor_eq_iff, Int.cast_natCast]
  exact h.bounds

/-- Shifting halves the value. -/
theorem Encloses.shiftRightOne {em : ExtendedMantissa} {x : ℚ} (h : Encloses em x) :
    Encloses em.shiftRightOne (x / 2) := by
  obtain ⟨mantissa, roundBit, stickyBit⟩ := em
  have hsplit : (mantissa : ℚ) = 2 * (mantissa / 2 : ℕ) + (mantissa % 2 : ℕ) := by
    exact_mod_cast (Nat.div_add_mod mantissa 2).symm
  have hodd : (1 != 0) = true := rfl
  rcases Nat.mod_two_eq_zero_or_one mantissa with hparity | hparity <;> rw [hparity] at hsplit <;>
    cases roundBit <;> cases stickyBit <;>
    simp only [Encloses, ExtendedMantissa.shiftRightOne, hparity, hodd, bne_self_eq_false, Bool.or_self, Bool.or_true,
      Bool.or_false, Nat.cast_zero, Nat.cast_one] at h hsplit ⊢
  all_goals
    try constructor
    all_goals linarith

theorem Encloses.shiftRight {em : ExtendedMantissa} {x : ℚ} (h : Encloses em x) (k : ℕ) :
    Encloses (em >>> k) (x / 2 ^ k) := by
  show Encloses (k.repeat ExtendedMantissa.shiftRightOne em) _
  induction k with
  | zero =>
      rw [pow_zero, div_one]
      exact h
  | succ k ih =>
      rw [pow_succ, ← div_div]
      exact ih.shiftRightOne

/-- The rounded mantissa is the nearest integer. -/
theorem Encloses.roundedMantissa {em : ExtendedMantissa} {x : ℚ} (h : Encloses em x) :
    (em.roundedMantissa : ℤ) = roundHalfEven x := by
  have hfloor := h.floor_eq
  rw [roundHalfEven, hfloor, Int.cast_natCast]
  obtain ⟨mantissa, roundBit, stickyBit⟩ := em
  cases roundBit <;> cases stickyBit <;> simp only [Encloses] at h
  · rw [if_pos (by linarith)]
    rfl
  · rw [if_pos (by linarith)]
    rfl
  · rw [if_neg (by linarith), if_neg (by linarith)]
    rfl
  · rw [if_neg (by linarith), if_pos (by linarith)]
    rfl

theorem encloses_exact (mantissa : ℕ) : Encloses (.ofMantissaAndAccuracy mantissa .exact) mantissa := rfl

/-- What a division leaves over. -/
theorem encloses_fraction (mantissa : ℕ) {rest divisor : ℕ} (h : rest < divisor) :
    Encloses (.ofMantissaAndAccuracy mantissa (accuracyOfFraction rest divisor)) (mantissa + rest / divisor) := by
  have hpos : (0 : ℚ) < divisor := by exact_mod_cast (by omega : 0 < divisor)
  rw [accuracyOfFraction]
  split
  · rename_i hzero
    rw [hzero, Nat.cast_zero, zero_div, add_zero]
    exact encloses_exact mantissa
  · rename_i hrest
    have hpart : (0 : ℚ) < rest / divisor := div_pos (by exact_mod_cast Nat.pos_of_ne_zero hrest) hpos
    have hone : (rest : ℚ) / divisor < 1 := (div_lt_one hpos).mpr (by exact_mod_cast h)
    cases hcompare : compare (2 * rest) divisor with
    | lt =>
        have hless : (rest : ℚ) / divisor < 1 / 2 := by
          rw [div_lt_div_iff₀ hpos (by norm_num)]
          have := Nat.compare_eq_lt.mp hcompare
          exact_mod_cast (by omega : rest * 2 < 1 * divisor)
        show (mantissa : ℚ) < mantissa + rest / divisor ∧ (mantissa : ℚ) + rest / divisor < mantissa + 1 / 2
        constructor <;> linarith
    | eq =>
        have hhalf : (rest : ℚ) / divisor = 1 / 2 := by
          rw [div_eq_div_iff hpos.ne' (by norm_num)]
          have := Nat.compare_eq_eq.mp hcompare
          exact_mod_cast (by omega : rest * 2 = 1 * divisor)
        show (mantissa : ℚ) + rest / divisor = mantissa + 1 / 2
        rw [hhalf]
    | gt =>
        have hmore : 1 / 2 < (rest : ℚ) / divisor := by
          rw [div_lt_div_iff₀ (by norm_num) hpos]
          have := Nat.compare_eq_gt.mp hcompare
          exact_mod_cast (by omega : 1 * divisor < rest * 2)
        show (mantissa : ℚ) + 1 / 2 < mantissa + rest / divisor ∧ (mantissa : ℚ) + rest / divisor < mantissa + 1
        constructor <;> linarith

/-- The mantissa and the exponent of a normal number. -/
def Normal (mantissa : ℕ) (exponent : ℤ) : Prop :=
  2 ^ 52 ≤ mantissa ∧ mantissa < 2 ^ 53 ∧ -1074 ≤ exponent ∧ exponent ≤ 971

theorem log_mul_zpow {mantissa : ℕ} (hpos : 0 < mantissa) {x : ℚ} (hlow : mantissa ≤ x) (hhigh : x < mantissa + 1)
    (exponent : ℤ) : Int.log 2 (x * 2 ^ exponent) = mantissa.log2 + exponent := by
  have hscale : (0 : ℚ) < 2 ^ exponent := zpow_pos (by norm_num) _
  have hx : 0 < x := lt_of_lt_of_le (by exact_mod_cast hpos) hlow
  have hbelow : (2 : ℚ) ^ (mantissa.log2 : ℤ) ≤ x := by
    rw [zpow_natCast]
    exact le_trans (by exact_mod_cast Nat.log2_self_le hpos.ne') hlow
  have habove : x < (2 : ℚ) ^ ((mantissa.log2 : ℤ) + 1) := by
    have hlt : mantissa + 1 ≤ 2 ^ (mantissa.log2 + 1) := Nat.lt_log2_self
    exact lt_of_lt_of_le hhigh (by exact_mod_cast hlt)
  apply le_antisymm
  · apply Int.lt_add_one_iff.mp
    apply (Int.lt_zpow_iff_log_lt (by norm_num) (mul_pos hx hscale)).mp
    rw [Nat.cast_ofNat, add_right_comm, zpow_add₀ (by norm_num)]
    exact mul_lt_mul_of_pos_right habove hscale
  · apply (Int.zpow_le_iff_le_log (by norm_num) (mul_pos hx hscale)).mp
    rw [Nat.cast_ofNat, zpow_add₀ (by norm_num)]
    exact mul_le_mul_of_nonneg_right hbelow hscale.le

/-- A mantissa of at most 53 bits stays as it is. -/
theorem shiftToTargetExponent_of_lt {mantissa : ℕ} {exponent : ℤ} (hpos : 0 < mantissa) (hlt : mantissa < 2 ^ 53)
    (hexponent : -1074 ≤ exponent) :
    shiftToTargetExponent Format.binary64 mantissa exponent .exact = (⟨mantissa, false, false⟩, exponent) := by
  have hlog : mantissa.log2 < 53 := (Nat.log2_lt hpos.ne').mpr hlt
  have hshift : (Format.binary64.targetExponent (totalExponent mantissa exponent) - exponent).toNat = 0 := by
    show (max (mantissa.log2 + 1 + exponent - 53) (3 - 2 ^ 10 - 53) - exponent).toNat = 0
    omega
  rw [shiftToTargetExponent, shiftToExponent, hshift]
  exact Prod.ext rfl (add_zero exponent)

/-- A mantissa that was rounded up to 2^53 loses its last bit. -/
theorem shiftToTargetExponent_of_eq {exponent : ℤ} (hexponent : -1074 ≤ exponent) :
    (shiftToTargetExponent Format.binary64 (2 ^ 53) exponent .exact).1.mantissa = 2 ^ 52 ∧
      (shiftToTargetExponent Format.binary64 (2 ^ 53) exponent .exact).2 = exponent + 1 := by
  have hshift : (Format.binary64.targetExponent (totalExponent (2 ^ 53) exponent) - exponent).toNat = 1 := by
    rw [totalExponent, Nat.log2_two_pow]
    show (max (((53 : ℕ) : ℤ) + 1 + exponent - 53) (3 - 2 ^ 10 - 53) - exponent).toNat = 1
    omega
  rw [shiftToTargetExponent, shiftToExponent, hshift]
  exact ⟨rfl, rfl⟩

theorem ofMantissaAndAccuracy_mantissa (mantissa : ℕ) (accuracy : Accuracy) :
    (ExtendedMantissa.ofMantissaAndAccuracy mantissa accuracy).mantissa = mantissa := by
  cases accuracy with
  | exact => rfl
  | inexact side => cases side <;> rfl

/-- A mantissa of at least 53 bits is shifted to the last place. -/
theorem shiftToTargetExponent_of_le {mantissa : ℕ} {exponent : ℤ} (accuracy : Accuracy) (hbits : 2 ^ 52 ≤ mantissa)
    (hlow : -1074 ≤ mantissa.log2 + exponent - 52) :
    shiftToTargetExponent Format.binary64 mantissa exponent accuracy =
      (ExtendedMantissa.ofMantissaAndAccuracy mantissa accuracy >>> (mantissa.log2 - 52),
        mantissa.log2 + exponent - 52) := by
  have hlog : 52 ≤ mantissa.log2 := (Nat.le_log2 (by omega)).mpr hbits
  have htarget : Format.binary64.targetExponent (totalExponent mantissa exponent) = mantissa.log2 + exponent - 52 := by
    show max ((mantissa.log2 : ℤ) + 1 + exponent - 53) (3 - 2 ^ 10 - 53) = mantissa.log2 + exponent - 52
    omega
  have hshift : ((mantissa.log2 : ℤ) + exponent - 52 - exponent).toNat = mantissa.log2 - 52 := by omega
  rw [shiftToTargetExponent, shiftToExponent, htarget, hshift]
  refine Prod.ext rfl ?_
  show exponent + ((mantissa.log2 - 52 : ℕ) : ℤ) = mantissa.log2 + exponent - 52
  omega

/-- The second shift, after the mantissa was rounded. -/
theorem roundWithAccuracy_of_shift (sign : Sign) {mantissa : ℕ} {exponent place : ℤ} {accuracy : Accuracy}
    {em : ExtendedMantissa}
    (hshift : shiftToTargetExponent Format.binary64 mantissa exponent accuracy = (em, place))
    (hleast : 2 ^ 52 ≤ em.roundedMantissa) (hmost : em.roundedMantissa ≤ 2 ^ 53) (hlow : -1074 ≤ place)
    (hhigh : place < 971) :
    ∃ final finalPlace, ∃ hpos : 0 < final,
      roundWithAccuracy Format.binary64 sign mantissa exponent accuracy = .finite sign final finalPlace hpos ∧
        Normal final finalPlace ∧ (final : ℚ) * 2 ^ finalPlace = em.roundedMantissa * 2 ^ place := by
  rw [roundWithAccuracy, hshift]
  dsimp only
  generalize em.roundedMantissa = rounded at hleast hmost
  rcases lt_or_eq_of_le hmost with hlt | rfl
  · refine ⟨rounded, place, by omega, ?_, ⟨hleast, hlt, hlow, by omega⟩, rfl⟩
    rw [shiftToTargetExponent_of_lt (by omega) hlt hlow]
    have hne : rounded ≠ 0 := by omega
    exact dif_neg hne
  · obtain ⟨hmantissa, hexponent⟩ := shiftToTargetExponent_of_eq hlow
    refine ⟨2 ^ 52, place + 1, by norm_num, ?_, ⟨le_rfl, by norm_num, by omega, by omega⟩, ?_⟩
    · generalize shiftToTargetExponent Format.binary64 (2 ^ 53) place .exact = shifted at hmantissa hexponent
      obtain ⟨⟨final, roundBit, stickyBit⟩, finalPlace⟩ := shifted
      dsimp only at hmantissa hexponent
      subst hmantissa hexponent
      exact dif_neg (by norm_num)
    · rw [zpow_add_one₀ (by norm_num)]
      push_cast
      ring

/-- Rounding gives the nearest number of 53 bits. -/
theorem roundWithAccuracy_eq (sign : Sign) {mantissa : ℕ} {exponent : ℤ} {accuracy : Accuracy} {x : ℚ}
    (hbits : 2 ^ 52 ≤ mantissa) (hx : Encloses (.ofMantissaAndAccuracy mantissa accuracy) x)
    (hlow : -1074 ≤ mantissa.log2 + exponent - 52) (hhigh : mantissa.log2 + exponent - 52 < 971) :
    ∃ rounded place, ∃ hpos : 0 < rounded,
      roundWithAccuracy Format.binary64 sign mantissa exponent accuracy = .finite sign rounded place hpos ∧
        Normal rounded place ∧ (rounded : ℚ) * 2 ^ place = roundMagnitude (x * 2 ^ exponent) := by
  have hlog : 52 ≤ mantissa.log2 := (Nat.le_log2 (by omega)).mpr hbits
  have hbounds := hx.bounds
  rw [ofMantissaAndAccuracy_mantissa] at hbounds
  have hplace : lastPlace (x * 2 ^ exponent) = mantissa.log2 + exponent - 52 := by
    rw [lastPlace, log_mul_zpow (by omega) hbounds.1 hbounds.2]
  have hscaled : x * 2 ^ exponent / 2 ^ lastPlace (x * 2 ^ exponent) = x / 2 ^ (mantissa.log2 - 52) := by
    have hsplit : (2 : ℚ) ^ lastPlace (x * 2 ^ exponent) = 2 ^ (mantissa.log2 - 52) * 2 ^ exponent := by
      rw [hplace, ← zpow_natCast, ← zpow_add₀ (by norm_num)]
      congr 1
      omega
    rw [hsplit, mul_div_mul_right _ _ (zpow_pos (by norm_num) exponent).ne']
  have hrounded := (hx.shiftRight (mantissa.log2 - 52)).roundedMantissa
  rw [← hscaled] at hrounded
  -- The rounded mantissa has 53 bits, or is 2^53.
  have hq : 0 < x * 2 ^ exponent :=
    mul_pos (lt_of_lt_of_le (by exact_mod_cast (by omega : 0 < mantissa)) hbounds.1) (zpow_pos (by norm_num) _)
  have hscale := zpow_lastPlace_pos (x * 2 ^ exponent)
  have hleast : 2 ^ 52 ≤ x * 2 ^ exponent / 2 ^ lastPlace (x * 2 ^ exponent) := by
    rw [le_div_iff₀ hscale, mul_comm]
    exact zpow_lastPlace_le hq
  have hmost : x * 2 ^ exponent / 2 ^ lastPlace (x * 2 ^ exponent) < 2 ^ 53 := by
    rw [div_lt_iff₀ hscale, mul_comm (2 ^ 53)]
    exact lt_zpow_lastPlace _
  have herror := abs_le.mp (abs_roundHalfEven_sub_le (x * 2 ^ exponent / 2 ^ lastPlace (x * 2 ^ exponent)))
  have hshift := shiftToTargetExponent_of_le accuracy hbits hlow
  rw [roundMagnitude]
  generalize ExtendedMantissa.ofMantissaAndAccuracy mantissa accuracy >>> (mantissa.log2 - 52) = em at hrounded hshift
  rw [← hrounded, Int.cast_natCast] at herror
  have hleastRounded : ((2 ^ 52 : ℕ) : ℚ) < (em.roundedMantissa + 1 : ℕ) := by
    push_cast
    linarith [herror.1]
  have hmostRounded : (em.roundedMantissa : ℚ) < (2 ^ 53 + 1 : ℕ) := by
    push_cast
    linarith [herror.2]
  rw [← hrounded, hplace, Int.cast_natCast]
  exact roundWithAccuracy_of_shift sign hshift (Nat.lt_add_one_iff.mp (Nat.cast_lt.mp hleastRounded))
    (Nat.lt_add_one_iff.mp (Nat.cast_lt.mp hmostRounded)) hlow hhigh

/-! ### Numbers -/

/-- A magnitude with its sign. -/
def withSign : Sign → ℚ → ℚ
  | .negative, q => -q
  | .positive, q => q

/-- An unpacked float is a number: a zero with its sign, or a normal number. -/
inductive Holds : UnpackedFloat → Sign → ℚ → Prop
  | zero (sign : Sign) : Holds (.zero sign) sign 0
  | finite (sign : Sign) {mantissa : ℕ} {exponent : ℤ} {hpos : 0 < mantissa} (normal : Normal mantissa exponent) :
      Holds (.finite sign mantissa exponent hpos) sign (withSign sign (mantissa * 2 ^ exponent))

theorem Normal.log2_eq {mantissa : ℕ} {exponent : ℤ} (h : Normal mantissa exponent) : mantissa.log2 = 52 := by
  have hpos : mantissa ≠ 0 := by
    have := h.1
    omega
  exact (Nat.log2_eq_iff hpos).mpr ⟨h.1, h.2.1⟩

theorem extractLsb'_sign (sign : BitVec 1) (exponent : BitVec 11) (mantissa : BitVec 52) :
    (sign ++ exponent ++ mantissa).extractLsb' 63 1 = sign := by
  rw [BitVec.extractLsb'_append_eq_of_le (by omega), BitVec.extractLsb'_append_eq_of_le (by omega)]
  exact BitVec.extractLsb'_eq_self

theorem unpackSign_packComponents (sign : Sign) (exponent : BitVec 11) (mantissa : BitVec 52) :
    unpackSign (packComponents Format.binary64 sign exponent mantissa) = sign.toBitVec :=
  extractLsb'_sign sign.toBitVec exponent mantissa

theorem toNat_implicit (mantissa : BitVec 52) : (1#1 ++ mantissa).toNat = 2 ^ 52 + mantissa.toNat := by
  rw [BitVec.toNat_append, ← Nat.shiftLeft_add_eq_or_of_lt mantissa.isLt]
  rfl

/-- The components of a normal number. -/
theorem unpack_packComponents (sign : Sign) {exponent : BitVec 11} (mantissa : BitVec 52) (hones : exponent ≠ -1#11)
    (hzeros : exponent ≠ 0#11) {m : ℕ} {e : ℤ} {hpos : 0 < m} (hm : 2 ^ 52 + mantissa.toNat = m)
    (he : (exponent.toNat : ℤ) - 1075 = e) :
    UnpackedFloat.unpack Format.binary64 (packComponents Format.binary64 sign exponent mantissa) =
      .finite sign m e hpos := by
  simp only [UnpackedFloat.unpack, unpackMantissa_packComponents, unpackExponent_packComponents,
    unpackSign_packComponents]
  rw [if_neg hones, if_neg hzeros]
  subst hm he
  have hsign : Sign.ofBitVec sign.toBitVec = sign := by cases sign <;> rfl
  rw [hsign]
  congr 1
  exact toNat_implicit mantissa

theorem unpack_pack_zero (sign : Sign) : (Float.Model.pack (.zero sign)).unpack = .zero sign := by
  cases sign <;> rfl

/-- The bits of a normal number. -/
theorem pack_finite (sign : Sign) {mantissa : ℕ} {exponent : ℤ} {hpos : 0 < mantissa} (h : Normal mantissa exponent) :
    UnpackedFloat.pack Format.binary64 (.finite sign mantissa exponent hpos) =
      packComponents Format.binary64 sign (.ofNat 11 (exponent + 1075).toNat) (.ofNat 52 mantissa) := by
  have hlog : mantissa.log2 + 1 = 53 := by rw [h.log2_eq]
  obtain ⟨-, -, hlow, hhigh⟩ := h
  have hbiased : (exponent + (1023 : ℕ) + (52 : ℕ)).toNat = (exponent + 1075).toNat := by omega
  have hfits : ¬ 2 ^ 11 ≤ (exponent + (1023 : ℕ) + (52 : ℕ)).toNat + 1 := by omega
  rw [UnpackedFloat.pack]
  refine (if_neg hfits).trans ((if_pos hlog).trans ?_)
  show packComponents Format.binary64 sign (.ofNat 11 (exponent + (1023 : ℕ) + (52 : ℕ)).toNat) _ = _
  rw [hbiased]

/-- Packing a normal number keeps it. -/
theorem unpack_pack_finite (sign : Sign) {mantissa : ℕ} {exponent : ℤ} {hpos : 0 < mantissa}
    (h : Normal mantissa exponent) :
    (Float.Model.pack (.finite sign mantissa exponent hpos)).unpack = .finite sign mantissa exponent hpos := by
  have hunpack : (Float.Model.pack (.finite sign mantissa exponent hpos)).unpack =
      UnpackedFloat.unpack Format.binary64 (UnpackedFloat.pack Format.binary64 (.finite sign mantissa exponent hpos)) :=
    rfl
  rw [hunpack, pack_finite sign h]
  obtain ⟨hleast, hmost, hlow, hhigh⟩ := h
  have hexponent : (BitVec.ofNat 11 (exponent + 1075).toNat).toNat = (exponent + 1075).toNat := by
    rw [BitVec.toNat_ofNat, Nat.mod_eq_of_lt (by omega)]
  apply unpack_packComponents
  · intro heq
    have htoNat : (exponent + 1075).toNat = 2047 := hexponent.symm.trans (congrArg BitVec.toNat heq)
    omega
  · intro heq
    have htoNat : (exponent + 1075).toNat = 0 := hexponent.symm.trans (congrArg BitVec.toNat heq)
    omega
  · rw [BitVec.toNat_ofNat]
    omega
  · rw [hexponent]
    omega

theorem Holds.unpack_pack {u : UnpackedFloat} {sign : Sign} {v : ℚ} (h : Holds u sign v) :
    (Float.Model.pack u).unpack = u := by
  cases h with
  | zero => exact unpack_pack_zero sign
  | finite _ normal => exact unpack_pack_finite sign normal

theorem withSign_mul (s t : Sign) (q r : ℚ) : withSign (s * t) (q * r) = withSign s q * withSign t r := by
  cases s <;> cases t
  · exact (neg_mul_neg q r).symm
  · exact (neg_mul q r).symm
  · exact (mul_neg q r).symm
  · rfl

theorem withSign_div (s t : Sign) (q r : ℚ) : withSign (s / t) (q / r) = withSign s q / withSign t r := by
  cases s <;> cases t
  · exact (neg_div_neg_eq q r).symm
  · exact (neg_div r q).symm
  · exact (div_neg q).symm
  · rfl

theorem withSign_mul_right (s : Sign) (q r : ℚ) : withSign s (q * r) = withSign s q * r := by
  cases s
  · exact (neg_mul q r).symm
  · rfl

theorem withSign_apply (s : Sign) (n : ℤ) : ((s.apply n : ℤ) : ℚ) = withSign s n := by
  cases s
  · exact Int.cast_neg n
  · rfl

theorem withSign_neg (s : Sign) (q : ℚ) : withSign (-s) q = -withSign s q := by
  cases s
  · exact (neg_neg q).symm
  · rfl

theorem abs_withSign (s : Sign) (q : ℚ) : |withSign s q| = |q| := by
  cases s
  · exact abs_neg q
  · rfl

/-- Rounding goes by the magnitude. -/
theorem nearest_withSign (s : Sign) {q : ℚ} (hq : 0 < q) : nearest (withSign s q) = withSign s (roundMagnitude q) := by
  cases s
  · show nearest (-q) = -roundMagnitude q
    rw [nearest, if_pos (by linarith), neg_neg]
  · exact if_neg (by show ¬ q < 0; linarith)

theorem Normal.roundMagnitude_eq {mantissa : ℕ} {exponent : ℤ} (h : Normal mantissa exponent) :
    roundMagnitude (mantissa * 2 ^ exponent) = mantissa * 2 ^ exponent := by
  have hpos : 0 < mantissa := by
    have := h.1
    omega
  have hplace : lastPlace ((mantissa : ℚ) * 2 ^ exponent) = exponent := by
    rw [lastPlace, log_mul_zpow hpos le_rfl (by linarith), h.log2_eq]
    norm_num
  apply roundMagnitude_of_eq (k := mantissa)
  rw [hplace, Int.cast_natCast]

theorem Normal.pos {mantissa : ℕ} {exponent : ℤ} (h : Normal mantissa exponent) :
    (0 : ℚ) < mantissa * 2 ^ exponent := by
  have hpos : 0 < mantissa := by
    have := h.1
    omega
  exact mul_pos (by exact_mod_cast hpos) (zpow_pos (by norm_num) _)

/-- A number is rounded to itself. -/
theorem Holds.nearest_eq {u : UnpackedFloat} {sign : Sign} {v : ℚ} (h : Holds u sign v) : nearest v = v := by
  cases h with
  | zero => exact nearest_zero
  | finite _ normal => rw [nearest_withSign sign normal.pos, normal.roundMagnitude_eq]

/-- The magnitudes whose rounding is normal. -/
def InNormalRange (q : ℚ) : Prop := (2 : ℚ) ^ (-900 : ℤ) ≤ q ∧ q < (2 : ℚ) ^ (900 : ℤ)

theorem log_bounds {q : ℚ} (h : InNormalRange q) : -900 ≤ Int.log 2 q ∧ Int.log 2 q < 900 := by
  have hpos : 0 < q := lt_of_lt_of_le (zpow_pos (by norm_num) _) h.1
  constructor
  · apply (Int.zpow_le_iff_le_log (by norm_num) hpos).mp
    exact_mod_cast h.1
  · apply (Int.lt_zpow_iff_log_lt (by norm_num) hpos).mp
    exact_mod_cast h.2

/-- The rounding of an exact value in the normal range. -/
theorem holds_roundWithAccuracy (sign : Sign) {mantissa : ℕ} {exponent : ℤ} {accuracy : Accuracy} {x : ℚ}
    (hbits : 2 ^ 52 ≤ mantissa) (hx : Encloses (.ofMantissaAndAccuracy mantissa accuracy) x)
    (hrange : InNormalRange (x * 2 ^ exponent)) :
    Holds (roundWithAccuracy Format.binary64 sign mantissa exponent accuracy) sign
      (nearest (withSign sign (x * 2 ^ exponent))) := by
  have hbounds := hx.bounds
  rw [ofMantissaAndAccuracy_mantissa] at hbounds
  have hlog := log_bounds hrange
  rw [log_mul_zpow (by omega) hbounds.1 hbounds.2] at hlog
  have hpos : 0 < x * 2 ^ exponent := lt_of_lt_of_le (zpow_pos (by norm_num) _) hrange.1
  obtain ⟨rounded, place, hrounded, heq, hnormal, hvalue⟩ :=
    @roundWithAccuracy_eq sign mantissa exponent accuracy x hbits hx (by omega) (by omega)
  rw [heq, nearest_withSign sign hpos, ← hvalue]
  exact .finite sign hnormal

/-! ### Operations -/

section

variable {a b : UnpackedFloat} {s t : Sign} {v w : ℚ}

theorem inNormalRange_of_withSign {sign : Sign} {q : ℚ} (hq : 0 < q)
    (hrange : withSign sign q ≠ 0 → InNormalRange |withSign sign q|) : InNormalRange q := by
  have hne : withSign sign q ≠ 0 := by
    rw [← abs_pos, abs_withSign, abs_of_pos hq]
    exact hq
  have habs := hrange hne
  rw [abs_withSign, abs_of_pos hq] at habs
  exact habs

theorem Holds.mul (ha : Holds a s v) (hb : Holds b t w) (hrange : v * w ≠ 0 → InNormalRange |v * w|) :
    Holds (UnpackedFloat.mul Format.binary64 a b) (s * t) (nearest (v * w)) := by
  cases ha with
  | zero =>
      rw [zero_mul, nearest_zero]
      cases hb with
      | zero => exact .zero (s * t)
      | finite => exact .zero (s * t)
  | @finite _ m e hm normal =>
      cases hb with
      | zero =>
          rw [mul_zero, nearest_zero]
          exact .zero (s * t)
      | @finite _ n f hn other =>
          have hproduct : (m : ℚ) * 2 ^ e * (n * 2 ^ f) = (m * n : ℕ) * 2 ^ (e + f) := by
            rw [zpow_add₀ (by norm_num)]
            push_cast
            ring
          have hpos := mul_pos normal.pos other.pos
          rw [← withSign_mul] at hrange ⊢
          rw [hproduct] at hrange hpos ⊢
          apply holds_roundWithAccuracy (s * t) _ (encloses_exact (m * n)) (inNormalRange_of_withSign hpos hrange)
          exact normal.1.trans (Nat.le_mul_of_pos_right m hn)

theorem divCore_eq {m n : ℕ} {e f : ℤ} (hm : Normal m e) (hn : Normal n f) (hlow : -1021 ≤ e - f) :
    divCore Format.binary64 m e n f =
      (m * 2 ^ 53 / n, e - f - 53, accuracyOfFraction (m * 2 ^ 53 % n) n) := by
  have htotal : totalExponent m e - totalExponent n f = e - f := by
    rw [totalExponent, totalExponent, hm.log2_eq, hn.log2_eq]
    omega
  have htarget : min (e - f) (Format.binary64.targetExponent (e - f)) = e - f - 53 := by
    show min (e - f) (max (e - f - 53) (3 - 2 ^ 10 - 53)) = e - f - 53
    omega
  have hshift : (e - f - (e - f - 53)).toNat = 53 := by omega
  rw [divCore, htotal, htarget, hshift, Nat.shiftLeft_eq]

theorem Holds.div (ha : Holds a s v) (hb : Holds b t w) (hw : w ≠ 0) (hrange : v / w ≠ 0 → InNormalRange |v / w|) :
    Holds (UnpackedFloat.div Format.binary64 a b) (s / t) (nearest (v / w)) := by
  cases hb with
  | zero => exact absurd rfl hw
  | @finite _ n f hn other =>
      cases ha with
      | zero =>
          rw [zero_div, nearest_zero]
          exact .zero (s / t)
      | @finite _ m e hm normal =>
          have hpos := div_pos normal.pos other.pos
          rw [← withSign_div] at hrange ⊢
          have hrange := inNormalRange_of_withSign hpos hrange
          have hnpos : (0 : ℚ) < n := by exact_mod_cast hn
          have hquotient : (m : ℚ) * 2 ^ e / (n * 2 ^ f) = (m * 2 ^ 53 : ℕ) / n * 2 ^ (e - f - 53) := by
            rw [zpow_sub₀ (by norm_num), zpow_sub₀ (by norm_num)]
            push_cast
            field_simp
          have hlow : -1021 ≤ e - f := by
            have hless : (m : ℚ) / n < 2 := by
              rw [div_lt_iff₀ hnpos]
              have : m < 2 * n := by
                have := normal.2.1
                have := other.1
                omega
              exact_mod_cast this
            have hbelow : (2 : ℚ) ^ (-900 : ℤ) < 2 ^ (e - f + 1) := by
              calc (2 : ℚ) ^ (-900 : ℤ) ≤ m * 2 ^ e / (n * 2 ^ f) := hrange.1
                _ = m / n * 2 ^ (e - f) := by rw [mul_div_mul_comm, zpow_sub₀ (by norm_num)]
                _ < 2 * 2 ^ (e - f) := mul_lt_mul_of_pos_right hless (zpow_pos (by norm_num) _)
                _ = 2 ^ (e - f + 1) := by rw [zpow_add_one₀ (by norm_num), mul_comm]
            have := (zpow_lt_zpow_iff_right₀ (by norm_num)).mp hbelow
            omega
          have hexact : Encloses (.ofMantissaAndAccuracy (m * 2 ^ 53 / n) (accuracyOfFraction (m * 2 ^ 53 % n) n))
              ((m * 2 ^ 53 : ℕ) / n) := by
            rw [← natCast_div_add_mod _ hn]
            exact encloses_fraction _ (Nat.mod_lt _ hn)
          have hbits : 2 ^ 52 ≤ m * 2 ^ 53 / n := by
            rw [Nat.le_div_iff_mul_le hn]
            have := normal.1
            have := other.2.1
            omega
          rw [hquotient] at hrange ⊢
          show Holds (roundWithAccuracy Format.binary64 (s / t) (divCore Format.binary64 m e n f).1
            (divCore Format.binary64 m e n f).2.1 (divCore Format.binary64 m e n f).2.2) _ _
          rw [divCore_eq normal other hlow]
          exact holds_roundWithAccuracy (s / t) hbits hexact hrange

/-- The rounding of a mantissa, with bits added where it has too few. -/
theorem holds_round (sign : Sign) {m : ℕ} {e : ℤ} (hm : 0 < m) (hrange : InNormalRange (m * 2 ^ e)) :
    Holds (UnpackedFloat.round Format.binary64 sign m e) sign (nearest (withSign sign (m * 2 ^ e))) := by
  have hlog := log_bounds hrange
  rw [log_mul_zpow hm le_rfl (by linarith)] at hlog
  have htarget : Format.binary64.targetExponent (totalExponent m e) = m.log2 + e - 52 := by
    show max ((m.log2 : ℤ) + 1 + e - 53) (3 - 2 ^ 10 - 53) = m.log2 + e - 52
    omega
  have hshift : (e - ((m.log2 : ℤ) + e - 52)).toNat = 52 - m.log2 := by omega
  have hvalue : (m : ℚ) * 2 ^ e = (m * 2 ^ (52 - m.log2) : ℕ) * 2 ^ (e - (52 - m.log2 : ℕ)) := by
    rw [zpow_sub₀ (by norm_num), zpow_natCast]
    push_cast
    field_simp
  have hbits : 2 ^ 52 ≤ m * 2 ^ (52 - m.log2) := by
    calc 2 ^ 52 ≤ 2 ^ (m.log2 + (52 - m.log2)) := Nat.pow_le_pow_right (by norm_num) (by omega)
      _ = 2 ^ m.log2 * 2 ^ (52 - m.log2) := pow_add ..
      _ ≤ m * 2 ^ (52 - m.log2) := Nat.mul_le_mul_right _ (Nat.log2_self_le hm.ne')
  rw [hvalue] at hrange ⊢
  rw [UnpackedFloat.round, htarget, decreaseExponent, hshift, Nat.shiftLeft_eq]
  exact holds_roundWithAccuracy sign hbits (encloses_exact _) hrange

theorem exists_holds_normalize {n e : ℤ} (hrange : (n : ℚ) * 2 ^ e ≠ 0 → InNormalRange |(n : ℚ) * 2 ^ e|) :
    ∃ sign, Holds (UnpackedFloat.normalize Format.binary64 n e .positive) sign (nearest (n * 2 ^ e)) := by
  have hscale : (0 : ℚ) < 2 ^ e := zpow_pos (by norm_num) _
  rw [UnpackedFloat.normalize]
  cases hcompare : compare n 0 with
  | eq =>
      rw [compare_eq_iff_eq.mp hcompare, Int.cast_zero, zero_mul, nearest_zero]
      exact ⟨.positive, .zero .positive⟩
  | lt =>
      have hneg := compare_lt_iff_lt.mp hcompare
      obtain ⟨m, hm⟩ := Int.eq_ofNat_of_zero_le (neg_nonneg.mpr hneg.le)
      have hcast : (n : ℚ) * 2 ^ e = withSign .negative (m * 2 ^ e) := by
        have : n = -(m : ℤ) := by omega
        rw [this, withSign]
        push_cast
        ring
      have hmpos : (0 : ℚ) < m * 2 ^ e := mul_pos (by exact_mod_cast (by omega : 0 < m)) hscale
      rw [hcast] at hrange ⊢
      rw [hm]
      exact ⟨.negative, holds_round .negative (by omega) (inNormalRange_of_withSign hmpos hrange)⟩
  | gt =>
      have hpos := compare_gt_iff_gt.mp hcompare
      obtain ⟨m, rfl⟩ := Int.eq_ofNat_of_zero_le hpos.le
      have hmpos : (0 : ℚ) < m * 2 ^ e := mul_pos (by exact_mod_cast hpos) hscale
      rw [Int.cast_natCast] at hrange ⊢
      exact ⟨.positive, holds_round .positive (by omega) (@inNormalRange_of_withSign .positive _ hmpos hrange)⟩

/-- A mantissa with its exponent decreased. -/
theorem decreaseExponent_min (m : ℕ) {e f : ℤ} (h : f ≤ e) :
    decreaseExponent m e f = (m * 2 ^ (e - f).toNat, f) := by
  rw [decreaseExponent, Nat.shiftLeft_eq]
  refine Prod.ext rfl ?_
  show e - ((e - f).toNat : ℤ) = f
  omega

theorem natCast_mul_zpow (m : ℕ) {e f : ℤ} (h : f ≤ e) :
    ((m * 2 ^ (e - f).toNat : ℕ) : ℚ) * 2 ^ f = m * 2 ^ e := by
  obtain ⟨k, hk⟩ := Int.eq_ofNat_of_zero_le (sub_nonneg.mpr h)
  have he : e = k + f := by omega
  rw [he, zpow_add₀ (by norm_num), zpow_natCast, show ((k : ℤ) + f - f).toNat = k by omega]
  push_cast
  ring

theorem Holds.add (ha : Holds a s v) (hb : Holds b t w) (hrange : v + w ≠ 0 → InNormalRange |v + w|) :
    ∃ sign, Holds (UnpackedFloat.add Format.binary64 a b) sign (nearest (v + w)) := by
  cases ha with
  | zero =>
      rw [zero_add]
      cases hb with
      | zero =>
          rw [nearest_zero]
          cases s <;> cases t <;> exact ⟨_, .zero _⟩
      | @finite _ n f hn other =>
          have hb := @Holds.finite t n f hn other
          rw [hb.nearest_eq]
          exact ⟨t, hb⟩
  | @finite _ m e hm normal =>
      cases hb with
      | zero =>
          have ha := @Holds.finite s m e hm normal
          rw [add_zero, ha.nearest_eq]
          exact ⟨s, ha⟩
      | @finite _ n f hn other =>
          have hsum : withSign s (m * 2 ^ e) + withSign t (n * 2 ^ f) =
              (s.apply (m * 2 ^ (e - min e f).toNat : ℕ) + t.apply (n * 2 ^ (f - min e f).toNat : ℕ) : ℤ) *
                2 ^ min e f := by
            rw [Int.cast_add, withSign_apply, withSign_apply, Int.cast_natCast, Int.cast_natCast, add_mul, ← withSign_mul_right,
              ← withSign_mul_right, natCast_mul_zpow m (min_le_left e f), natCast_mul_zpow n (min_le_right e f)]
          rw [hsum] at hrange ⊢
          show ∃ sign, Holds (UnpackedFloat.normalize Format.binary64 (s.apply (decreaseExponent m e (min e f)).1 +
            t.apply (decreaseExponent n f (min e f)).1) (min e f) .positive) sign _
          rw [decreaseExponent_min m (min_le_left e f), decreaseExponent_min n (min_le_right e f)]
          exact exists_holds_normalize hrange

theorem Holds.neg (ha : Holds a s v) : Holds a.neg (-s) (-v) := by
  cases ha with
  | zero =>
      rw [neg_zero]
      exact .zero (-s)
  | finite _ normal =>
      rw [← withSign_neg]
      exact .finite (-s) normal

theorem Holds.abs (ha : Holds a s v) : Holds a.abs .positive |v| := by
  cases ha with
  | zero =>
      rw [abs_zero]
      exact .zero .positive
  | finite _ normal =>
      rw [abs_withSign, abs_of_pos normal.pos]
      exact .finite .positive normal

/-- Subtraction adds the negative. -/
theorem sub_eq_add (ha : Holds a s v) (hb : Holds b t w) :
    UnpackedFloat.sub Format.binary64 a b = UnpackedFloat.add Format.binary64 a b.neg := by
  cases ha with
  | zero =>
      cases hb with
      | zero => cases s <;> cases t <;> rfl
      | finite => rfl
  | finite =>
      cases hb with
      | zero => rfl
      | @finite _ n f hn other =>
          have hneg (k : ℤ) : (-t).apply k = -t.apply k := by
            cases t
            · exact (neg_neg k).symm
            · rfl
          simp only [UnpackedFloat.sub, UnpackedFloat.add, UnpackedFloat.neg, hneg, Int.sub_eq_add_neg]

theorem Holds.sub (ha : Holds a s v) (hb : Holds b t w) (hrange : v - w ≠ 0 → InNormalRange |v - w|) :
    ∃ sign, Holds (UnpackedFloat.sub Format.binary64 a b) sign (nearest (v - w)) := by
  rw [sub_eq_add ha hb]
  rw [sub_eq_add_neg] at hrange ⊢
  exact ha.add hb.neg hrange

/-- The integral part of a magnitude. -/
theorem roundToInt_eq (sign : Sign) (m : ℕ) (e : ℤ) : roundToInt sign m e = sign.apply ⌊(m : ℚ) * 2 ^ e⌋ := by
  rcases le_or_gt 0 e with he | he
  · have hfloor : ⌊(m : ℚ) * 2 ^ e⌋ = (m * 2 ^ (e - 0).toNat : ℕ) := by
      rw [← natCast_mul_zpow m he, zpow_zero, mul_one, Int.floor_natCast]
    rw [roundToInt, decreaseExponent_min m he, hfloor]
    rfl
  · obtain ⟨k, hk⟩ := Int.eq_ofNat_of_zero_le (neg_nonneg.mpr he.le)
    have hshift : (e - 0).toNat = 0 := by omega
    have hback : (0 - (e - (0 : ℕ))).toNat = k := by omega
    have hvalue : (m : ℚ) * 2 ^ e = m / 2 ^ k := by
      rw [show e = -(k : ℤ) by omega, zpow_neg, zpow_natCast, div_eq_mul_inv]
    have hfloor := ((encloses_exact m).shiftRight k).floor_eq
    rw [roundToInt, decreaseExponent, hshift, Nat.shiftLeft_zero, hvalue, hfloor]
    show sign.apply (ExtendedMantissa.ofMantissaAndAccuracy m .exact >>> (0 - (e - (0 : ℕ))).toNat).mantissa = _
    rw [hback]

/-- The conversion of a number to an integer is truncation. -/
theorem Holds.toInt (ha : Holds a s v) (least greatest : ℤ) : a.toInt least greatest = truncate v := by
  cases ha with
  | zero => rfl
  | @finite _ m e hm normal =>
      show roundToInt s m e = _
      have hpos := normal.pos
      rw [roundToInt_eq, truncate]
      cases s
      · show -⌊(m : ℚ) * 2 ^ e⌋ = if -((m : ℚ) * 2 ^ e) < 0 then -⌊- -((m : ℚ) * 2 ^ e)⌋ else _
        rw [if_pos (by linarith), neg_neg]
      · exact (if_neg (not_lt.mpr hpos.le)).symm

/-- The order of a number and zero. -/
theorem Holds.nonneg {u : UnpackedFloat} (h : Holds u .positive v) : 0 ≤ v := by
  cases h with
  | zero => exact le_rfl
  | finite _ normal => exact normal.pos.le

theorem Holds.nonpos {u : UnpackedFloat} (h : Holds u .negative v) : v ≤ 0 := by
  cases h with
  | zero => exact le_rfl
  | finite _ normal => exact neg_nonpos.mpr normal.pos.le

theorem Holds.lt_zero_iff (ha : Holds a s v) (sign : Sign) : a.lt (.zero sign) = true ↔ v < 0 := by
  cases ha with
  | zero => exact iff_of_false nofun (lt_irrefl 0)
  | finite _ normal =>
      have hpos := normal.pos
      cases s
      · exact iff_of_true rfl (neg_lt_zero.mpr hpos)
      · exact iff_of_false nofun (not_lt.mpr hpos.le)

/-- The sign of a number is its sign bit. -/
theorem Holds.sign_eq {bits : BitVec 64} (h : Holds (UnpackedFloat.unpack Format.binary64 bits) s v) :
    s = Sign.ofBitVec (@unpackSign Format.binary64 bits) := by
  unfold UnpackedFloat.unpack at h
  dsimp only at h
  split at h
  · split at h
    · cases h
    · cases h
  · split at h
    · split at h
      · cases h
        rfl
      · cases h
        rfl
    · cases h
      rfl

theorem ofBitVec_eq_negative_iff (bits : BitVec 64) :
    Sign.ofBitVec (@unpackSign Format.binary64 bits) = .negative ↔ 2 ^ 63 ≤ bits.toNat := by
  have htoNat : (@unpackSign Format.binary64 bits).toNat = bits.toNat / 2 ^ 63 % 2 := by
    show (bits.extractLsb 63 63).toNat = _
    rw [BitVec.extractLsb_toNat, Nat.shiftRight_eq_div_pow]
  have hlt := bits.isLt
  rw [Sign.ofBitVec]
  split
  · rename_i hzero
    rw [hzero] at htoNat
    apply iff_of_false nofun
    have : 0 = bits.toNat / 2 ^ 63 % 2 := htoNat
    omega
  · rename_i hone
    apply iff_of_true rfl
    by_contra hless
    apply hone
    apply BitVec.eq_of_toNat_eq
    rw [htoNat]
    show bits.toNat / 2 ^ 63 % 2 = 0
    omega

end

/-! ### Doubles -/

/-- A double is a number. -/
def IsNumber (x : Float) (sign : Sign) (v : ℚ) : Prop := Holds x.toModel.unpack sign v

section

variable {x y : Float} {s t : Sign} {v w : ℚ}

theorem isNumber_pack {u : UnpackedFloat} (h : Holds u s v) : IsNumber (.ofModel (.pack u)) s v := by
  show Holds (Float.Model.pack u).unpack s v
  rw [h.unpack_pack]
  exact h

theorem IsNumber.add (hx : IsNumber x s v) (hy : IsNumber y t w) (hrange : v + w ≠ 0 → InNormalRange |v + w|) :
    ∃ sign, IsNumber (x + y) sign (nearest (v + w)) := by
  obtain ⟨sign, h⟩ := Holds.add hx hy hrange
  exact ⟨sign, isNumber_pack h⟩

theorem IsNumber.sub (hx : IsNumber x s v) (hy : IsNumber y t w) (hrange : v - w ≠ 0 → InNormalRange |v - w|) :
    ∃ sign, IsNumber (x - y) sign (nearest (v - w)) := by
  obtain ⟨sign, h⟩ := Holds.sub hx hy hrange
  exact ⟨sign, isNumber_pack h⟩

theorem IsNumber.mul (hx : IsNumber x s v) (hy : IsNumber y t w) (hrange : v * w ≠ 0 → InNormalRange |v * w|) :
    IsNumber (x * y) (s * t) (nearest (v * w)) :=
  isNumber_pack (Holds.mul hx hy hrange)

theorem IsNumber.div (hx : IsNumber x s v) (hy : IsNumber y t w) (hw : w ≠ 0)
    (hrange : v / w ≠ 0 → InNormalRange |v / w|) : IsNumber (x / y) (s / t) (nearest (v / w)) :=
  isNumber_pack (Holds.div hx hy hw hrange)

theorem IsNumber.neg (hx : IsNumber x s v) : IsNumber x.neg (-s) (-v) := isNumber_pack (Holds.neg hx)

theorem IsNumber.abs (hx : IsNumber x s v) : IsNumber x.abs .positive |v| := isNumber_pack (Holds.abs hx)

/-- The sign bit. -/
theorem IsNumber.sign_bit (hx : IsNumber x s v) : 2 ^ 63 ≤ x.toBits.toNat ↔ s = .negative := by
  rw [Holds.sign_eq hx, ofBitVec_eq_negative_iff]
  exact Iff.rfl

theorem IsNumber.nonneg (hx : IsNumber x .positive v) : 0 ≤ v := Holds.nonneg hx

theorem IsNumber.nonpos (hx : IsNumber x .negative v) : v ≤ 0 := Holds.nonpos hx

theorem toNat_ofNatClamp (n : ℕ) : (UInt64.ofNatClamp n).toNat = min n (2 ^ 64 - 1) := by
  rw [UInt64.ofNatClamp]
  split
  · rename_i hlt
    have hlt : n < 2 ^ 64 := hlt
    show n = min n (2 ^ 64 - 1)
    omega
  · rename_i hge
    have hge : ¬ n < 2 ^ 64 := hge
    show 2 ^ 64 - 1 = min n (2 ^ 64 - 1)
    omega

theorem IsNumber.toUInt64 (hx : IsNumber x s v) : x.toUInt64.toNat = min (truncate v).toNat (2 ^ 64 - 1) := by
  have htoInt : x.toUInt64 = UInt64.ofNatClamp (truncate v).toNat := by
    show UInt64.ofNatClamp (x.toModel.unpack.toInt 0 (UInt64.size - 1)).toNat = _
    rw [Holds.toInt hx]
  rw [htoInt, toNat_ofNatClamp]

theorem isNumber_one : IsNumber (Float.ofBits 0x3FF0000000000000) .positive 1 := by
  have hnormal : Normal (2 ^ 52) (-52) := ⟨le_rfl, by norm_num, by norm_num, by norm_num⟩
  have hunpack : (Float.ofBits 0x3FF0000000000000).toModel.unpack =
      .finite .positive (2 ^ 52) (-52) (by norm_num) := by rfl
  have hvalue : withSign .positive (((2 ^ 52 : ℕ) : ℚ) * 2 ^ (-52 : ℤ)) = 1 := by
    show ((2 ^ 52 : ℕ) : ℚ) * 2 ^ (-52 : ℤ) = 1
    norm_num
  rw [IsNumber, hunpack, ← hvalue]
  exact .finite .positive hnormal

/-- Numbers between the inverse of 2^200 and 2^200 are in the range. -/
theorem inNormalRange_of_le {q : ℚ} (hlow : 1 / 2 ^ 200 ≤ q) (hhigh : q ≤ 2 ^ 200) : InNormalRange q := by
  constructor
  · calc (2 : ℚ) ^ (-900 : ℤ) ≤ 2 ^ (-200 : ℤ) := zpow_le_zpow_right₀ (by norm_num) (by norm_num)
      _ = 1 / 2 ^ 200 := by norm_num
      _ ≤ q := hlow
  · calc q ≤ 2 ^ 200 := hhigh
      _ = 2 ^ (200 : ℤ) := by norm_num
      _ < 2 ^ (900 : ℤ) := zpow_lt_zpow_right₀ (by norm_num) (by norm_num)

theorem inNormalRange_natCast {n : ℕ} (hpos : 0 < n) (hn : n < 2 ^ 64) : InNormalRange n := by
  have hone : (1 : ℚ) ≤ n := by exact_mod_cast hpos
  have hlt : (n : ℚ) < 2 ^ 64 := by exact_mod_cast hn
  apply inNormalRange_of_le
  · linarith
  · linarith

theorem isNumber_ofNat_small {n : ℕ} (hn : n < 2 ^ 53) :
    ∃ sign, IsNumber (n.toUInt64.toFloat * Float.ofBits 0x3FF0000000000000) sign n := by
  have hrange : (n : ℚ) ≠ 0 → InNormalRange |(n : ℚ)| := by
    intro hne
    have hpos : 0 < n := Nat.pos_of_ne_zero fun h => hne (by rw [h, Nat.cast_zero])
    rw [abs_of_nonneg (Nat.cast_nonneg n)]
    exact inNormalRange_natCast hpos (by omega)
  have hself : n.toUInt64.toNat = n := UInt64.toNat_ofNat_of_lt' (by show n < 2 ^ 64; omega)
  have hnormalize := @exists_holds_normalize n 0
  rw [Int.cast_natCast, zpow_zero, mul_one, nearest_natCast hn] at hnormalize
  obtain ⟨sign, hconverted⟩ := hnormalize hrange
  have hfloat : IsNumber n.toUInt64.toFloat sign n := by
    show IsNumber (.ofModel (.pack (normalize Format.binary64 (n.toUInt64.toNat : ℤ) 0 .positive))) sign n
    rw [hself]
    exact isNumber_pack hconverted
  have hproduct := hfloat.mul isNumber_one
  rw [mul_one, nearest_natCast hn] at hproduct
  exact ⟨_, hproduct hrange⟩

theorem mul_finite (s t : Sign) {m n : ℕ} (e f : ℤ) (hm : 0 < m) (hn : 0 < n) :
    UnpackedFloat.mul Format.binary64 (.finite s m e hm) (.finite t n f hn) =
      roundWithAccuracy Format.binary64 (s * t) (m * n) (e + f) .exact := rfl

/-- A larger integer, as a mantissa that is rounded. -/
theorem isNumber_ofScientific {n : ℕ} (hpos : 0 < n) (hn : n < 2 ^ 64) :
    IsNumber (.ofModel (Float.Model.ofScientific n 0)) .positive (nearest n) := by
  have hlog : n.log2 < 64 := (Nat.log2_lt hpos.ne').mpr hn
  have hproduct : UnpackedFloat.ofScientific Format.binary64 n 0 =
      roundWithAccuracy Format.binary64 .positive (n * 2 ^ 53) (-53) .exact := by
    have hhigh : ¬ (0 : ℤ) > 2 ^ Format.binary64.exponentBits := by norm_num
    have hlow : ¬ (0 : ℤ) < -((2 ^ Format.binary64.exponentBits : ℤ) + n.log2) := by
      norm_num
    have hbits : Format.binary64.mantissaBits = 53 := rfl
    rw [UnpackedFloat.ofScientific, dif_neg hpos.ne', if_neg hhigh, if_neg hlow, if_pos le_rfl, mul_finite]
    rw [hbits, Nat.shiftLeft_eq, Int.toNat_zero, pow_zero, mul_one, add_zero]
    rfl
  have hvalue : ((n * 2 ^ 53 : ℕ) : ℚ) * 2 ^ (-53 : ℤ) = n := by
    push_cast
    rw [mul_assoc]
    norm_num
  have hbits : 2 ^ 52 ≤ n * 2 ^ 53 := by omega
  have hrounded := @holds_roundWithAccuracy .positive (n * 2 ^ 53) (-53) .exact _ hbits (encloses_exact _)
  rw [hvalue] at hrounded
  apply isNumber_pack
  rw [hproduct]
  exact hrounded (inNormalRange_natCast hpos hn)

/-- An integer as a double. -/
theorem isNumber_ofNat {n : ℕ} (hn : n < 2 ^ 64) : ∃ sign, IsNumber (Float.ofNat n) sign (nearest n) := by
  show ∃ sign, IsNumber (Float.ofScientific n false 0) sign (nearest n)
  rw [Float.ofScientific]
  by_cases hsmall : n < 2 ^ 53 ∧ 0 ≤ 22
  · rw [dif_pos hsmall, nearest_natCast hsmall.1]
    exact isNumber_ofNat_small hsmall.1
  · rw [dif_neg hsmall]
    exact ⟨.positive, isNumber_ofScientific (by omega) hn⟩

theorem isNumber_ofInt {n : ℤ} (hn : |n| < 2 ^ 64) : ∃ sign, IsNumber (Float.ofInt n) sign (nearest n) := by
  cases n with
  | ofNat n =>
      have hn := abs_lt.mp (show |(n : ℤ)| < 2 ^ 64 from hn)
      rw [Int.ofNat_eq_natCast, Int.cast_natCast]
      exact isNumber_ofNat (by omega)
  | negSucc n =>
      obtain ⟨sign, h⟩ := @isNumber_ofNat (n + 1) (by have := abs_lt.mp hn; omega)
      have hpos : (0 : ℚ) < (n + 1 : ℕ) := by exact_mod_cast Nat.succ_pos n
      have hneg : nearest ((Int.negSucc n : ℤ) : ℚ) = -nearest (n + 1 : ℕ) := by
        rw [Int.cast_negSucc, nearest, if_pos (neg_lt_zero.mpr hpos), neg_neg, nearest, if_neg (not_lt.mpr hpos.le)]
      rw [hneg]
      exact ⟨-sign, h.neg⟩

theorem IsNumber.lt_zero_iff (hx : IsNumber x s v) : x < 0 ↔ v < 0 := by
  have hzero : (0 : Float).toModel.unpack = .zero .positive := by rfl
  rw [← Holds.lt_zero_iff hx .positive, ← hzero]
  exact decide_eq_true_iff

end

end HelionDb
