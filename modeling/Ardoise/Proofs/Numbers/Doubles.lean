import Ardoise.Number
import Mathlib

/-!
# Doubles as numbers

A double that is finite stands for a rational number.  Comparing doubles compares
the numbers they stand for, and a sum that is itself the number of some double comes
out as that one.  So whole numbers of at most 53 bits are compared and added without
error.  All this is read off the bits of doubles and the way sums are rounded.
-/

namespace Ardoise.Number

open Float.Model UnpackedFloat

/-! ## Sign, mantissa and exponent -/

def Form.ofUnpacked : UnpackedFloat → Form
  | .notANumber => .nan
  | .infinity s => .infinite (s == .negative)
  | .zero s => .finite (s == .negative) 0 (-1074)
  | .finite s m e _ => .finite (s == .negative) m e

theorem toNat_unpackMantissa (b : BitVec 64) :
    (@unpackMantissa Format.binary64 b).toNat = b.toNat % twoTo 52 := by
  rw [unpackMantissa_def, BitVec.extractLsb'_toNat, Nat.shiftRight_zero]
  rfl

theorem toNat_unpackExponent (b : BitVec 64) :
    (@unpackExponent Format.binary64 b).toNat = b.toNat / twoTo 52 % twoTo 11 := by
  rw [unpackExponent_def, BitVec.extractLsb'_toNat, Nat.shiftRight_eq_div_pow]
  rfl

private theorem isNegative_unpackSign (b : BitVec 64) :
    (Sign.ofBitVec (@unpackSign Format.binary64 b) == Sign.negative) =
      decide (b.toNat / twoTo 63 = 1) := by
  have small := b.isLt
  have sign : (@unpackSign Format.binary64 b).toNat = b.toNat / twoTo 63 := by
    rw [unpackSign_def, BitVec.extractLsb'_toNat, Nat.shiftRight_eq_div_pow]
    simp only [twoTo]
    norm_num at *
    omega
  rw [← sign]
  generalize @unpackSign Format.binary64 b = s
  revert s
  decide

theorem unpackExponent_eq_iff (b : BitVec 64) (e : BitVec 11) :
    @unpackExponent Format.binary64 b = e ↔ b.toNat / twoTo 52 % twoTo 11 = e.toNat := by
  rw [← toNat_unpackExponent, BitVec.toNat_inj]

private theorem unpackMantissa_eq_zero_iff (b : BitVec 64) :
    @unpackMantissa Format.binary64 b = 0#52 ↔ b.toNat % twoTo 52 = 0 := by
  rw [← toNat_unpackMantissa, ← BitVec.toNat_inj]
  rfl

theorem toNat_one_append (m : BitVec 52) : (1#1 ++ m).toNat = m.toNat + twoTo 52 := by
  have small := m.isLt
  rw [BitVec.toNat_append, ← Nat.shiftLeft_add_eq_or_of_lt small]
  simp only [twoTo, BitVec.toNat_ofNat, Nat.shiftLeft_eq]
  norm_num
  omega

theorem form_eq_ofUnpacked (x : Float) : form x = .ofUnpacked x.toModel.unpack := by
  unfold form Float.toBits Float.Model.unpack UnpackedFloat.unpack
  simp only [← UInt64.toNat_toBitVec]
  generalize x.toModel.toBits.toBitVec = b
  have sign := isNegative_unpackSign b
  have full := unpackExponent_eq_iff b (-1#11)
  have none := unpackExponent_eq_iff b 0#11
  have whole := unpackMantissa_eq_zero_iff b
  have exponent := toNat_unpackExponent b
  have fraction := toNat_unpackMantissa b
  have full' : (-1#11).toNat = 2047 := rfl
  have none' : (0#11).toNat = 0 := rfl
  rw [full'] at full
  rw [none'] at none
  by_cases h : b.toNat / twoTo 52 % twoTo 11 = 2047
  · rw [if_pos h, if_pos (full.mpr h)]
    by_cases h' : b.toNat % twoTo 52 = 0
    · rw [if_pos h', if_pos (whole.mpr h'), Form.ofUnpacked, sign]
    · rw [if_neg h', if_neg (mt whole.mp h'), Form.ofUnpacked]
  · rw [if_neg h, if_neg (mt full.mp h)]
    by_cases h0 : b.toNat / twoTo 52 % twoTo 11 = 0
    · rw [if_pos h0, if_pos (none.mpr h0)]
      by_cases h' : b.toNat % twoTo 52 = 0
      · rw [dif_pos (whole.mpr h'), Form.ofUnpacked, sign, h']
      · rw [dif_neg (mt whole.mp h'), Form.ofUnpacked, sign, fraction, exponent, h0]
        rfl
    · rw [if_neg h0, if_neg (mt none.mp h0), Form.ofUnpacked, sign, toNat_one_append, fraction,
        exponent]
      rfl

/-! ## Rounding -/

theorem totalExponent_congr {m n : Nat} {d e : Int} (posm : 0 < m) (posn : 0 < n)
    (same : (m : ℚ) * 2 ^ d = n * 2 ^ e) : totalExponent m d = totalExponent n e := by
  have bounds : ∀ {k : Nat} (f : Int), 0 < k →
      (2 : ℚ) ^ ((k.log2 : Int) + f) ≤ k * 2 ^ f ∧
        (k : ℚ) * 2 ^ f < 2 ^ ((k.log2 : Int) + f + 1) := by
    intro k f pos
    have low : ((2 ^ k.log2 : Nat) : ℚ) ≤ k := by exact_mod_cast Nat.log2_self_le pos.ne'
    have high : (k : ℚ) < ((2 ^ (k.log2 + 1) : Nat) : ℚ) := by exact_mod_cast Nat.lt_log2_self
    have positive : (0 : ℚ) < 2 ^ f := by positivity
    constructor
    · rw [zpow_add₀ two_ne_zero]
      exact mul_le_mul_of_nonneg_right (by simpa using low) positive.le
    · rw [add_right_comm, zpow_add₀ two_ne_zero]
      refine mul_lt_mul_of_pos_right ?_ positive
      have : (2 : ℚ) ^ ((k.log2 : Int) + 1) = 2 ^ (k.log2 + 1) := by
        rw [← zpow_natCast]
        push_cast
        rfl
      rw [this]
      simpa using high
  obtain ⟨low, high⟩ := bounds d posm
  obtain ⟨low', high'⟩ := bounds e posn
  rw [same] at low high
  have first := (zpow_lt_zpow_iff_right₀ (one_lt_two (α := ℚ))).mp (low.trans_lt high')
  have second := (zpow_lt_zpow_iff_right₀ (one_lt_two (α := ℚ))).mp (low'.trans_lt high)
  unfold totalExponent
  omega

private theorem shiftRight_exact (m n : Nat) :
    (⟨m * 2 ^ n, false, false⟩ : ExtendedMantissa) >>> n = ⟨m, false, false⟩ := by
  change n.repeat ExtendedMantissa.shiftRightOne _ = _
  induction n generalizing m with
  | zero => simp [Nat.repeat]
  | succ n ih =>
      rw [Nat.repeat, pow_succ', ← mul_assoc, ih]
      simp [ExtendedMantissa.shiftRightOne]

private theorem roundWithAccuracy_of_eq {m n : Nat} {d e : Int} (posm : 0 < m) (posn : 0 < n)
    (same : (m : ℚ) * 2 ^ d = n * 2 ^ e) (le : d ≤ e)
    (canonical : Format.binary64.targetExponent (totalExponent n e) = e) (s : Sign) :
    roundWithAccuracy .binary64 s m d .exact = .finite s n e posn := by
  obtain ⟨k, rfl⟩ := Int.le.dest le
  have whole : m = n * 2 ^ k := by
    have : (m : ℚ) = n * 2 ^ k := by
      have positive : (0 : ℚ) < 2 ^ d := by positivity
      rw [zpow_add₀ two_ne_zero, mul_comm ((2 : ℚ) ^ d), ← mul_assoc, zpow_natCast] at same
      exact mul_right_cancel₀ positive.ne' same
    exact_mod_cast this
  have first : shiftToTargetExponent .binary64 m d .exact = (⟨n, false, false⟩, d + k) := by
    unfold shiftToTargetExponent shiftToExponent
    rw [totalExponent_congr posm posn same, canonical]
    simp only [ExtendedMantissa.ofMantissaAndAccuracy, add_sub_cancel_left, Int.toNat_natCast]
    rw [whole, shiftRight_exact]
  -- what is rounded has all its bits already, so that the second shift moves nothing
  have second : shiftToTargetExponent .binary64
      (ExtendedMantissa.mk n false false).roundedMantissa (d + k) .exact =
        (⟨n, false, false⟩, d + k) := by
    change shiftToTargetExponent .binary64 n (d + k) .exact = _
    unfold shiftToTargetExponent shiftToExponent
    rw [canonical]
    dsimp only
    rw [sub_self, Int.toNat_zero, Nat.cast_zero, add_zero]
    rfl
  simp only [roundWithAccuracy, first, second, dif_neg posn.ne']

private theorem round_of_eq {m n : Nat} {d e : Int} (posm : 0 < m) (posn : 0 < n)
    (same : (m : ℚ) * 2 ^ d = n * 2 ^ e)
    (canonical : Format.binary64.targetExponent (totalExponent n e) = e) (s : Sign) :
    UnpackedFloat.round .binary64 s m d = .finite s n e posn := by
  unfold UnpackedFloat.round decreaseExponent
  rw [totalExponent_congr posm posn same, canonical]
  simp only
  rw [Nat.shiftLeft_eq]
  refine roundWithAccuracy_of_eq (by positivity) posn ?_ (by omega) canonical s
  rw [← same, zpow_sub₀ two_ne_zero]
  push_cast
  rw [zpow_natCast]
  field_simp

private theorem pack_finite (s : Sign) {m : Nat} {e : Int} (low : 2 ^ 52 ≤ m) (high : m < 2 ^ 53)
    (most : e ≤ 971) :
    UnpackedFloat.pack .binary64 (.finite s m e (Nat.lt_of_lt_of_le (by decide) low)) =
      packComponents .binary64 s (BitVec.ofNat 11 (e + 1075).toNat) (BitVec.ofNat 52 m) := by
  have log : m.log2 + 1 = Format.binary64.mantissaBits := by
    rw [(Nat.log2_eq_iff (by omega)).mpr ⟨low, high⟩]
    rfl
  have biased : e + Format.binary64.exponentBias + Format.binary64.mantissaBitsWithoutImplicit =
      e + 1075 := by
    rw [add_assoc]
    rfl
  have fits : ¬ 2 ^ Format.binary64.exponentBits ≤ (e + 1075).toNat + 1 := by
    change ¬ 2048 ≤ _
    omega
  simp only [UnpackedFloat.pack]
  rw [biased, if_neg fits, if_pos log]

theorem unpack_pack_finite (s : Sign) {m : Nat} {e : Int} (low : 2 ^ 52 ≤ m) (high : m < 2 ^ 53)
    (least : -1074 ≤ e) (most : e ≤ 971) :
    (Float.Model.pack (.finite s m e (Nat.lt_of_lt_of_le (by decide) low))).unpack =
      .finite s m e (Nat.lt_of_lt_of_le (by decide) low) := by
  have exponent : (BitVec.ofNat 11 (e + 1075).toNat).toNat = (e + 1075).toNat := by
    rw [BitVec.toNat_ofNat]
    omega
  have mantissa : (1#1 ++ BitVec.ofNat 52 m).toNat = m := by
    rw [toNat_one_append, BitVec.toNat_ofNat]
    simp only [twoTo]
    norm_num
    omega
  have notFull : BitVec.ofNat 11 (e + 1075).toNat ≠ -1#11 := by
    rw [ne_eq, ← BitVec.toNat_inj, exponent]
    change (e + 1075).toNat ≠ 2047
    omega
  have notNone : BitVec.ofNat 11 (e + 1075).toNat ≠ 0#11 := by
    rw [ne_eq, ← BitVec.toNat_inj, exponent]
    change (e + 1075).toNat ≠ 0
    omega
  unfold Float.Model.unpack Float.Model.pack
  change UnpackedFloat.unpack .binary64 (UnpackedFloat.pack .binary64 _) = _
  rw [pack_finite s low high most]
  unfold UnpackedFloat.unpack
  simp only [unpackMantissa_packComponents, unpackExponent_packComponents,
    unpackSign_packComponents, Sign.ofBitVec_toBitVec]
  rw [if_neg notFull, if_neg notNone]
  congr 1
  rw [exponent]
  change ((e + 1075).toNat : Int) - 1075 = e
  omega

/-! ## The numbers that doubles stand for -/

def Form.value : Form → ℚ
  | finite negative mantissa exponent =>
      (if negative then -(mantissa : ℚ) else mantissa) * 2 ^ exponent
  | _ => 0

/-- The double is finite, and this is its number. -/
def Denotes (x : Float) (r : ℚ) : Prop :=
  ∃ negative mantissa exponent, form x = .finite negative mantissa exponent ∧
    (Form.finite negative mantissa exponent).value = r

/-- The mantissa has 53 bits, unless the exponent is the least there is. -/
structure Canonical (mantissa : Nat) (exponent : Int) : Prop where
  high : mantissa < 2 ^ 53
  least : -1074 ≤ exponent
  most : exponent ≤ 971
  low : 2 ^ 52 ≤ mantissa ∨ exponent = -1074

theorem canonical_of_form {x : Float} {negative : Bool} {mantissa : Nat} {exponent : Int}
    (h : form x = .finite negative mantissa exponent) : Canonical mantissa exponent := by
  unfold form at h
  simp only [twoTo] at h
  norm_num at h
  split at h
  · split at h <;> cases h
  · split at h
    · cases h
      constructor <;> omega
    · cases h
      constructor <;> omega

theorem Canonical.value_lt {m n : Nat} {d e : Int} (hm : Canonical m d) (hn : Canonical n e)
    (less : d < e) : (m : ℚ) * 2 ^ d < n * 2 ^ e := by
  have low : 2 ^ 52 ≤ n := hn.low.resolve_right (by have := hm.least; omega)
  calc (m : ℚ) * 2 ^ d < 2 ^ 53 * 2 ^ d := by
        have : (m : ℚ) < 2 ^ 53 := by exact_mod_cast hm.high
        gcongr
    _ = 2 ^ 52 * 2 ^ (d + 1) := by
        rw [zpow_add₀ two_ne_zero]
        ring
    _ ≤ n * 2 ^ e := by
        have : (2 : ℚ) ^ 52 ≤ n := by exact_mod_cast low
        have : d + 1 ≤ e := less
        gcongr
        norm_num

theorem Canonical.compare_eq {m n : Nat} {d e : Int} (hm : Canonical m d) (hn : Canonical n e) :
    (compare d e).then (compare m n) = compare ((m : ℚ) * 2 ^ d) (n * 2 ^ e) := by
  rcases lt_trichotomy d e with less | rfl | more
  · rw [compare_lt_iff_lt.mpr less, compare_lt_iff_lt.mpr (hm.value_lt hn less)]
    rfl
  · have positive : (0 : ℚ) < 2 ^ d := by positivity
    rw [compare_eq_iff_eq.mpr rfl, Ordering.then]
    rcases lt_trichotomy m n with less | rfl | more
    · have : (m : ℚ) * 2 ^ d < n * 2 ^ d := by gcongr
      rw [compare_lt_iff_lt.mpr less, compare_lt_iff_lt.mpr this]
    · rw [compare_eq_iff_eq.mpr rfl, compare_eq_iff_eq.mpr rfl]
    · have : (n : ℚ) * 2 ^ d < m * 2 ^ d := by gcongr
      rw [compare_gt_iff_gt.mpr more, compare_gt_iff_gt.mpr this]
  · rw [compare_gt_iff_gt.mpr more, compare_gt_iff_gt.mpr (hn.value_lt hm more)]
    rfl

inductive Unpacks : UnpackedFloat → ℚ → Prop
  | zero (s : Sign) : Unpacks (.zero s) 0
  | finite (s : Sign) {m : Nat} {e : Int} (pos : 0 < m) (canonical : Canonical m e) :
      Unpacks (.finite s m e pos) (s.apply m * 2 ^ e)

theorem unpacks_iff_denotes {x : Float} {r : ℚ} : Unpacks x.toModel.unpack r ↔ Denotes x r := by
  have formed := form_eq_ofUnpacked x
  constructor
  · intro h
    generalize x.toModel.unpack = u at h formed
    cases h with
    | zero s => exact ⟨_, _, _, formed, by simp [Form.value]⟩
    | finite s => exact ⟨_, _, _, formed, by cases s <;> simp [Form.value, Sign.apply]⟩
  · rintro ⟨negative, m, e, finite, rfl⟩
    have canonical := canonical_of_form finite
    rw [formed] at finite
    generalize x.toModel.unpack = u at finite
    cases u with
    | infinity s => cases finite
    | notANumber => cases finite
    | zero s =>
        cases finite
        simpa [Form.value] using Unpacks.zero s
    | finite s m e pos =>
        cases finite
        convert Unpacks.finite s pos canonical using 1
        cases s <;> simp [Form.value, Sign.apply]

private theorem compare_neg_neg (r s : ℚ) : compare (-r) (-s) = compare s r := by
  rcases lt_trichotomy r s with less | rfl | more
  · rw [compare_gt_iff_gt.mpr (neg_lt_neg less), compare_gt_iff_gt.mpr less]
  · rw [compare_eq_iff_eq.mpr rfl, compare_eq_iff_eq.mpr rfl]
  · rw [compare_lt_iff_lt.mpr (neg_lt_neg more), compare_lt_iff_lt.mpr more]

theorem Unpacks.compare_eq {u v : UnpackedFloat} {r s : ℚ} (hu : Unpacks u r) (hv : Unpacks v s) :
    u.compare v = some (compare r s) := by
  have positive : ∀ {m : Nat} (e : Int), 0 < m → (0 : ℚ) < m * 2 ^ e := by
    intro m e pos
    positivity
  have negative : ∀ {m : Nat} (e : Int), 0 < m → ((-(m : Int) : Int) : ℚ) * 2 ^ e < 0 := by
    intro m e pos
    have := positive e pos
    push_cast
    linarith
  cases hu with
  | zero a =>
      cases hv with
      | zero b => rfl
      | finite b pos canonical =>
          cases b with
          | positive => exact congrArg some (compare_lt_iff_lt.mpr (positive _ pos)).symm
          | negative => exact congrArg some (compare_gt_iff_gt.mpr (negative _ pos)).symm
  | finite a pos canonical =>
      cases hv with
      | zero b =>
          cases a with
          | positive => exact congrArg some (compare_gt_iff_gt.mpr (positive _ pos)).symm
          | negative => exact congrArg some (compare_lt_iff_lt.mpr (negative _ pos)).symm
      | finite b pos' canonical' =>
          have magnitudes := canonical.compare_eq canonical'
          cases a with
          | positive =>
              cases b with
              | positive => exact congrArg some magnitudes
              | negative =>
                  refine congrArg some (compare_gt_iff_gt.mpr ?_).symm
                  exact (negative _ pos').trans (positive _ pos)
          | negative =>
              cases b with
              | positive =>
                  refine congrArg some (compare_lt_iff_lt.mpr ?_).symm
                  exact (negative _ pos).trans (positive _ pos')
              | negative =>
                  refine congrArg some ?_
                  rw [magnitudes, ← Std.OrientedOrd.eq_swap, ← compare_neg_neg]
                  simp [Sign.apply]

theorem Denotes.le_iff {x y : Float} {r s : ℚ} (hx : Denotes x r) (hy : Denotes y s) :
    x ≤ y ↔ r ≤ s := by
  have compared := (unpacks_iff_denotes.mpr hx).compare_eq (unpacks_iff_denotes.mpr hy)
  have unpacked : x ≤ y ↔ x.toModel.unpack.le y.toModel.unpack = true := by
    change decide _ = true ↔ _
    rw [decide_eq_true_iff]
    rfl
  rw [unpacked, UnpackedFloat.le, compared, Option.any_some, ← compare_le_iff_le]
  cases compare r s <;> decide

/-! ## Sums of whole numbers -/

/-- A whole number of at most 53 bits is the number of a double. -/
theorem exists_canonical {k : Nat} (pos : 0 < k) (small : k ≤ 2 ^ 53) :
    ∃ (m : Nat) (e : Int), 2 ^ 52 ≤ m ∧ m < 2 ^ 53 ∧ -52 ≤ e ∧ e ≤ 1 ∧ (m : ℚ) * 2 ^ e = k := by
  rcases small.lt_or_eq with less | rfl
  · have log : k.log2 ≤ 52 := Nat.lt_succ_iff.mp ((Nat.log2_lt pos.ne').mpr less)
    have low := Nat.log2_self_le pos.ne'
    have high := @Nat.lt_log2_self k
    obtain ⟨n, shift⟩ := Nat.exists_eq_add_of_le log
    have total : 2 ^ k.log2 * 2 ^ n = 2 ^ 52 := by rw [← pow_add, ← shift]
    refine ⟨k * 2 ^ n, -n, ?_, ?_, by omega, by omega, ?_⟩
    · rw [← total]
      exact Nat.mul_le_mul_right _ low
    · calc k * 2 ^ n < 2 ^ (k.log2 + 1) * 2 ^ n := by
            exact Nat.mul_lt_mul_of_pos_right high (by positivity)
        _ = 2 ^ 53 := by
            rw [pow_succ, mul_right_comm, total, ← pow_succ]
    · push_cast
      rw [zpow_neg, zpow_natCast]
      field_simp
  · exact ⟨2 ^ 52, 1, by norm_num, by norm_num, by norm_num, by norm_num, by norm_num⟩

private theorem targetExponent_of_bits {m : Nat} {e : Int} (low : 2 ^ 52 ≤ m) (high : m < 2 ^ 53)
    (least : -1074 ≤ e) : Format.binary64.targetExponent (totalExponent m e) = e := by
  have log : m.log2 = 52 := (Nat.log2_eq_iff (by omega)).mpr ⟨low, high⟩
  unfold Format.targetExponent totalExponent
  rw [log]
  change max ((52 : Int) + 1 + e - 53) (-1074) = e
  omega

theorem unpacks_round {n k : Nat} {e : Int} (pos : 0 < k) (small : k ≤ 2 ^ 53)
    (same : (n : ℚ) * 2 ^ e = k) (s : Sign) :
    Unpacks (Float.Model.pack (UnpackedFloat.round .binary64 s n e)).unpack (s.apply k : Int) := by
  obtain ⟨m, d, low, high, least, most, value⟩ := exists_canonical pos small
  have posn : 0 < n := by
    rcases Nat.eq_zero_or_pos n with rfl | posn
    · rw [Nat.cast_zero, zero_mul, eq_comm, Nat.cast_eq_zero] at same
      omega
    · exact posn
  rw [round_of_eq posn (by omega) (same.trans value.symm)
    (targetExponent_of_bits low high (by omega)) s,
    unpack_pack_finite s low high (by omega) (by omega)]
  have canonical : Canonical m d := ⟨high, by omega, by omega, .inl low⟩
  convert Unpacks.finite s (by omega) canonical using 1
  cases s <;> simp [Sign.apply, value]

theorem unpack_pack_zero (s : Sign) : (Float.Model.pack (.zero s)).unpack = .zero s :=
  unpack_packedZero

/-- A sum that is whole and has at most 53 bits is not rounded. -/
theorem unpacks_normalize {n k : Int} {e : Int} (small : |k| ≤ 2 ^ 53)
    (same : (n : ℚ) * 2 ^ e = k) (s : Sign) :
    Unpacks (Float.Model.pack (UnpackedFloat.normalize .binary64 n e s)).unpack k := by
  have positive : (0 : ℚ) < 2 ^ e := by positivity
  unfold UnpackedFloat.normalize
  rcases lt_trichotomy n 0 with less | rfl | more
  · rw [compare_lt_iff_lt.mpr less]
    have below : k < 0 := by
      have : (k : ℚ) < 0 := by
        rw [← same]
        exact mul_neg_of_neg_of_pos (by exact_mod_cast less) positive
      exact_mod_cast this
    obtain ⟨a, rfl⟩ := Int.exists_eq_neg_ofNat less.le
    obtain ⟨b, rfl⟩ := Int.exists_eq_neg_ofNat below.le
    simp only [neg_neg, Int.toNat_natCast, abs_neg, Nat.abs_cast] at *
    have bound : b ≤ 2 ^ 53 := by exact_mod_cast small
    refine unpacks_round (by omega) bound ?_ .negative
    push_cast at same
    linarith
  · rw [compare_eq_iff_eq.mpr rfl]
    rw [Int.cast_zero, zero_mul, eq_comm, Int.cast_eq_zero] at same
    rw [same, unpack_pack_zero, Int.cast_zero]
    exact .zero s
  · rw [compare_gt_iff_gt.mpr more]
    have above : 0 < k := by
      have : (0 : ℚ) < k := by
        rw [← same]
        exact mul_pos (by exact_mod_cast more) positive
      exact_mod_cast this
    obtain ⟨a, rfl⟩ := Int.eq_ofNat_of_zero_le more.le
    obtain ⟨b, rfl⟩ := Int.eq_ofNat_of_zero_le above.le
    simp only [Int.toNat_natCast, Nat.abs_cast] at *
    have bound : b ≤ 2 ^ 53 := by exact_mod_cast small
    exact unpacks_round (by omega) bound (by exact_mod_cast same) .positive

theorem unpack_pack_unpack (x : Float.Model) : (Float.Model.pack x.unpack).unpack = x.unpack :=
  congrArg (UnpackedFloat.unpack .binary64) (pack_unpack_of_valid x.valid)

theorem apply_decreaseExponent (s : Sign) (m : Nat) {d e : Int} (le : d ≤ e) :
    (s.apply ((decreaseExponent m e d).1 : Int) : ℚ) * 2 ^ d = s.apply m * 2 ^ e := by
  have shifted : ((decreaseExponent m e d).1 : ℚ) * 2 ^ d = m * 2 ^ e := by
    obtain ⟨n, rfl⟩ := Int.le.dest le
    simp only [decreaseExponent, add_sub_cancel_left, Int.toNat_natCast, Nat.shiftLeft_eq]
    rw [zpow_add₀ two_ne_zero, zpow_natCast]
    push_cast
    ring
  cases s with
  | positive => simpa [Sign.apply] using shifted
  | negative => simpa [Sign.apply] using shifted

theorem Denotes.add {x y : Float} {i j : Int} (hx : Denotes x i) (hy : Denotes y j)
    (small : |i + j| ≤ 2 ^ 53) : Denotes (x + y) (i + j : Int) := by
  rw [← unpacks_iff_denotes] at hx hy ⊢
  change Unpacks (Float.Model.pack (UnpackedFloat.add .binary64 x.toModel.unpack
    y.toModel.unpack)).unpack _
  have again := unpack_pack_unpack x.toModel
  have again' := unpack_pack_unpack y.toModel
  generalize x.toModel.unpack = u at hx again
  generalize y.toModel.unpack = v at hy again'
  generalize number : (i : ℚ) = r at hx
  generalize number' : (j : ℚ) = s at hy
  have sum : ((i + j : Int) : ℚ) = r + s := by
    push_cast
    rw [number, number']
  cases hx with
  | zero a =>
      cases hy with
      | zero b =>
          rw [sum, add_zero, UnpackedFloat.add]
          split
          · rw [unpack_pack_zero]
            exact .zero _
          · rw [unpack_pack_zero]
            exact .zero _
      | finite b pos canonical =>
          rw [sum, zero_add]
          exact again'.symm ▸ .finite b pos canonical
  | finite a pos canonical =>
      cases hy with
      | zero b =>
          rw [sum, add_zero]
          exact again.symm ▸ .finite a pos canonical
      | finite b pos' canonical' =>
          refine unpacks_normalize small ?_ .positive
          rw [sum, Int.cast_add, add_mul]
          exact congrArg₂ (· + ·) (apply_decreaseExponent a _ (min_le_left _ _))
            (apply_decreaseExponent b _ (min_le_right _ _))

theorem denotes_one : Denotes 1 1 :=
  ⟨false, 2 ^ 52, -52, by decide +kernel, by norm_num [Form.value]⟩

theorem denotes_neg_one : Denotes (-1) (-1) :=
  ⟨true, 2 ^ 52, -52, by decide +kernel, by norm_num [Form.value]⟩

end Ardoise.Number
