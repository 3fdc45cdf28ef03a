import Ardoise.Number.Text
import Ardoise.Token.Lexer
import Ardoise.Proofs.Numbers.Doubles

/-!
# The texts of doubles tell them apart

The decimal that is picked for a double lies so near to it that every other double is
further away, or as far and passed over for its last bit.  So the text of a finite
double, which gives the decimal away, is not that of any other.  Numbers of a program
are finite or infinite: no digits read as something that is not a number.
-/

namespace Ardoise.Number

/-! ## The decimal near a double -/

def Decimal.value (d : Decimal) : ℚ := d.digits * 10 ^ d.exponent

/--
The number is nearer to `m * 2 ^ q` than to the doubles below and above it.  Half way
between the two it counts if `m` is even.
-/
structure Within (m : Nat) (q : Int) (r : ℚ) : Prop where
  low : (4 * m - lowerMargin m q : ℚ) * 2 ^ (q - 2) ≤ r
  high : r ≤ (4 * m + 2) * 2 ^ (q - 2)
  strict : m % 2 = 1 →
    (4 * m - lowerMargin m q : ℚ) * 2 ^ (q - 2) < r ∧ r < (4 * m + 2) * 2 ^ (q - 2)

variable {m n : Nat} {q p : Int}

private theorem units_eq (q p : Int) :
    ((tenTo p.toNat * twoTo (2 - q).toNat : Nat) : ℚ) * 2 ^ (q - 2) =
      10 ^ p * (twoTo (q - 2).toNat * tenTo (-p).toNat : Nat) := by
  have two : ((twoTo (2 - q).toNat : Nat) : ℚ) * 2 ^ (q - 2) = (twoTo (q - 2).toNat : Nat) := by
    simp only [twoTo, Nat.pow_eq, Nat.cast_pow, Nat.cast_ofNat]
    rw [← zpow_natCast, ← zpow_natCast, ← zpow_add₀ two_ne_zero]
    congr 1
    omega
  have ten : ((tenTo p.toNat : Nat) : ℚ) = 10 ^ p * (tenTo (-p).toNat : Nat) := by
    simp only [tenTo, Nat.pow_eq, Nat.cast_pow, Nat.cast_ofNat]
    rw [← zpow_natCast, ← zpow_natCast, ← zpow_add₀ (by norm_num)]
    congr 1
    omega
  push_cast
  rw [mul_assoc, two, ten]
  ring

section

variable {tens quarter : Nat} {u t : ℚ} (pos : 0 < quarter) (unit : 0 < u)
  (same : tens * u = t * quarter) (a n : Nat)
include pos unit same

theorem quarters_le_iff : a * quarter ≤ n * tens ↔ (a : ℚ) * u ≤ n * t := by
  have pos' : (0 : ℚ) < quarter := by exact_mod_cast pos
  rw [← Nat.cast_le (α := ℚ), ← mul_le_mul_iff_left₀ unit]
  push_cast
  rw [mul_assoc (n : ℚ), same, mul_right_comm, ← mul_assoc, mul_le_mul_iff_left₀ pos']

theorem tens_le_iff : n * tens ≤ a * quarter ↔ (n : ℚ) * t ≤ a * u := by
  have pos' : (0 : ℚ) < quarter := by exact_mod_cast pos
  rw [← Nat.cast_le (α := ℚ), ← mul_le_mul_iff_left₀ unit]
  push_cast
  rw [mul_assoc (n : ℚ), same, mul_right_comm (a : ℚ), ← mul_assoc, mul_le_mul_iff_left₀ pos']

end

theorem lowerMargin_pos (m : Nat) (q : Int) : 0 < lowerMargin m q := by
  unfold lowerMargin
  split <;> omega

theorem lowerMargin_le (m : Nat) (q : Int) : lowerMargin m q ≤ 2 := by
  unfold lowerMargin
  split <;> omega

structure Units (q p : Int) (tens quarter : Nat) : Prop where
  tensPos : 0 < tens
  quarterPos : 0 < quarter
  same : (tens : ℚ) * 2 ^ (q - 2) = 10 ^ p * quarter

theorem units (q p : Int) : Units q p (tenTo p.toNat * twoTo (2 - q).toNat)
    (twoTo (q - 2).toNat * tenTo (-p).toNat) where
  tensPos := Nat.mul_pos (Nat.pow_pos (by decide)) (Nat.pow_pos (by decide))
  quarterPos := Nat.mul_pos (Nat.pow_pos (by decide)) (Nat.pow_pos (by decide))
  same := units_eq q p

theorem Units.within {tens quarter : Nat} (h : Units q p tens quarter) (pos : 0 < m)
    (low : (4 * m - lowerMargin m q) * quarter ≤ n * tens)
    (high : n * tens ≤ (4 * m + 2) * quarter)
    (strict : m % 2 = 1 →
      (4 * m - lowerMargin m q) * quarter < n * tens ∧ n * tens < (4 * m + 2) * quarter) :
    Within m q (n * 10 ^ p) := by
  have unit : (0 : ℚ) < 2 ^ (q - 2) := by positivity
  have margin := lowerMargin_le m q
  have cast : ((4 * m - lowerMargin m q : Nat) : ℚ) = 4 * m - lowerMargin m q := by
    rw [Nat.cast_sub (by omega)]
    push_cast
    rfl
  have cast' : ((4 * m + 2 : Nat) : ℚ) = 4 * m + 2 := by push_cast; rfl
  have below := quarters_le_iff h.quarterPos unit h.same (4 * m - lowerMargin m q) n
  have above := tens_le_iff h.quarterPos unit h.same (4 * m + 2) n
  have below' := tens_le_iff h.quarterPos unit h.same (4 * m - lowerMargin m q) n
  have above' := quarters_le_iff h.quarterPos unit h.same (4 * m + 2) n
  rw [cast] at below below'
  rw [cast'] at above above'
  refine ⟨below.mp low, above.mp high, fun odd => ?_⟩
  obtain ⟨low, high⟩ := strict odd
  rw [← not_le] at low high
  exact ⟨not_le.mp (mt below'.mpr low), not_le.mp (mt above'.mpr high)⟩

/-- What is found reads back as the double. -/
theorem within_of_multipleWithin? (pos : 0 < m) (found : multipleWithin? m q p = some n) :
    Within m q (n * 10 ^ p) := by
  have units := units q p
  have margin := lowerMargin_pos m q
  have margin' := lowerMargin_le m q
  unfold multipleWithin? at found
  dsimp only at found
  generalize tenTo p.toNat * twoTo (2 - q).toNat = tens at *
  generalize twoTo (q - 2).toNat * tenTo (-p).toNat = quarter at *
  have quarterPos := units.quarterPos
  have below : 4 * m * quarter / tens * tens ≤ 4 * m * quarter := Nat.div_mul_le_self _ _
  have above : 4 * m * quarter < (4 * m * quarter / tens + 1) * tens := by
    rw [mul_comm _ tens]
    exact Nat.lt_mul_div_succ _ units.tensPos
  generalize 4 * m * quarter / tens = k at *
  have least : (4 * m - lowerMargin m q) * quarter < 4 * m * quarter :=
    Nat.mul_lt_mul_of_pos_right (by omega) quarterPos
  have most : 4 * m * quarter < (4 * m + 2) * quarter :=
    Nat.mul_lt_mul_of_pos_right (by omega) quarterPos
  have fitsBelow : (if m % 2 = 0 then decide ((4 * m - lowerMargin m q) * quarter ≤ k * tens)
      else decide ((4 * m - lowerMargin m q) * quarter < k * tens)) = true →
      Within m q (k * 10 ^ p) := by
    intro fits
    split at fits <;> rw [decide_eq_true_iff] at fits
    · exact units.within pos fits (by omega) (by omega)
    · exact units.within pos (by omega) (by omega) fun _ => ⟨fits, by omega⟩
  have fitsAbove : (if m % 2 = 0 then decide ((k + 1) * tens ≤ (4 * m + 2) * quarter)
      else decide ((k + 1) * tens < (4 * m + 2) * quarter)) = true →
      Within m q ((k + 1 : Nat) * 10 ^ p) := by
    intro fits
    split at fits <;> rw [decide_eq_true_iff] at fits
    · exact units.within pos (by omega) fits (by omega)
    · exact units.within pos (by omega) (by omega) fun _ => ⟨by omega, fits⟩
  generalize (if m % 2 = 0 then decide ((4 * m - lowerMargin m q) * quarter ≤ k * tens)
    else decide ((4 * m - lowerMargin m q) * quarter < k * tens)) = belowFits at fitsBelow found
  generalize (if m % 2 = 0 then decide ((k + 1) * tens ≤ (4 * m + 2) * quarter)
    else decide ((k + 1) * tens < (4 * m + 2) * quarter)) = aboveFits at fitsAbove found
  split at found
  · rename_i both
    rw [Bool.and_eq_true] at both
    split at found <;> cases found
    · exact fitsBelow both.1
    · exact fitsAbove both.2
  · split at found
    · rename_i fits
      cases found
      exact fitsBelow fits
    · split at found
      · rename_i fits
        cases found
        exact fitsAbove fits
      · cases found

private theorem multipleWithin?_ne_none (fine : (10 : ℚ) ^ p ≤ 2 ^ (q - 2)) (pos : 0 < m) :
    multipleWithin? m q p ≠ none := by
  have units := units q p
  have margin := lowerMargin_pos m q
  have margin' := lowerMargin_le m q
  unfold multipleWithin?
  dsimp only
  generalize tenTo p.toNat * twoTo (2 - q).toNat = tens at *
  generalize twoTo (q - 2).toNat * tenTo (-p).toNat = quarter at *
  have unit : (0 : ℚ) < 2 ^ (q - 2) := by positivity
  have finer : tens ≤ quarter := by
    have compared := (tens_le_iff units.quarterPos unit units.same 1 1).mpr (by simpa using fine)
    omega
  have above : 4 * m * quarter < (4 * m * quarter / tens + 1) * tens := by
    rw [mul_comm _ tens]
    exact Nat.lt_mul_div_succ _ units.tensPos
  generalize 4 * m * quarter / tens = k at *
  have fits : (4 * m - lowerMargin m q) * quarter < k * tens := by
    have less : (4 * m - lowerMargin m q) * quarter + quarter ≤ 4 * m * quarter := by
      rw [← Nat.succ_mul]
      exact Nat.mul_le_mul_right quarter (by omega)
    rw [Nat.succ_mul k] at above
    omega
  have below : (if m % 2 = 0 then decide ((4 * m - lowerMargin m q) * quarter ≤ k * tens)
      else decide ((4 * m - lowerMargin m q) * quarter < k * tens)) = true := by
    split
    · exact decide_eq_true fits.le
    · exact decide_eq_true fits
  rw [below, Bool.true_and, if_pos rfl]
  split <;> split <;> exact Option.some_ne_none _

/-! ## The search for it -/

private theorem within_of_searchShortest (pos : 0 < m) {tries : Nat} {d : Decimal}
    (found : searchShortest m q tries p = some d) : Within m q d.value := by
  induction tries generalizing p with
  | zero => cases found
  | succ tries ih =>
      rw [searchShortest] at found
      split at found
      · rename_i n here
        cases found
        exact within_of_multipleWithin? pos here
      · exact ih found

private theorem searchShortest_ne_none {tries k : Nat} (less : k < tries)
    (fine : multipleWithin? m q (p - k) ≠ none) : searchShortest m q tries p ≠ none := by
  induction tries generalizing p k with
  | zero => cases less
  | succ tries ih =>
      rw [searchShortest]
      split
      · simp
      · rename_i missed
        cases k with
        | zero =>
            rw [Nat.cast_zero, sub_zero] at fine
            exact absurd missed fine
        | succ k =>
            refine ih (Nat.lt_of_succ_lt_succ less) ?_
            rwa [sub_sub, add_comm, ← Nat.cast_succ]

/-- The last of the powers of ten that are tried is fine enough for all doubles. -/
theorem powers_fine : ∀ i : Fin 2098, let t : Int := i.val - 1073
    tenTo (t * 30103 / 100000 - 23).toNat * twoTo (2 - (t - 53)).toNat ≤
      twoTo (t - 53 - 2).toNat * tenTo (-(t * 30103 / 100000 - 23)).toNat := by
  decide +kernel

theorem within_shortest (canonical : Canonical m q) (pos : 0 < m) :
    Within m q (shortest m q).value := by
  have bits : Nat.log2 m < 53 := (Nat.log2_lt pos.ne').mpr canonical.high
  have least := canonical.least
  have most := canonical.most
  have last : multipleWithin? m q (firstPower m q - (24 : Nat)) ≠ none := by
    obtain ⟨i, same⟩ : ∃ i : Fin 2098, (i.val : Int) - 1073 = Nat.log2 m + 1 + q :=
      ⟨⟨(Nat.log2 m + 1 + q + 1073).toNat, by omega⟩, by simp only; omega⟩
    have fine := powers_fine i
    simp only [same] at fine
    have power : firstPower m q - (24 : Nat) =
        (Nat.log2 m + 1 + q) * 30103 / 100000 - 23 := by
      unfold firstPower
      omega
    rw [power]
    refine multipleWithin?_ne_none ?_ pos
    have units := units (Nat.log2 m + 1 + q - 53) ((Nat.log2 m + 1 + q) * 30103 / 100000 - 23)
    have compared := (tens_le_iff units.quarterPos (by positivity) units.same 1 1).mp
      (by simpa only [Nat.one_mul] using fine)
    rw [Nat.cast_one, one_mul, one_mul] at compared
    refine compared.trans ?_
    gcongr
    · norm_num
    · omega
  obtain ⟨d, found⟩ := Option.ne_none_iff_exists'.mp
    (searchShortest_ne_none (by decide : 24 < 25) last)
  rw [shortest, found]
  exact within_of_searchShortest pos found

/-! ## One double near a decimal -/

theorem Within.pos {r : ℚ} (h : Within m q r) (pos : 0 < m) : 0 < r := by
  refine lt_of_lt_of_le ?_ h.low
  have margin : (lowerMargin m q : ℚ) ≤ 2 := by exact_mod_cast lowerMargin_le m q
  have : (1 : ℚ) ≤ m := by exact_mod_cast pos
  have : (0 : ℚ) < 4 * m - lowerMargin m q := by linarith
  positivity

theorem Within.not_mantissa_lt {r : ℚ} (hm : Within m q r) (hn : Within n q r) : ¬ m < n := by
  intro less
  have unit : (0 : ℚ) < 2 ^ (q - 2) := by positivity
  have margin : (lowerMargin n q : ℚ) ≤ 2 := by exact_mod_cast lowerMargin_le n q
  have apart : (4 * m + 2 : ℚ) ≤ 4 * n - lowerMargin n q := by
    have : (m + 1 : ℚ) ≤ n := by exact_mod_cast less
    linarith
  have apart' := mul_le_mul_of_nonneg_right apart unit.le
  rcases Nat.mod_two_eq_zero_or_one m with even | odd
  · rcases Nat.mod_two_eq_zero_or_one n with even' | odd'
    · have apart : (4 * m + 2 : ℚ) < 4 * n - lowerMargin n q := by
        have : (m + 2 : ℚ) ≤ n := by exact_mod_cast (by omega : m + 2 ≤ n)
        linarith
      have := mul_lt_mul_of_pos_right apart unit
      linarith [hm.high, hn.low]
    · linarith [hm.high, (hn.strict odd').1]
  · linarith [(hm.strict odd).2, hn.low]

theorem Within.not_exponent_lt {r : ℚ} {d : Int} (hm : Within m q r) (hn : Within n d r)
    (canonical : Canonical m q) (canonical' : Canonical n d) : ¬ q < d := by
  intro less
  have least := canonical.least
  have low : 2 ^ 52 ≤ n := canonical'.low.resolve_right (by omega)
  have margin : 2 ^ 54 - 1 + lowerMargin n d ≤ 4 * n := by
    rcases low.eq_or_lt with least | above
    · have : lowerMargin n d = 1 := if_pos ⟨least.symm, by omega⟩
      omega
    · have := lowerMargin_le n d
      omega
  have unit : (0 : ℚ) < 2 ^ (q - 2) := by positivity
  have doubled : 2 * (2 : ℚ) ^ (q - 2) ≤ 2 ^ (d - 2) := by
    rw [← zpow_one_add₀ two_ne_zero]
    exact zpow_le_zpow_right₀ one_le_two (by omega)
  have apart : (2 ^ 55 - 2 : ℚ) * 2 ^ (q - 2) ≤ r :=
    calc (2 ^ 55 - 2 : ℚ) * 2 ^ (q - 2) = (2 ^ 54 - 1) * (2 * 2 ^ (q - 2)) := by ring
      _ ≤ (4 * n - lowerMargin n d) * 2 ^ (d - 2) := by
          have : (2 ^ 54 - 1 : ℚ) ≤ 4 * n - lowerMargin n d := by
            rw [le_sub_iff_add_le, sub_add_eq_add_sub, sub_le_iff_le_add]
            exact_mod_cast (by omega : 2 ^ 54 + lowerMargin n d ≤ 4 * n + 1)
          gcongr
      _ ≤ r := hn.low
  have high := canonical.high
  rcases Nat.mod_two_eq_zero_or_one m with even | odd
  · have : (4 * m + 2 : ℚ) < 2 ^ 55 - 2 := by
      rw [lt_sub_iff_add_lt]
      exact_mod_cast (by omega : 4 * m + 2 + 2 < 2 ^ 55)
    have := mul_lt_mul_of_pos_right this unit
    linarith [hm.high]
  · have : (4 * m + 2 : ℚ) ≤ 2 ^ 55 - 2 := by
      rw [le_sub_iff_add_le]
      exact_mod_cast (by omega : 4 * m + 2 + 2 ≤ 2 ^ 55)
    have := mul_le_mul_of_nonneg_right this unit.le
    linarith [(hm.strict odd).2]

theorem Within.unique {r : ℚ} {d : Int} (hm : Within m q r) (hn : Within n d r)
    (canonical : Canonical m q) (canonical' : Canonical n d) : m = n ∧ q = d := by
  obtain rfl : q = d := le_antisymm
    (not_lt.mp (hn.not_exponent_lt hm canonical' canonical))
    (not_lt.mp (hm.not_exponent_lt hn canonical canonical'))
  exact ⟨le_antisymm (not_lt.mp (hn.not_mantissa_lt hm)) (not_lt.mp (hm.not_mantissa_lt hn)), rfl⟩

/-! ## Reading decimals -/

def reading (cs : List Char) : ℚ :=
  Nat.ofDigitChars 10 (cs.filter (· ≠ '.')) 0 / 10 ^ ((cs.dropWhile (· ≠ '.')).length - 1)

theorem ne_point_of_isDigit {c : Char} (digit : c.isDigit = true) : c ≠ '.' := by
  rintro rfl
  exact absurd digit (by decide)

theorem isDigit_of_mem_padding {c : Char} {k : Nat} (here : c ∈ List.replicate k '0') :
    c.isDigit = true := by
  rw [List.eq_of_mem_replicate here]
  decide

private theorem reading_whole {ds : List Char} (digits : ∀ c ∈ ds, c.isDigit = true) :
    reading ds = Nat.ofDigitChars 10 ds 0 := by
  have plain : ∀ c ∈ ds, c ≠ '.' := fun c here => ne_point_of_isDigit (digits c here)
  unfold reading
  rw [List.filter_eq_self.mpr (by simpa using plain),
    List.dropWhile_eq_nil_iff.mpr (by simpa using plain)]
  simp

private theorem reading_parts {as bs : List Char} (digits : ∀ c ∈ as ++ bs, c.isDigit = true) :
    reading (as ++ '.' :: bs) = Nat.ofDigitChars 10 (as ++ bs) 0 / 10 ^ bs.length := by
  have plain : ∀ c ∈ as ++ bs, c ≠ '.' := fun c here => ne_point_of_isDigit (digits c here)
  have left : ∀ c ∈ as, decide (c ≠ '.') = true := fun c here =>
    decide_eq_true (plain c (List.mem_append_left bs here))
  have right : ∀ c ∈ bs, decide (c ≠ '.') = true := fun c here =>
    decide_eq_true (plain c (List.mem_append_right as here))
  unfold reading
  rw [List.filter_append, List.filter_eq_self.mpr left, List.filter_cons_of_neg (by decide),
    List.filter_eq_self.mpr right, List.dropWhile_append_of_pos left,
    List.dropWhile_cons_of_neg (by decide), List.length_cons, Nat.add_sub_cancel]

theorem isDigit_of_mem_padded {c : Char} {n k : Nat}
    (here : c ∈ List.replicate k '0' ++ Nat.toDigits 10 n) : c.isDigit = true := by
  rcases List.mem_append.mp here with padding | digit
  · exact isDigit_of_mem_padding padding
  · exact Nat.isDigit_of_mem_toDigits (by decide) (by decide) digit

theorem reading_positional (d : Decimal) : reading (positional d).toList = d.value := by
  unfold positional
  dsimp only
  split
  · rename_i whole
    rw [String.toList_ofList, reading_whole]
    · rw [Nat.ofDigitChars_append, Nat.ofDigitChars_ten_toDigits, Nat.ofDigitChars_replicate_zero]
      push_cast
      rw [mul_comm, Decimal.value, ← zpow_natCast, Int.toNat_of_nonneg (by omega)]
    · intro c here
      rcases List.mem_append.mp here with digit | padding
      · exact Nat.isDigit_of_mem_toDigits (by decide) (by decide) digit
      · exact isDigit_of_mem_padding padding
  · rename_i places
    rw [String.toList_ofList, reading_parts]
    · rw [List.take_append_drop, Nat.ofDigitChars_append, Nat.ofDigitChars_replicate_zero,
        Nat.mul_zero, Nat.ofDigitChars_ten_toDigits, List.length_drop, Nat.sub_sub_self,
        Decimal.value, ← zpow_natCast, Int.toNat_of_nonneg (by omega), zpow_neg, div_inv_eq_mul]
      rw [List.length_append, List.length_replicate]
      omega
    · rw [List.take_append_drop]
      exact fun c here => isDigit_of_mem_padded here

theorem isDigit_or_point_of_mem_positional {d : Decimal} {c : Char}
    (here : c ∈ (positional d).toList) : c.isDigit = true ∨ c = '.' := by
  unfold positional at here
  dsimp only at here
  split at here
  · rw [String.toList_ofList] at here
    rcases List.mem_append.mp here with digit | padding
    · exact .inl (Nat.isDigit_of_mem_toDigits (by decide) (by decide) digit)
    · exact .inl (isDigit_of_mem_padding padding)
  · rw [String.toList_ofList, List.mem_append, List.mem_cons] at here
    rcases here with whole | point | fraction
    · exact .inl (isDigit_of_mem_padded (List.mem_of_mem_take whole))
    · exact .inr point
    · exact .inl (isDigit_of_mem_padded (List.mem_of_mem_drop fraction))

private theorem positional_ne_nil (d : Decimal) : (positional d).toList ≠ [] := by
  unfold positional
  dsimp only
  split
  · rw [String.toList_ofList]
    exact List.append_ne_nil_of_left_ne_nil Nat.toDigits_ne_nil _
  · rw [String.toList_ofList]
    exact List.append_ne_nil_of_right_ne_nil _ (List.cons_ne_nil _ _)

/-! ## Texts of doubles -/

private theorem withSign_inj {negative negative' : Bool} {d d' : Decimal}
    (same : withSign negative (positional d) = withSign negative' (positional d')) :
    negative = negative' ∧ positional d = positional d' := by
  have unsigned : ∀ e e' : Decimal, "-" ++ positional e ≠ positional e' := by
    intro e e' h
    have here : '-' ∈ (positional e').toList := by
      rw [← h, String.toList_append]
      exact List.mem_cons_self
    rcases isDigit_or_point_of_mem_positional here with digit | point
    · exact absurd digit (by decide)
    · exact absurd point (by decide)
  cases negative <;> cases negative'
  · exact ⟨rfl, same⟩
  · exact absurd same.symm (unsigned d' d)
  · exact absurd same (unsigned d d')
  · refine ⟨rfl, ?_⟩
    have same := congrArg String.toList same
    simp only [withSign, if_true, String.toList_append] at same
    exact String.toList_inj.mp (List.append_cancel_left same)

def written (m : Nat) (q : Int) : Decimal := if m = 0 then ⟨0, 0⟩ else shortest m q

theorem quoted_text_eq {x : Float} {negative : Bool} (finite : form x = .finite negative m q) :
    Format.quoted.text x = withSign negative (positional (written m q)) := by
  unfold Format.text
  rw [finite]
  cases m with
  | zero =>
      have zero : positional ⟨0, 0⟩ = "0" := by decide +kernel
      rw [written, if_pos rfl, zero]
      cases negative <;> rfl
  | succ m => rw [written, if_neg (Nat.succ_ne_zero m)]

theorem written_value_pos (canonical : Canonical m q) (pos : m ≠ 0) :
    0 < (written m q).value := by
  rw [written, if_neg pos]
  exact (within_shortest canonical (Nat.pos_of_ne_zero pos)).pos (Nat.pos_of_ne_zero pos)

theorem written_zero_value (q : Int) : (written 0 q).value = 0 := by
  simp [written, Decimal.value]

private theorem written_value_inj {d : Int} (canonical : Canonical m q) (canonical' : Canonical n d)
    (same : (written m q).value = (written n d).value) : m = n ∧ q = d := by
  by_cases zero : m = 0
  · by_cases zero' : n = 0
    · have least := canonical.low
      have least' := canonical'.low
      omega
    · have pos := written_value_pos canonical' zero'
      rw [← same, zero, written_zero_value] at pos
      exact absurd pos (lt_irrefl 0)
  · by_cases zero' : n = 0
    · have pos := written_value_pos canonical zero
      rw [same, zero', written_zero_value] at pos
      exact absurd pos (lt_irrefl 0)
    · rw [written, written, if_neg zero, if_neg zero'] at same
      have within := within_shortest canonical (Nat.pos_of_ne_zero zero)
      rw [same] at within
      exact within.unique (within_shortest canonical' (Nat.pos_of_ne_zero zero')) canonical
        canonical'

theorem bits_of_form {x : Float} {negative : Bool} (finite : form x = .finite negative m q) :
    x.toBits.toNat = negative.toNat * 2 ^ 63 +
      if m < 2 ^ 52 then m else (q + 1075).toNat * 2 ^ 52 + (m - 2 ^ 52) := by
  have bound := x.toBits.toNat_lt
  have sign : (decide (x.toBits.toNat / 2 ^ 63 = 1)).toNat = x.toBits.toNat / 2 ^ 63 := by
    by_cases h : x.toBits.toNat / 2 ^ 63 = 1
    · rw [decide_eq_true h, h]
      rfl
    · rw [decide_eq_false h]
      simp only [Bool.toNat_false]
      omega
  unfold form at finite
  simp only [twoTo] at finite
  norm_num at finite sign
  split at finite
  · split at finite <;> cases finite
  · split at finite
    · cases finite
      rw [sign, if_pos (by omega)]
      omega
    · cases finite
      rw [sign, if_neg (by omega)]
      omega

private theorem form_inj {x y : Float} {negative : Bool} (hx : form x = .finite negative m q)
    (hy : form y = .finite negative m q) : x = y :=
  Float.toBits_inj.mp (UInt64.toNat_inj.mp ((bits_of_form hx).trans (bits_of_form hy).symm))

theorem quoted_text_inj {x y : Float} {negative negative' : Bool} {d : Int}
    (hx : form x = .finite negative m q) (hy : form y = .finite negative' n d)
    (same : Format.quoted.text x = Format.quoted.text y) : x = y := by
  rw [quoted_text_eq hx, quoted_text_eq hy] at same
  obtain ⟨rfl, alike⟩ := withSign_inj same
  have value : (written m q).value = (written n d).value := by
    rw [← reading_positional, ← reading_positional, alike]
  obtain ⟨rfl, rfl⟩ := written_value_inj (canonical_of_form hx) (canonical_of_form hy) value
  exact form_inj hx hy

theorem mem_quoted_text {x : Float} {negative : Bool} (finite : form x = .finite negative m q)
    {c : Char} (here : c ∈ (Format.quoted.text x).toList) :
    c.isDigit = true ∨ c = '.' ∨ c = '-' := by
  rw [quoted_text_eq finite] at here
  cases negative with
  | false => exact (isDigit_or_point_of_mem_positional here).imp_right .inl
  | true =>
      rw [withSign, if_pos rfl, String.toList_append] at here
      rcases List.mem_append.mp here with sign | digit
      · exact .inr (.inr (List.mem_singleton.mp sign))
      · exact (isDigit_or_point_of_mem_positional digit).imp_right .inl

theorem quoted_text_ne_nil {x : Float} {negative : Bool}
    (finite : form x = .finite negative m q) : (Format.quoted.text x).toList ≠ [] := by
  rw [quoted_text_eq finite]
  cases negative with
  | false => exact positional_ne_nil _
  | true =>
      rw [withSign, if_pos rfl, String.toList_append]
      exact List.cons_ne_nil _ _

/-! ## Numbers of a program -/

section

open Float.Model UnpackedFloat

private theorem pack_ne_packedNaN {u : UnpackedFloat} (number : u ≠ .notANumber) :
    UnpackedFloat.pack Format.binary64 u ≠ packedNaN Format.binary64 := by
  have infinite : ∀ s, packedInfinity Format.binary64 s ≠ packedNaN Format.binary64 := by
    intro s
    cases s <;> decide
  cases u with
  | notANumber => exact absurd rfl number
  | infinity s => exact infinite s
  | zero s => cases s <;> decide
  | finite s m e pos =>
      have components : ∀ (biased : BitVec 11) (fraction : BitVec 52), biased ≠ -1#11 →
          packComponents Format.binary64 s biased fraction ≠ packedNaN Format.binary64 := by
        intro biased fraction short same
        have same := congrArg (@unpackExponent Format.binary64) same
        rw [unpackExponent_packComponents] at same
        exact short (same.trans (by decide))
      unfold UnpackedFloat.pack
      dsimp only
      split
      · exact infinite s
      · rename_i short
        split
        · refine components _ _ fun full => short ?_
          have full := congrArg BitVec.toNat full
          have all : (-1#11).toNat = 2047 := rfl
          rw [BitVec.toNat_ofNat, all] at full
          exact Nat.le_trans (by decide) (Nat.succ_le_succ (full ▸ Nat.mod_le _ _))
        · exact components _ _ (by decide)

theorem unpack_pack_ne_notANumber {u : UnpackedFloat} (number : u ≠ .notANumber) :
    (Float.Model.pack u).unpack ≠ .notANumber :=
  mt (unpack_eq_notANumber_iff_of_valid (Float.Model.pack u).valid).mp (pack_ne_packedNaN number)

theorem roundWithAccuracy_ne_notANumber (s : Sign) (m : Nat) (e : Int) (a : Accuracy) :
    roundWithAccuracy Format.binary64 s m e a ≠ .notANumber := by
  unfold roundWithAccuracy
  dsimp only
  split <;> exact UnpackedFloat.noConfusion

theorem div_ne_notANumber {u : UnpackedFloat} (number : u ≠ .notANumber) (s : Sign) (m : Nat)
    (e : Int) (pos : 0 < m) :
    UnpackedFloat.div Format.binary64 u (.finite s m e pos) ≠ .notANumber := by
  cases u with
  | notANumber => exact absurd rfl number
  | infinity s => exact UnpackedFloat.noConfusion
  | zero s => exact UnpackedFloat.noConfusion
  | finite s m e pos => exact roundWithAccuracy_ne_notANumber _ _ _ _

private theorem ofScientific_ne_notANumber (m : Nat) (e : Nat) :
    UnpackedFloat.ofScientific Format.binary64 m (Int.negOfNat e) ≠ .notANumber := by
  unfold UnpackedFloat.ofScientific
  split
  · exact UnpackedFloat.noConfusion
  split
  · exact UnpackedFloat.noConfusion
  split
  · exact UnpackedFloat.noConfusion
  split
  · exact roundWithAccuracy_ne_notANumber _ _ _ _
  · exact div_ne_notANumber UnpackedFloat.noConfusion _ _ _ _

private theorem form_eq_nan_iff {x : Float} : form x = .nan ↔ x.toModel.unpack = .notANumber := by
  rw [form_eq_ofUnpacked]
  cases x.toModel.unpack <;> simp [Form.ofUnpacked]

private theorem powers_of_ten_whole :
    ∀ e : Fin 23, 0 < (form (Float.exactlyRepresentablePowersOfTen[e])).wholePart := by
  decide +kernel

private theorem exists_unpack_finite {x : Float} (whole : 0 < (form x).wholePart) :
    ∃ s m e pos, x.toModel.unpack = .finite s m e pos := by
  rw [form_eq_ofUnpacked] at whole
  cases unpacked : x.toModel.unpack with
  | finite s m e pos => exact ⟨s, m, e, pos, rfl⟩
  | _ => simp [unpacked, Form.ofUnpacked, Form.wholePart] at whole

theorem unpack_toFloat_ne_notANumber (n : UInt64) : n.toFloat.toModel.unpack ≠ .notANumber := by
  refine unpack_pack_ne_notANumber ?_
  unfold UnpackedFloat.ofUInt64 UnpackedFloat.ofNat UnpackedFloat.ofInt UnpackedFloat.normalize
  split
  · exact roundWithAccuracy_ne_notANumber _ _ _ _
  · exact UnpackedFloat.noConfusion
  · exact roundWithAccuracy_ne_notANumber _ _ _ _

private theorem form_ofScientific_ne_nan (m e : Nat) : form (.ofScientific m true e) ≠ .nan := by
  rw [Ne, form_eq_nan_iff]
  unfold Float.ofScientific
  split
  · rename_i small
    obtain ⟨s, k, q, pos, unpacked⟩ :=
      exists_unpack_finite (powers_of_ten_whole ⟨e, Nat.lt_succ_of_le small.2⟩)
    rw [if_pos rfl]
    refine unpack_pack_ne_notANumber fun nan => ?_
    have quotient := div_ne_notANumber (unpack_toFloat_ne_notANumber m.toUInt64) s k q pos
    rw [← unpacked] at quotient
    exact quotient nan
  · exact unpack_pack_ne_notANumber (ofScientific_ne_notANumber m e)

end

theorem form_numberValue_ne_nan (whole fraction : List Char) :
    form (Lexer.numberValue whole fraction) ≠ .nan :=
  form_ofScientific_ne_nan _ _

end Ardoise.Number
