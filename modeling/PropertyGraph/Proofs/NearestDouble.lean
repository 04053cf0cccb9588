/-
Rounding to doubles. A double denotes a number (`Binary64.value`), and one number has one double,
but for the sign of zero (`Binary64.sameValue_iff`). What `round?` makes of a ratio is the double
nearest it, of two as near the one with the even significand (`Binary64.nearest_round?`), which
leaves one value only (`Binary64.Nearest.unique`). So a number that is a double is its own rounding
(`Binary64.Nearest.exact`), as integers up to `2 ^ 53` are (`Binary64.exists_value_int`).
-/
import Mathlib
import PropertyGraph.Decimal.Binary64

namespace PropertyGraph

namespace Binary64

/-! ## The number a double denotes -/

/-- The absolute value of a double. -/
def size (x : Binary64) : ℚ := x.significand * 2 ^ x.exponent

/-- The number that a double denotes. -/
def value (x : Binary64) : ℚ := if x.negative then -x.size else x.size

/-- No double is nearer to a number, and if another is as near, the significand is even. -/
structure Nearest (x : Binary64) (q : ℚ) : Prop where
  least : ∀ y : Binary64, |x.value - q| ≤ |y.value - q|
  even : ∀ y : Binary64, y.value ≠ x.value → |y.value - q| = |x.value - q| → Even x.significand

variable {x y : Binary64} {q : ℚ} {num den : Nat} {e : Int}

theorem size_nonneg (x : Binary64) : 0 ≤ x.size := by
  unfold size
  positivity

theorem abs_value (x : Binary64) : |x.value| = x.size := by
  unfold value
  split
  · rw [abs_neg, abs_of_nonneg x.size_nonneg]
  · exact abs_of_nonneg x.size_nonneg

@[simp]
theorem value_zero (negative : Bool) : (zero negative).value = 0 := by
  cases negative <;> simp [value, size, zero]

@[simp]
theorem value_neg (x : Binary64) : x.neg.value = -x.value := by
  unfold value size neg
  cases x.negative <;> simp

theorem significand_lt (x : Binary64) : (x.significand : ℚ) < 2 ^ 53 := by
  have := x.normal.1
  simp only [Nat.pow_eq] at this
  exact_mod_cast this

/-- Above the least exponent, the leading digit of a significand is set. -/
theorem le_size (h : -1074 < x.exponent) : 2 ^ 52 * 2 ^ x.exponent ≤ x.size := by
  have hlead : 2 ^ 52 ≤ x.significand := by
    rcases x.normal.2.2.2 with hlead | hleast
    · simpa only [Nat.pow_eq] using hlead
    · omega
  unfold size
  gcongr
  exact_mod_cast hlead

/-- A double of a lower exponent is below all that have the leading digit. -/
theorem size_lt (h : x.exponent < e) : x.size < 2 ^ 52 * 2 ^ e :=
  calc x.size < 2 ^ 53 * 2 ^ x.exponent := by
        unfold size
        gcongr
        exact x.significand_lt
    _ ≤ 2 ^ 53 * 2 ^ (e - 1) := by
        gcongr
        · norm_num
        · omega
    _ = 2 ^ 52 * 2 ^ e := by
        rw [zpow_sub_one₀ (by norm_num)]
        ring

/-- A double of no lower exponent is a multiple of the unit. -/
theorem exists_size (h : e ≤ x.exponent) : ∃ k : Nat, x.size = k * 2 ^ e := by
  obtain ⟨n, hn⟩ := Int.le.dest h
  refine ⟨x.significand * 2 ^ n, ?_⟩
  rw [size, ← hn, zpow_add₀ (by norm_num), zpow_natCast]
  push_cast
  ring

/-- Doubles of one size have one form. -/
theorem form_eq (h : x.size = y.size) : x.significand = y.significand ∧ x.exponent = y.exponent := by
  have hexponent : x.exponent = y.exponent := by
    have hx := x.normal.2.1
    have hy := y.normal.2.1
    rcases lt_trichotomy x.exponent y.exponent with hlt | heq | hlt
    · have := le_size (x := y) (by omega)
      have := size_lt hlt
      linarith
    · exact heq
    · have := le_size (x := x) (by omega)
      have := size_lt hlt
      linarith
  refine ⟨?_, hexponent⟩
  unfold size at h
  rw [hexponent] at h
  exact_mod_cast mul_right_cancel₀ (by positivity) h

theorem isZero_iff : x.isZero = true ↔ x.value = 0 := by
  rw [← abs_eq_zero, abs_value, size, isZero, beq_iff_eq]
  simp [zpow_ne_zero]

/-- Doubles are equal by value exactly if they denote one number. -/
theorem sameValue_iff : x.sameValue y = true ↔ x.value = y.value := by
  rw [sameValue, Bool.or_eq_true, Bool.and_eq_true, beq_iff_eq, isZero_iff, isZero_iff]
  constructor
  · rintro (⟨hx, hy⟩ | rfl)
    · rw [hx, hy]
    · rfl
  · intro h
    have hsize : x.size = y.size := by rw [← abs_value, ← abs_value, h]
    obtain ⟨hsignificand, hexponent⟩ := form_eq hsize
    by_cases hzero : x.value = 0
    · exact .inl ⟨hzero, h ▸ hzero⟩
    · right
      have hnegative : x.negative = y.negative := by
        have hpos : 0 < x.size := by
          rw [← abs_value]
          exact abs_pos.2 hzero
        unfold value at h
        rw [← hsize] at h
        cases hx : x.negative <;> cases hy : y.negative
        all_goals simp only [hx, hy, if_true, Bool.false_eq_true, if_false] at h
        · rfl
        · linarith
        · linarith
        · rfl
      cases x
      cases y
      simp_all

/-! ## Rounding a ratio -/

/-- The nearest natural number lies within a half, and is even at a half. -/
theorem abs_nearest_sub (num : Nat) (hden : 0 < den) : |(nearest num den : ℚ) - num / den| ≤ 1 / 2 ∧
    (|(nearest num den : ℚ) - num / den| = 1 / 2 → Even (nearest num den)) := by
  have hd : (0 : ℚ) < den := by exact_mod_cast hden
  have hratio : (num : ℚ) / den = (num / den : Nat) + (num % den : Nat) / den := by
    rw [div_eq_iff hd.ne', add_mul, div_mul_cancel₀ _ hd.ne']
    exact_mod_cast (Nat.div_add_mod' num den).symm
  rw [hratio]
  generalize hq : num / den = quotient
  generalize hr : num % den = rest
  have hpos : (0 : ℚ) ≤ rest / den := by positivity
  have hone : (rest : ℚ) / den < 1 := by
    rw [div_lt_one hd]
    exact_mod_cast hr ▸ Nat.mod_lt num hden
  have hlt : (rest : ℚ) / den < 1 / 2 ↔ 2 * rest < den := by
    rw [div_lt_div_iff₀ hd two_pos, one_mul, mul_comm]
    exact_mod_cast Iff.rfl
  have hgt : 1 / 2 < (rest : ℚ) / den ↔ den < 2 * rest := by
    rw [div_lt_div_iff₀ two_pos hd, one_mul, mul_comm]
    exact_mod_cast Iff.rfl
  unfold nearest
  simp only [hq, hr]
  by_cases hbelow : 2 * rest < den
  · have hfar := hlt.2 hbelow
    rw [if_pos hbelow, sub_add_cancel_left, abs_neg, abs_of_nonneg hpos]
    exact ⟨hfar.le, fun h => absurd h hfar.ne⟩
  · by_cases habove : den < 2 * rest
    · have hfar := hgt.2 habove
      rw [if_neg hbelow, if_pos habove, Nat.cast_succ, add_sub_add_left_eq_sub,
        abs_of_pos (by linarith)]
      exact ⟨by linarith, fun h => absurd h (by linarith)⟩
    · have hhalf : (rest : ℚ) / den = 1 / 2 :=
        le_antisymm (not_lt.1 fun h => habove (hgt.1 h)) (not_lt.1 fun h => hbelow (hlt.1 h))
      rw [if_neg hbelow, if_neg habove, hhalf]
      split
      · rename_i heven
        refine ⟨?_, fun _ => Nat.even_iff.2 (beq_iff_eq.1 heven)⟩
        rw [sub_add_cancel_left, abs_neg, abs_of_pos (by norm_num)]
      · rename_i hodd
        refine ⟨?_, fun _ => ?_⟩
        · rw [Nat.cast_succ, add_sub_add_left_eq_sub, abs_of_pos (by norm_num)]
          norm_num
        · rw [Nat.even_add_one, Nat.even_iff]
          exact fun heven => hodd (beq_iff_eq.2 heven)

/-- No natural number is nearer to a ratio, and if another is as near, the nearest is even. -/
theorem nearest_least (num : Nat) (hden : 0 < den) (k : Nat) :
    |(nearest num den : ℚ) - num / den| ≤ |(k : ℚ) - num / den| ∧
      (k ≠ nearest num den → |(k : ℚ) - num / den| = |(nearest num den : ℚ) - num / den| →
        Even (nearest num den)) := by
  obtain ⟨hhalf, heven⟩ := abs_nearest_sub num hden
  generalize nearest num den = m at *
  by_cases hk : k = m
  · exact ⟨by rw [hk], fun h => absurd hk h⟩
  · have hapart : (1 : ℚ) ≤ |(k : ℚ) - m| := by
      exact_mod_cast Int.one_le_abs (sub_ne_zero.2 (Int.natCast_inj.not.2 hk))
    have htriangle := abs_sub_le (k : ℚ) (num / den) m
    rw [abs_sub_comm (num / den : ℚ)] at htriangle
    exact ⟨by linarith, fun _ h => heven (le_antisymm hhalf (by linarith))⟩

theorem scaleDown_spec (num : Nat) (hden : 0 < den) (e : Int) : 0 < (scaleDown num den e).2 ∧
    ((scaleDown num den e).1 : ℚ) / (scaleDown num den e).2 = num / den / 2 ^ e := by
  unfold scaleDown
  simp only [Nat.pow_eq]
  split
  · rename_i he
    obtain ⟨n, rfl⟩ := Int.eq_ofNat_of_zero_le he
    refine ⟨by positivity, ?_⟩
    simp [div_div]
  · rename_i he
    obtain ⟨n, hn⟩ := Int.eq_ofNat_of_zero_le (a := -e) (by omega)
    obtain rfl : e = -n := by omega
    refine ⟨hden, ?_⟩
    simp [div_mul_eq_mul_div]

/-- The power of two of the leading digit of a ratio. -/
theorem magnitude_spec (hnum : 0 < num) (hden : 0 < den) :
    (2 : ℚ) ^ magnitude num den ≤ num / den ∧ (num : ℚ) / den < 2 ^ (magnitude num den + 1) := by
  have hd : (0 : ℚ) < den := by exact_mod_cast hden
  have hnumLow : (2 : ℚ) ^ (num.log2 : Int) ≤ num := by
    exact_mod_cast Nat.log2_self_le hnum.ne'
  have hnumHigh : (num : ℚ) < 2 ^ ((num.log2 : Int) + 1) := by
    exact_mod_cast Nat.lt_log2_self (n := num)
  have hdenLow : (2 : ℚ) ^ (den.log2 : Int) ≤ den := by
    exact_mod_cast Nat.log2_self_le hden.ne'
  have hdenHigh : (den : ℚ) < 2 ^ ((den.log2 : Int) + 1) := by
    exact_mod_cast Nat.lt_log2_self (n := den)
  unfold magnitude
  generalize hk : (num.log2 : Int) - den.log2 = k
  obtain ⟨hpos, hscaled⟩ := scaleDown_spec num hden k
  have hle : (scaleDown num den k).2 ≤ (scaleDown num den k).1 ↔ (2 : ℚ) ^ k ≤ num / den := by
    rw [← one_le_div₀ (by positivity : (0 : ℚ) < 2 ^ k), ← hscaled, one_le_div₀ (by exact_mod_cast hpos)]
    exact_mod_cast Iff.rfl
  have hlow : (2 : ℚ) ^ (k - 1) ≤ num / den := by
    rw [le_div_iff₀ hd]
    calc (2 : ℚ) ^ (k - 1) * den ≤ 2 ^ (k - 1) * 2 ^ ((den.log2 : Int) + 1) := by gcongr
      _ = 2 ^ (num.log2 : Int) := by
        rw [← zpow_add₀ (by norm_num)]
        congr 1
        omega
      _ ≤ num := hnumLow
  have hhigh : (num : ℚ) / den < 2 ^ (k + 1) := by
    rw [div_lt_iff₀ hd]
    calc (num : ℚ) < 2 ^ ((num.log2 : Int) + 1) := hnumHigh
      _ = 2 ^ (k + 1) * 2 ^ (den.log2 : Int) := by
        rw [← zpow_add₀ (by norm_num)]
        congr 1
        omega
      _ ≤ 2 ^ (k + 1) * den := by gcongr
  dsimp only
  split
  · rename_i h
    exact ⟨hle.1 h, hhigh⟩
  · rename_i h
    rw [sub_add_cancel]
    exact ⟨hlow, not_le.1 fun hk => h (hle.2 hk)⟩

/-- In units of the exponent that `round?` takes, a ratio has the digits of a significand. -/
theorem unit_spec (hnum : 0 < num) (hden : 0 < den) (he : max (magnitude num den - 52) (-1074) = e) :
    (num : ℚ) / den < 2 ^ 53 * 2 ^ e ∧ (-1074 < e → 2 ^ 52 * 2 ^ e ≤ (num : ℚ) / den) := by
  obtain ⟨hlow, hhigh⟩ := magnitude_spec hnum hden
  refine ⟨hhigh.trans_le ?_, fun hunit => le_trans (le_of_eq ?_) hlow⟩
  · rw [← zpow_natCast, ← zpow_add₀ (by norm_num)]
    exact zpow_le_zpow_right₀ (by norm_num) (by push_cast; omega)
  · rw [← zpow_natCast, ← zpow_add₀ (by norm_num)]
    congr 1
    push_cast
    omega

/-- What `round?` makes of a ratio: the ratio in units of some power of two, to the nearest natural
number, where the ratio has its leading digit at the top unless the unit is the least. -/
theorem round?_eq_some (hnum : 0 < num) (hden : 0 < den) {negative : Bool}
    (h : round? negative num den = some x) : ∃ (n d : Nat) (e : Int), 0 < d ∧ (n : ℚ) / d = num / den / 2 ^ e ∧
      (-1074 < e → 2 ^ 52 * 2 ^ e ≤ (num : ℚ) / den) ∧ x.negative = negative ∧
      x.size = nearest n d * 2 ^ e ∧ (Even (nearest n d) → Even x.significand) := by
  rw [round?, if_neg (by simpa using hnum.ne')] at h
  dsimp only at h
  generalize he : max (magnitude num den - 52) (-1074) = e at h
  obtain ⟨hpos, hscaled⟩ := scaleDown_spec num hden e
  refine ⟨_, _, e, hpos, hscaled, (unit_spec hnum hden he).2, ?_⟩
  generalize nearest _ _ = m at h ⊢
  split at h
  · rename_i hcarry
    rw [ofParts?] at h
    split at h
    · cases h
      obtain rfl : m = 2 ^ 53 := by simpa using hcarry
      refine ⟨rfl, ?_, fun _ => (by decide : Even (Nat.pow 2 52))⟩
      rw [size, zpow_add_one₀ (by norm_num)]
      simp only [Nat.pow_eq]
      push_cast
      ring
    · cases h
  · rw [ofParts?] at h
    split at h
    · cases h
      exact ⟨rfl, rfl, id⟩
    · cases h

/-- No double is nearer in size than the rounding, and if another is as near, the significand is
even. -/
theorem size_round? (hnum : 0 < num) (hden : 0 < den) {negative : Bool}
    (h : round? negative num den = some x) (y : Binary64) :
    |x.size - num / den| ≤ |y.size - num / den| ∧
      (y.size ≠ x.size → |y.size - num / den| = |x.size - num / den| → Even x.significand) := by
  obtain ⟨n, d, e, hd, hscaled, hlead, -, hsize, heven⟩ := round?_eq_some hnum hden h
  have hunit : (0 : ℚ) < 2 ^ e := by positivity
  have hratio : (num : ℚ) / den = n / d * 2 ^ e := by rw [hscaled, div_mul_cancel₀ _ hunit.ne']
  have hmultiple : ∀ k : Nat, |(k : ℚ) * 2 ^ e - num / den| = |(k : ℚ) - n / d| * 2 ^ e := by
    intro k
    rw [hratio, ← sub_mul, abs_mul, abs_of_pos hunit]
  rw [hsize, hmultiple]
  rcases le_or_gt e y.exponent with hle | hlt
  · obtain ⟨k, hk⟩ := exists_size hle
    obtain ⟨hleast, htie⟩ := nearest_least n hd k
    rw [hk, hmultiple]
    refine ⟨by gcongr, fun hne heq => heven (htie ?_ (mul_right_cancel₀ hunit.ne' heq))⟩
    rintro rfl
    exact hne rfl
  · -- it is below the least multiple with the leading digit, which the ratio is not
    have hbelow := size_lt hlt
    have habove := hlead (by have := y.normal.2.1; omega)
    obtain ⟨hleast, -⟩ := nearest_least n hd (2 ^ 52)
    have hfar : |((2 ^ 52 : Nat) : ℚ) - n / d| * 2 ^ e < |y.size - num / den| := by
      rw [← hmultiple]
      push_cast
      rw [abs_of_nonpos (by linarith), abs_of_neg (by linarith)]
      linarith
    have hnear := mul_le_mul_of_nonneg_right hleast hunit.le
    exact ⟨by linarith, fun _ heq => absurd heq (by linarith)⟩

theorem Nearest.neg (h : x.Nearest q) : x.neg.Nearest (-q) := by
  have hflip : ∀ y : Binary64, |y.value - -q| = |y.neg.value - q| := by
    intro y
    rw [value_neg, sub_neg_eq_add, ← abs_neg]
    congr 1
    ring
  have hsame : x.neg.neg.value = x.value := by simp
  constructor
  · intro y
    rw [hflip, hflip, hsame]
    exact h.least y.neg
  · intro y hne heq
    rw [hflip, hflip, hsame] at heq
    refine h.even y.neg (fun hv => hne ?_) heq
    rw [value_neg] at hv ⊢
    linarith

/-- For a number that is not negative, the sizes of doubles tell which one is nearest. -/
theorem nearest_of_size (hx : x.negative = false) (hq : 0 < q)
    (h : ∀ y : Binary64, |x.size - q| ≤ |y.size - q| ∧
      (y.size ≠ x.size → |y.size - q| = |x.size - q| → Even x.significand)) : x.Nearest q := by
  have hvalue : x.value = x.size := by rw [value, if_neg (by simp [hx])]
  have hfar : ∀ y : Binary64, |y.size - q| ≤ |y.value - q| := by
    intro y
    have := abs_abs_sub_abs_le y.value q
    rwa [abs_value, abs_of_pos hq] at this
  constructor
  · intro y
    rw [hvalue]
    exact (h y).1.trans (hfar y)
  · intro y hne heq
    rw [hvalue] at hne heq
    have hsame : |y.size - q| = |x.size - q| := le_antisymm (heq ▸ hfar y) (h y).1
    refine (h y).2 (fun hsize => hne ?_) hsame
    cases hy : y.negative with
    | false => simp [value, hy, hsize]
    | true =>
      -- of two doubles of one size the negative one is further away, unless they are zero
      have hvalue : y.value = -x.size := by simp [value, hy, hsize]
      have hnonneg := x.size_nonneg
      have hzero : x.size = 0 := by
        rw [hvalue, ← neg_add', abs_neg, abs_of_pos (by linarith)] at heq
        rcases abs_cases (x.size - q) with ⟨habs, -⟩ | ⟨habs, -⟩ <;> linarith
      rw [hvalue, hzero, neg_zero]

/-- **Rounding to nearest, ties to even.** -/
theorem nearest_round? (hden : 0 < den) {negative : Bool} (h : round? negative num den = some x) :
    x.Nearest (if negative then -(num / den) else num / den) := by
  rcases Nat.eq_zero_or_pos num with rfl | hnum
  · rw [round?, if_pos (by simp)] at h
    cases h
    constructor
    · simp
    · exact fun _ _ _ => ⟨0, rfl⟩
  · have hratio : (0 : ℚ) < num / den := by positivity
    have hsize := size_round? hnum hden h
    obtain ⟨-, -, -, -, -, -, rfl, -, -⟩ := round?_eq_some hnum hden h
    cases hx : x.negative with
    | false => exact nearest_of_size hx hratio hsize
    | true =>
      have := nearest_of_size (x := x.neg) (by simp [Binary64.neg, hx]) hratio hsize
      simpa [Binary64.neg] using this.neg

/-! ## One nearest double -/

/-- Next to a double of an even significand stands one of an odd significand. -/
theorem exists_next (hx : Even x.significand) (hnonneg : 0 ≤ x.value) :
    ∃ z : Binary64, ¬Even z.significand ∧ x.value < z.value ∧
      ∀ y : Binary64, x.value < y.value → z.value ≤ y.value := by
  have hvx : x.value = x.size := by rw [← abs_value, abs_of_nonneg hnonneg]
  have hnormal : Normal (x.significand + 1) x.exponent := by
    obtain ⟨hbound, hlow, hhigh, hlead⟩ := x.normal
    obtain ⟨k, hk⟩ := hx
    refine ⟨?_, hlow, hhigh, ?_⟩ <;> simp only [Nat.pow_eq] at hbound hlead ⊢ <;> omega
  have hunit : (0 : ℚ) < 2 ^ x.exponent := by positivity
  refine ⟨⟨false, x.significand + 1, x.exponent, hnormal⟩, Nat.even_add_one.not.2 (not_not.2 hx), ?_⟩
  have hz : value ⟨false, x.significand + 1, x.exponent, hnormal⟩ = x.size + 2 ^ x.exponent := by
    simp [value, size, add_mul]
  rw [hz, hvx]
  refine ⟨by linarith, fun y hlt => ?_⟩
  have hvy : y.value = y.size := by rw [← abs_value, abs_of_pos (x.size_nonneg.trans_lt hlt)]
  rw [hvy] at hlt ⊢
  rcases le_or_gt x.exponent y.exponent with hle | hbelow
  · -- it is a multiple of the unit of the other one
    obtain ⟨k, hk⟩ := exists_size hle
    rw [hk, size] at hlt ⊢
    have hk : x.significand + 1 ≤ k := by
      exact_mod_cast lt_of_mul_lt_mul_right hlt hunit.le
    rw [← add_one_mul]
    gcongr
    exact_mod_cast hk
  · have := size_lt hbelow
    have := le_size (x := x) (by have := y.normal.2.1; omega)
    linarith

/-- Between two doubles of even significands lies another one. -/
theorem exists_between_of_even (hx : Even x.significand) (hy : Even y.significand)
    (hlt : x.value < y.value) : ∃ z : Binary64, x.value < z.value ∧ z.value < y.value := by
  have hbehind : ∀ {x y : Binary64}, Even x.significand → Even y.significand → 0 ≤ x.value →
      x.value < y.value → ∃ z : Binary64, x.value < z.value ∧ z.value < y.value := by
    intro x y hx hy hnonneg hlt
    obtain ⟨z, hz, hxz, hnext⟩ := exists_next hx hnonneg
    refine ⟨z, hxz, (hnext y hlt).lt_of_ne fun hsame => hz ?_⟩
    have hsize : z.size = y.size := by rw [← abs_value, ← abs_value, hsame]
    rwa [(form_eq hsize).1]
  rcases le_or_gt 0 x.value with hnonneg | hneg
  · exact hbehind hx hy hnonneg hlt
  · rcases lt_or_ge 0 y.value with hpos | hnonpos
    · exact ⟨zero false, by simpa using hneg, by simpa using hpos⟩
    · obtain ⟨z, hyz, hzx⟩ := hbehind (x := y.neg) (y := x.neg) hy hx (by simpa using hnonpos)
        (by simpa using hlt)
      refine ⟨z.neg, ?_, ?_⟩ <;> rw [value_neg] at * <;> linarith

/-- What is nearest to a number is one value. -/
theorem Nearest.unique (hx : x.Nearest q) (hy : y.Nearest q) : x.value = y.value := by
  have hnotlt : ∀ {x y : Binary64}, x.Nearest q → y.Nearest q → ¬x.value < y.value := by
    intro x y hx hy hlt
    have hsame : |y.value - q| = |x.value - q| := le_antisymm (hy.least x) (hx.least y)
    obtain ⟨z, hxz, hzy⟩ := exists_between_of_even (hx.even y hlt.ne' hsame)
      (hy.even x hlt.ne hsame.symm) hlt
    -- the number is halfway between the two, so what lies between them is nearer
    have hhalf : y.value - q = -(x.value - q) := by
      rcases abs_eq_abs.1 hsame with heq | heq
      · exact absurd hlt (by linarith)
      · exact heq
    have hz : |z.value - q| < |x.value - q| := by
      rw [abs_of_neg (a := x.value - q) (by linarith), abs_lt]
      constructor <;> linarith
    exact absurd (hx.least z) (not_le.2 hz)
  exact le_antisymm (not_lt.1 (hnotlt hy hx)) (not_lt.1 (hnotlt hx hy))

/-- A number that a double denotes is its own rounding. -/
theorem Nearest.exact (h : x.Nearest y.value) : x.value = y.value := by
  have := h.least y
  rw [sub_self, abs_zero] at this
  exact sub_eq_zero.1 (abs_nonpos_iff.1 this)

theorem Nearest.congr (h : x.Nearest q) (hvalue : x.value = y.value) : y.Nearest q := by
  have hsignificand : y.significand = x.significand :=
    (form_eq (by rw [← abs_value, ← abs_value, hvalue])).1
  exact ⟨fun z => hvalue ▸ h.least z, fun z hne heq => by
    rw [hsignificand]
    exact h.even z (hvalue ▸ hne) (hvalue ▸ heq)⟩

/-! ## Rounding an integer -/

theorem nearest_ofInt? {i : Int} (h : ofInt? i = some x) : x.Nearest i := by
  have hnearest := nearest_round? Nat.one_pos h
  have hsigned : (if i < 0 then -(i.natAbs / (1 : Nat) : ℚ) else i.natAbs / (1 : Nat)) = i := by
    rw [Nat.cast_one, div_one, Nat.cast_natAbs]
    split
    · rename_i hneg
      rw [abs_of_neg hneg]
      simp
    · rename_i hnonneg
      rw [abs_of_nonneg (not_lt.1 hnonneg)]
  simpa only [decide_eq_true_eq, hsigned] using hnearest

theorem nearest_bounds (num den : Nat) :
    num / den ≤ nearest num den ∧ nearest num den ≤ num / den + 1 := by
  unfold nearest
  dsimp only
  split
  · omega
  · split
    · omega
    · split <;> omega

/-- A ratio below `2 ^ 1023` is not beyond the doubles. -/
theorem exists_round? (hden : 0 < den) (h : (num : ℚ) / den < 2 ^ 1023) (negative : Bool) :
    ∃ x, round? negative num den = some x := by
  rcases Nat.eq_zero_or_pos num with rfl | hnum
  · exact ⟨zero negative, rfl⟩
  · have hmagnitude : magnitude num den < 1023 := by
      have : (2 : ℚ) ^ magnitude num den < 2 ^ (1023 : Int) :=
        (magnitude_spec hnum hden).1.trans_lt (by exact_mod_cast h)
      exact (zpow_lt_zpow_iff_right₀ (by norm_num)).1 this
    rw [round?, if_neg (by simpa using hnum.ne')]
    dsimp only
    generalize he : max (magnitude num den - 52) (-1074) = e
    obtain ⟨hpos, hscaled⟩ := scaleDown_spec num hden e
    obtain ⟨hbelow, hlead⟩ := unit_spec hnum hden he
    have hratio : (num : ℚ) / den = (scaleDown num den e).1 / (scaleDown num den e).2 * 2 ^ e := by
      rw [hscaled, div_mul_cancel₀ _ (by positivity)]
    generalize (scaleDown num den e).1 = n at *
    generalize (scaleDown num den e).2 = d at *
    have hd : (0 : ℚ) < d := by exact_mod_cast hpos
    -- the whole part has the digits of a significand, so the rounding has them or carries
    have hwhole : n / d < 2 ^ 53 := by
      rw [hratio] at hbelow
      have := (div_lt_iff₀ hd).1 (lt_of_mul_lt_mul_right hbelow (by positivity))
      exact (Nat.div_lt_iff_lt_mul hpos).2 (by exact_mod_cast this)
    have htop : -1074 < e → 2 ^ 52 ≤ n / d := by
      intro hunit
      have hle := hlead hunit
      rw [hratio] at hle
      have := (le_div_iff₀ hd).1 (le_of_mul_le_mul_right hle (by positivity))
      exact (Nat.le_div_iff_mul_le hpos).2 (by exact_mod_cast this)
    obtain ⟨hlow, hhigh⟩ := nearest_bounds n d
    generalize nearest n d = m at *
    split
    · exact ⟨_, dif_pos ⟨by decide, by omega, by omega, .inl (by decide)⟩⟩
    · rename_i hcarry
      have hcarry : m ≠ 2 ^ 53 := by simpa using hcarry
      refine ⟨_, dif_pos ⟨?_, by omega, by omega, ?_⟩⟩ <;> simp only [Nat.pow_eq] <;> omega

theorem exists_ofInt? {i : Int} (h : i.natAbs ≤ 2 ^ 64) : ∃ x, ofInt? i = some x := by
  refine exists_round? Nat.one_pos ?_ _
  rw [Nat.cast_one, div_one]
  calc (i.natAbs : ℚ) ≤ 2 ^ 64 := by exact_mod_cast h
    _ < 2 ^ 1023 := pow_lt_pow_right₀ one_lt_two (by decide)

/-- Natural numbers up to `2 ^ 53` are doubles. -/
theorem exists_value_nat {n : Nat} (h : n ≤ 2 ^ 53) : ∃ x : Binary64, x.value = n := by
  rcases Nat.eq_zero_or_pos n with rfl | hpos
  · exact ⟨zero false, by simp⟩
  · rcases h.eq_or_lt with rfl | hlt
    · exact ⟨⟨false, 2 ^ 52, 1, by decide⟩, by norm_num [value, size]⟩
    · -- the leading digit moves to the top
      have hlog : n.log2 < 53 := (Nat.log2_lt hpos.ne').2 hlt
      obtain ⟨j, hj⟩ : ∃ j, n.log2 + j = 52 := ⟨52 - n.log2, by omega⟩
      have hnormal : Normal (n * 2 ^ j) (-j) := by
        refine ⟨?_, by omega, by omega, .inl ?_⟩ <;> simp only [Nat.pow_eq]
        · calc n * 2 ^ j < 2 ^ (n.log2 + 1) * 2 ^ j := by
                gcongr
                exact Nat.lt_log2_self
            _ = 2 ^ 53 := by
                rw [← Nat.pow_add]
                congr 1
                omega
        · calc 2 ^ 52 = 2 ^ n.log2 * 2 ^ j := by rw [← Nat.pow_add, hj]
            _ ≤ n * 2 ^ j := by
                gcongr
                exact Nat.log2_self_le hpos.ne'
      exact ⟨⟨false, n * 2 ^ j, -j, hnormal⟩, by simp [value, size]⟩

/-- Integers from `-2 ^ 53` to `2 ^ 53` are doubles. -/
theorem exists_value_int {i : Int} (h : i.natAbs ≤ 2 ^ 53) : ∃ x : Binary64, x.value = i := by
  obtain ⟨x, hx⟩ := exists_value_nat h
  have hcast : (i.natAbs : ℚ) = ((i.natAbs : Int) : ℚ) := rfl
  rcases Int.natAbs_eq i with hi | hi
  · exact ⟨x, by rw [hx, hcast, ← hi]⟩
  · exact ⟨x.neg, by rw [value_neg, hx, hcast, ← Int.cast_neg, ← hi]⟩

end Binary64

end PropertyGraph
