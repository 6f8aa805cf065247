import Mathlib.Data.Int.Log
import Mathlib.Algebra.Order.Field.Power
import Mathlib.Algebra.Order.Floor.Semifield
import Mathlib.Data.Rat.Floor
import Mathlib.Tactic.FieldSimp
import Mathlib.Tactic.Linarith
import Mathlib.Tactic.NormNum
import Mathlib.Tactic.Positivity
import Mathlib.Tactic.Ring
import ViewLint.Number.Decimal

/-!
# Rounding to double precision

The number nearest to a fraction depends on the value of the fraction alone, and a finite number is the
one nearest to its own value. So the digits that are chosen for a number read back as that number,
wherever their point stands.

* **`Binary64.ofRatio_congr`**, **`Binary64.ofRatio_parts`**: the nearest number, and the numbers that are
  their own.
* **`Binary64.ofDecimal_shortest`**: the shortest digits of a finite number read back as the number.
-/

namespace ViewLint

/-! ## Quotients -/

theorem roundDiv_mul_right (num den : Nat) {k : Nat} (hk : 0 < k) :
    roundDiv (num * k) (den * k) = roundDiv num den := by
  have hlt : den * k < 2 * (num % den * k) ↔ den < 2 * (num % den) := by
    rw [← Nat.mul_assoc]
    exact Nat.mul_lt_mul_right hk
  have heq : 2 * (num % den * k) = den * k ↔ 2 * (num % den) = den := by
    rw [← Nat.mul_assoc]
    exact Nat.mul_left_inj hk.ne'
  simp only [roundDiv, Nat.mul_div_mul_right _ _ hk, Nat.mul_mod_mul_right, hlt, beq_eq_decide, heq]

/-- A rounded quotient depends on the value of the fraction alone. -/
theorem roundDiv_congr {num den num' den' : Nat} (hden : 0 < den) (hden' : 0 < den')
    (h : num * den' = num' * den) : roundDiv num den = roundDiv num' den' := by
  rw [← roundDiv_mul_right num den hden', ← roundDiv_mul_right num' den' hden, h, Nat.mul_comm den den']

theorem roundDiv_mul_self (m : Nat) {den : Nat} (hden : 0 < den) : roundDiv (m * den) den = m := by
  simp [roundDiv, Nat.mul_div_cancel m hden, hden.ne]

/-! ## Counting digits -/

theorem length_natDigits_le_iff {n k : Nat} (hk : 0 < k) : (natDigits n).length ≤ k ↔ n < Nat.pow 10 k := by
  rw [natDigits, List.length_map]
  exact Nat.length_toDigits_le_iff (by decide) hk

theorem length_natDigits_pos (n : Nat) : 0 < (natDigits n).length := by
  rw [natDigits, List.length_map]
  exact Nat.length_toDigits_pos

theorem lt_pow_length (n : Nat) : n < Nat.pow 10 (natDigits n).length :=
  (length_natDigits_le_iff (length_natDigits_pos n)).mp (Nat.le_refl _)

theorem pow_length_le {n : Nat} (hn : n ≠ 0) : Nat.pow 10 ((natDigits n).length - 1) ≤ n := by
  rcases Nat.eq_zero_or_pos ((natDigits n).length - 1) with hzero | hpos
  · rw [hzero]
    exact Nat.pos_of_ne_zero hn
  · by_contra hlt
    have := (length_natDigits_le_iff hpos).mpr (Nat.lt_of_not_le hlt)
    omega

theorem length_natDigits_mul_pow {n : Nat} (hn : n ≠ 0) (k : Nat) :
    (natDigits (n * Nat.pow 10 k)).length = (natDigits n).length + k := by
  have hpos := length_natDigits_pos n
  have hpow : 0 < Nat.pow 10 k := Nat.pow_pos (by decide)
  apply Nat.le_antisymm
  · rw [length_natDigits_le_iff (by omega)]
    calc n * Nat.pow 10 k < Nat.pow 10 (natDigits n).length * Nat.pow 10 k :=
          Nat.mul_lt_mul_of_pos_right (lt_pow_length n) hpow
      _ = Nat.pow 10 ((natDigits n).length + k) := (Nat.pow_add 10 _ k).symm
  · have hlt : Nat.pow 10 ((natDigits n).length - 1 + k) < Nat.pow 10 (natDigits (n * Nat.pow 10 k)).length :=
      calc Nat.pow 10 ((natDigits n).length - 1 + k)
          = Nat.pow 10 ((natDigits n).length - 1) * Nat.pow 10 k := Nat.pow_add 10 _ k
        _ ≤ n * Nat.pow 10 k := Nat.mul_le_mul_right _ (pow_length_le hn)
        _ < _ := lt_pow_length _
    have := (Nat.pow_lt_pow_iff_right (by decide)).mp hlt
    omega

/-- How many digits a scaled number has, by bounds of the number and of the scale. -/
theorem length_natDigits_mul {n high : Nat} (scale low top : Nat) (hn : 0 < n) (hhigh : n < high) (hpos : 0 < low)
    (hlow : Nat.pow 10 low ≤ scale) (htop : high * scale ≤ Nat.pow 10 top) :
    low < (natDigits (n * scale)).length ∧ (natDigits (n * scale)).length ≤ top := by
  have hscale : 0 < scale := Nat.lt_of_lt_of_le (Nat.pow_pos (by decide)) hlow
  have hlt : n * scale < Nat.pow 10 top := Nat.lt_of_lt_of_le (Nat.mul_lt_mul_of_pos_right hhigh hscale) htop
  constructor
  · by_contra hle
    have := (length_natDigits_le_iff hpos).mp (Nat.not_lt.mp hle)
    exact absurd (hlow.trans (Nat.le_mul_of_pos_left scale hn)) (Nat.not_le.mpr this)
  · rcases Nat.eq_zero_or_pos top with rfl | htop
    · exact absurd (Nat.lt_one_iff.mp hlt) (Nat.mul_pos hn hscale).ne'
    · exact (length_natDigits_le_iff htop).mpr hlt

namespace Binary64

variable {e : Fin 2047} {num den : Nat} {f : Fin (Nat.pow 2 52)}

/-! ## Spacing -/

theorem log_eq_of_le_of_lt {r : ℚ} {k : ℤ} (hle : (2 : ℚ) ^ k ≤ r) (hlt : r < 2 ^ (k + 1)) : Int.log 2 r = k := by
  have hpos : 0 < r := lt_of_lt_of_le (by positivity) hle
  have h₁ : k ≤ Int.log 2 r := (Int.zpow_le_iff_le_log (by decide) hpos).mp (by exact_mod_cast hle)
  have h₂ : Int.log 2 r < k + 1 := (Int.lt_zpow_iff_log_lt (by decide) hpos).mp (by exact_mod_cast hlt)
  omega

/-- The logarithm of a fraction, but for one, is the difference of the logarithms of its sides. -/
theorem log_div_bounds (hnum : num ≠ 0) (hden : den ≠ 0) :
    (2 : ℚ) ^ ((num.log2 : ℤ) - den.log2 - 1) ≤ (num : ℚ) / den ∧
      (num : ℚ) / den < 2 ^ ((num.log2 : ℤ) - den.log2 + 1) := by
  have hn : (2 : ℚ) ^ (num.log2 : ℤ) ≤ num := by exact_mod_cast Nat.log2_self_le hnum
  have hn' : (num : ℚ) < 2 ^ ((num.log2 : ℤ) + 1) := by exact_mod_cast Nat.lt_log2_self (n := num)
  have hd : (2 : ℚ) ^ (den.log2 : ℤ) ≤ den := by exact_mod_cast Nat.log2_self_le hden
  have hd' : (den : ℚ) < 2 ^ ((den.log2 : ℤ) + 1) := by exact_mod_cast Nat.lt_log2_self (n := den)
  have hpos : (0 : ℚ) < den := by exact_mod_cast Nat.pos_of_ne_zero hden
  constructor
  · rw [le_div_iff₀ hpos]
    calc (2 : ℚ) ^ ((num.log2 : ℤ) - den.log2 - 1) * den
        ≤ 2 ^ ((num.log2 : ℤ) - den.log2 - 1) * 2 ^ ((den.log2 : ℤ) + 1) := by gcongr
      _ = 2 ^ (num.log2 : ℤ) := by rw [← zpow_add₀ (by norm_num)]; congr 1; ring
      _ ≤ num := hn
  · rw [div_lt_iff₀ hpos]
    calc (num : ℚ) < 2 ^ ((num.log2 : ℤ) + 1) := hn'
      _ = 2 ^ ((num.log2 : ℤ) - den.log2 + 1) * 2 ^ (den.log2 : ℤ) := by
        rw [← zpow_add₀ (by norm_num)]; congr 1; ring
      _ ≤ 2 ^ ((num.log2 : ℤ) - den.log2 + 1) * den := by gcongr

/-- Two sides of a fraction, shifted by a power of two to where whole numbers stand. -/
theorem shifted_lt_iff (hden : den ≠ 0) (k : ℤ) :
    (if k < 0 then num * Nat.pow 2 (-k).toNat else num) <
        (if k < 0 then den else den * Nat.pow 2 k.toNat) * Nat.pow 2 52 ↔ (num : ℚ) / den < 2 ^ (k + 52) := by
  have hpos : (0 : ℚ) < den := by exact_mod_cast Nat.pos_of_ne_zero hden
  rw [div_lt_iff₀ hpos]
  by_cases hk : k < 0
  · obtain ⟨j, rfl⟩ : ∃ j : ℕ, k = -j := ⟨(-k).toNat, by omega⟩
    have hj : (0 : ℚ) < 2 ^ j := by positivity
    rw [if_pos hk, if_pos hk, neg_neg, Int.toNat_natCast, zpow_add₀ (by norm_num), zpow_neg, zpow_natCast,
      mul_assoc, inv_mul_eq_div, lt_div_iff₀ hj, ← Nat.cast_lt (α := ℚ)]
    simp only [Nat.pow_eq]
    push_cast
    rw [mul_comm (den : ℚ)]
  · obtain ⟨j, rfl⟩ : ∃ j : ℕ, k = j := ⟨k.toNat, by omega⟩
    rw [if_neg hk, if_neg hk, Int.toNat_natCast, zpow_add₀ (by norm_num), zpow_natCast, ← Nat.cast_lt (α := ℚ)]
    simp only [Nat.pow_eq]
    push_cast
    rw [mul_assoc, mul_comm (den : ℚ)]

theorem spacing_eq (hnum : num ≠ 0) (hden : den ≠ 0) :
    spacing num den = (Int.log 2 ((num : ℚ) / den) + 1022).toNat := by
  obtain ⟨hlow, hhigh⟩ := log_div_bounds hnum hden
  simp only [spacing, shifted_lt_iff hden, sub_add_cancel]
  split
  · rename_i hlt
    rw [log_eq_of_le_of_lt hlow (by rwa [sub_add_cancel])]
    congr 1
    ring
  · rename_i hge
    rw [log_eq_of_le_of_lt (not_lt.mp hge) hhigh]
    congr 1
    ring

/-! ## The nearest number -/

theorem two_pow_pos (k : Nat) : 0 < Nat.pow 2 k := Nat.pow_pos (by decide)

theorem denominator_pos : 0 < denominator := by
  unfold denominator
  apply two_pow_pos

theorem ofRatio_of_ne_zero (negative : Bool) (den : Nat) (h : num ≠ 0) :
    ofRatio negative num den = ofIndex negative (spacing num den * Nat.pow 2 52 +
      roundDiv (num * denominator) (den * Nat.pow 2 (spacing num den))) := by
  unfold denominator
  exact if_neg h

/-- **The number nearest to a fraction depends on the value of the fraction alone.** -/
theorem ofRatio_congr (negative : Bool) {num' den' : Nat} (hden : 0 < den) (hden' : 0 < den')
    (h : num * den' = num' * den) : ofRatio negative num den = ofRatio negative num' den' := by
  have hzero : num = 0 ↔ num' = 0 := by
    have := congrArg (· = 0) h
    simpa [hden.ne', hden'.ne'] using this
  by_cases hnum : num = 0
  · rw [ofRatio, ofRatio, if_pos hnum, if_pos (hzero.mp hnum)]
  have hnum' : num' ≠ 0 := mt hzero.mpr hnum
  have hvalue : (num : ℚ) / den = num' / den' := by
    rw [div_eq_div_iff (by exact_mod_cast hden.ne') (by exact_mod_cast hden'.ne')]
    exact_mod_cast h
  have hspacing : spacing num den = spacing num' den' := by
    rw [spacing_eq hnum hden.ne', spacing_eq hnum' hden'.ne', hvalue]
  have hround (q : Nat) : roundDiv (num * denominator) (den * Nat.pow 2 q) =
      roundDiv (num' * denominator) (den' * Nat.pow 2 q) := by
    apply roundDiv_congr (Nat.mul_pos hden (two_pow_pos q)) (Nat.mul_pos hden' (two_pow_pos q))
    calc num * denominator * (den' * Nat.pow 2 q)
        = num * den' * (denominator * Nat.pow 2 q) := by ring
      _ = num' * den * (denominator * Nat.pow 2 q) := by rw [h]
      _ = num' * denominator * (den * Nat.pow 2 q) := by ring
  rw [ofRatio_of_ne_zero negative den hnum, ofRatio_of_ne_zero negative den' hnum', hspacing, hround]

theorem ofIndex_index (negative : Bool) (e : Fin 2047) (f : Fin (Nat.pow 2 52)) :
    ofIndex negative (index e f) = .finite negative e f := by
  have hdiv : index e f / Nat.pow 2 52 = e.val := by
    rw [index, Nat.mul_comm, Nat.mul_add_div (by decide), Nat.div_eq_of_lt f.isLt, Nat.add_zero]
  have hmod : index e f % Nat.pow 2 52 = f.val := by
    rw [index, Nat.mul_comm, Nat.mul_add_mod, Nat.mod_eq_of_lt f.isLt]
  simp only [ofIndex, hdiv, hmod, e.isLt, dif_pos]

/-- A whole number of units of `2 ^ (q - 1074)`, as a rational. -/
theorem mul_pow_div_denominator (m q : Nat) :
    ((m * Nat.pow 2 q : Nat) : ℚ) / denominator = m * 2 ^ ((q : ℤ) - 1074) := by
  have hpow (k : Nat) : ((Nat.pow 2 k : Nat) : ℚ) = 2 ^ (k : ℤ) := by
    rw [Nat.pow_eq, Nat.cast_pow, zpow_natCast]
    rfl
  rw [← Nat.cast_ofNat (R := ℤ)]
  unfold denominator
  generalize 1074 = k
  rw [Nat.cast_mul, hpow, hpow, mul_div_assoc, zpow_sub₀ (by norm_num)]

/-- A number of at most 53 binary digits that are counted in a unit, and as many of them unless the unit
is the least one, has that unit as the spacing around it. -/
theorem spacing_mul_pow {m q : Nat} (hm : m ≠ 0) (hhigh : m < Nat.pow 2 53) (hlow : Nat.pow 2 52 ≤ m ∨ q = 0) :
    spacing (m * Nat.pow 2 q) denominator = q := by
  have hnum : m * Nat.pow 2 q ≠ 0 := Nat.mul_ne_zero hm (two_pow_pos q).ne'
  have hpos : (0 : ℚ) < m * 2 ^ ((q : ℤ) - 1074) := by
    have : (0 : ℚ) < m := by exact_mod_cast Nat.pos_of_ne_zero hm
    positivity
  have hmul (k : ℤ) : (2 : ℚ) ^ k * 2 ^ ((q : ℤ) - 1074) = 2 ^ (q + k - 1074) := by
    rw [← zpow_add₀ (by norm_num)]
    congr 1
    ring
  have hlog : Int.log 2 ((m : ℚ) * 2 ^ ((q : ℤ) - 1074)) < q - 1021 := by
    rw [← Int.lt_zpow_iff_log_lt (by decide) hpos]
    calc (m : ℚ) * 2 ^ ((q : ℤ) - 1074) < 2 ^ (53 : ℤ) * 2 ^ ((q : ℤ) - 1074) := by
          gcongr
          exact_mod_cast hhigh
      _ = ((2 : ℕ) : ℚ) ^ ((q : ℤ) - 1021) := by rw [hmul]; congr 1; ring
  have hlog' : Nat.pow 2 52 ≤ m → q - 1022 ≤ Int.log 2 ((m : ℚ) * 2 ^ ((q : ℤ) - 1074)) := by
    intro hle
    rw [← Int.zpow_le_iff_le_log (by decide) hpos]
    calc ((2 : ℕ) : ℚ) ^ ((q : ℤ) - 1022) = 2 ^ (52 : ℤ) * 2 ^ ((q : ℤ) - 1074) := by
          rw [hmul]; congr 1; ring
      _ ≤ m * 2 ^ ((q : ℤ) - 1074) := by
          gcongr
          exact_mod_cast hle
  rw [spacing_eq hnum denominator_pos.ne', mul_pow_div_denominator]
  rcases hlow with hle | rfl
  · have := hlog' hle
    omega
  · omega

theorem parts_lt (e : Fin 2047) (f : Fin (Nat.pow 2 52)) : (parts e f).1 < Nat.pow 2 53 := by
  have := f.isLt
  unfold parts
  split
  · exact this.trans (by decide)
  · simp only [Nat.pow_eq] at *
    omega

theorem parts_le (e : Fin 2047) (f : Fin (Nat.pow 2 52)) : Nat.pow 2 52 ≤ (parts e f).1 ∨ (parts e f).2 = 0 := by
  unfold parts
  split
  · exact .inr rfl
  · exact .inl (Nat.le_add_right _ _)

theorem parts_index (e : Fin 2047) (f : Fin (Nat.pow 2 52)) :
    (parts e f).2 * Nat.pow 2 52 + (parts e f).1 = index e f := by
  unfold parts index
  split
  · simp [*]
  · simp only [Nat.pow_eq]
    omega

theorem index_eq_zero (h : (parts e f).1 = 0) : index e f = 0 := by
  rw [← parts_index, h]
  rcases parts_le e f with hle | hq
  · rw [h] at hle
    exact absurd hle (by decide)
  · rw [hq, Nat.zero_mul]

theorem ofRatio_parts (negative : Bool) (e : Fin 2047) (f : Fin (Nat.pow 2 52)) :
    ofRatio negative ((parts e f).1 * Nat.pow 2 (parts e f).2) denominator = .finite negative e f := by
  by_cases hm : (parts e f).1 = 0
  · rw [hm, Nat.zero_mul, ofRatio, if_pos rfl, zero, ← index_eq_zero hm, ofIndex_index]
  · have hround (m q d : Nat) (hd : 0 < d) : roundDiv (m * Nat.pow 2 q * d) (d * Nat.pow 2 q) = m := by
      rw [Nat.mul_assoc, Nat.mul_comm d]
      exact roundDiv_mul_self m (Nat.mul_pos (two_pow_pos q) hd)
    rw [ofRatio_of_ne_zero negative _ (Nat.mul_ne_zero hm (two_pow_pos _).ne'),
      spacing_mul_pow hm (parts_lt e f) (parts_le e f), hround _ _ _ denominator_pos, parts_index, ofIndex_index]

/-! ## Decimals -/

/-- The fraction that a decimal in the range of the format writes. -/
theorem ofDecimal_eq_ofRatio (negative : Bool) {digits : Nat} {exponent : Int} (hdigits : digits ≠ 0)
    (hlow : -400 ≤ ((natDigits digits).length : Int) + exponent)
    (hhigh : ((natDigits digits).length : Int) + exponent ≤ 400) :
    ofDecimal negative digits exponent =
      ofRatio negative (digits * Nat.pow 10 exponent.toNat) (Nat.pow 10 (-exponent).toNat) := by
  rw [ofDecimal, if_neg hdigits, if_neg (by omega), if_neg (by omega)]
  split
  · have : exponent.toNat = 0 := by omega
    rw [this]
    exact congrArg (ofRatio negative · _) (Nat.mul_one digits).symm
  · have : (-exponent).toNat = 0 := by omega
    rw [this]

theorem ofDecimal_mul_pow (negative : Bool) (digits k : Nat) (exponent : Int) :
    ofDecimal negative (digits * Nat.pow 10 k) exponent = ofDecimal negative digits (exponent + k) := by
  by_cases hdigits : digits = 0
  · rw [hdigits, Nat.zero_mul]
    simp [ofDecimal]
  have hpow (j : Nat) : 0 < Nat.pow 10 j := Nat.pow_pos (by decide)
  have hscaled : digits * Nat.pow 10 k ≠ 0 := Nat.mul_ne_zero hdigits (hpow k).ne'
  have hlength := length_natDigits_mul_pow hdigits k
  by_cases hhigh : ((natDigits digits).length : Int) + (exponent + k) ≤ 400
  · by_cases hlow : -400 ≤ ((natDigits digits).length : Int) + (exponent + k)
    · rw [ofDecimal_eq_ofRatio negative hdigits hlow hhigh,
        ofDecimal_eq_ofRatio negative hscaled (by omega) (by omega)]
      apply ofRatio_congr negative (hpow _) (hpow _)
      have hexp : k + exponent.toNat + (-(exponent + k)).toNat = (exponent + k).toNat + (-exponent).toNat := by omega
      calc digits * Nat.pow 10 k * Nat.pow 10 exponent.toNat * Nat.pow 10 (-(exponent + k)).toNat
          = digits * 10 ^ (k + exponent.toNat + (-(exponent + k)).toNat) := by simp only [Nat.pow_eq]; ring
        _ = digits * Nat.pow 10 (exponent + k).toNat * Nat.pow 10 (-exponent).toNat := by
          rw [hexp]; simp only [Nat.pow_eq]; ring
    · simp only [ofDecimal, hlength]
      rw [if_neg hscaled, if_neg hdigits, if_neg (by omega), if_pos (by omega), if_neg (by omega), if_pos (by omega)]
  · simp only [ofDecimal, hlength]
    rw [if_neg hscaled, if_neg hdigits, if_pos (by omega), if_pos (by omega)]

theorem parts_snd_le (e : Fin 2047) (f : Fin (Nat.pow 2 52)) : (parts e f).2 ≤ 2045 := by
  have := e.isLt
  unfold parts
  split
  · exact Nat.zero_le _
  · simp only
    omega

theorem parts_mul_lt (e : Fin 2047) (f : Fin (Nat.pow 2 52)) :
    (parts e f).1 * Nat.pow 2 (parts e f).2 < Nat.pow 2 53 * Nat.pow 2 2045 := by
  have hle := parts_snd_le e f
  generalize 2045 = k at hle ⊢
  exact Nat.lt_of_lt_of_le (Nat.mul_lt_mul_of_pos_right (parts_lt e f) (two_pow_pos _))
    (Nat.mul_le_mul_left _ (Nat.pow_le_pow_right (by decide) hle))

/-- **The exact decimal of a finite number reads back as the number.** -/
theorem ofDecimal_exactDecimal (negative : Bool) (h : (parts e f).1 ≠ 0) :
    ofDecimal negative (exactDecimal (parts e f).1 (parts e f).2).digits
      (exactDecimal (parts e f).1 (parts e f).2).exponent = .finite negative e f := by
  obtain ⟨hlow, hhigh⟩ := length_natDigits_mul (Nat.pow 5 1074) 673 1474
    (Nat.mul_pos (Nat.pos_of_ne_zero h) (two_pow_pos _)) (parts_mul_lt e f) (by decide) (by decide +kernel)
    (by decide +kernel)
  have hlow : 673 < (natDigits (exactDecimal (parts e f).1 (parts e f).2).digits).length := hlow
  have hhigh : (natDigits (exactDecimal (parts e f).1 (parts e f).2).digits).length ≤ 1474 := hhigh
  have hdigits : (exactDecimal (parts e f).1 (parts e f).2).digits ≠ 0 := by
    rintro hzero
    rw [hzero] at hlow
    exact absurd hlow (by decide)
  have hexponent : (exactDecimal (parts e f).1 (parts e f).2).exponent = -1074 := rfl
  have htoNat : (-1074 : Int).toNat = 0 ∧ (- -1074 : Int).toNat = 1074 := by decide
  rw [ofDecimal_eq_ofRatio negative hdigits (by omega) (by omega), ← ofRatio_parts negative e f, hexponent,
    htoNat.1, htoNat.2]
  apply ofRatio_congr negative (by apply Nat.pow_pos; decide) denominator_pos
  have hten (a k : Nat) : a * Nat.pow 5 k * Nat.pow 10 0 * Nat.pow 2 k = a * Nat.pow 10 k := by
    have := Nat.mul_pow 5 2 k
    simp only [Nat.pow_eq] at *
    rw [pow_zero, Nat.mul_one, Nat.mul_assoc, ← this]
  unfold exactDecimal denominator
  generalize 1074 = k
  exact hten _ k

theorem of_shortestOn {x : Binary64} {lead : Int} {counts : List Nat} {d : Decimal}
    (h : shortestOn x num den lead counts = some d) : ofDecimal x.isNegative d.digits d.exponent = x := by
  induction counts with
  | nil => cases h
  | cons count counts ih =>
    rw [shortestOn] at h
    split at h
    · rename_i found hfound
      cases h
      simpa using List.find?_some hfound
    · exact ih h

theorem ofDecimal_shortest (negative : Bool) (e : Fin 2047) (f : Fin (Nat.pow 2 52)) :
    ofDecimal negative (shortest negative e f).digits (shortest negative e f).exponent = .finite negative e f := by
  rw [shortest]
  split
  · rename_i hzero
    have hm : (parts e f).1 = 0 := (Nat.mul_eq_zero.mp hzero).resolve_right (two_pow_pos _).ne'
    rw [ofDecimal, if_pos rfl, zero, ← index_eq_zero hm, ofIndex_index]
  · rename_i hne
    have hm : (parts e f).1 ≠ 0 := fun hm => hne (by rw [hm, Nat.zero_mul])
    simp only
    split
    · rename_i d hd
      exact of_shortestOn hd
    · exact ofDecimal_exactDecimal negative hm

end Binary64

end ViewLint
