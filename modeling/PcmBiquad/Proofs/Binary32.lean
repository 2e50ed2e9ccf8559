import Mathlib
import PcmBiquad.Single
/-!
  Exact single-precision arithmetic on integers and powers of two.

  A `Float32` is read through `Single.value`, the logical binary32 model of core: a finite
  number is a sign, a mantissa `m` and an exponent `e`, denoting `± m · 2 ^ e`. The lemmas here
  follow the model's own steps — a rounding cut of the mantissa, the packing into bits and the
  loading back — on the inputs the sample codec feeds it, and arrive at the three facts it needs:

  * `value_ofInt` — an integer converts to the normal number that denotes `round24` of its
    magnitude, the magnitude rounded to 24 significant bits, to nearest with ties to even;
  * `value_div_pow_two`, `value_mul_pow_two` — dividing or multiplying by a power of two only
    moves the exponent, so both are exact while the result stays normal;
  * `truncClamp_ofInt`, `truncClamp_eq_bound_or_kept` — rounding a converted integer toward zero
    gives its rounding back, and whatever is rounded toward zero and clamped is a bound or an
    integer that 24 bits hold.

  A normal number has a mantissa of exactly 24 bits (`Normal`); on those the cut of the model is
  exact (`roundWithAccuracy_exact`), and on a longer mantissa it rounds to nearest, ties to even
  (`roundedMantissa_shift`).
-/

namespace PcmBiquad

open Float.Model (Format UnpackedFloat totalExponent)
open Float.Model.UnpackedFloat

namespace Single

/-! ## Rounding a natural number to 24 significant bits -/

/-- `n / 2 ^ k` rounded to the nearest integer, a tie going to the even one. -/
def divRoundEven (n k : Nat) : Nat :=
  if 2 ^ k < 2 * (n % 2 ^ k) ∨ (2 * (n % 2 ^ k) = 2 ^ k ∧ n / 2 ^ k % 2 = 1) then n / 2 ^ k + 1
  else n / 2 ^ k

/-- `n` rounded to 24 significant bits, to nearest with ties to even: what binary32 keeps of a
natural number. -/
def round24 (n : Nat) : Nat := divRoundEven n (n.log2 - 23) * 2 ^ (n.log2 - 23)

@[simp] theorem round24_zero : round24 0 = 0 := rfl

/-- A quotient with no remainder needs no rounding. -/
theorem divRoundEven_of_dvd {n k : Nat} (h : 2 ^ k ∣ n) : divRoundEven n k = n / 2 ^ k := by
  have hr : n % 2 ^ k = 0 := Nat.mod_eq_zero_of_dvd h
  have hpos : 0 < 2 ^ k := Nat.two_pow_pos k
  unfold divRoundEven
  rw [if_neg (by omega)]

/-- Appending clear low bits to both the number and the cut changes nothing. -/
theorem divRoundEven_mul_pow (n k j : Nat) :
    divRoundEven (n * 2 ^ j) (k + j) = divRoundEven n k := by
  have hq : n * 2 ^ j / 2 ^ (k + j) = n / 2 ^ k := by
    rw [Nat.pow_add, Nat.mul_comm (2 ^ k), ← Nat.div_div_eq_div_mul,
      Nat.mul_div_cancel _ (Nat.two_pow_pos j)]
  have hr : n * 2 ^ j % 2 ^ (k + j) = n % 2 ^ k * 2 ^ j := by
    rw [Nat.pow_add, Nat.mul_mod_mul_right]
  unfold divRoundEven
  rw [hq, hr, Nat.pow_add]
  have hj : 0 < 2 ^ j := Nat.two_pow_pos j
  -- both comparisons of the remainder with half a unit scale by `2 ^ j`
  have hlt : 2 ^ k * 2 ^ j < 2 * (n % 2 ^ k * 2 ^ j) ↔ 2 ^ k < 2 * (n % 2 ^ k) := by
    rw [← Nat.mul_assoc]
    exact Nat.mul_lt_mul_right hj
  have heq : 2 * (n % 2 ^ k * 2 ^ j) = 2 ^ k * 2 ^ j ↔ 2 * (n % 2 ^ k) = 2 ^ k := by
    rw [← Nat.mul_assoc]
    exact ⟨Nat.eq_of_mul_eq_mul_right hj, fun h => by rw [h]⟩
  simp only [hlt, heq]

/-- Shifting left by `j` raises the top bit by `j`. -/
theorem log2_mul_two_pow {n : Nat} (j : Nat) (hn : n ≠ 0) : (n * 2 ^ j).log2 = n.log2 + j := by
  rw [Nat.log2_eq_iff (Nat.mul_ne_zero hn (by simp))]
  have hlo := Nat.log2_self_le hn
  have hhi := Nat.lt_log2_self (n := n)
  constructor
  · rw [Nat.pow_add]
    exact Nat.mul_le_mul_right _ hlo
  · rw [show n.log2 + j + 1 = n.log2 + 1 + j by omega, Nat.pow_add]
    exact Nat.mul_lt_mul_of_pos_right hhi (Nat.two_pow_pos j)

/-- A number that 24 bits hold, up to a power of two, is kept as it is. -/
theorem round24_mul_pow {M : Nat} (j : Nat) (hM : M < 2 ^ 24) : round24 (M * 2 ^ j) = M * 2 ^ j := by
  by_cases hM0 : M = 0
  · subst hM0
    simp [round24, divRoundEven]
  -- the number has at most `24 + j` bits, so at most `j` of them are dropped, all clear
  have hlt : M * 2 ^ j < 2 ^ (24 + j) := by
    rw [Nat.pow_add]
    exact Nat.mul_lt_mul_of_pos_right hM (Nat.two_pow_pos j)
  have hk : (M * 2 ^ j).log2 - 23 ≤ j := by
    have := (Nat.log2_lt (Nat.mul_ne_zero hM0 (by simp))).2 hlt
    omega
  have hdvd : 2 ^ ((M * 2 ^ j).log2 - 23) ∣ M * 2 ^ j :=
    Nat.dvd_trans (Nat.pow_dvd_pow 2 hk) (Nat.dvd_mul_left _ _)
  unfold round24
  rw [divRoundEven_of_dvd hdvd, Nat.div_mul_cancel hdvd]

/-- Up to `2 ^ 24` every natural number is kept as it is. -/
theorem round24_of_le {n : Nat} (h : n ≤ 2 ^ 24) : round24 n = n := by
  rcases Nat.lt_or_eq_of_le h with hlt | rfl
  · simpa using round24_mul_pow 0 hlt
  · exact round24_mul_pow (M := 1) 24 (by decide)

/-- Rounding never passes a power of two above the number: powers of two are kept. -/
theorem round24_le_pow {n K : Nat} (h : n ≤ 2 ^ K) : round24 n ≤ 2 ^ K := by
  -- the quotient and the remainder of the cut at `k` bits
  have hpos : 0 < 2 ^ (n.log2 - 23) := Nat.two_pow_pos _
  have hdiv := Nat.div_add_mod n (2 ^ (n.log2 - 23))
  by_cases hr : n % 2 ^ (n.log2 - 23) = 0
  · have hdvd : 2 ^ (n.log2 - 23) ∣ n := Nat.dvd_of_mod_eq_zero hr
    unfold round24
    rw [divRoundEven_of_dvd hdvd, Nat.div_mul_cancel hdvd]
    exact h
  · -- a remainder is left: the cut is below `n`, so a multiple of `2 ^ k` below `2 ^ K`
    have hn : n ≠ 0 := by
      intro h0
      simp [h0] at hr
    have hkK : n.log2 - 23 ≤ K := by
      have := (Nat.log2_lt hn).2 (Nat.lt_of_le_of_lt h (Nat.pow_lt_pow_right (by decide) (Nat.lt_succ_self K)))
      omega
    have hK : 2 ^ K = 2 ^ (K - (n.log2 - 23)) * 2 ^ (n.log2 - 23) := by
      rw [← Nat.pow_add, Nat.sub_add_cancel hkK]
    have hq : n / 2 ^ (n.log2 - 23) < 2 ^ (K - (n.log2 - 23)) := by
      apply Nat.lt_of_mul_lt_mul_right (a := 2 ^ (n.log2 - 23))
      rw [← hK]
      have : n / 2 ^ (n.log2 - 23) * 2 ^ (n.log2 - 23) < n := by
        rw [Nat.mul_comm]
        omega
      omega
    have hround : divRoundEven n (n.log2 - 23) ≤ n / 2 ^ (n.log2 - 23) + 1 := by
      unfold divRoundEven
      split <;> omega
    unfold round24
    rw [hK]
    exact Nat.mul_le_mul_right _ (Nat.le_trans hround hq)

/-- One below a power of two past 24 bits rounds up to the power: its 24 kept bits are all set
and the dropped ones are at least half a unit. -/
theorem round24_pow_sub_one {K : Nat} (hK : 25 ≤ K) : round24 (2 ^ K - 1) = 2 ^ K := by
  obtain ⟨k, rfl⟩ : ∃ k, K = 24 + (k + 1) := ⟨K - 25, by omega⟩
  -- `a = 2 ^ (k + 1)` is the unit of the cut and `2 ^ K = 2 ^ 24 · a`
  have hK : 2 ^ (24 + (k + 1)) = 2 ^ 24 * 2 ^ (k + 1) := Nat.pow_add 2 24 (k + 1)
  have ha : 2 ^ (k + 1) = 2 * 2 ^ k := Nat.pow_succ'
  have hpos := Nat.two_pow_pos k
  have hlog : (2 ^ (24 + (k + 1)) - 1).log2 - 23 = k + 1 := by
    have hlow : 2 ^ (24 + k) * 2 = 2 ^ (24 + (k + 1)) := (Nat.pow_succ 2 (24 + k)).symm
    have : (2 ^ (24 + (k + 1)) - 1).log2 = 24 + k := by
      rw [Nat.log2_eq_iff (by omega), ← hlow]
      have := Nat.two_pow_pos (24 + k)
      omega
    omega
  have hq : (2 ^ (24 + (k + 1)) - 1) / 2 ^ (k + 1) = 2 ^ 24 - 1 :=
    Nat.div_eq_of_lt_le (by rw [hK]; omega) (by rw [hK]; omega)
  have hr : (2 ^ (24 + (k + 1)) - 1) % 2 ^ (k + 1) = 2 ^ (k + 1) - 1 := by
    have := Nat.div_add_mod (2 ^ (24 + (k + 1)) - 1) (2 ^ (k + 1))
    rw [hq] at this
    rw [hK] at this ⊢
    omega
  unfold round24 divRoundEven
  rw [hlog, hq, hr, if_pos (by omega), Nat.sub_add_cancel Nat.one_le_two_pow, hK]

/-- Rounding keeps one below a power of two or carries it to the power: never less. -/
theorem le_round24_pow_sub_one (K : Nat) : 2 ^ K - 1 ≤ round24 (2 ^ K - 1) := by
  by_cases hK : 25 ≤ K
  · rw [round24_pow_sub_one hK]
    exact Nat.sub_le _ _
  · have : 2 ^ K ≤ 2 ^ 24 := Nat.pow_le_pow_right (by decide) (by omega)
    exact Nat.le_of_eq (round24_of_le (by omega)).symm

/-! ## The model's rounding on exact mantissas -/

theorem targetExponent_binary32 (t : Int) :
    Format.binary32.targetExponent t = max (t - 24) (-149) := rfl

/-- The mantissa and exponent of a normal binary32 number: 24 significant bits, top bit set, at an
exponent the format stores. -/
structure Normal (m : Nat) (e : Int) : Prop where
  mantissa_ge : 2 ^ 23 ≤ m
  mantissa_lt : m < 2 ^ 24
  exponent_ge : -149 ≤ e
  exponent_le : e ≤ 104

/-- A mantissa of exactly 24 bits has its top bit at position 23. -/
theorem log2_of_mantissa {m : Nat} (hm : 2 ^ 23 ≤ m) (hm' : m < 2 ^ 24) : m.log2 = 23 :=
  (Nat.log2_eq_iff (by omega)).2 ⟨hm, hm'⟩

/-- Shifting an exact mantissa right by `k + 1` leaves the quotient, the round bit (the highest
bit shifted out) and the sticky bit (whether any lower one was set). -/
theorem shift_exact_succ (m k : Nat) :
    ExtendedMantissa.ofMantissaAndAccuracy m .exact >>> (k + 1) =
      ⟨m / 2 ^ (k + 1), m / 2 ^ k % 2 != 0, m % 2 ^ k != 0⟩ := by
  induction k with
  | zero =>
    simp [HShiftRight.hShiftRight, Nat.repeat, ExtendedMantissa.ofMantissaAndAccuracy,
      ExtendedMantissa.shiftRightOne, Nat.mod_one]
  | succ k ih =>
    show ExtendedMantissa.shiftRightOne (ExtendedMantissa.ofMantissaAndAccuracy m .exact >>> (k + 1)) = _
    rw [ih]
    -- the new sticky bit is the old round bit or the old sticky bit
    have hsticky : (m / 2 ^ k % 2 != 0 || m % 2 ^ k != 0) = (m % 2 ^ (k + 1) != 0) := by
      have h : m % 2 ^ (k + 1) = m % 2 ^ k + 2 ^ k * (m / 2 ^ k % 2) := Nat.mod_pow_succ
      have hpos := Nat.two_pow_pos k
      rw [Bool.eq_iff_iff]
      simp only [Bool.or_eq_true, bne_iff_ne, ne_eq]
      rcases Nat.mod_two_eq_zero_or_one (m / 2 ^ k) with hb | hb <;> rw [hb] at h ⊢ <;> omega
    simp only [ExtendedMantissa.shiftRightOne, Nat.div_div_eq_div_mul, ← Nat.pow_succ, hsticky]

/-- Shifting right by nothing keeps the mantissa, exactly. -/
theorem shift_exact_zero (m : Nat) :
    ExtendedMantissa.ofMantissaAndAccuracy m .exact >>> 0 = ⟨m, false, false⟩ := rfl

/-- Dropping `k` clear low bits is exact. -/
theorem shift_exact_mul_pow (q k : Nat) :
    ExtendedMantissa.ofMantissaAndAccuracy (q * 2 ^ k) .exact >>> k = ⟨q, false, false⟩ := by
  cases k with
  | zero => simp [shift_exact_zero]
  | succ k =>
    rw [shift_exact_succ]
    have h1 : q * 2 ^ (k + 1) / 2 ^ (k + 1) = q := Nat.mul_div_cancel _ (Nat.two_pow_pos _)
    have h2 : q * 2 ^ (k + 1) / 2 ^ k % 2 = 0 := by
      rw [Nat.pow_succ', ← Nat.mul_assoc, Nat.mul_div_cancel _ (Nat.two_pow_pos _)]
      exact Nat.mul_mod_left _ _
    have h3 : q * 2 ^ (k + 1) % 2 ^ k = 0 := by
      rw [Nat.pow_succ', ← Nat.mul_assoc]
      exact Nat.mul_mod_left _ _
    simp [h1, h2, h3]

/-- An exact mantissa needs no rounding. -/
theorem roundedMantissa_exact (m : Nat) :
    (⟨m, false, false⟩ : ExtendedMantissa).roundedMantissa = m := rfl

/-- A mantissa of at least 24 bits, at an exponent where the result is normal, is cut to its top
24 bits: its `log2 - 23` low bits go, the exponent grows by as many. -/
theorem shiftToTargetExponent_binary32 {M : Nat} (E : Int) (hM : 2 ^ 23 ≤ M)
    (hE : -126 ≤ (M.log2 : Int) + E) :
    shiftToTargetExponent Format.binary32 M E .exact =
      (ExtendedMantissa.ofMantissaAndAccuracy M .exact >>> (M.log2 - 23),
        E + (M.log2 - 23 : Nat)) := by
  have hlog : 23 ≤ M.log2 := (Nat.le_log2 (by omega)).2 hM
  unfold shiftToTargetExponent shiftToExponent
  simp only [targetExponent_binary32, totalExponent]
  have : max ((M.log2 : Int) + 1 + E - 24) (-149) - E = ((M.log2 - 23 : Nat) : Int) := by omega
  rw [this, Int.toNat_natCast]

/-- A mantissa whose low bits are clear rounds exactly to its top 24 bits. -/
theorem roundWithAccuracy_exact (s : Sign) {q : Nat} (k : Nat) (e : Int)
    (hq : 2 ^ 23 ≤ q) (hq' : q < 2 ^ 24) (he : -149 ≤ e) :
    roundWithAccuracy Format.binary32 s (q * 2 ^ k) (e - k) .exact =
      .finite s q e (by omega) := by
  have hlog₀ := log2_of_mantissa hq hq'
  have hlog : (q * 2 ^ k).log2 = 23 + k := by rw [log2_mul_two_pow k (by omega), hlog₀]
  have hM : 2 ^ 23 ≤ q * 2 ^ k := Nat.le_trans hq (Nat.le_mul_of_pos_right _ (Nat.two_pow_pos k))
  unfold roundWithAccuracy
  rw [shiftToTargetExponent_binary32 (e - k) hM (by omega), hlog,
    show 23 + k - 23 = k by omega, shift_exact_mul_pow]
  dsimp only
  rw [roundedMantissa_exact, shiftToTargetExponent_binary32 _ hq (by omega), hlog₀, Nat.sub_self,
    shift_exact_zero]
  dsimp only
  rw [dif_neg (by omega)]
  congr 1
  omega

/-- Rounding the bits shifted out of an exact mantissa rounds the quotient to nearest, ties to
even: the round bit says whether the remainder reaches half a unit, the sticky bit whether it
passes it. -/
theorem roundedMantissa_shift (n k : Nat) :
    (ExtendedMantissa.ofMantissaAndAccuracy n .exact >>> k).roundedMantissa = divRoundEven n k := by
  cases k with
  | zero =>
    rw [shift_exact_zero, roundedMantissa_exact, divRoundEven_of_dvd (Nat.one_dvd n)]
    simp
  | succ k =>
    rw [shift_exact_succ]
    -- the remainder below the cut is the round bit's half unit plus the sticky part
    have hrem : n % 2 ^ (k + 1) = n % 2 ^ k + 2 ^ k * (n / 2 ^ k % 2) := Nat.mod_pow_succ
    have hlt : n % 2 ^ k < 2 ^ k := Nat.mod_lt _ (Nat.two_pow_pos k)
    have hbit : n / 2 ^ k % 2 < 2 := Nat.mod_lt _ (by decide)
    have hpow : 2 ^ (k + 1) = 2 * 2 ^ k := Nat.pow_succ'
    unfold divRoundEven ExtendedMantissa.roundedMantissa ExtendedMantissa.accuracy
    generalize n / 2 ^ (k + 1) = q
    rcases Nat.lt_or_ge (n / 2 ^ k % 2) 1 with hb | hb <;>
      rcases Nat.eq_zero_or_pos (n % 2 ^ k) with hs | hs
    · -- nothing dropped
      have hb0 : n / 2 ^ k % 2 = 0 := by omega
      rw [hb0, Nat.mul_zero] at hrem
      simp only [hb0, hs, bne_self_eq_false, Accuracy.roundToNearestEven]
      rw [if_neg (by omega)]
    · -- less than half a unit dropped
      have hb0 : n / 2 ^ k % 2 = 0 := by omega
      rw [hb0, Nat.mul_zero] at hrem
      simp only [hb0, bne_self_eq_false,
        show (n % 2 ^ k != 0) = true by simp; omega, Accuracy.roundToNearestEven]
      rw [if_neg (by omega)]
    · -- exactly half a unit: the tie goes to the even neighbour
      have hb1 : n / 2 ^ k % 2 = 1 := by omega
      rw [hb1, Nat.mul_one] at hrem
      simp only [hb1, hs, bne_self_eq_false,
        show ((1 : Nat) != 0) = true from rfl, Accuracy.roundToNearestEven]
      by_cases hq : q % 2 = 1
      · rw [if_pos (by omega)]
        omega
      · rw [if_neg (by omega)]
        omega
    · -- more than half a unit
      have hb1 : n / 2 ^ k % 2 = 1 := by omega
      rw [hb1, Nat.mul_one] at hrem
      simp only [hb1, show ((1 : Nat) != 0) = true from rfl,
        show (n % 2 ^ k != 0) = true by simp; omega, Accuracy.roundToNearestEven]
      rw [if_pos (by omega)]

/-- **Rounding a natural number.** A number of at least 24 bits and below `2 ^ 127`, given with
any number `j` of clear bits appended, rounds to the normal number `round24 n`. -/
theorem roundWithAccuracy_nat (s : Sign) {n : Nat} (j : Nat) (hn : 2 ^ 23 ≤ n) (hn' : n < 2 ^ 127) :
    ∃ m e h, roundWithAccuracy Format.binary32 s (n * 2 ^ j) (-j) .exact = .finite s m e h ∧
      2 ^ 23 ≤ m ∧ m < 2 ^ 24 ∧ 0 ≤ e ∧ e ≤ 104 ∧ m * 2 ^ e.toNat = round24 n := by
  have hn0 : n ≠ 0 := by omega
  have hlog : 23 ≤ n.log2 := (Nat.le_log2 hn0).2 hn
  have hlog' : n.log2 < 127 := (Nat.log2_lt hn0).2 hn'
  have hM : 2 ^ 23 ≤ n * 2 ^ j := Nat.le_trans hn (Nat.le_mul_of_pos_right _ (Nat.two_pow_pos j))
  -- the cut drops the `k` low bits of `n` and the `j` appended ones
  have hshift : (n * 2 ^ j).log2 - 23 = (n.log2 - 23) + j := by
    rw [log2_mul_two_pow j hn0]
    omega
  -- the quotient has 24 bits; rounding may carry it to `2 ^ 24`
  have hq : 2 ^ 23 ≤ n / 2 ^ (n.log2 - 23) ∧ n / 2 ^ (n.log2 - 23) < 2 ^ 24 := by
    have hlo := Nat.log2_self_le hn0
    have hhi := Nat.lt_log2_self (n := n)
    have hsplit : 2 ^ n.log2 = 2 ^ 23 * 2 ^ (n.log2 - 23) := by
      rw [← Nat.pow_add, Nat.add_sub_cancel' hlog]
    have hsplit' : 2 ^ (n.log2 + 1) = 2 ^ 24 * 2 ^ (n.log2 - 23) := by
      rw [← Nat.pow_add]
      congr 1
      omega
    constructor
    · exact (Nat.le_div_iff_mul_le (Nat.two_pow_pos _)).2 (hsplit ▸ hlo)
    · exact (Nat.div_lt_iff_lt_mul (Nat.two_pow_pos _)).2 (hsplit' ▸ hhi)
  have hr : n / 2 ^ (n.log2 - 23) ≤ divRoundEven n (n.log2 - 23) ∧
      divRoundEven n (n.log2 - 23) ≤ 2 ^ 24 := by
    unfold divRoundEven
    split <;> omega
  have hround : round24 n = divRoundEven n (n.log2 - 23) * 2 ^ (n.log2 - 23) := rfl
  unfold roundWithAccuracy
  rw [shiftToTargetExponent_binary32 (-j) hM (by rw [log2_mul_two_pow j hn0]; omega), hshift]
  dsimp only
  rw [roundedMantissa_shift, divRoundEven_mul_pow,
    show -(j : Int) + ((n.log2 - 23 + j : Nat) : Int) = ((n.log2 - 23 : Nat) : Int) by omega]
  generalize divRoundEven n (n.log2 - 23) = r at hr hround
  rcases Nat.lt_or_ge r (2 ^ 24) with hr24 | hr24
  · -- the rounded quotient still has 24 bits
    have hlogr : r.log2 - 23 = 0 := by
      have := (Nat.log2_lt (by omega)).2 hr24
      omega
    rw [shiftToTargetExponent_binary32 _ (by omega)
        (by have := (Nat.le_log2 (n := r) (by omega)).2 (show 2 ^ 23 ≤ r by omega); omega),
      hlogr, shift_exact_zero]
    dsimp only
    rw [dif_neg (by omega)]
    refine ⟨r, _, by omega, rfl, by omega, hr24, by omega, by omega, ?_⟩
    rw [hround]
    simp
  · -- the carry reached `2 ^ 24`: one more bit goes and the exponent grows by one
    obtain rfl : r = 2 ^ 23 * 2 ^ 1 := by omega
    have hlog24 : (2 ^ 23 * 2 ^ 1).log2 = 24 := by
      rw [log2_mul_two_pow 1 (by decide), Nat.log2_two_pow]
    rw [shiftToTargetExponent_binary32 _ (by omega) (by rw [hlog24]; omega), hlog24,
      show 24 - 23 = 1 from rfl, shift_exact_mul_pow]
    dsimp only
    rw [dif_neg (by omega)]
    refine ⟨2 ^ 23, _, by omega, rfl, by omega, by omega, by omega, by omega, ?_⟩
    rw [hround, show (((n.log2 - 23 : Nat) : Int) + ((1 : Nat) : Int)).toNat = 1 + (n.log2 - 23) by omega,
      Nat.pow_add, Nat.mul_assoc]

/-- **Rounding an integer.** A positive integer below `2 ^ 127` rounds to a normal number that
denotes `round24 n`: `m · 2 ^ e = round24 n`. -/
theorem round_nat (s : Sign) {n : Nat} (hn : 0 < n) (hn' : n < 2 ^ 127) :
    ∃ m e h, UnpackedFloat.round Format.binary32 s n 0 = .finite s m e h ∧ Normal m e ∧
      m * 2 ^ e.toNat = round24 n * 2 ^ (-e).toNat := by
  have hn0 : n ≠ 0 := by omega
  have hlog := Nat.log2_self_le hn0
  have hlog' := Nat.lt_log2_self (n := n)
  unfold UnpackedFloat.round decreaseExponent
  simp only [targetExponent_binary32, totalExponent]
  by_cases h23 : 2 ^ 23 ≤ n
  · -- 24 bits or more: nothing to pad, the rounding cuts
    have hl : 23 ≤ n.log2 := (Nat.le_log2 hn0).2 h23
    rw [show (0 - max ((n.log2 : Int) + 1 + 0 - 24) (-149)).toNat = 0 by omega]
    obtain ⟨m, e, h, heq, hm, hm', he, he', hval⟩ := roundWithAccuracy_nat s 0 h23 hn'
    refine ⟨m, e, h, ?_, ⟨hm, hm', by omega, he'⟩, ?_⟩
    · simpa using heq
    · rw [hval, show (-e).toNat = 0 by omega]
      simp
  · -- fewer than 24 bits: padded with clear bits to 24, exactly
    have hl : n.log2 < 23 := (Nat.log2_lt hn0).2 (by omega)
    rw [show (0 - max ((n.log2 : Int) + 1 + 0 - 24) (-149)).toNat = 23 - n.log2 by omega]
    have hq : n <<< (23 - n.log2) = n * 2 ^ (23 - n.log2) := Nat.shiftLeft_eq _ _
    have hbits : (n * 2 ^ (23 - n.log2)).log2 = 23 := by
      rw [log2_mul_two_pow _ hn0]
      omega
    have hq' : 2 ^ 23 ≤ n * 2 ^ (23 - n.log2) ∧ n * 2 ^ (23 - n.log2) < 2 ^ 24 :=
      (Nat.log2_eq_iff (Nat.mul_ne_zero hn0 (by simp))).1 hbits
    have hexact := roundWithAccuracy_exact s 0 ((n.log2 : Int) - 23) hq'.1 hq'.2 (by omega)
    simp only [Nat.pow_zero, Nat.mul_one, Int.natCast_zero, Int.sub_zero] at hexact
    refine ⟨n * 2 ^ (23 - n.log2), (n.log2 : Int) - 23, by omega, ?_,
      ⟨hq'.1, hq'.2, by omega, by omega⟩, ?_⟩
    · rw [hq, show (0 : Int) - ((23 - n.log2 : Nat) : Int) = (n.log2 : Int) - 23 by omega]
      exact hexact
    · rw [round24_of_le (by omega), show ((n.log2 : Int) - 23).toNat = 0 by omega,
        show (-((n.log2 : Int) - 23)).toNat = 23 - n.log2 by omega]
      simp

/-! ## Storing and loading -/

/-- The sign read from packed components is the sign stored. -/
theorem sign_unpack_packComponents (s : Sign) (e : BitVec 8) (m : BitVec 23) :
    Sign.ofBitVec (unpackSign (packComponents Format.binary32 s e m)) = s := by
  simp only [unpackSign, packComponents, BitVec.extractLsb]
  rw [BitVec.extractLsb'_append_eq_of_le (by omega), BitVec.extractLsb'_append_eq_of_le (by omega)]
  cases s <;> rfl

/-- The stored mantissa with its implicit top bit put back. -/
theorem toNat_implicit_append (m : BitVec 23) : (1#1 ++ m).toNat = 2 ^ 23 + m.toNat := by
  rw [BitVec.toNat_append, ← Nat.shiftLeft_add_eq_or_of_lt m.isLt]
  simp [Nat.shiftLeft_eq]

/-- Components with a biased exponent strictly between the codes of zero and infinity load as a
normal number, the implicit bit put back above the stored mantissa. -/
theorem unpack_normal (s : Sign) {b : Nat} (r : Nat) (hb : 1 ≤ b) (hb' : b ≤ 254) :
    unpack Format.binary32 (packComponents Format.binary32 s (BitVec.ofNat 8 b) (BitVec.ofNat 23 r)) =
      .finite s (2 ^ 23 + r % 2 ^ 23) (b - 150) (by omega) := by
  have hbits : (BitVec.ofNat 8 b).toNat = b := by
    rw [BitVec.toNat_ofNat, Nat.mod_eq_of_lt (by omega)]
  have hnz : BitVec.ofNat 8 b ≠ 0#8 := by
    intro hz
    have := congrArg BitVec.toNat hz
    rw [hbits] at this
    simp only [BitVec.toNat_zero] at this
    omega
  have hninf : BitVec.ofNat 8 b ≠ -1#8 := by
    intro hz
    have := congrArg BitVec.toNat hz
    rw [hbits] at this
    simp only [BitVec.neg_one_eq_allOnes, BitVec.toNat_allOnes] at this
    omega
  unfold unpack
  simp only [unpackMantissa_packComponents, unpackExponent_packComponents,
    sign_unpack_packComponents, show (Format.binary32.exponentBias : Int) = 127 from rfl]
  rw [if_neg hninf, if_neg hnz, hbits]
  congr 1
  rw [toNat_implicit_append, BitVec.toNat_ofNat]

/-- A normal number — a mantissa with exactly 24 bits at an exponent binary32 stores — loads
back as it was stored. -/
theorem unpack_pack_finite (s : Sign) {m : Nat} {e : Int} (h : 0 < m) (hn : Normal m e) :
    unpack Format.binary32 (pack Format.binary32 (.finite s m e h)) = .finite s m e h := by
  have hlog := log2_of_mantissa hn.mantissa_ge hn.mantissa_lt
  have he := hn.exponent_ge
  have he' := hn.exponent_le
  unfold pack
  simp only [hlog, show (Format.binary32.exponentBias : Int) = 127 from rfl]
  rw [if_neg (by omega), if_pos (by decide), unpack_normal s m (by omega) (by omega)]
  have := hn.mantissa_ge
  have := hn.mantissa_lt
  congr 1 <;> omega

/-- A zero loads back as it was stored. -/
theorem unpack_pack_zero (s : Sign) :
    unpack Format.binary32 (pack Format.binary32 (.zero s)) = .zero s := by
  unfold pack packedZero unpack
  simp only [unpackMantissa_packComponents, unpackExponent_packComponents]
  rw [if_neg (by decide), if_pos (by decide), dif_pos (by decide), sign_unpack_packComponents]

/-- Every finite single-precision number has a mantissa of at most 24 bits. -/
theorem mantissa_lt_of_value {y : Float32} {s : Sign} {m : Nat} {e : Int} {h : 0 < m}
    (hy : value y = .finite s m e h) : m < 2 ^ 24 := by
  unfold value unpack at hy
  dsimp only at hy
  split at hy
  · split at hy <;> cases hy
  · split at hy
    · split at hy
      · cases hy
      · -- subnormal: the stored 23 bits alone
        cases hy
        exact Nat.lt_trans (BitVec.isLt _) (by decide)
    · -- normal: the stored bits below the implicit one
      cases hy
      exact BitVec.isLt _

/-! ## Operations on exact values -/

/-- Dividing by a positive number keeps the sign. -/
@[simp] theorem div_positive (s : Sign) : s / Sign.positive = s := by cases s <;> rfl

/-- Multiplying by a positive number keeps the sign. -/
@[simp] theorem mul_positive (s : Sign) : s * Sign.positive = s := by cases s <;> rfl

/-- The model multiplies finite numbers by rounding the exact product. -/
theorem mul_finite (s₁ s₂ : Sign) (m₁ m₂ : Nat) (e₁ e₂ : Int) (h₁ : 0 < m₁) (h₂ : 0 < m₂) :
    UnpackedFloat.mul Format.binary32 (.finite s₁ m₁ e₁ h₁) (.finite s₂ m₂ e₂ h₂) =
      roundWithAccuracy Format.binary32 (s₁ * s₂) (m₁ * m₂) (e₁ + e₂) .exact := rfl

/-- A product is the model's product of the two values, stored and loaded. -/
theorem value_mul (x y : Float32) :
    value (x * y) = unpack Format.binary32 (pack Format.binary32
      (UnpackedFloat.mul Format.binary32 (value x) (value y))) := rfl

/-- A quotient is the model's quotient of the two values, stored and loaded. -/
theorem value_div (x y : Float32) :
    value (x / y) = unpack Format.binary32 (pack Format.binary32
      (UnpackedFloat.div Format.binary32 (value x) (value y))) := rfl

/-- A negation flips the value's sign, stored and loaded. -/
theorem value_neg (x : Float32) :
    value (-x) = unpack Format.binary32 (pack Format.binary32 (value x).neg) := rfl

/-- A bit pattern is loaded, stored and loaded again. -/
theorem value_ofBits (a : UInt32) :
    value (Float32.ofBits a) = unpack Format.binary32 (pack Format.binary32
      (unpack Format.binary32 a.toBitVec)) := rfl

/-- A bit pattern with a clear sign and mantissa and a biased exponent `b` between the codes of
zero and infinity is the power of two `2 ^ 23 · 2 ^ (b - 150) = 2 ^ (b - 127)`. -/
theorem value_ofBits_pow {b : Nat} (hb : 1 ≤ b) (hb' : b ≤ 254) :
    value (Float32.ofBits (UInt32.ofNat (b * 2 ^ 23))) =
      .finite .positive (2 ^ 23) (b - 150) (by decide) := by
  have hbits : (UInt32.ofNat (b * 2 ^ 23)).toBitVec =
      packComponents Format.binary32 .positive (BitVec.ofNat 8 b) (BitVec.ofNat 23 0) := by
    apply BitVec.eq_of_toNat_eq
    simp only [BitVec.toNat_ofNat, packComponents, BitVec.toNat_append]
    show (BitVec.ofNat 32 (b * 2 ^ 23)).toNat =
      ((0#1 : BitVec 1).toNat <<< 8 ||| b % 2 ^ 8) <<< 23 ||| 0 % 2 ^ 23
    rw [BitVec.toNat_ofNat, BitVec.toNat_zero, Nat.zero_shiftLeft, Nat.zero_or, Nat.zero_mod,
      Nat.or_zero, Nat.shiftLeft_eq, Nat.mod_eq_of_lt (show b < 2 ^ 8 by omega),
      Nat.mod_eq_of_lt (by omega)]
  rw [value_ofBits, hbits, unpack_normal .positive 0 hb hb']
  exact unpack_pack_finite .positive (by decide) ⟨by decide, by decide, by omega, by omega⟩

/-- Dividing a normal number by a normal power of two is exact while the quotient stays normal. -/
theorem div_pow_two (s : Sign) {m : Nat} {e : Int} (d : Int) (h : 0 < m)
    (hm : 2 ^ 23 ≤ m) (hm' : m < 2 ^ 24) (he : -149 ≤ e - d) :
    UnpackedFloat.div Format.binary32 (.finite s m e h)
        (.finite .positive (2 ^ 23) (d - 24) (by decide)) =
      .finite s m (e - d + 1) h := by
  have hlog := log2_of_mantissa hm hm'
  -- the quotient is taken with 24 extra bits, of which all but one come back clear
  have hcore : divCore Format.binary32 m e (2 ^ 23) (d - 24) =
      (m * 2 ^ 1, e - d + 1 - (1 : Nat), .exact) := by
    unfold divCore
    simp only [totalExponent, targetExponent_binary32, hlog,
      show (2 ^ 23 : Nat).log2 = 23 by decide]
    rw [show min (e - (d - 24)) (max (((23 : Nat) : Int) + 1 + e - (((23 : Nat) : Int) + 1 +
        (d - 24)) - 24) (-149)) = e - d + 1 - (1 : Nat) by omega,
      show (e - (d - 24) - (e - d + 1 - (1 : Nat))).toNat = 24 by omega, Nat.shiftLeft_eq]
    have hq : m * 2 ^ 24 = m * 2 ^ 1 * 2 ^ 23 := by rw [Nat.mul_assoc, ← Nat.pow_add]
    rw [hq, Nat.mul_div_cancel _ (Nat.two_pow_pos 23), Nat.mul_mod_left]
    rfl
  unfold UnpackedFloat.div
  dsimp only
  rw [hcore]
  dsimp only
  rw [div_positive, roundWithAccuracy_exact s 1 (e - d + 1) hm hm' (by omega)]

/-- Zero divided by a positive finite number is zero of the same sign. -/
theorem value_div_of_zero {x p : Float32} {s : Sign} {m : Nat} {e : Int} {h : 0 < m}
    (hx : value x = .zero s) (hp : value p = .finite .positive m e h) : value (x / p) = .zero s := by
  rw [value_div, hx, hp]
  show unpack Format.binary32 (pack Format.binary32 (.zero (s / Sign.positive))) = _
  rw [div_positive, unpack_pack_zero]

/-- Zero times a positive finite number is zero of the same sign. -/
theorem value_mul_of_zero {x p : Float32} {s : Sign} {m : Nat} {e : Int} {h : 0 < m}
    (hx : value x = .zero s) (hp : value p = .finite .positive m e h) : value (x * p) = .zero s := by
  rw [value_mul, hx, hp]
  show unpack Format.binary32 (pack Format.binary32 (.zero (s * Sign.positive))) = _
  rw [mul_positive, unpack_pack_zero]

/-- **Scaling down by a power of two is exact.** Dividing a normal number by `2 ^ (d - 1)` only
moves its exponent, as long as the quotient is normal. -/
theorem value_div_pow_two {x p : Float32} {s : Sign} {m : Nat} {e d : Int} {h : 0 < m}
    (hx : value x = .finite s m e h) (hn : Normal m e) (hd : -149 ≤ e - d) (hd' : e - d + 1 ≤ 104)
    (hp : value p = .finite .positive (2 ^ 23) (d - 24) (by decide)) :
    value (x / p) = .finite s m (e - d + 1) h := by
  rw [value_div, hx, hp, div_pow_two s d h hn.mantissa_ge hn.mantissa_lt hd]
  exact unpack_pack_finite s h ⟨hn.mantissa_ge, hn.mantissa_lt, by omega, hd'⟩

/-- **Scaling up by a power of two is exact.** Multiplying a normal number by `2 ^ (d - 1)` only
moves its exponent, as long as the product is normal. -/
theorem value_mul_pow_two {x p : Float32} {s : Sign} {m : Nat} {e d : Int} {h : 0 < m}
    (hx : value x = .finite s m e h) (hn : Normal m e) (hd : -149 ≤ e + d - 1)
    (hd' : e + d - 1 ≤ 104) (hp : value p = .finite .positive (2 ^ 23) (d - 24) (by decide)) :
    value (x * p) = .finite s m (e + d - 1) h := by
  rw [value_mul, hx, hp, mul_finite, mul_positive, show e + (d - 24) = e + d - 1 - ((23 : Nat) : Int) by omega,
    roundWithAccuracy_exact s 23 (e + d - 1) hn.mantissa_ge hn.mantissa_lt hd]
  exact unpack_pack_finite s h ⟨hn.mantissa_ge, hn.mantissa_lt, hd, hd'⟩

/-! ## Converting integers -/

/-- The model converts a positive natural number by rounding it. -/
theorem ofNat_eq_round {n : Nat} (hn : 0 < n) :
    UnpackedFloat.ofNat Format.binary32 n = UnpackedFloat.round Format.binary32 .positive n 0 := by
  unfold UnpackedFloat.ofNat UnpackedFloat.ofInt UnpackedFloat.normalize
  rw [Int.compare_eq_gt.2 (by omega)]
  rfl

/-- The single-precision one is stored as the bits of `2 ^ 0`. -/
theorem powersOfTen_zero (h : 0 < Float32.exactlyRepresentablePowersOfTen.size) :
    Float32.exactlyRepresentablePowersOfTen[0] = Float32.ofBits (UInt32.ofNat (127 * 2 ^ 23)) :=
  rfl

/-- **Natural numbers convert by rounding to nearest, ties to even.** A positive natural number
below `2 ^ 127` becomes the positive normal number that denotes `round24 n`. -/
theorem value_ofNat {n : Nat} (hn : 0 < n) (hn' : n < 2 ^ 127) :
    ∃ m e h, value (Float32.ofNat n) = .finite .positive m e h ∧ Normal m e ∧
      m * 2 ^ e.toNat = round24 n * 2 ^ (-e).toNat := by
  rw [show Float32.ofNat n = Float32.ofScientific n false 0 from rfl]
  unfold Float32.ofScientific
  by_cases h23 : n < 2 ^ 23
  · -- a small number is converted exactly, then multiplied by one
    rw [dif_pos ⟨h23, by decide⟩]
    simp only [Bool.false_eq_true, if_false, powersOfTen_zero]
    obtain ⟨m, e, h, hround, hnorm, hval⟩ := round_nat .positive hn hn'
    refine ⟨m, e, h, ?_, hnorm, hval⟩
    have hx : value n.toUInt64.toFloat32 = .finite .positive m e h := by
      show unpack Format.binary32 (pack Format.binary32
        (UnpackedFloat.ofNat Format.binary32 (UInt64.ofNat n).toNat)) = _
      rw [UInt64.toNat_ofNat', Nat.mod_eq_of_lt (by omega), ofNat_eq_round hn, hround,
        unpack_pack_finite .positive h hnorm]
    rw [value_mul, hx, value_ofBits_pow (by decide) (by decide)]
    show unpack Format.binary32 (pack Format.binary32 (roundWithAccuracy Format.binary32
      .positive (m * 2 ^ 23) (e + (((127 : Nat) : Int) - 150)) .exact)) = _
    rw [show e + (((127 : Nat) : Int) - 150) = e - ((23 : Nat) : Int) by omega,
      roundWithAccuracy_exact .positive 23 e hnorm.mantissa_ge hnorm.mantissa_lt hnorm.exponent_ge]
    exact unpack_pack_finite .positive h hnorm
  · -- a large one is scaled by `2 ^ 24`, multiplied by `10 ^ 0` and rounded
    rw [dif_neg (by omega)]
    obtain ⟨m, e, h, hround, hm, hm', he, he', hval⟩ :=
      roundWithAccuracy_nat .positive 24 (by omega) hn'
    have hnorm : Normal m e := ⟨hm, hm', by omega, he'⟩
    refine ⟨m, e, h, ?_, hnorm, by rw [hval, show (-e).toNat = 0 by omega]; simp⟩
    show unpack Format.binary32 (pack Format.binary32
      (UnpackedFloat.ofScientific Format.binary32 n (Int.ofNat 0))) = _
    unfold UnpackedFloat.ofScientific
    simp only [show Int.ofNat 0 = 0 from rfl]
    rw [dif_neg (by omega), if_neg (by decide), if_neg (by omega), if_pos (by decide), mul_finite]
    simp only [show Format.binary32.mantissaBits = 24 from rfl, Nat.shiftLeft_eq, Int.toNat_zero,
      Nat.pow_zero, Nat.mul_one, Int.add_zero]
    rw [mul_positive, hround]
    exact unpack_pack_finite .positive h hnorm

/-- Zero converts to positive zero. -/
theorem value_ofInt_zero : value (Float32.ofInt 0) = .zero .positive := by
  show value (Float32.ofScientific 0 false 0) = _
  unfold Float32.ofScientific
  rw [dif_pos ⟨by decide, by decide⟩]
  simp only [Bool.false_eq_true, if_false, powersOfTen_zero]
  have hx : value (0 : Nat).toUInt64.toFloat32 = .zero .positive := by
    show unpack Format.binary32 (pack Format.binary32 (UnpackedFloat.ofNat Format.binary32 0)) = _
    exact unpack_pack_zero .positive
  rw [value_mul, hx, value_ofBits_pow (by decide) (by decide)]
  exact unpack_pack_zero .positive

/-- **Integers convert by rounding to nearest, ties to even.** A nonzero integer below `2 ^ 127`
in magnitude becomes the normal number of its sign that denotes `round24` of its magnitude. -/
theorem value_ofInt {v : Int} (hv : v ≠ 0) (hv' : v.natAbs < 2 ^ 127) :
    ∃ m e h, value (Float32.ofInt v) = .finite (if v < 0 then .negative else .positive) m e h ∧
      Normal m e ∧ m * 2 ^ e.toNat = round24 v.natAbs * 2 ^ (-e).toNat := by
  cases v with
  | ofNat n =>
    simp only [Int.ofNat_eq_natCast] at hv hv' ⊢
    obtain ⟨m, e, h, hval, hnorm, hround⟩ := value_ofNat (n := n) (by omega) (by simpa using hv')
    refine ⟨m, e, h, ?_, hnorm, by simpa using hround⟩
    rw [if_neg (by omega)]
    exact hval
  | negSucc n =>
    -- the magnitude is converted, then negated
    obtain ⟨m, e, h, hval, hnorm, hround⟩ := value_ofNat (n := n + 1) (by omega) (by simpa using hv')
    refine ⟨m, e, h, ?_, hnorm, by simpa using hround⟩
    rw [if_pos (by omega)]
    show value (-Float32.ofNat (n + 1)) = _
    rw [value_neg, hval]
    exact unpack_pack_finite .negative h hnorm

/-! ## The integers a single-precision number holds -/

/-- The integer `v` rounded to 24 significant bits, to nearest with ties to even, keeping its
sign: the integer that `Float32.ofInt v` denotes. -/
def roundInt (v : Int) : Int := if v < 0 then -(round24 v.natAbs : Int) else round24 v.natAbs

/-- An integer is kept by rounding exactly when its magnitude is. -/
theorem roundInt_eq_self_iff (v : Int) : roundInt v = v ↔ round24 v.natAbs = v.natAbs := by
  unfold roundInt
  split <;> omega

/-- A value `m · 2 ^ e` with a mantissa of at most 24 bits that is a nonzero integer has an
exponent of at least `-23`. -/
theorem exponent_ge_of_eq {m R : Nat} {e : Int} (hm : 0 < m) (hm' : m < 2 ^ 24)
    (h : m * 2 ^ e.toNat = R * 2 ^ (-e).toNat) : -23 ≤ e := by
  refine Int.not_lt.1 fun hlt => ?_
  rw [show e.toNat = 0 by omega, Nat.pow_zero, Nat.mul_one] at h
  have hR : 0 < R := Nat.pos_of_ne_zero fun hR => by rw [hR, Nat.zero_mul] at h; omega
  have : 2 ^ 24 ≤ R * 2 ^ (-e).toNat := calc
    2 ^ 24 ≤ 2 ^ (-e).toNat := Nat.pow_le_pow_right (by decide) (by omega)
    _ ≤ R * 2 ^ (-e).toNat := Nat.le_mul_of_pos_left _ hR
  omega

/-- Rounding never carries an integer past a power of two above its magnitude. -/
theorem natAbs_roundInt_le {v : Int} {K : Nat} (h : v.natAbs ≤ 2 ^ K) :
    (roundInt v).natAbs ≤ 2 ^ K := by
  have := round24_le_pow h
  unfold roundInt
  split <;> omega

/-- Up to `2 ^ 24` in magnitude every integer is kept. -/
theorem roundInt_of_natAbs_le {v : Int} (h : v.natAbs ≤ 2 ^ 24) : roundInt v = v :=
  (roundInt_eq_self_iff v).2 (round24_of_le h)

/-- Rounding toward zero a value `m · 2 ^ e` that is the integer `R` gives `R`. -/
theorem truncExact_of_eq (neg : Bool) {m R : Nat} {e : Int}
    (h : m * 2 ^ e.toNat = R * 2 ^ (-e).toNat) :
    truncExact neg m e = if neg then -(R : Int) else R := by
  have hmag : (if 0 ≤ e then m * 2 ^ e.toNat else m / 2 ^ (-e).toNat) = R := by
    split
    · rwa [show (-e).toNat = 0 by omega, Nat.pow_zero, Nat.mul_one] at h
    · rw [show e.toNat = 0 by omega, Nat.pow_zero, Nat.mul_one] at h
      rw [h, Nat.mul_div_cancel _ (Nat.two_pow_pos _)]
  unfold truncExact
  dsimp only
  rw [hmag]

/-- Rounding toward zero a mantissa of at most 24 bits gives an integer that rounding keeps. -/
theorem roundInt_truncExact (neg : Bool) {m : Nat} (e : Int) (hm : m < 2 ^ 24) :
    roundInt (truncExact neg m e) = truncExact neg m e := by
  -- the magnitude is `m` shifted left, or `m` shifted right and so below `2 ^ 24`
  have hkeep : round24 (if 0 ≤ e then m * 2 ^ e.toNat else m / 2 ^ (-e).toNat) =
      (if 0 ≤ e then m * 2 ^ e.toNat else m / 2 ^ (-e).toNat) := by
    split
    · exact round24_mul_pow _ hm
    · exact round24_of_le (Nat.le_trans (Nat.div_le_self _ _) (by omega))
  rw [roundInt_eq_self_iff]
  unfold truncExact
  dsimp only
  generalize (if 0 ≤ e then m * 2 ^ e.toNat else m / 2 ^ (-e).toNat) = M at hkeep
  split <;> simpa using hkeep

/-- A clamp into a nonempty range lands in it. -/
theorem truncClamp_mem {lo hi : Int} (h : lo ≤ hi) (x : Float32) :
    lo ≤ truncClamp lo hi x ∧ truncClamp lo hi x ≤ hi := by
  unfold truncClamp
  dsimp only
  omega

/-- Rounding toward zero and clamping reads a number only through its value. -/
theorem truncClamp_congr (lo hi : Int) {x y : Float32} (h : value x = value y) :
    truncClamp lo hi x = truncClamp lo hi y := by
  unfold truncClamp
  rw [h]

/-- **Converted integers truncate to their rounding.** An integer below `2 ^ 127` in magnitude,
converted and then rounded toward zero and clamped, is its rounding to 24 bits, clamped. -/
theorem truncClamp_ofInt (lo hi : Int) {v : Int} (hv : v.natAbs < 2 ^ 127) :
    truncClamp lo hi (Float32.ofInt v) = max lo (min hi (roundInt v)) := by
  by_cases h0 : v = 0
  · subst h0
    unfold truncClamp
    rw [value_ofInt_zero]
    rfl
  obtain ⟨m, e, h, hval, -, hround⟩ := value_ofInt h0 hv
  unfold truncClamp roundInt
  rw [hval]
  by_cases hneg : v < 0
  · simp only [if_pos hneg]
    rw [truncExact_of_eq true hround, if_pos rfl]
  · simp only [if_neg hneg]
    rw [truncExact_of_eq false hround, if_neg Bool.false_ne_true]

/-- Rounding toward zero and clamping gives a bound or an integer that rounding keeps. -/
theorem truncClamp_eq_bound_or_kept (lo hi : Int) (y : Float32) :
    truncClamp lo hi y = lo ∨ truncClamp lo hi y = hi ∨
      roundInt (truncClamp lo hi y) = truncClamp lo hi y := by
  -- clamping gives a bound or the number clamped
  have hclamp : ∀ n : Int, (n = lo ∨ n = hi ∨ roundInt n = n) →
      max lo (min hi n) = lo ∨ max lo (min hi n) = hi ∨
        roundInt (max lo (min hi n)) = max lo (min hi n) := by
    intro n hn
    rcases (show max lo (min hi n) = lo ∨ max lo (min hi n) = hi ∨ max lo (min hi n) = n by omega)
      with h | h | h
    · exact Or.inl h
    · exact Or.inr (Or.inl h)
    · rw [h]
      exact hn
  unfold truncClamp
  apply hclamp
  -- before clamping: zero, a bound, or a finite number rounded toward zero
  split
  · exact Or.inr (Or.inr rfl)
  · exact Or.inr (Or.inr rfl)
  · exact Or.inl rfl
  · exact Or.inr (Or.inl rfl)
  · next hy => exact Or.inr (Or.inr (roundInt_truncExact true _ (mantissa_lt_of_value hy)))
  · next hy => exact Or.inr (Or.inr (roundInt_truncExact false _ (mantissa_lt_of_value hy)))

end Single

end PcmBiquad
