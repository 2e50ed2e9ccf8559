import Mathlib.Data.Rat.Floor
import PcmBiquad.Proofs.Canonical
import PcmBiquad.Proofs.SampleCodec
/-!
  Writing a sample is an exact quantiser.

  The level `levelOf x` a value is stored at is the level exact arithmetic gives it: the rational
  `x` denotes, times full scale `2 ^ (depth - 1)`, rounded toward zero (`truncRat`) and held in
  `[-2 ^ (depth - 1), 2 ^ (depth - 1) - 1]` (`exactLevel`). That holds for every number that denotes
  a rational, zeros and subnormals included (`levelOf_of_toRat?`); NaN is stored as silence and an
  infinity at the bound of its sign. The product by full scale is exact up to `2 ^ 128` and an
  infinity beyond (`toRat?_mul_fullScale`), where exact arithmetic passes the same bound.

  Single precision is ordered as the rationals its numbers denote (`Single.toRat?_le_of_le`), so
  the level grows with the value (`levelOf_mono`) and has its sign. Shifted up by `shift`, the level
  fits the container as a signed word (`levelOf_mul_shift_mem`), so the little-endian bytes written
  are that word (`littleEndian_write`) and read back as the level. `write_quantises_exactly`
  collects it all.
-/

namespace PcmBiquad

open Float.Model (UnpackedFloat)
open Float.Model.UnpackedFloat

/-! ## Rounding a rational toward zero -/

/-- `r` rounded toward zero: the floor of a number at least zero, the ceiling of a negative one. -/
def truncRat (r : ℚ) : ℤ := if 0 ≤ r then ⌊r⌋ else ⌈r⌉

theorem truncRat_intCast (z : ℤ) : truncRat z = z := by
  unfold truncRat
  split
  · exact Int.floor_intCast z
  · exact Int.ceil_intCast z

theorem truncRat_neg (r : ℚ) : truncRat (-r) = -truncRat r := by
  unfold truncRat
  rcases lt_trichotomy r 0 with hr | rfl | hr
  · rw [if_pos (by linarith), if_neg (not_le.2 hr), Int.floor_neg]
  · simp
  · rw [if_neg (by linarith), if_pos hr.le, Int.ceil_neg]

/-- Rounding toward zero keeps the order. -/
theorem truncRat_mono {r r' : ℚ} (h : r ≤ r') : truncRat r ≤ truncRat r' := by
  unfold truncRat
  split <;> split
  · exact Int.floor_mono h
  · linarith
  · -- a negative number rounds to at most zero, a number at least zero to at least zero
    have h₁ : ⌈r⌉ ≤ 0 := Int.ceil_le.2 (by push_cast; linarith)
    have h₂ : 0 ≤ ⌊r'⌋ := Int.floor_nonneg.2 ‹_›
    omega
  · exact Int.ceil_mono h

/-- A natural number times a power of two, rounded toward zero, is its integer part. -/
theorem truncRat_natCast_mul_zpow (M : ℕ) (E : ℤ) :
    truncRat ((M : ℚ) * 2 ^ E) = ((if 0 ≤ E then M * 2 ^ E.toNat else M / 2 ^ (-E).toNat : ℕ) : ℤ) := by
  rw [truncRat, if_pos (by positivity)]
  split
  · obtain ⟨k, rfl⟩ : ∃ k : ℕ, E = k := ⟨E.toNat, by omega⟩
    rw [zpow_natCast, Int.toNat_natCast, ← Nat.cast_ofNat, ← Nat.cast_pow, ← Nat.cast_mul,
      Int.floor_natCast]
  · obtain ⟨k, rfl⟩ : ∃ k : ℕ, E = -k := ⟨(-E).toNat, by omega⟩
    rw [zpow_neg, zpow_natCast, neg_neg, Int.toNat_natCast, ← div_eq_mul_inv, ← Nat.cast_ofNat,
      ← Nat.cast_pow, Rat.floor_natCast_div_natCast, Int.natCast_div]

namespace Single

/-- Rounding a finite number toward zero is rounding the rational it denotes. -/
theorem truncClamp_of_finite (lo hi : ℤ) {y : Float32} {s : Sign} {M : ℕ} {E : ℤ} {h : 0 < M}
    (hy : value y = .finite s M E h) :
    truncClamp lo hi y = max lo (min hi (truncRat (((s.apply M : ℤ) : ℚ) * 2 ^ E))) := by
  unfold truncClamp
  rw [hy]
  cases s with
  | negative =>
    show max lo (min hi (truncExact true M E)) = max lo (min hi (truncRat ((-(M : ℤ) : ℤ) * 2 ^ E)))
    rw [Int.cast_neg, Int.cast_natCast, neg_mul, truncRat_neg, truncRat_natCast_mul_zpow]
    rfl
  | positive =>
    show max lo (min hi (truncExact false M E)) = max lo (min hi (truncRat (((M : ℤ) : ℚ) * 2 ^ E)))
    rw [Int.cast_natCast, truncRat_natCast_mul_zpow]
    rfl

/-! ## The order of single precision -/

theorem le_iff_value (x y : Float32) : x ≤ y ↔ (value x).le (value y) = true := by
  show Float32.le x y = true ↔ _
  unfold Float32.le
  exact decide_eq_true_iff

theorem lt_iff_value (x y : Float32) : x < y ↔ (value x).lt (value y) = true := by
  show Float32.lt x y = true ↔ _
  unfold Float32.lt
  exact decide_eq_true_iff

/-- The model compares two numbers of one sign by exponent and then by mantissa. -/
theorem lex_of_isLE {e₁ e₂ : ℤ} {m₁ m₂ : ℕ} (h : ((compare e₁ e₂).then (compare m₁ m₂)).isLE = true) :
    e₁ < e₂ ∨ e₁ = e₂ ∧ m₁ ≤ m₂ := by
  rw [Ordering.isLE_iff_ne_gt, Ordering.then_eq_gt, Int.compare_eq_gt, Int.compare_eq_eq,
    Nat.compare_eq_gt] at h
  omega

/-- Moving a power of two from the exponent into the mantissa keeps the rational denoted. -/
theorem natCast_mul_zpow_shift (m : ℕ) (e : ℤ) (k : ℕ) :
    ((m * 2 ^ k : ℕ) : ℚ) * 2 ^ (e - k) = m * 2 ^ e := by
  rw [Nat.cast_mul, Nat.cast_pow, Nat.cast_ofNat, zpow_sub₀ two_ne_zero, zpow_natCast]
  field_simp

/-- A canonical number at a lower exponent is smaller: the mantissa at the higher exponent has
all 24 bits. -/
theorem Canonical.lt_of_exponent_lt {m₁ m₂ : ℕ} {e₁ e₂ : ℤ} (h₁ : Canonical m₁ e₁)
    (h₂ : Canonical m₂ e₂) (he : e₁ < e₂) : (m₁ : ℚ) * 2 ^ e₁ < m₂ * 2 ^ e₂ := by
  have hm₂ : 2 ^ 23 ≤ m₂ := h₂.normal_or_least.resolve_right (by have := h₁.exponent_ge; omega)
  obtain ⟨k, hk⟩ : ∃ k : ℕ, e₂ - ((k + 1 : ℕ) : ℤ) = e₁ := ⟨(e₂ - e₁ - 1).toNat, by omega⟩
  have hlt : m₁ < m₂ * 2 ^ (k + 1) :=
    calc m₁ < 2 ^ 23 * 2 ^ 1 := h₁.mantissa_lt
      _ ≤ m₂ * 2 ^ (k + 1) := Nat.mul_le_mul hm₂ (Nat.pow_le_pow_right (by decide) (by omega))
  calc (m₁ : ℚ) * 2 ^ e₁ < ((m₂ * 2 ^ (k + 1) : ℕ) : ℚ) * 2 ^ e₁ :=
        mul_lt_mul_of_pos_right (by exact_mod_cast hlt) (by positivity)
    _ = m₂ * 2 ^ e₂ := by rw [← natCast_mul_zpow_shift m₂ e₂ (k + 1), hk]

/-- Canonical numbers in lexicographic order denote rationals in order. -/
theorem Canonical.le_of_lex {m₁ m₂ : ℕ} {e₁ e₂ : ℤ} (h₁ : Canonical m₁ e₁) (h₂ : Canonical m₂ e₂)
    (h : e₁ < e₂ ∨ e₁ = e₂ ∧ m₁ ≤ m₂) : (m₁ : ℚ) * 2 ^ e₁ ≤ m₂ * 2 ^ e₂ := by
  rcases h with he | ⟨rfl, hm⟩
  · exact (h₁.lt_of_exponent_lt h₂ he).le
  · exact mul_le_mul_of_nonneg_right (by exact_mod_cast hm) (by positivity)

theorem apply_positive_mul_zpow (m : ℕ) (e : ℤ) :
    ((Sign.positive.apply m : ℤ) : ℚ) * 2 ^ e = (m : ℚ) * 2 ^ e := by
  show ((m : ℤ) : ℚ) * 2 ^ e = _
  rw [Int.cast_natCast]

theorem apply_negative_mul_zpow (m : ℕ) (e : ℤ) :
    ((Sign.negative.apply m : ℤ) : ℚ) * 2 ^ e = -((m : ℚ) * 2 ^ e) := by
  show ((-(m : ℤ) : ℤ) : ℚ) * 2 ^ e = _
  rw [Int.cast_neg, Int.cast_natCast, neg_mul]

/-- Two magnitudes that agree agree with either sign. -/
theorem apply_mul_zpow_eq_of_eq (s : Sign) {M m : ℕ} {E e : ℤ} {c : ℚ}
    (h : (M : ℚ) * 2 ^ E = m * 2 ^ e * c) :
    ((s.apply M : ℤ) : ℚ) * 2 ^ E = ((s.apply m : ℤ) : ℚ) * 2 ^ e * c := by
  cases s with
  | negative => rw [apply_negative_mul_zpow, apply_negative_mul_zpow, h, neg_mul]
  | positive => rw [apply_positive_mul_zpow, apply_positive_mul_zpow, h]

/-- A canonical number is below `2 ^ 128` exactly when binary32 stores its exponent. -/
theorem Canonical.lt_two_pow_iff {M : ℕ} {E : ℤ} (hc : Canonical M E) :
    (M : ℚ) * 2 ^ E < 2 ^ 128 ↔ E ≤ 104 := by
  -- `2 ^ 128` is the canonical number `2 ^ 23 · 2 ^ 105`, one exponent past the greatest
  have htop : Canonical (2 ^ 23) 105 := ⟨by decide, by decide, by decide, .inl (Nat.le_refl _)⟩
  have h128 : ((2 ^ 23 : ℕ) : ℚ) * 2 ^ (105 : ℤ) = 2 ^ 128 := by norm_num
  rw [← h128]
  constructor
  · intro hlt
    refine Int.not_lt.1 fun hE => absurd hlt (not_lt.2 (htop.le_of_lex hc ?_))
    have hm : 2 ^ 23 ≤ M := hc.normal_or_least.resolve_right (by omega)
    omega
  · intro hE
    exact hc.lt_of_exponent_lt htop (by omega)

/-- A number denoting a rational is a zero or a finite number. -/
theorem eq_of_toRat? {x : Float32} {r : ℚ} (hx : toRat? x = some r) :
    (∃ s, value x = .zero s ∧ r = 0) ∨
      ∃ s m e h, value x = .finite s m e h ∧ r = ((s.apply m : ℤ) : ℚ) * 2 ^ e := by
  unfold toRat? at hx
  split at hx
  · exact .inl ⟨_, ‹_›, (Option.some.inj hx).symm⟩
  · exact .inr ⟨_, _, _, _, ‹_›, (Option.some.inj hx).symm⟩
  · cases hx

/-- **Single precision is ordered as the rationals it denotes.** -/
theorem toRat?_le_of_le {x y : Float32} {r r' : ℚ} (hxy : x ≤ y) (hx : toRat? x = some r)
    (hy : toRat? y = some r') : r ≤ r' := by
  rw [le_iff_value] at hxy
  rcases eq_of_toRat? hx with ⟨s, hvx, rfl⟩ | ⟨s, m, e, h, hvx, rfl⟩
  · rcases eq_of_toRat? hy with ⟨s', hvy, rfl⟩ | ⟨s', m', e', h', hvy, rfl⟩
    · exact le_refl 0
    · -- a zero lies below positive numbers only
      rw [hvx, hvy] at hxy
      cases s' with
      | negative => cases hxy
      | positive =>
        rw [apply_positive_mul_zpow]
        positivity
  · obtain ⟨hc, -⟩ := canonical_of_value hvx
    rcases eq_of_toRat? hy with ⟨s', hvy, rfl⟩ | ⟨s', m', e', h', hvy, rfl⟩
    · -- only negative numbers lie below a zero
      rw [hvx, hvy] at hxy
      cases s with
      | negative =>
        rw [apply_negative_mul_zpow, neg_nonpos]
        positivity
      | positive => cases hxy
    · obtain ⟨hc', -⟩ := canonical_of_value hvy
      rw [hvx, hvy] at hxy
      cases s <;> cases s'
      case negative.negative =>
        -- negative numbers compare the other way round
        change ((compare e e').then (compare m m')).swap.isLE = true at hxy
        rw [Ordering.swap_then, Int.compare_swap, Nat.compare_swap] at hxy
        rw [apply_negative_mul_zpow, apply_negative_mul_zpow, neg_le_neg_iff]
        exact hc'.le_of_lex hc (lex_of_isLE hxy)
      case negative.positive =>
        rw [apply_negative_mul_zpow, apply_positive_mul_zpow]
        have : (0 : ℚ) ≤ m * 2 ^ e := by positivity
        have : (0 : ℚ) ≤ m' * 2 ^ e' := by positivity
        linarith
      case positive.negative => cases hxy
      case positive.positive =>
        rw [apply_positive_mul_zpow, apply_positive_mul_zpow]
        exact hc.le_of_lex hc' (lex_of_isLE hxy)

/-- Only `+∞` lies at or above `+∞`. -/
theorem eq_infinity_of_le {x y : Float32} (hxy : x ≤ y) (hx : value x = .infinity .positive) :
    value y = .infinity .positive := by
  rw [le_iff_value, hx] at hxy
  cases hvy : value y with
  | infinity s =>
    cases s with
    | positive => rfl
    | negative =>
      rw [hvy] at hxy
      cases hxy
  | notANumber =>
    rw [hvy] at hxy
    cases hxy
  | zero s =>
    rw [hvy] at hxy
    cases hxy
  | finite s m e h =>
    rw [hvy] at hxy
    cases hxy

/-- At or above a number that denotes a rational lies one that does too, or `+∞`: NaN is in no
order, and `-∞` lies below everything. -/
theorem toRat?_or_infinity_of_le {x y : Float32} {r : ℚ} (hxy : x ≤ y) (hx : toRat? x = some r) :
    (∃ r', toRat? y = some r') ∨ value y = .infinity .positive := by
  rw [le_iff_value] at hxy
  cases hvy : value y with
  | zero s => exact .inl ⟨0, toRat?_of_zero hvy⟩
  | finite s m e h => exact .inl ⟨_, toRat?_of_finite hvy⟩
  | infinity s =>
    cases s with
    | positive => exact .inr rfl
    | negative =>
      rcases eq_of_toRat? hx with ⟨s, hvx, -⟩ | ⟨s, m, e, h, hvx, -⟩ <;> rw [hvx, hvy] at hxy <;>
        cases hxy
  | notANumber =>
    rcases eq_of_toRat? hx with ⟨s, hvx, -⟩ | ⟨s, m, e, h, hvx, -⟩ <;> rw [hvx, hvy] at hxy <;>
      cases hxy

end Single

namespace SampleFormat

variable (f : SampleFormat)

/-! ## The level exact arithmetic gives -/

/-- The level exact arithmetic gives a sample of value `r`: `r · 2 ^ (depth - 1)` rounded toward
zero and held in `[-2 ^ (depth - 1), 2 ^ (depth - 1) - 1]`. -/
def exactLevel (r : ℚ) : ℤ :=
  max (-2 ^ (f.depth - 1)) (min (2 ^ (f.depth - 1) - 1) (truncRat (r * 2 ^ (f.depth - 1))))

theorem exactLevel_mono {r r' : ℚ} (h : r ≤ r') : f.exactLevel r ≤ f.exactLevel r' := by
  have := truncRat_mono (mul_le_mul_of_nonneg_right h (by positivity : (0 : ℚ) ≤ 2 ^ (f.depth - 1)))
  unfold exactLevel
  omega

theorem exactLevel_zero : f.exactLevel 0 = 0 := by
  have hpos : (0 : ℤ) < 2 ^ (f.depth - 1) := by positivity
  have h0 : truncRat 0 = 0 := by exact_mod_cast truncRat_intCast 0
  unfold exactLevel
  rw [zero_mul, h0]
  omega

/-- `levelOf` clamps to the same range as `exactLevel`. -/
theorem levelOf_eq (x : Float32) :
    f.levelOf x = Single.truncClamp (-2 ^ (f.depth - 1)) (2 ^ (f.depth - 1) - 1) (x * f.fullScale) := by
  unfold levelOf topLevel
  congr 1
  omega

/-- **Scaling by full scale is exact until it overflows.** A finite number times full scale is a
canonical `M · 2 ^ E` that denotes exactly `m · 2 ^ e · 2 ^ (depth - 1)`, or the infinity of its
sign once `E` passes the greatest exponent binary32 stores. -/
theorem value_mul_fullScale {x : Float32} {s : Sign} {m : ℕ} {e : ℤ} {h : 0 < m}
    (hx : Single.value x = .finite s m e h) :
    ∃ M E hM, Single.Canonical M E ∧ (M : ℚ) * 2 ^ E = m * 2 ^ e * 2 ^ (f.depth - 1) ∧
      Single.value (x * f.fullScale) = if E ≤ 104 then .finite s M E hM else .infinity s := by
  have hp : Single.value f.fullScale =
      .finite .positive (2 ^ 23) (((f.depth - 1 : ℕ) : ℤ) - 23) (by decide) := by
    rw [f.value_fullScale]
    congr 1
    have := f.depth_pos
    omega
  obtain ⟨t, -, hc, hv⟩ := Single.value_mul_pow_two_exact (f.depth - 1) hx hp
  refine ⟨m * 2 ^ t, e + (f.depth - 1 : ℕ) - t, _, hc, ?_, hv⟩
  rw [Single.natCast_mul_zpow_shift, zpow_add₀ two_ne_zero, zpow_natCast, mul_assoc]

theorem value_mul_fullScale_of_infinity {x : Float32} {s : Sign}
    (hx : Single.value x = .infinity s) : Single.value (x * f.fullScale) = .infinity s := by
  rw [Single.value_mul, hx, f.value_fullScale]
  show unpack _ (pack _ (.infinity (s * Sign.positive))) = _
  rw [Single.mul_positive, Single.unpack_pack_infinity]

/-- NaN is stored as silence. -/
theorem levelOf_of_notANumber {x : Float32} (hx : Single.value x = .notANumber) :
    f.levelOf x = 0 := by
  have hv : Single.value (x * f.fullScale) = .notANumber := by
    rw [Single.value_mul, hx]
    exact Single.unpack_pack_notANumber
  have hpos : (0 : ℤ) < 2 ^ (f.depth - 1) := by positivity
  rw [levelOf_eq]
  unfold Single.truncClamp
  rw [hv]
  dsimp only
  omega

/-- Positive infinity is stored at the top level. -/
theorem levelOf_of_infinity_positive {x : Float32} (hx : Single.value x = .infinity .positive) :
    f.levelOf x = 2 ^ (f.depth - 1) - 1 := by
  have hpos : (0 : ℤ) < 2 ^ (f.depth - 1) := by positivity
  rw [levelOf_eq]
  unfold Single.truncClamp
  rw [f.value_mul_fullScale_of_infinity hx]
  dsimp only
  omega

/-- Negative infinity is stored at the least level. -/
theorem levelOf_of_infinity_negative {x : Float32} (hx : Single.value x = .infinity .negative) :
    f.levelOf x = -2 ^ (f.depth - 1) := by
  have hpos : (0 : ℤ) < 2 ^ (f.depth - 1) := by positivity
  rw [levelOf_eq]
  unfold Single.truncClamp
  rw [f.value_mul_fullScale_of_infinity hx]
  dsimp only
  omega

/-- **Storing is exact quantisation.** A number denoting a rational `r` — a zero, a subnormal or a
normal number — is stored at the level exact arithmetic gives `r`. -/
theorem levelOf_of_toRat? {x : Float32} {r : ℚ} (hx : Single.toRat? x = some r) :
    f.levelOf x = f.exactLevel r := by
  have hpos : (0 : ℤ) < 2 ^ (f.depth - 1) := by positivity
  rw [levelOf_eq]
  rcases Single.eq_of_toRat? hx with ⟨s, hvx, rfl⟩ | ⟨s, m, e, h, hvx, rfl⟩
  · -- a zero times full scale is a zero
    rw [f.exactLevel_zero]
    unfold Single.truncClamp
    rw [Single.value_mul_of_zero hvx f.value_fullScale]
    dsimp only
    omega
  obtain ⟨M, E, hM, hc, hME, hv⟩ := f.value_mul_fullScale hvx
  split at hv
  · -- the product is exact
    rw [Single.truncClamp_of_finite _ _ hv]
    unfold exactLevel
    rw [Single.apply_mul_zpow_eq_of_eq s hME]
  · -- the product overflows, and exact arithmetic passes the bound of its sign as well
    have hbig : (((2 : ℤ) ^ 128 : ℤ) : ℚ) ≤ m * 2 ^ e * 2 ^ (f.depth - 1) := by
      rw [← hME]
      push_cast
      exact not_lt.1 (mt hc.lt_two_pow_iff.1 ‹_›)
    have hd : (2 : ℤ) ^ (f.depth - 1) ≤ 2 ^ 128 :=
      pow_le_pow_right₀ (by norm_num) (by have := f.depth_le_32; omega)
    unfold Single.truncClamp exactLevel
    rw [hv]
    cases s with
    | negative =>
      have hq := truncRat_mono (neg_le_neg hbig)
      rw [← Int.cast_neg, truncRat_intCast, ← neg_mul, ← Single.apply_negative_mul_zpow] at hq
      dsimp only
      omega
    | positive =>
      have hq := truncRat_mono hbig
      rw [truncRat_intCast, ← Single.apply_positive_mul_zpow] at hq
      dsimp only
      omega

/-- **The product by full scale is exact until it overflows**: below `2 ^ 128` in magnitude it
denotes exactly `r · 2 ^ (depth - 1)`, and from there on it is an infinity. -/
theorem toRat?_mul_fullScale {x : Float32} {r : ℚ} (hx : Single.toRat? x = some r) :
    (|r * 2 ^ (f.depth - 1)| < 2 ^ 128 →
        Single.toRat? (x * f.fullScale) = some (r * 2 ^ (f.depth - 1))) ∧
      (2 ^ 128 ≤ |r * 2 ^ (f.depth - 1)| → ∃ s, Single.value (x * f.fullScale) = .infinity s) := by
  rcases Single.eq_of_toRat? hx with ⟨s, hvx, rfl⟩ | ⟨s, m, e, h, hvx, rfl⟩
  · have hv := Single.value_mul_of_zero hvx f.value_fullScale
    refine ⟨fun _ => by rw [Single.toRat?_of_zero hv, zero_mul], fun hbig => ?_⟩
    rw [zero_mul, abs_zero] at hbig
    exact absurd hbig (by norm_num)
  obtain ⟨M, E, hM, hc, hME, hv⟩ := f.value_mul_fullScale hvx
  -- the exact product has magnitude `M · 2 ^ E`, whichever the sign
  have habs : |((s.apply m : ℤ) : ℚ) * 2 ^ e * 2 ^ (f.depth - 1)| = M * 2 ^ E := by
    rw [hME]
    cases s with
    | negative => rw [Single.apply_negative_mul_zpow, neg_mul, abs_neg, abs_of_nonneg (by positivity)]
    | positive => rw [Single.apply_positive_mul_zpow, abs_of_nonneg (by positivity)]
  rw [habs]
  constructor
  · intro hlt
    rw [if_pos (hc.lt_two_pow_iff.1 hlt)] at hv
    rw [Single.toRat?_of_finite hv, Single.apply_mul_zpow_eq_of_eq s hME]
  · intro hbig
    rw [if_neg fun hE => absurd (hc.lt_two_pow_iff.2 hE) (not_lt.2 hbig)] at hv
    exact ⟨s, hv⟩

/-! ## Sign and order -/

/-- A positive level is stored only for a positive value. -/
theorem pos_of_levelOf_pos {x : Float32} (h : 0 < f.levelOf x) : 0 < x := by
  have hpos : (0 : ℤ) < 2 ^ (f.depth - 1) := by positivity
  rw [Single.lt_iff_value, Single.value_zero]
  cases hv : Single.value x with
  | notANumber =>
    rw [f.levelOf_of_notANumber hv] at h
    omega
  | zero s =>
    rw [f.levelOf_of_toRat? (Single.toRat?_of_zero hv), f.exactLevel_zero] at h
    omega
  | infinity s =>
    cases s with
    | negative =>
      rw [f.levelOf_of_infinity_negative hv] at h
      omega
    | positive => rfl
  | finite s m e hm =>
    cases s with
    | negative =>
      -- a negative number is stored at a level at most that of zero
      have hle := f.exactLevel_mono
        (show ((Sign.negative.apply m : ℤ) : ℚ) * 2 ^ e ≤ 0 by
          rw [Single.apply_negative_mul_zpow, neg_nonpos]; positivity)
      rw [f.exactLevel_zero, ← f.levelOf_of_toRat? (Single.toRat?_of_finite hv)] at hle
      omega
    | positive => rfl

/-- A negative level is stored only for a negative value. -/
theorem neg_of_levelOf_neg {x : Float32} (h : f.levelOf x < 0) : x < 0 := by
  have hpos : (0 : ℤ) < 2 ^ (f.depth - 1) := by positivity
  rw [Single.lt_iff_value, Single.value_zero]
  cases hv : Single.value x with
  | notANumber =>
    rw [f.levelOf_of_notANumber hv] at h
    omega
  | zero s =>
    rw [f.levelOf_of_toRat? (Single.toRat?_of_zero hv), f.exactLevel_zero] at h
    omega
  | infinity s =>
    cases s with
    | negative => rfl
    | positive =>
      rw [f.levelOf_of_infinity_positive hv] at h
      omega
  | finite s m e hm =>
    cases s with
    | negative => rfl
    | positive =>
      -- a positive number is stored at a level at least that of zero
      have hle := f.exactLevel_mono
        (show (0 : ℚ) ≤ ((Sign.positive.apply m : ℤ) : ℚ) * 2 ^ e by
          rw [Single.apply_positive_mul_zpow]; positivity)
      rw [f.exactLevel_zero, ← f.levelOf_of_toRat? (Single.toRat?_of_finite hv)] at hle
      omega

/-- At or above a number that denotes a rational lies one that does too, or `+∞`. -/
theorem levelOf_le_of_toRat? {x y : Float32} {r : ℚ} (hxy : x ≤ y) (hx : Single.toRat? x = some r) :
    f.levelOf x ≤ f.levelOf y := by
  rcases Single.toRat?_or_infinity_of_le hxy hx with ⟨r', hy⟩ | hy
  · rw [f.levelOf_of_toRat? hx, f.levelOf_of_toRat? hy]
    exact f.exactLevel_mono (Single.toRat?_le_of_le hxy hx hy)
  · rw [f.levelOf_of_infinity_positive hy]
    exact (f.levelOf_mem x).2

/-- **Storing keeps the order.** -/
theorem levelOf_mono {x y : Float32} (hxy : x ≤ y) : f.levelOf x ≤ f.levelOf y := by
  cases hvx : Single.value x with
  | notANumber =>
    rw [Single.le_iff_value, hvx] at hxy
    cases hxy
  | zero s => exact f.levelOf_le_of_toRat? hxy (Single.toRat?_of_zero hvx)
  | finite s m e h => exact f.levelOf_le_of_toRat? hxy (Single.toRat?_of_finite hvx)
  | infinity s =>
    cases s with
    | negative =>
      rw [f.levelOf_of_infinity_negative hvx]
      exact (f.levelOf_mem y).1
    | positive =>
      rw [f.levelOf_of_infinity_positive hvx,
        f.levelOf_of_infinity_positive (Single.eq_infinity_of_le hxy hvx)]

/-! ## The container written -/

/-- The level shifted up by `shift` fits the container as a signed word. -/
theorem levelOf_mul_shift_mem (x : Float32) :
    -2 ^ (8 * f.bytes - 1) ≤ f.levelOf x * 2 ^ f.shift ∧
      f.levelOf x * 2 ^ f.shift < 2 ^ (8 * f.bytes - 1) := by
  obtain ⟨hlo, hhi⟩ := f.levelOf_mem x
  have hs : (0 : ℤ) < 2 ^ f.shift := by positivity
  have hP : (2 : ℤ) ^ (f.depth - 1) * 2 ^ f.shift = 2 ^ (8 * f.bytes - 1) := by
    rw [← pow_add]
    congr 1
    have := f.shift_add_depth
    have := f.depth_pos
    omega
  unfold topLevel at hhi
  constructor
  · calc -2 ^ (8 * f.bytes - 1) = -2 ^ (f.depth - 1) * 2 ^ f.shift := by rw [← hP, neg_mul]
      _ ≤ f.levelOf x * 2 ^ f.shift := mul_le_mul_of_nonneg_right hlo hs.le
  · calc f.levelOf x * 2 ^ f.shift ≤ (2 ^ (f.depth - 1) - 1) * 2 ^ f.shift :=
          mul_le_mul_of_nonneg_right hhi hs.le
      _ < 2 ^ (f.depth - 1) * 2 ^ f.shift := by linarith
      _ = 2 ^ (8 * f.bytes - 1) := hP

/-- The container written holds the level shifted up by `shift`, as a word of `8 · bytes` bits. -/
theorem littleEndian_write (x : Float32) (bs : List UInt8) :
    (littleEndian ((f.write x bs).take f.bytes) : ℤ) =
      f.levelOf x * 2 ^ f.shift % 2 ^ (8 * f.bytes) := by
  have hM : (0 : ℤ) < 2 ^ (8 * f.bytes) := by positivity
  have hM' : ((2 ^ (8 * f.bytes) : ℕ) : ℤ) = 2 ^ (8 * f.bytes) := Int.natCast_pow 2 _
  have hnn := Int.emod_nonneg (f.levelOf x * 2 ^ f.shift) hM.ne'
  have hlt := Int.emod_lt_of_pos (f.levelOf x * 2 ^ f.shift) hM
  unfold write
  dsimp only
  rw [List.take_left' (length_littleEndianBytes _ _), littleEndian_littleEndianBytes,
    Nat.mod_eq_of_lt (by omega)]
  exact Int.toNat_of_nonneg hnn

/-- Writing leaves every byte after the container. -/
theorem drop_write (x : Float32) (bs : List UInt8) : (f.write x bs).drop f.bytes = bs.drop f.bytes := by
  unfold write
  exact List.drop_left' (length_littleEndianBytes _ _)

/-- Writing a container over fewer bytes extends them to one container. -/
theorem length_write_eq_max (x : Float32) (bs : List UInt8) :
    (f.write x bs).length = max f.bytes bs.length := by
  simp only [write, List.length_append, length_littleEndianBytes, List.length_drop]
  omega

end SampleFormat

/-- **Writing a sample is an exact quantiser that saturates and never wraps.** For every format,
every single-precision value `x` and every byte string:

* the container written holds `q · 2 ^ shift` as a word of `8 · bytes` bits, where `q` is the
  level `x` is stored at; that product fits the container as a signed word, so it is the
  container's value in two's complement, and the level read back is `q`; the bytes after the
  container are kept;
* `q` is what exact arithmetic gives — `x · 2 ^ (depth - 1)` rounded toward zero and held in
  `[-2 ^ (depth - 1), 2 ^ (depth - 1) - 1]` — for zeros, subnormals and normal numbers alike; NaN is
  stored as `0` and an infinity at the bound of its sign;
* `q` has the sign of `x` or is `0`, and grows with `x`;
* the product by full scale that storing computes is exact while it is below `2 ^ 128` in
  magnitude and an infinity beyond; there the bound exact arithmetic reaches is the same. -/
theorem write_quantises_exactly (f : SampleFormat) (x : Float32) (bs : List UInt8) :
    ((littleEndian ((f.write x bs).take f.bytes) : ℤ) =
        f.levelOf x * 2 ^ f.shift % 2 ^ (8 * f.bytes) ∧
      -2 ^ (8 * f.bytes - 1) ≤ f.levelOf x * 2 ^ f.shift ∧
      f.levelOf x * 2 ^ f.shift < 2 ^ (8 * f.bytes - 1) ∧
      f.level (f.write x bs) = f.levelOf x ∧
      (f.write x bs).drop f.bytes = bs.drop f.bytes ∧
      (f.write x bs).length = max f.bytes bs.length) ∧
    (∀ r, Single.toRat? x = some r → f.levelOf x = f.exactLevel r) ∧
    (Single.value x = .notANumber → f.levelOf x = 0) ∧
    (Single.value x = .infinity .positive → f.levelOf x = 2 ^ (f.depth - 1) - 1) ∧
    (Single.value x = .infinity .negative → f.levelOf x = -2 ^ (f.depth - 1)) ∧
    (0 < f.levelOf x → 0 < x) ∧ (f.levelOf x < 0 → x < 0) ∧
    (∀ y, x ≤ y → f.levelOf x ≤ f.levelOf y) ∧
    (∀ r, Single.toRat? x = some r →
      (|r * 2 ^ (f.depth - 1)| < 2 ^ 128 →
        Single.toRat? (x * f.fullScale) = some (r * 2 ^ (f.depth - 1))) ∧
      (2 ^ 128 ≤ |r * 2 ^ (f.depth - 1)| → ∃ s, Single.value (x * f.fullScale) = .infinity s)) := by
  obtain ⟨hlo, hhi⟩ := f.levelOf_mul_shift_mem x
  refine ⟨⟨f.littleEndian_write x bs, hlo, hhi, f.level_write x bs, f.drop_write x bs,
    f.length_write_eq_max x bs⟩, fun r => f.levelOf_of_toRat?, f.levelOf_of_notANumber,
    f.levelOf_of_infinity_positive, f.levelOf_of_infinity_negative, f.pos_of_levelOf_pos,
    f.neg_of_levelOf_neg, fun y => f.levelOf_mono, fun r => f.toRat?_mul_fullScale⟩

end PcmBiquad
