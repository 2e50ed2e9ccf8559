import PcmBiquad.Proofs.Binary32
/-!
  Single-precision numbers in canonical form, and the operations that keep them exact.

  Loading a binary32 number gives a finite value in one shape only (`canonical_of_value`): a
  mantissa of at most 24 bits at an exponent of at least `-149`, with exactly 24 bits unless the
  exponent is that least one, where subnormal numbers sit. The model's rounding keeps such a
  number, with any clear bits appended (`roundWithAccuracy_canonical`), and storing then loading
  keeps every value a number can have (`unpack_pack_value`).

  From these:

  * `value_one_mul`, `value_zero_mul`, `value_add_of_zero`, `value_sub_of_zero` — one times a
    number is that number, zero times a number that is neither infinite nor NaN is a zero, and
    adding or subtracting a zero changes nothing but a negative zero;
  * `value_mul_pow_two_exact` — scaling any finite number up by a power of two is exact, a
    subnormal mantissa moving up into the normal range, until the result overflows to the
    infinity of its sign.
-/

namespace PcmBiquad

open Float.Model (Format UnpackedFloat totalExponent)
open Float.Model.UnpackedFloat

namespace Single

/-! ## Canonical numbers -/

/-- The mantissa and exponent of a finite binary32 number: at most 24 bits, at an exponent the
format reaches, and exactly 24 bits unless the exponent is the least one. -/
structure Canonical (m : Nat) (e : Int) : Prop where
  mantissa_pos : 0 < m
  mantissa_lt : m < 2 ^ 24
  exponent_ge : -149 ≤ e
  normal_or_least : 2 ^ 23 ≤ m ∨ e = -149

/-- Every finite value a binary32 number loads as is canonical, at an exponent of at most `104`. -/
theorem canonical_of_value {y : Float32} {s : Sign} {m : Nat} {e : Int} {h : 0 < m}
    (hy : value y = .finite s m e h) : Canonical m e ∧ e ≤ 104 := by
  unfold value unpack at hy
  dsimp only at hy
  split at hy
  · split at hy <;> cases hy
  · split at hy
    · split at hy
      · cases hy
      · rename_i hexp _
        cases hy
        -- subnormal: the stored bits alone, at the least exponent
        refine ⟨⟨h, Nat.lt_trans (BitVec.isLt _) (by decide), ?_, .inr ?_⟩, ?_⟩ <;>
          rw [hexp] <;> decide
    · -- normal: the implicit bit above the stored ones, at a biased exponent in `[1, 254]`
      rename_i hinf hzero
      cases hy
      have hlt : (@unpackExponent Format.binary32 y.toBits.toBitVec).toNat < 2 ^ 8 :=
        (@unpackExponent Format.binary32 y.toBits.toBitVec).isLt
      have hmlt : (@unpackMantissa Format.binary32 y.toBits.toBitVec).toNat < 2 ^ 23 :=
        (@unpackMantissa Format.binary32 y.toBits.toBitVec).isLt
      have hne0 : (@unpackExponent Format.binary32 y.toBits.toBitVec).toNat ≠ 0 := fun h0 =>
        hzero (BitVec.eq_of_toNat_eq (by simpa using h0))
      have hne1 : (@unpackExponent Format.binary32 y.toBits.toBitVec).toNat ≠ 255 := fun h1 =>
        hinf (BitVec.eq_of_toNat_eq (by simpa using h1))
      have hm : (1#1 ++ @unpackMantissa Format.binary32 y.toBits.toBitVec).toNat =
          2 ^ 23 + (@unpackMantissa Format.binary32 y.toBits.toBitVec).toNat :=
        toNat_implicit_append _
      simp only [show (Format.binary32.exponentBias : Int) = 127 from rfl,
        show (Format.binary32.mantissaBitsWithoutImplicit : Int) = 23 from rfl]
      refine ⟨⟨h, by omega, by omega, .inl (by omega)⟩, by omega⟩

/-! ## Rounding, storing and loading -/

/-- A mantissa whose value lies below the normal range is shifted to the least exponent. -/
theorem shiftToTargetExponent_least {M : Nat} (E : Int) (hE : (M.log2 : Int) + E ≤ -126) :
    shiftToTargetExponent Format.binary32 M E .exact =
      (ExtendedMantissa.ofMantissaAndAccuracy M .exact >>> (-149 - E).toNat,
        E + (-149 - E).toNat) := by
  unfold shiftToTargetExponent shiftToExponent
  simp only [targetExponent_binary32, totalExponent]
  rw [show max ((M.log2 : Int) + 1 + E - 24) (-149) = -149 by omega]

/-- A subnormal mantissa given with `k` extra clear bits at the least exponent less `k` is
kept as it is: exactly the `k` clear bits go. -/
theorem roundWithAccuracy_subnormal (s : Sign) {q : Nat} (k : Nat) (hq : 0 < q) (hq' : q < 2 ^ 23) :
    roundWithAccuracy Format.binary32 s (q * 2 ^ k) (-149 - k) .exact = .finite s q (-149) hq := by
  have hlog : (q * 2 ^ k).log2 = q.log2 + k := log2_mul_two_pow k (by omega)
  have hq23 : q.log2 < 23 := (Nat.log2_lt (by omega)).2 hq'
  unfold roundWithAccuracy
  rw [shiftToTargetExponent_least _ (by rw [hlog]; omega),
    show (-149 - (-149 - (k : Int))).toNat = k by omega, shift_exact_mul_pow]
  dsimp only
  rw [roundedMantissa_exact, shiftToTargetExponent_least _ (by omega),
    show (-149 - (-149 - (k : Int) + ((k : Nat) : Int))).toNat = 0 by omega, shift_exact_zero]
  dsimp only
  rw [dif_neg (by omega)]
  congr 1
  omega

/-- **Rounding keeps what binary32 holds.** A canonical mantissa and exponent, given with `k`
extra clear bits appended, round to exactly that number. -/
theorem roundWithAccuracy_canonical (s : Sign) {q : Nat} (k : Nat) {e : Int} (hq : Canonical q e) :
    roundWithAccuracy Format.binary32 s (q * 2 ^ k) (e - k) .exact = .finite s q e hq.mantissa_pos := by
  rcases hq.normal_or_least with hn | rfl
  · exact roundWithAccuracy_exact s k e hn hq.mantissa_lt hq.exponent_ge
  · by_cases hn : 2 ^ 23 ≤ q
    · exact roundWithAccuracy_exact s k (-149) hn hq.mantissa_lt (Int.le_refl _)
    · exact roundWithAccuracy_subnormal s k hq.mantissa_pos (by omega)

/-- A subnormal number loads back as it was stored. -/
theorem unpack_pack_subnormal (s : Sign) {m : Nat} (h : 0 < m) (hm : m < 2 ^ 23) :
    unpack Format.binary32 (pack Format.binary32 (.finite s m (-149) h)) = .finite s m (-149) h := by
  have hlog : m.log2 < 23 := (Nat.log2_lt (by omega)).2 hm
  have hbits : (BitVec.ofNat 23 m).toNat = m := by
    rw [BitVec.toNat_ofNat, Nat.mod_eq_of_lt hm]
  have hnz : BitVec.ofNat 23 m ≠ 0#23 := by
    intro hz
    have := congrArg BitVec.toNat hz
    rw [hbits] at this
    simp only [BitVec.toNat_zero] at this
    omega
  unfold pack
  simp only [show (Format.binary32.exponentBias : Int) = 127 from rfl]
  rw [if_neg (by decide), if_neg (show ¬(m.log2 + 1 = Format.binary32.mantissaBits) by
    show ¬(m.log2 + 1 = 24); omega)]
  unfold unpack
  simp only [unpackMantissa_packComponents, unpackExponent_packComponents,
    sign_unpack_packComponents, show (Format.binary32.exponentBias : Int) = 127 from rfl]
  rw [if_neg (by decide), if_pos trivial, dif_neg hnz]
  congr 1

/-- A canonical number at an exponent binary32 stores loads back as it was stored. -/
theorem unpack_pack_canonical (s : Sign) {m : Nat} {e : Int} (h : 0 < m) (hc : Canonical m e)
    (he : e ≤ 104) :
    unpack Format.binary32 (pack Format.binary32 (.finite s m e h)) = .finite s m e h := by
  by_cases hn : 2 ^ 23 ≤ m
  · exact unpack_pack_finite s h ⟨hn, hc.mantissa_lt, hc.exponent_ge, he⟩
  · rcases hc.normal_or_least with hn' | rfl
    · exact absurd hn' hn
    · exact unpack_pack_subnormal s h (by omega)

/-- An infinity loads back as it was stored. -/
theorem unpack_pack_infinity (s : Sign) :
    unpack Format.binary32 (pack Format.binary32 (.infinity s)) = .infinity s := by
  unfold pack packedInfinity unpack
  simp only [unpackMantissa_packComponents, unpackExponent_packComponents,
    sign_unpack_packComponents]
  rw [if_pos trivial, if_pos (by decide)]

/-- A canonical number past the exponents binary32 stores overflows to the infinity of its
sign. -/
theorem unpack_pack_of_lt (s : Sign) {m : Nat} {e : Int} (h : 0 < m) (he : 104 < e) :
    unpack Format.binary32 (pack Format.binary32 (.finite s m e h)) = .infinity s := by
  have hover : pack Format.binary32 (.finite s m e h) = pack Format.binary32 (.infinity s) := by
    unfold pack
    simp only [show (Format.binary32.exponentBias : Int) = 127 from rfl]
    rw [if_pos (by omega)]
  rw [hover, unpack_pack_infinity]

/-- NaN loads back as NaN. -/
theorem unpack_pack_notANumber :
    unpack Format.binary32 (pack Format.binary32 .notANumber) = .notANumber := by
  unfold pack packedNaN unpack
  simp only [unpackMantissa_packComponents, unpackExponent_packComponents]
  rw [if_pos trivial, if_neg (by decide)]

/-- **Storing what was loaded changes nothing.** Every value a single-precision number has is
stored and loaded back exactly. -/
theorem unpack_pack_value (x : Float32) :
    unpack Format.binary32 (pack Format.binary32 (value x)) = value x := by
  cases hx : value x with
  | notANumber => exact unpack_pack_notANumber
  | infinity s => exact unpack_pack_infinity s
  | zero s => exact unpack_pack_zero s
  | finite s m e h =>
    obtain ⟨hc, he⟩ := canonical_of_value hx
    exact unpack_pack_canonical s h hc he

/-! ## Operations with zero and one -/

/-- A positive sign leaves the other sign of a product. -/
@[simp] theorem positive_mul (s : Sign) : Sign.positive * s = s := by cases s <;> rfl

/-- The single-precision one is `2 ^ 23 · 2 ^ (-23)`. -/
theorem value_one : value (1 : Float32) = .finite .positive (2 ^ 23) (-23) (by decide) := rfl

/-- The single-precision zero is positive zero. -/
theorem value_zero : value (0 : Float32) = .zero .positive := rfl

/-- A sum is the model's sum of the two values, stored and loaded. -/
theorem value_add (x y : Float32) :
    value (x + y) = unpack Format.binary32 (pack Format.binary32
      (UnpackedFloat.add Format.binary32 (value x) (value y))) := rfl

/-- A difference is the model's difference of the two values, stored and loaded. -/
theorem value_sub (x y : Float32) :
    value (x - y) = unpack Format.binary32 (pack Format.binary32
      (UnpackedFloat.sub Format.binary32 (value x) (value y))) := rfl

/-- **One times anything is that thing**, NaN and infinities included. -/
theorem value_one_mul (x : Float32) : value (1 * x) = value x := by
  rw [value_mul, value_one]
  cases hx : value x with
  | notANumber => exact unpack_pack_notANumber
  | infinity s =>
    show unpack Format.binary32 (pack Format.binary32 (.infinity (Sign.positive * s))) = _
    rw [positive_mul, unpack_pack_infinity]
  | zero s =>
    show unpack Format.binary32 (pack Format.binary32 (.zero (Sign.positive * s))) = _
    rw [positive_mul, unpack_pack_zero]
  | finite s m e h =>
    obtain ⟨hc, he⟩ := canonical_of_value hx
    rw [mul_finite, positive_mul, Nat.mul_comm, show (-23 : Int) + e = e - ((23 : Nat) : Int) by omega,
      roundWithAccuracy_canonical s 23 hc, unpack_pack_canonical s h hc he]

/-- Zero times a number that is neither infinite nor NaN is a zero. -/
theorem value_zero_mul {y : Float32} (hy : y.isFinite = true) :
    ∃ s, value (0 * y) = .zero s := by
  rw [value_mul, value_zero]
  have hy' : (value y).isFinite = true := hy
  cases hval : value y with
  | notANumber => rw [hval] at hy'; cases hy'
  | infinity s => rw [hval] at hy'; cases hy'
  | zero s => exact ⟨Sign.positive * s, unpack_pack_zero _⟩
  | finite s m e h => exact ⟨Sign.positive * s, unpack_pack_zero _⟩

/-- **Adding a zero changes nothing**, except to a negative zero. -/
theorem value_add_of_zero {x z : Float32} {sz : Sign} (hz : value z = .zero sz)
    (hx : value x ≠ .zero .negative) : value (x + z) = value x := by
  have hsum : UnpackedFloat.add Format.binary32 (value x) (value z) = value x := by
    rw [hz]
    cases hval : value x with
    | notANumber => rfl
    | infinity s => rfl
    | zero s =>
      cases s with
      | negative => exact absurd hval hx
      | positive => exact ite_self _
    | finite s m e h => rfl
  rw [value_add, hsum, unpack_pack_value]

/-- **Subtracting a zero changes nothing**, except to a negative zero. -/
theorem value_sub_of_zero {x z : Float32} {sz : Sign} (hz : value z = .zero sz)
    (hx : value x ≠ .zero .negative) : value (x - z) = value x := by
  have hdiff : UnpackedFloat.sub Format.binary32 (value x) (value z) = value x := by
    rw [hz]
    cases hval : value x with
    | notANumber => rfl
    | infinity s => rfl
    | zero s =>
      cases s with
      | negative => exact absurd hval hx
      | positive => exact ite_self _
    | finite s m e h => rfl
  rw [value_sub, hdiff, unpack_pack_value]

/-! ## Scaling by a power of two -/

/-- **Scaling up by a power of two is exact until it overflows.** A finite number times
`2 ^ j` is the number `m · 2 ^ t` at exponent `e + j - t`, where `t` shifts a subnormal
mantissa up as far as the exponent allows; it is an infinity of the same sign once that
exponent passes the largest binary32 stores. -/
theorem value_mul_pow_two_exact {x p : Float32} {s : Sign} {m : Nat} {e : Int} {h : 0 < m}
    (j : Nat) (hx : value x = .finite s m e h)
    (hp : value p = .finite .positive (2 ^ 23) ((j : Int) - 23) (by decide)) :
    ∃ t : Nat, t ≤ 23 ∧ Canonical (m * 2 ^ t) (e + j - t) ∧
      value (x * p) = if e + j - t ≤ 104 then
          .finite s (m * 2 ^ t) (e + j - t) (Nat.mul_pos h (Nat.two_pow_pos t))
        else .infinity s := by
  obtain ⟨hc, he⟩ := canonical_of_value hx
  -- a normal mantissa stays; a subnormal one moves up until it is normal or `j` is used up
  obtain ⟨t, ht, hc'⟩ : ∃ t : Nat, t ≤ 23 ∧ Canonical (m * 2 ^ t) (e + j - t) := by
    by_cases hn : 2 ^ 23 ≤ m
    · refine ⟨0, by omega, ?_⟩
      rw [Nat.pow_zero, Nat.mul_one]
      exact ⟨hc.mantissa_pos, hc.mantissa_lt, by have := hc.exponent_ge; omega, .inl hn⟩
    · have hlog : m.log2 < 23 := (Nat.log2_lt (by omega)).2 (by omega)
      have hlo := Nat.log2_self_le (Nat.pos_iff_ne_zero.mp h)
      have hhi := Nat.lt_log2_self (n := m)
      have hleast : e = -149 := hc.normal_or_least.resolve_left hn
      refine ⟨min j (23 - m.log2), by omega, ⟨Nat.mul_pos h (Nat.two_pow_pos _), ?_, by omega, ?_⟩⟩
      · calc m * 2 ^ min j (23 - m.log2) < 2 ^ (m.log2 + 1) * 2 ^ min j (23 - m.log2) :=
              Nat.mul_lt_mul_of_pos_right hhi (Nat.two_pow_pos _)
          _ = 2 ^ (m.log2 + 1 + min j (23 - m.log2)) := (Nat.pow_add ..).symm
          _ ≤ 2 ^ 24 := Nat.pow_le_pow_right (by decide) (by omega)
      · by_cases hj : j ≤ 23 - m.log2
        · exact .inr (by omega)
        · refine .inl ?_
          calc 2 ^ 23 = 2 ^ m.log2 * 2 ^ (23 - m.log2) := by
                rw [← Nat.pow_add]; congr 1; omega
            _ ≤ m * 2 ^ min j (23 - m.log2) := by
                rw [Nat.min_eq_right (by omega)]
                exact Nat.mul_le_mul_right _ hlo
  refine ⟨t, ht, hc', ?_⟩
  have hround : UnpackedFloat.mul Format.binary32 (value x) (value p) =
      .finite s (m * 2 ^ t) (e + j - t) (Nat.mul_pos h (Nat.two_pow_pos t)) := by
    rw [hx, hp, mul_finite, mul_positive,
      show m * 2 ^ 23 = m * 2 ^ t * 2 ^ (23 - t) by rw [Nat.mul_assoc, ← Nat.pow_add]; congr 2; omega,
      show e + ((j : Int) - 23) = e + j - t - ((23 - t : Nat) : Int) by omega]
    exact roundWithAccuracy_canonical s (23 - t) hc'
  rw [value_mul, hround]
  split
  · exact unpack_pack_canonical s _ hc' ‹_›
  · exact unpack_pack_of_lt s _ (by omega)

end Single

end PcmBiquad
