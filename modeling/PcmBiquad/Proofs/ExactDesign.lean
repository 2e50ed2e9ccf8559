import Mathlib.Tactic.FieldSimp
import Mathlib.Tactic.Linarith
import Mathlib.Tactic.Positivity
import Mathlib.Tactic.Ring
import PcmBiquad.Proofs.Quantiser
/-!
  The filter designs in exact arithmetic.

  `designWith` is written once for any arithmetic. Read in the rationals, with π and √2 the
  rationals their single-precision roundings denote (`Single.exactConstants`), it gives the exact
  values that the single-precision designs round (`exactDesign`). Two facts hold of them for every
  positive sample rate and cutoff.

  *Stability.* A section is stable when both poles of `1 + a1 z⁻¹ + a2 z⁻²` lie inside the
  unit circle, that is inside the triangle `|a2| < 1`, `|a1| < 1 + a2` (`Coefficients.Stable`).
  Dividing through by a leading term of either sign keeps the test on the raw denominator
  (`stable_normalize_iff`, `normalize_neg`). The Butterworth denominator `1 ± √2 w + w²` passes
  it for every positive warped cutoff `w`, so the low and high passes are stable at every cutoff,
  above the sample rate too. The band pass is stable exactly while its warped edges are ordered;
  warping is strictly increasing, so that is `3f/4 < min (5f/4) fs`, which is `f < 4 fs / 3`. Its
  leading term stays negative past that point: the upper edge is then the sample rate itself, which
  warps to `π + π³/3 ≥ 1` (`band_leading_neg`).

  *Gains at DC and Nyquist.* The gain at `z = 1` is the numerator's sum over the denominator's, and
  at `z = -1` the same with alternating signs, whatever the leading term (`dcGain_normalize`,
  `nyquistGain_normalize`). The Butterworth denominator sums to `4 w²` at `z = 1` and to `4` at
  `z = -1`. So the low pass has unit gain at DC and a zero at Nyquist; the high pass, whose
  numerator is `(1, -2, -1)`, has gain `-1 / (2 w²)` at DC and `1/2` at Nyquist; the band pass,
  with numerator `(-Δ, 0, Δ)`, has zeros at both.

  Of the constants only three facts are used (`DesignConstants.Admissible`): both are positive, and
  `π + π³/3` is at least one.
-/

namespace PcmBiquad

/-! ## The exact reading -/

namespace Single

/-- π and √2 as the rationals their single-precision roundings denote. -/
def exactConstants : DesignConstants ℚ := ⟨13176795 / 4194304, 11863283 / 8388608⟩

/-- Single-precision π (`0x40490fdb`) denotes the exact π. -/
theorem toRat?_pi : toRat? pi = some exactConstants.pi := by
  rw [toRat?_of_finite (show value pi = .finite .positive 13176795 (-22) (by decide) from rfl),
    apply_positive_mul_zpow]
  norm_num [exactConstants]

/-- Single-precision √2 (`0x3fb504f3`) denotes the exact √2. -/
theorem toRat?_sqrtTwo : toRat? sqrtTwo = some exactConstants.sqrtTwo := by
  rw [toRat?_of_finite (show value sqrtTwo = .finite .positive 11863283 (-23) (by decide) from rfl),
    apply_positive_mul_zpow]
  norm_num [exactConstants]

end Single

/-- The coefficients of a design, every step read in exact rational arithmetic. -/
def exactDesign (kind : FilterKind) (rate cutoff : ℚ) : Coefficients ℚ :=
  designWith Single.exactConstants kind rate cutoff

/-- What the designs need of π and √2: both positive, and `π + π³/3` — a sample rate warped
at itself — at least one. -/
structure DesignConstants.Admissible (K : DesignConstants ℚ) : Prop where
  pi_pos : 0 < K.pi
  sqrtTwo_pos : 0 < K.sqrtTwo
  one_le_warp_pi : 1 ≤ K.pi + K.pi * K.pi * K.pi / 3

theorem Single.exactConstants_admissible : exactConstants.Admissible where
  pi_pos := by norm_num [exactConstants]
  sqrtTwo_pos := by norm_num [exactConstants]
  one_le_warp_pi := by norm_num [exactConstants]

/-! ## Stability and gains of a normalised section -/

namespace Coefficients

/-- A section is stable when both poles of its denominator `1 + a1 z⁻¹ + a2 z⁻²` lie inside
the unit circle: the stability triangle `|a2| < 1`, `|a1| < 1 + a2`. -/
def Stable (c : Coefficients ℚ) : Prop := |c.a2| < 1 ∧ |c.a1| < 1 + c.a2

instance (c : Coefficients ℚ) : Decidable c.Stable := inferInstanceAs (Decidable (_ ∧ _))

/-- The gain at the Nyquist frequency, the transfer function at `z = -1`. -/
def nyquistGain (c : Coefficients ℚ) : ℚ := (c.b0 - c.b1 + c.b2) / (1 - c.a1 + c.a2)

/-- The numerator `b0 + b1 z⁻¹ + b2 z⁻²` vanishes at DC, `z = 1`. -/
def ZeroAtDC (c : Coefficients ℚ) : Prop := c.b0 + c.b1 + c.b2 = 0

/-- The numerator `b0 + b1 z⁻¹ + b2 z⁻²` vanishes at Nyquist, `z = -1`. -/
def ZeroAtNyquist (c : Coefficients ℚ) : Prop := c.b0 - c.b1 + c.b2 = 0

variable {a0 a1 a2 b0 b1 b2 : ℚ}

/-- Negating all six terms before normalising changes nothing. -/
theorem normalize_neg (a0 a1 a2 b0 b1 b2 : ℚ) :
    normalize (-a0) (-a1) (-a2) (-b0) (-b1) (-b2) = normalize a0 a1 a2 b0 b1 b2 := by
  simp only [normalize, neg_div_neg_eq]

/-- Over a positive leading term, the stability triangle of the normalised section is the test
`|a2| < a0`, `|a1| < a0 + a2` on the raw denominator. -/
theorem stable_normalize_iff (h0 : 0 < a0) :
    (normalize a0 a1 a2 b0 b1 b2).Stable ↔ |a2| < a0 ∧ |a1| < a0 + a2 := by
  simp only [Stable, normalize, abs_div, abs_of_pos h0]
  rw [div_lt_one h0, div_lt_iff₀ h0, add_mul, one_mul, div_mul_cancel₀ _ h0.ne']

/-- The gain at DC of a normalised section is the raw numerator's sum over the raw
denominator's. -/
theorem dcGain_normalize (h0 : a0 ≠ 0) :
    (normalize a0 a1 a2 b0 b1 b2).dcGain = (b0 + b1 + b2) / (a0 + a1 + a2) := by
  have hn : b0 / a0 + b1 / a0 + b2 / a0 = (b0 + b1 + b2) / a0 := by ring
  have hd : 1 + a1 / a0 + a2 / a0 = (a0 + a1 + a2) / a0 := by field_simp
  simp only [dcGain, normalize]
  rw [hn, hd, div_div_div_cancel_right₀ h0]

/-- The gain at Nyquist of a normalised section is the raw numerator's alternating sum over the
raw denominator's. -/
theorem nyquistGain_normalize (h0 : a0 ≠ 0) :
    (normalize a0 a1 a2 b0 b1 b2).nyquistGain = (b0 - b1 + b2) / (a0 - a1 + a2) := by
  have hn : b0 / a0 - b1 / a0 + b2 / a0 = (b0 - b1 + b2) / a0 := by ring
  have hd : 1 - a1 / a0 + a2 / a0 = (a0 - a1 + a2) / a0 := by field_simp
  simp only [nyquistGain, normalize]
  rw [hn, hd, div_div_div_cancel_right₀ h0]

end Coefficients

/-! ## Warping and band edges -/

/-- The cubic `x + x³/3` that stands in for the tangent is strictly increasing. -/
theorem cubic_lt_cubic {x y : ℚ} (h : x < y) : x + x * x * x / 3 < y + y * y * y / 3 := by
  have hsq : 0 ≤ x * x + x * y + y * y := by
    nlinarith [sq_nonneg (x + y), sq_nonneg x, sq_nonneg y]
  -- `y³ - x³ = (y - x)(x² + xy + y²)`
  nlinarith [mul_nonneg (sub_pos.2 h).le hsq]

section Warp

variable {K : DesignConstants ℚ} {rate : ℚ}

/-- At a positive sample rate, warping is strictly increasing in the frequency. -/
theorem warpWith_strictMono (hK : K.Admissible) (hr : 0 < rate) : StrictMono (warpWith K rate) :=
  fun _ _ h =>
    cubic_lt_cubic ((div_lt_div_iff_of_pos_right hr).2 (mul_lt_mul_of_pos_right h hK.pi_pos))

/-- At a positive sample rate, a positive frequency warps to a positive one. -/
theorem warpWith_pos (hK : K.Admissible) (hr : 0 < rate) {freq : ℚ} (hf : 0 < freq) :
    0 < warpWith K rate freq := by
  have h0 : warpWith K rate 0 = 0 := by simp [warpWith]
  simpa only [h0] using warpWith_strictMono hK hr hf

/-- A sample rate warps at itself to `π + π³/3`. -/
theorem warpWith_self (K : DesignConstants ℚ) (hr : rate ≠ 0) :
    warpWith K rate rate = K.pi + K.pi * K.pi * K.pi / 3 := by
  simp only [warpWith, mul_div_cancel_left₀ _ hr]

end Warp

/-- A positive centre has its lower band edge at three quarters of it. -/
theorem bandLower_of_pos {cutoff : ℚ} (hc : 0 < cutoff) : bandLower cutoff = 3 * cutoff / 4 := by
  have h : 0 < cutoff - cutoff / 4 := by linarith
  simp only [bandLower, if_pos h]
  ring

/-- The upper band edge is five quarters of the centre, held to the sample rate. -/
theorem bandUpper_eq_min (rate cutoff : ℚ) :
    bandUpper rate cutoff = min (5 * cutoff / 4) rate := by
  simp only [bandUpper]
  split_ifs with h
  · rw [min_eq_left (by linarith)]
    ring
  · rw [min_eq_right (by linarith)]

/-- The band edges of a positive centre are ordered exactly below four thirds of the sample
rate. -/
theorem bandLower_lt_bandUpper_iff {rate cutoff : ℚ} (hc : 0 < cutoff) :
    bandLower cutoff < bandUpper rate cutoff ↔ cutoff < 4 * rate / 3 := by
  rw [bandLower_of_pos hc, bandUpper_eq_min, lt_min_iff]
  constructor
  · rintro ⟨-, h⟩
    linarith
  · intro h
    constructor <;> linarith

/-! ## The designs in closed form -/

section ClosedForm

variable {K : DesignConstants ℚ} {rate cutoff w w₁ w₂ : ℚ}

theorem designWith_lowPass (hw : warpWith K rate cutoff = w) :
    designWith K .lowPass rate cutoff = Coefficients.normalize (1 + K.sqrtTwo * w + w * w)
      (-2 + 2 * (w * w)) (1 - K.sqrtTwo * w + w * w) (w * w) (2 * (w * w)) (w * w) := by
  subst hw
  rfl

theorem designWith_highPass (hw : warpWith K rate cutoff = w) :
    designWith K .highPass rate cutoff = Coefficients.normalize (1 + K.sqrtTwo * w + w * w)
      (-2 + 2 * (w * w)) (1 - K.sqrtTwo * w + w * w) 1 (-2) (-1) := by
  subst hw
  rfl

theorem designWith_bandPass (h₁ : warpWith K rate (bandLower cutoff) = w₁)
    (h₂ : warpWith K rate (bandUpper rate cutoff) = w₂) :
    designWith K .bandPass rate cutoff =
      Coefficients.normalize (-1 - (w₂ - w₁) - w₁ * w₂) (2 - 2 * (w₁ * w₂))
        (-1 + (w₂ - w₁) - w₁ * w₂) (-(w₂ - w₁)) 0 (w₂ - w₁) := by
  subst h₁ h₂
  rfl

end ClosedForm

/-! ## Stability -/

section Stability

variable {K : DesignConstants ℚ} {rate cutoff : ℚ}

/-- The Butterworth leading term `1 + √2 w + w²` is positive at a positive warped cutoff. -/
theorem butterworth_leading_pos (hK : K.Admissible) {w : ℚ} (hw : 0 < w) :
    0 < 1 + K.sqrtTwo * w + w * w := by
  have hsw := mul_pos hK.sqrtTwo_pos hw
  have hww := mul_pos hw hw
  linarith

/-- At a positive warped cutoff the Butterworth denominator lies inside the stability triangle,
whatever the numerator. -/
theorem butterworth_stable (hK : K.Admissible) {w : ℚ} (hw : 0 < w) (b0 b1 b2 : ℚ) :
    (Coefficients.normalize (1 + K.sqrtTwo * w + w * w) (-2 + 2 * (w * w))
      (1 - K.sqrtTwo * w + w * w) b0 b1 b2).Stable := by
  rw [Coefficients.stable_normalize_iff (butterworth_leading_pos hK hw), abs_lt, abs_lt]
  have hsw := mul_pos hK.sqrtTwo_pos hw
  have hww := mul_pos hw hw
  refine ⟨⟨?_, ?_⟩, ?_, ?_⟩ <;> linarith

/-- With positive warped edges and a negative leading term, a band pass lies inside the stability
triangle exactly when its edges are ordered. -/
theorem band_stable_iff {w₁ w₂ : ℚ} (h₁ : 0 < w₁) (h₂ : 0 < w₂)
    (h0 : -1 - (w₂ - w₁) - w₁ * w₂ < 0) (b0 b1 b2 : ℚ) :
    (Coefficients.normalize (-1 - (w₂ - w₁) - w₁ * w₂) (2 - 2 * (w₁ * w₂))
      (-1 + (w₂ - w₁) - w₁ * w₂) b0 b1 b2).Stable ↔ w₁ < w₂ := by
  rw [← Coefficients.normalize_neg, Coefficients.stable_normalize_iff (by linarith), abs_lt,
    abs_lt]
  have hp := mul_pos h₁ h₂
  constructor
  · rintro ⟨⟨-, h⟩, -⟩
    linarith
  · intro h
    refine ⟨⟨?_, ?_⟩, ?_, ?_⟩ <;> linarith

/-- The band-pass leading term is negative at every positive rate and cutoff. -/
theorem band_leading_neg (hK : K.Admissible) (hr : 0 < rate) (hc : 0 < cutoff) :
    (bandDenominator (warpWith K rate (bandLower cutoff))
      (warpWith K rate (bandUpper rate cutoff))).1 < 0 := by
  have h₁ : 0 < warpWith K rate (bandLower cutoff) :=
    warpWith_pos hK hr (by rw [bandLower_of_pos hc]; positivity)
  simp only [bandDenominator]
  by_cases h : 5 * cutoff / 4 < rate
  · -- below the sample rate the edges are ordered, and every term is positive
    have hord : bandLower cutoff < bandUpper rate cutoff :=
      (bandLower_lt_bandUpper_iff hc).2 (by linarith)
    have hlt := warpWith_strictMono hK hr hord
    nlinarith [mul_pos h₁ (h₁.trans hlt)]
  · -- otherwise the upper edge is the sample rate, which warps to at least one
    have hup : bandUpper rate cutoff = rate := by
      rw [bandUpper_eq_min, min_eq_right (by linarith)]
    rw [hup, warpWith_self K hr.ne']
    nlinarith [hK.one_le_warp_pi, mul_nonneg h₁.le (sub_nonneg.2 hK.one_le_warp_pi)]

theorem lowPass_stable (hK : K.Admissible) (hr : 0 < rate) (hc : 0 < cutoff) :
    (designWith K .lowPass rate cutoff).Stable := by
  rw [designWith_lowPass rfl]
  exact butterworth_stable hK (warpWith_pos hK hr hc) _ _ _

theorem highPass_stable (hK : K.Admissible) (hr : 0 < rate) (hc : 0 < cutoff) :
    (designWith K .highPass rate cutoff).Stable := by
  rw [designWith_highPass rfl]
  exact butterworth_stable hK (warpWith_pos hK hr hc) _ _ _

/-- The band pass is stable exactly below four thirds of the sample rate, where its band edges
stop being ordered. -/
theorem bandPass_stable_iff (hK : K.Admissible) (hr : 0 < rate) (hc : 0 < cutoff) :
    (designWith K .bandPass rate cutoff).Stable ↔ cutoff < 4 * rate / 3 := by
  have h₁ : 0 < warpWith K rate (bandLower cutoff) :=
    warpWith_pos hK hr (by rw [bandLower_of_pos hc]; positivity)
  have h₂ : 0 < warpWith K rate (bandUpper rate cutoff) :=
    warpWith_pos hK hr (by rw [bandUpper_eq_min]; exact lt_min (by positivity) hr)
  rw [designWith_bandPass rfl rfl, band_stable_iff h₁ h₂ (band_leading_neg hK hr hc),
    ← bandLower_lt_bandUpper_iff hc]
  exact (warpWith_strictMono hK hr).lt_iff_lt

end Stability

/-- **Designed filters are stable, in exact arithmetic.** At every positive sample rate and
cutoff the leading terms the designs divide by are nonzero — the Butterworth one positive, the
band-pass one negative — the low and high passes lie strictly inside the stability triangle at
every cutoff, above the sample rate too, and the band pass does exactly while the cutoff is below
four thirds of the sample rate. -/
theorem designs_stable (rate cutoff : ℚ) (hr : 0 < rate) (hc : 0 < cutoff) :
    0 < (butterworthDenominator Single.exactConstants (warpWith Single.exactConstants rate cutoff)
        (warpWith Single.exactConstants rate cutoff *
          warpWith Single.exactConstants rate cutoff)).1 ∧
      (bandDenominator (warpWith Single.exactConstants rate (bandLower cutoff))
        (warpWith Single.exactConstants rate (bandUpper rate cutoff))).1 < 0 ∧
      (exactDesign .lowPass rate cutoff).Stable ∧ (exactDesign .highPass rate cutoff).Stable ∧
      ((exactDesign .bandPass rate cutoff).Stable ↔ cutoff < 4 * rate / 3) := by
  have hK := Single.exactConstants_admissible
  exact ⟨butterworth_leading_pos hK (warpWith_pos hK hr hc), band_leading_neg hK hr hc,
    lowPass_stable hK hr hc, highPass_stable hK hr hc, bandPass_stable_iff hK hr hc⟩

/-- At the band limit itself the edges meet and the band pass is not stable; just below, it is. -/
example : ¬(exactDesign .bandPass 3 4).Stable ∧ (exactDesign .bandPass 3 (399 / 100)).Stable := by
  decide +kernel

/-- At 48 kHz with a 70 kHz cutoff, past four thirds of the sample rate: the low and high passes
are stable, the band pass is not. -/
theorem designs_stable_past_band_limit :
    0 < (48000 : ℚ) ∧ 0 < (70000 : ℚ) ∧ (exactDesign .lowPass 48000 70000).Stable ∧
      (exactDesign .highPass 48000 70000).Stable ∧
      ¬(exactDesign .bandPass 48000 70000).Stable := by
  obtain ⟨-, -, hlow, hhigh, hband⟩ := designs_stable 48000 70000 (by norm_num) (by norm_num)
  exact ⟨by norm_num, by norm_num, hlow, hhigh, fun h => absurd (hband.1 h) (by norm_num)⟩

/-! ## Gains at DC and Nyquist -/

section Gains

variable {K : DesignConstants ℚ} {rate cutoff : ℚ}

/-- The Butterworth denominator sums to `4 w²` at `z = 1`. -/
theorem butterworth_sum (K : DesignConstants ℚ) (w : ℚ) :
    (1 + K.sqrtTwo * w + w * w) + (-2 + 2 * (w * w)) + (1 - K.sqrtTwo * w + w * w) =
      4 * (w * w) := by
  ring

/-- The Butterworth denominator sums to `4` at `z = -1`. -/
theorem butterworth_alternating_sum (K : DesignConstants ℚ) (w : ℚ) :
    (1 + K.sqrtTwo * w + w * w) - (-2 + 2 * (w * w)) + (1 - K.sqrtTwo * w + w * w) = 4 := by
  ring

/-- The low pass has unit gain at DC. -/
theorem lowPass_dcGain (hK : K.Admissible) (hr : 0 < rate) (hc : 0 < cutoff) :
    (designWith K .lowPass rate cutoff).dcGain = 1 := by
  have hw := warpWith_pos hK hr hc
  rw [designWith_lowPass rfl, Coefficients.dcGain_normalize (butterworth_leading_pos hK hw).ne',
    butterworth_sum, div_eq_one_iff_eq (by positivity)]
  ring

/-- The low pass has a zero at Nyquist. -/
theorem lowPass_zeroAtNyquist (K : DesignConstants ℚ) (rate cutoff : ℚ) :
    (designWith K .lowPass rate cutoff).ZeroAtNyquist := by
  rw [designWith_lowPass rfl]
  simp only [Coefficients.ZeroAtNyquist, Coefficients.normalize]
  ring

/-- The high pass, over its numerator `(1, -2, -1)`, has gain `-1 / (2 w²)` at DC. -/
theorem highPass_dcGain (hK : K.Admissible) (hr : 0 < rate) (hc : 0 < cutoff) :
    (designWith K .highPass rate cutoff).dcGain = -1 / (2 * warpWith K rate cutoff ^ 2) := by
  have hw := warpWith_pos hK hr hc
  rw [designWith_highPass rfl, Coefficients.dcGain_normalize (butterworth_leading_pos hK hw).ne',
    butterworth_sum, div_eq_div_iff (by positivity) (by positivity)]
  ring

/-- The high pass has gain `1/2` at Nyquist. -/
theorem highPass_nyquistGain (hK : K.Admissible) (hr : 0 < rate) (hc : 0 < cutoff) :
    (designWith K .highPass rate cutoff).nyquistGain = 1 / 2 := by
  have hw := warpWith_pos hK hr hc
  rw [designWith_highPass rfl,
    Coefficients.nyquistGain_normalize (butterworth_leading_pos hK hw).ne',
    butterworth_alternating_sum]
  norm_num

/-- The band pass has zeros at DC and at Nyquist. -/
theorem bandPass_zeros (K : DesignConstants ℚ) (rate cutoff : ℚ) :
    (designWith K .bandPass rate cutoff).ZeroAtDC ∧
      (designWith K .bandPass rate cutoff).ZeroAtNyquist := by
  rw [designWith_bandPass rfl rfl]
  simp only [Coefficients.ZeroAtDC, Coefficients.ZeroAtNyquist, Coefficients.normalize]
  constructor <;> ring

end Gains

/-- **Exact gains at DC and Nyquist.** At every positive sample rate and cutoff, with `w` the
warped cutoff: the low pass has unit gain at DC and a zero at Nyquist; the band pass has zeros at
both; the high pass has gain `-1 / (2 w²)` at DC and `1/2` at Nyquist. -/
theorem design_gains (rate cutoff : ℚ) (hr : 0 < rate) (hc : 0 < cutoff) :
    ((exactDesign .lowPass rate cutoff).dcGain = 1 ∧
        (exactDesign .lowPass rate cutoff).ZeroAtNyquist) ∧
      ((exactDesign .bandPass rate cutoff).ZeroAtDC ∧
        (exactDesign .bandPass rate cutoff).ZeroAtNyquist) ∧
      ((exactDesign .highPass rate cutoff).dcGain =
          -1 / (2 * warpWith Single.exactConstants rate cutoff ^ 2) ∧
        (exactDesign .highPass rate cutoff).nyquistGain = 1 / 2) := by
  have hK := Single.exactConstants_admissible
  exact ⟨⟨lowPass_dcGain hK hr hc, lowPass_zeroAtNyquist _ rate cutoff⟩,
    bandPass_zeros _ rate cutoff, highPass_dcGain hK hr hc, highPass_nyquistGain hK hr hc⟩

/-- At 48 kHz with a 1 kHz cutoff: unit DC gain for the low pass, half gain at Nyquist for the high
pass. -/
theorem design_gains_at_48kHz :
    0 < (48000 : ℚ) ∧ 0 < (1000 : ℚ) ∧ (exactDesign .lowPass 48000 1000).dcGain = 1 ∧
      (exactDesign .highPass 48000 1000).nyquistGain = 1 / 2 := by
  obtain ⟨⟨hlow, -⟩, -, -, hhigh⟩ := design_gains 48000 1000 (by norm_num) (by norm_num)
  exact ⟨by norm_num, by norm_num, hlow, hhigh⟩

end PcmBiquad
