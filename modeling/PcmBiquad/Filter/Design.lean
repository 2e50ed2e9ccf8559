import PcmBiquad.Filter.Kind
import PcmBiquad.Single
/-!
  Second-order filter designs.

  A biquad's transfer function is `(b0 + b1 z⁻¹ + b2 z⁻²) / (1 + a1 z⁻¹ + a2 z⁻²)`; the five
  numbers are its `Coefficients`, normalised so that the leading denominator term is one.

  The designs come from the bilinear transform of analogue prototypes. The prewarped frequency
  `tan (π f / fs)` is replaced by its cubic Taylor polynomial `x + x³ / 3` (`warpWith`), which is
  close below a few kilohertz and drifts toward Nyquist. Then, with `w` the warped cutoff:

  * low pass  — `(w², 2w², w²) / (1 + √2 w + w², -2 + 2w², 1 - √2 w + w²)`;
  * high pass — the same denominator over `(1, -2, -1)`;
  * band pass — band edges `3f/4` and `5f/4`, clipped to `[0, fs]`, with `w₀² = w₁ w₂` and
    `Δ = w₂ - w₁`: `(-Δ, 0, Δ) / (-1 - Δ - w₀², 2 - 2w₀², -1 + Δ - w₀²)`.

  `designWith` is written once for any arithmetic with the four operations, negation, small
  numerals and a decidable order, given π and √2 as values of it (`DesignConstants`). Every
  step is one operation in the order written. `design` runs it in single precision with π and
  √2 rounded to single precision; read in exact rational arithmetic instead, the same
  definition gives the designs' exact values. Nothing is guarded: in single precision a zero
  sample rate or a NaN cutoff runs through to NaN or infinite coefficients, and a NaN fails
  both band-edge comparisons, so the band then spans `[0, fs]`.
-/

namespace PcmBiquad

/-- The five normalised coefficients of a biquad section. -/
structure Coefficients (α : Type) where
  b0 : α
  b1 : α
  b2 : α
  a1 : α
  a2 : α
  deriving Repr

/-- π and √2 as values of the arithmetic a design runs in. -/
structure DesignConstants (α : Type) where
  pi : α
  sqrtTwo : α

section Generic

variable {α : Type} [Add α] [Sub α] [Mul α] [Div α] [Neg α] [OfNat α 0] [OfNat α 1]
  [OfNat α 2] [OfNat α 3] [OfNat α 4] [LT α] [DecidableRel (fun a b : α => a < b)]

namespace Coefficients

/-- The section that passes its input through: `b0 = 1`, all else zero. -/
def identity : Coefficients α := ⟨1, 0, 0, 0, 0⟩

/-- Numerator and denominator divided by the leading denominator term `a0`. -/
def normalize (a0 a1 a2 b0 b1 b2 : α) : Coefficients α :=
  ⟨b0 / a0, b1 / a0, b2 / a0, a1 / a0, a2 / a0⟩

/-- The gain at zero frequency, the transfer function at `z = 1`. -/
def dcGain (c : Coefficients α) : α := (c.b0 + c.b1 + c.b2) / (1 + c.a1 + c.a2)

/-- The coefficients in the order `b0, b1, b2, a1, a2`. -/
def toList (c : Coefficients α) : List α := [c.b0, c.b1, c.b2, c.a1, c.a2]

end Coefficients

/-- The prewarped angular frequency of `freq` at `rate`: `x + x³ / 3` for `x = freq π / rate`. -/
def warpWith (K : DesignConstants α) (rate freq : α) : α :=
  let x := freq * K.pi / rate
  x + x * x * x / 3

/-- The Butterworth denominator `(a0, a1, a2)` at warped cutoff `w`, with `w2 = w * w`. -/
def butterworthDenominator (K : DesignConstants α) (w w2 : α) : α × α × α :=
  (1 + K.sqrtTwo * w + w2, -2 + 2 * w2, 1 - K.sqrtTwo * w + w2)

/-- The band-pass denominator `(a0, a1, a2)` for warped band edges `w1` and `w2`, with
`w0² = w1 w2` and `Δ = w2 - w1`. -/
def bandDenominator (w1 w2 : α) : α × α × α :=
  let w0sqr := w1 * w2
  let wd := w2 - w1
  (-1 - wd - w0sqr, 2 - 2 * w0sqr, -1 + wd - w0sqr)

/-- The lower band edge of a band pass: three quarters of the centre, or zero if that is not
positive. -/
def bandLower (cutoff : α) : α :=
  let d := cutoff / 4
  if 0 < cutoff - d then cutoff - d else 0

/-- The upper band edge of a band pass: five quarters of the centre, or the sample rate if that
is not below it. -/
def bandUpper (rate cutoff : α) : α :=
  let d := cutoff / 4
  if cutoff + d < rate then cutoff + d else rate

/-- The coefficients of a filter of `kind` with corner (or centre) frequency `cutoff`. -/
def designWith (K : DesignConstants α) (kind : FilterKind) (rate cutoff : α) : Coefficients α :=
  match kind with
  | .lowPass =>
    let w := warpWith K rate cutoff
    let w2 := w * w
    let (a0, a1, a2) := butterworthDenominator K w w2
    Coefficients.normalize a0 a1 a2 w2 (2 * w2) w2
  | .highPass =>
    let w := warpWith K rate cutoff
    let w2 := w * w
    let (a0, a1, a2) := butterworthDenominator K w w2
    Coefficients.normalize a0 a1 a2 1 (-2) (-1)
  | .bandPass =>
    let w1 := warpWith K rate (bandLower cutoff)
    let w2 := warpWith K rate (bandUpper rate cutoff)
    let wd := w2 - w1
    let (a0, a1, a2) := bandDenominator w1 w2
    Coefficients.normalize a0 a1 a2 (-wd) 0 wd
  | .bypass => Coefficients.identity

end Generic

/-- π and √2 rounded to single precision. -/
def Single.constants : DesignConstants Float32 := ⟨Single.pi, Single.sqrtTwo⟩

/-- The prewarped frequency in single precision. -/
def warp (rate freq : Float32) : Float32 := warpWith Single.constants rate freq

/-- A design in single precision. -/
def design (kind : FilterKind) (rate cutoff : Float32) : Coefficients Float32 :=
  designWith Single.constants kind rate cutoff

instance : Inhabited (Coefficients Float32) := ⟨Coefficients.identity⟩

/-- Whether each coefficient equals the identity's as a number (so `-0` counts as `0`). -/
def Coefficients.isIdentity (c : Coefficients Float32) : Bool :=
  c.b0 == 1 && c.b1 == 0 && c.b2 == 0 && c.a1 == 0 && c.a2 == 0

end PcmBiquad
