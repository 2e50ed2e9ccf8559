import PcmBiquad.Filter.Design
import PcmBiquad.Double
/-!
  The frequency response of a biquad, in double precision.

  At frequency `f` and sample rate `fs` the section's gain is `H(e^{iω})` for `ω = 2π f / fs`:
  the numerator `b0 + b1 e^{-iω} + b2 e^{-2iω}` over the denominator `1 + a1 e^{-iω} + a2 e^{-2iω}`,
  with the coefficients widened exactly from single precision.

  Each polynomial is summed term by term from `0 + 0i`, the `k`-th term being the tap times
  `(cos (-ω k), sin (-ω k))`. The quotient `(n / d)` is `((nr dr + ni di) / s, (ni dr - nr di) / s)`
  with `s = dr² + di²`, without rescaling, so it overflows or gives NaN where that formula does.
  The magnitude in decibels is `20 log₁₀ |H|`, with `|H|` from `Double.hypot`.
-/

namespace PcmBiquad

/-- A complex gain with double-precision parts. -/
structure Gain where
  re : Float
  im : Float

namespace Gain

/-- The gain that adds nothing. -/
def zero : Gain := ⟨0, 0⟩

/-- `g` plus `tap` times the unit phasor at angle `θ`. -/
def addTerm (g : Gain) (tap θ : Float) : Gain :=
  ⟨g.re + tap * Float.cos θ, g.im + tap * Float.sin θ⟩

/-- The quotient `n / d` by the textbook formula. -/
def div (n d : Gain) : Gain :=
  let s := d.re * d.re + d.im * d.im
  ⟨(n.re * d.re + n.im * d.im) / s, (n.im * d.re - n.re * d.im) / s⟩

/-- The magnitude `|g| = √(re² + im²)`. -/
def abs (g : Gain) : Float := Double.hypot g.re g.im

/-- The magnitude in decibels, `20 log₁₀ |g|`; a zero gain is minus infinity. -/
def decibels (g : Gain) : Float := 20 * Float.log10 g.abs

end Gain

/-- `Σ taps[k] e^{-iωk}`, summed from `0 + 0i` in the order of the taps; `k` counts from `start`. -/
def evalTaps (ω : Float) : Nat → List Float → Gain → Gain
  | _, [], g => g
  | k, tap :: rest, g => evalTaps ω (k + 1) rest (g.addTerm tap (-ω * Float.ofNat k))

namespace Coefficients

/-- The numerator taps `b0, b1, b2`, widened to double. -/
def numeratorTaps (c : Coefficients Float32) : List Float := [c.b0.toFloat, c.b1.toFloat, c.b2.toFloat]

/-- The denominator taps `1, a1, a2`, widened to double. -/
def denominatorTaps (c : Coefficients Float32) : List Float := [1, c.a1.toFloat, c.a2.toFloat]

/-- The complex gain at frequency `f` for sample rate `rate`. -/
def gainAt (c : Coefficients Float32) (rate f : Float) : Gain :=
  let ω := 2 * Double.pi * f / rate
  Gain.div (evalTaps ω 0 c.numeratorTaps .zero) (evalTaps ω 0 c.denominatorTaps .zero)

/-- The complex gains at each of `freqs`. -/
def frequencyResponse (c : Coefficients Float32) (freqs : List Float) (rate : Float) : List Gain :=
  freqs.map (c.gainAt rate)

/-- The magnitudes in decibels at each of `freqs`. -/
def magnitudeDb (c : Coefficients Float32) (freqs : List Float) (rate : Float) : List Float :=
  (c.frequencyResponse freqs rate).map Gain.decibels

end Coefficients

end PcmBiquad
