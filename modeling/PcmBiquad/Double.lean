/-!
  Double-precision values: π, the exact value of a `Float`, and the hypotenuse `√(x² + y²)`.

  `Double.hypot` computes the hypotenuse without a fused multiply-add: the square root of the
  rounded sum of squares, then one correction step that removes most of the error of that sum. The result is within about half a unit in the last place and usually,
  though not always, the nearest double; the decibel magnitudes of a frequency response are
  computed with exactly this function. Operands whose squares would overflow or underflow are
  first scaled by an exact power of two.
-/

namespace PcmBiquad

open Float.Model (Format UnpackedFloat)

namespace Double

/-- π rounded to double precision. -/
def pi : Float := Float.ofBits 0x400921fb54442d18

/-- Positive infinity. -/
def infinity : Float := Float.ofBits 0x7ff0000000000000

/-- The exact value a double denotes. -/
def value (x : Float) : UnpackedFloat := UnpackedFloat.unpack Format.binary64 x.toBits.toBitVec

/-- `2 ^ -600`, which brings huge operands down and tiny ones up by an exact power of two. -/
def rescale : Float := Float.ofBits 0x1a70000000000000

/-- `2 ^ 511`: above it, squaring may overflow. -/
def hugeBound : Float := Float.ofBits 0x5fe0000000000000

/-- `2 ^ -511`: below it, squaring may lose bits to underflow. -/
def tinyBound : Float := Float.ofBits 0x2000000000000000

/-- `2 ^ -54`: a side this much smaller than the other no longer changes the sum. -/
def negligible : Float := Float.ofBits 0x3c90000000000000

/-- `√(ax² + ay²)` for `ax ≥ ay ≥ 0` whose squares neither overflow nor underflow: the root of
the rounded sum of squares, less one correction step `(t1 + t2) / 2h` for the rounding errors of
that sum, where `t1 + t2` is `h² - ax² - ay²` regrouped so that the terms cancel exactly. -/
def hypotCore (ax ay : Float) : Float :=
  let h := Float.sqrt (ax * ax + ay * ay)
  let (t1, t2) :=
    if h ≤ 2 * ay then
      let delta := h - ay
      (ax * (2 * delta - ax), (delta - 2 * (ax - ay)) * delta)
    else
      let delta := h - ax
      (2 * delta * (ax - 2 * ay), (4 * delta - ay) * ay + delta * delta)
  h - (t1 + t2) / (2 * h)

/-- `√(x² + y²)` with one corrected rounding step. An infinite side gives infinity even beside
a NaN, and otherwise a NaN gives NaN. The larger side `ax` and the smaller `ay` are rescaled by
`2 ^ ∓600` when `ax` is huge or `ay` tiny, and when `ay` is negligible beside `ax` the answer is
`ax + ay`. -/
def hypot (x y : Float) : Float :=
  match value x, value y with
  | .infinity _, _ | _, .infinity _ => infinity
  | .notANumber, _ | _, .notANumber => x + y
  | _, _ =>
    let x := x.abs
    let y := y.abs
    let ax := if x < y then y else x
    let ay := if x < y then x else y
    if hugeBound < ax then
      if ay ≤ ax * negligible then ax + ay else hypotCore (ax * rescale) (ay * rescale) / rescale
    else if ay < tinyBound then
      if ay / negligible ≤ ax then ax + ay else hypotCore (ax / rescale) (ay / rescale) * rescale
    else if ay ≤ ax * negligible then ax + ay
    else hypotCore ax ay

end Double

end PcmBiquad
