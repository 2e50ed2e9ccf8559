/-!
  Single-precision values: the constants the filter designs use, the exact value of a
  `Float32`, and conversion to a bounded integer.

  `Single.value` reads a `Float32` through the logical model of binary32 in core: not a number,
  a signed infinity or zero, or a finite `(-1) ^ s * mant * 2 ^ exp`.

  `Single.truncClamp lo hi x` rounds `x` toward zero and holds the result in `[lo, hi]`; an
  infinity lands on the bound of its sign and NaN counts as zero. Holding a value first to the
  64-bit range and then to a narrower one gives the same result, so one clamp serves both.
-/

namespace PcmBiquad

-- Powers are core's `Nat.pow` and `Int.pow`, whatever other instances are loaded beside.
attribute [local instance (high)] instPowNat

open Float.Model (Format UnpackedFloat)

namespace Single

/-- π rounded to single precision (`0x40490fdb`). -/
def pi : Float32 := Float32.ofBits 0x40490fdb

/-- √2 rounded to single precision (`0x3fb504f3`). -/
def sqrtTwo : Float32 := Float32.ofBits 0x3fb504f3

/-- The exact value a single-precision number denotes. -/
def value (x : Float32) : UnpackedFloat := UnpackedFloat.unpack Format.binary32 x.toBits.toBitVec

/-- The integer part of `(-1) ^ neg * mant * 2 ^ exp`, rounded toward zero. -/
def truncExact (neg : Bool) (mant : Nat) (exp : Int) : Int :=
  let magnitude : Nat := if 0 ≤ exp then mant * 2 ^ exp.toNat else mant / 2 ^ (-exp).toNat
  if neg then -(magnitude : Int) else magnitude

/-- `x` rounded toward zero and held within `[lo, hi]`; an infinity goes to the bound of its
sign, and NaN is zero before it is held. -/
def truncClamp (lo hi : Int) (x : Float32) : Int :=
  let n : Int := match value x with
    | .notANumber => 0
    | .zero _ => 0
    | .infinity .negative => lo
    | .infinity .positive => hi
    | .finite .negative mant exp _ => truncExact true mant exp
    | .finite .positive mant exp _ => truncExact false mant exp
  max lo (min hi n)

end Single

end PcmBiquad
