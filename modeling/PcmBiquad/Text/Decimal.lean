/-!
  The shortest decimal that reads back as a given binary value.

  A finite nonzero value `mant * 2 ^ exp` of a binary format owns an interval of reals that
  round to it: halfway to each neighbour, or a quarter of a step below when the value is the
  first of its binade (`mant = 2 ^ mantissaBitsWithoutImplicit`, where the step below is half as wide). The ends
  belong to it exactly when `mant` is even, since ties round to even.

  `shortestDecimal` walks the decimal grids `10 ^ p` from coarse to fine. On each grid it looks
  at the value's two neighbours, `⌊v / 10 ^ p⌋ * 10 ^ p` and the next grid point: the first grid
  on which one of them lies in the interval gives the answer, and if both do, the nearer one wins,
  a tie going to the upper. All comparisons are exact, in `Nat`.

  `positional` lays out `g * 10 ^ p` with a decimal point and no exponent.
-/

namespace PcmBiquad

-- Powers are core's `Nat.pow` and `Int.pow`, whatever other instances are loaded beside.
attribute [local instance (high)] instPowNat

open Float.Model (Format)

/-- An interval `[lo * 2 ^ scale, hi * 2 ^ scale]` around `centre * 2 ^ scale`, closed or open. -/
structure RoundingInterval where
  lo : Nat
  centre : Nat
  hi : Nat
  scale : Int
  closed : Bool

namespace RoundingInterval

/-- The reals that round to `mant * 2 ^ exp` in format `spec`, for `mant > 0` (with the leading
bit of a normal value counted in `mant`). -/
def ofBinary (spec : Format) (mant : Nat) (exp : Int) : RoundingInterval :=
  let lowGap := if mant = 2 ^ spec.mantissaBitsWithoutImplicit then 1 else 2
  ⟨4 * mant - lowGap, 4 * mant, 4 * mant + 2, exp - 2, mant % 2 == 0⟩

/-- `a * 10 ^ p` compared with `b * 2 ^ q`. -/
def compareScaled (a : Nat) (p : Int) (b : Nat) (q : Int) : Ordering :=
  compare (a * 10 ^ p.toNat * 2 ^ (-q).toNat) (b * 2 ^ q.toNat * 10 ^ (-p).toNat)

/-- Whether the nonzero decimal `g * 10 ^ p` lies in the interval. -/
def holds (iv : RoundingInterval) (g : Nat) (p : Int) : Bool :=
  let aboveLo := match compareScaled g p iv.lo iv.scale with
    | .lt => false
    | .eq => iv.closed
    | .gt => true
  let belowHi := match compareScaled g p iv.hi iv.scale with
    | .lt => true
    | .eq => iv.closed
    | .gt => false
  g != 0 && aboveLo && belowHi

/-- The first grid `10 ^ p`, from `p` down through `fuel` grids, with a neighbour of the centre in
the interval, as `(g, p)` for the decimal `g * 10 ^ p`. -/
def search (iv : RoundingInterval) : Nat → Int → Option (Nat × Int)
  | 0, _ => none
  | fuel + 1, p =>
    let num := iv.centre * 2 ^ iv.scale.toNat * 10 ^ (-p).toNat
    let den := 2 ^ (-iv.scale).toNat * 10 ^ p.toNat
    let down := num / den
    match iv.holds down p, iv.holds (down + 1) p with
    | true, true => if 2 * num < (2 * down + 1) * den then some (down, p) else some (down + 1, p)
    | true, false => some (down, p)
    | false, true => some (down + 1, p)
    | false, false => iv.search fuel (p - 1)

end RoundingInterval

/-- `(g / 10 ^ k, p + k)` for the largest `k` with `10 ^ k ∣ g`, for `g > 0`. -/
def dropTrailingZeros : Nat → Nat → Int → Nat × Int
  | 0, g, p => (g, p)
  | fuel + 1, g, p => if g ≠ 0 ∧ g % 10 = 0 then dropTrailingZeros fuel (g / 10) (p + 1) else (g, p)

/-- The shortest decimal `g * 10 ^ p` in the rounding interval of `mant * 2 ^ exp` (for
`mant > 0`), nearest among the shortest; `g` has no trailing zero. -/
def shortestDecimal (spec : Format) (mant : Nat) (exp : Int) : Nat × Int :=
  let iv := RoundingInterval.ofBinary spec mant exp
  -- `10 ^ top` exceeds the interval's upper end, so grids start coarser than the value
  let top := (Nat.toDigits 10 (iv.hi * 2 ^ iv.scale.toNat / 2 ^ (-iv.scale).toNat)).length
  match iv.search (top + (-iv.scale).toNat + 2) top with
  | some (g, p) => dropTrailingZeros (Nat.toDigits 10 g).length g p
  | none => (mant, 0)

/-- `g * 10 ^ p` written out with a decimal point where needed and no exponent: trailing zeros
for `p ≥ 0`, and leading zeros after `0.` when the value is below one. -/
def positional (g : Nat) (p : Int) : String :=
  let ds := Nat.toDigits 10 g
  if 0 ≤ p then String.ofList (ds ++ List.replicate p.toNat '0')
  else
    let frac := (-p).toNat
    if frac < ds.length then
      String.ofList (ds.take (ds.length - frac) ++ '.' :: ds.drop (ds.length - frac))
    else String.ofList ('0' :: '.' :: List.replicate (frac - ds.length) '0' ++ ds)

end PcmBiquad
