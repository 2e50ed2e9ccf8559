import Mathlib.Algebra.Order.Field.Rat
import Mathlib.Algebra.Order.Field.Power
import PcmBiquad.Proofs.Binary32
import PcmBiquad.Proofs.Frames
/-!
  The sample codec, read exactly.

  A container's top `depth` bits, in two's complement, are its *level* `v` (`level_spec`).
  Reading converts the level to single precision and divides it by full scale `2 ^ (depth - 1)`;
  the conversion rounds `v` to 24 significant bits, giving the integer `q = roundInt v`, and the
  division is exact, so the sample read denotes the rational `q / 2 ^ (depth - 1)` (`toRat?_read`).
  Writing multiplies back by full scale — exactly again — and rounds toward zero, which finds `q`
  once more; the clamp to the top level `2 ^ (depth - 1) - 1` then cuts back the one case where
  rounding carried `v` up to full scale (`levelOf_read`). That case needs 26 bits or more: at 25
  bits or fewer `q = v` and a read sample writes back its own bits.

  Whatever `levelOf` gives — a bound of the range, or an integer that 24 bits hold — survives a
  read unchanged (`levelOf_read_write`), so decoding and encoding again writes the bytes the first
  encoding wrote, at every depth (`write_read_write`). `sample_codec_round_trip` collects it all.
-/

namespace PcmBiquad

open Float.Model (UnpackedFloat)
open Float.Model.UnpackedFloat

/-! ## Little-endian words -/

/-- A word of `count` bytes holds a number below `2 ^ (8 · count)`. -/
theorem littleEndian_lt (bs : List UInt8) : littleEndian bs < 2 ^ (8 * bs.length) := by
  induction bs with
  | nil => decide
  | cons b bs ih =>
    have hb := b.toNat_lt
    simp only [littleEndian, List.length_cons]
    rw [show 8 * (bs.length + 1) = 8 + 8 * bs.length by omega, Nat.pow_add]
    omega

/-- Reading back `count` little-endian bytes of a number gives the number modulo
`2 ^ (8 · count)`. -/
theorem littleEndian_littleEndianBytes (count w : Nat) :
    littleEndian (littleEndianBytes count w) = w % 2 ^ (8 * count) := by
  induction count generalizing w with
  | zero => simp only [littleEndianBytes, littleEndian, Nat.mul_zero, Nat.pow_zero, Nat.mod_one]
  | succ count ih =>
    simp only [littleEndianBytes, littleEndian, ih, UInt8.toNat_ofNat']
    rw [show 8 * (count + 1) = 8 + 8 * count by omega, Nat.pow_add, Nat.mod_mul,
      show (2 : Nat) ^ 8 = 256 from rfl, Nat.mod_mod]

/-! ## The rational number a single-precision value denotes -/

namespace Single

/-- The rational number a single-precision value denotes: a zero denotes `0`, a finite number
`± m · 2 ^ e`, and an infinity or NaN none. -/
def toRat? (x : Float32) : Option ℚ :=
  match value x with
  | .zero _ => some 0
  | .finite s m e _ => some ((s.apply m : ℤ) * 2 ^ e)
  | _ => none

theorem toRat?_of_zero {x : Float32} {s : Sign} (hx : value x = .zero s) : toRat? x = some 0 := by
  unfold toRat?
  rw [hx]

theorem toRat?_of_finite {x : Float32} {s : Sign} {m : Nat} {e : Int} {h : 0 < m}
    (hx : value x = .finite s m e h) : toRat? x = some (((s.apply m : ℤ) : ℚ) * 2 ^ e) := by
  unfold toRat?
  rw [hx]

/-- `m · 2 ^ e`, given with a natural exponent on each side of an equation, is the integer `R`. -/
theorem mul_zpow_of_eq {m R : ℕ} {e : ℤ} (h : m * 2 ^ e.toNat = R * 2 ^ (-e).toNat) :
    (m : ℚ) * 2 ^ e = R := by
  have hq : (m : ℚ) * 2 ^ e.toNat = R * 2 ^ (-e).toNat := by exact_mod_cast h
  have he : e = (e.toNat : ℤ) - ((-e).toNat : ℤ) := by omega
  rw [he, zpow_sub₀ two_ne_zero, zpow_natCast, zpow_natCast, ← mul_div_assoc, hq,
    mul_div_cancel_right₀ _ (pow_ne_zero _ two_ne_zero)]

/-- A finite number of the sign of `neg` whose magnitude is the integer `R` denotes `± R`. -/
theorem apply_mul_zpow_of_eq (neg : Prop) [Decidable neg] {m R : ℕ} {e : ℤ}
    (h : m * 2 ^ e.toNat = R * 2 ^ (-e).toNat) :
    (((if neg then Sign.negative else Sign.positive).apply m : ℤ) : ℚ) * 2 ^ e =
      ((if neg then -(R : ℤ) else R : ℤ) : ℚ) := by
  split
  · show ((-(m : ℤ) : ℤ) : ℚ) * 2 ^ e = ((-(R : ℤ) : ℤ) : ℚ)
    rw [Int.cast_neg, Int.cast_neg, Int.cast_natCast, Int.cast_natCast, neg_mul, mul_zpow_of_eq h]
  · show (((m : ℤ) : ℤ) : ℚ) * 2 ^ e = (((R : ℤ) : ℤ) : ℚ)
    rw [Int.cast_natCast, Int.cast_natCast, mul_zpow_of_eq h]

/-- **A converted integer denotes its rounding to 24 bits.** -/
theorem toRat?_ofInt {v : Int} (hv : v.natAbs < 2 ^ 127) :
    toRat? (Float32.ofInt v) = some (roundInt v : ℚ) := by
  by_cases h0 : v = 0
  · subst h0
    rw [toRat?_of_zero value_ofInt_zero]
    rfl
  obtain ⟨m, e, h, hval, -, hround⟩ := value_ofInt h0 hv
  rw [toRat?_of_finite hval, apply_mul_zpow_of_eq (v < 0) hround]
  rfl

end Single

namespace SampleFormat

variable (f : SampleFormat)

/-! ## The level of a container -/

/-- The top bits of a container, read unsigned, are below `2 ^ depth`. -/
theorem topBits_lt (bs : List UInt8) :
    littleEndian (bs.take f.bytes) / 2 ^ f.shift < 2 ^ f.depth := by
  have hlen : (bs.take f.bytes).length ≤ f.bytes := List.length_take_le _ _
  have hlt := littleEndian_lt (bs.take f.bytes)
  have hle : 2 ^ (8 * (bs.take f.bytes).length) ≤ 2 ^ (8 * f.bytes) :=
    Nat.pow_le_pow_right (by decide) (by omega)
  rw [Nat.div_lt_iff_lt_mul (Nat.two_pow_pos _), ← Nat.pow_add, Nat.add_comm, f.shift_add_depth]
  omega

/-- A depth of `d` bits holds twice as many levels as either half. -/
theorem two_pow_depth : (2 : Int) ^ f.depth = 2 * 2 ^ (f.depth - 1) := by
  have := f.depth_pos
  rw [← Int.pow_succ', Nat.sub_add_cancel this]

/-- **The level is the container's top bits in two's complement.** It lies in
`[-2 ^ (depth - 1), 2 ^ (depth - 1) - 1]` and agrees with the top bits read unsigned, modulo
`2 ^ depth`. -/
theorem level_spec (bs : List UInt8) :
    -(2 ^ (f.depth - 1) : Int) ≤ f.level bs ∧ f.level bs ≤ f.topLevel ∧
      f.level bs % 2 ^ f.depth = ((littleEndian (bs.take f.bytes) / 2 ^ f.shift : Nat) : Int) := by
  have hu := f.topBits_lt bs
  have hd := f.two_pow_depth
  have hD : ((2 ^ (f.depth - 1) : Nat) : Int) = 2 ^ (f.depth - 1) := Int.natCast_pow 2 _
  have hD' : ((2 ^ f.depth : Nat) : Int) = 2 ^ f.depth := Int.natCast_pow 2 _
  unfold level topLevel
  generalize littleEndian (bs.take f.bytes) / 2 ^ f.shift = u at hu ⊢
  dsimp only
  split
  · refine ⟨by omega, by omega, Int.emod_eq_of_lt (by omega) (by omega)⟩
  · -- the top bit is set: the level is the unsigned reading less `2 ^ depth`
    refine ⟨by omega, by omega, ?_⟩
    rw [Int.sub_emod_right]
    exact Int.emod_eq_of_lt (by omega) (by omega)

/-- A sample has at most 32 significant bits. -/
theorem depth_le_32 : f.depth ≤ 32 := by
  have := f.depth_le
  have := f.bytes_le
  omega

/-- A level is at most `2 ^ (depth - 1)` in magnitude. -/
theorem natAbs_level_le (bs : List UInt8) : (f.level bs).natAbs ≤ 2 ^ (f.depth - 1) := by
  obtain ⟨hlo, hhi, -⟩ := f.level_spec bs
  have hD : ((2 ^ (f.depth - 1) : Nat) : Int) = 2 ^ (f.depth - 1) := Int.natCast_pow 2 _
  unfold topLevel at hhi
  omega

/-- A level is far inside the range that single precision converts to normal numbers. -/
theorem natAbs_level_lt (bs : List UInt8) : (f.level bs).natAbs < 2 ^ 127 := by
  have := f.depth_le_32
  exact Nat.lt_of_le_of_lt (f.natAbs_level_le bs) (Nat.pow_lt_pow_right (by decide) (by omega))

/-! ## Storing a level -/

/-- The level a value is stored at lies in `[-2 ^ (depth - 1), 2 ^ (depth - 1) - 1]`. -/
theorem levelOf_mem (x : Float32) :
    -(2 ^ (f.depth - 1) : Int) ≤ f.levelOf x ∧ f.levelOf x ≤ f.topLevel := by
  have hpos : (0 : Int) < 2 ^ (f.depth - 1) := Int.pow_pos (by decide)
  have h := Single.truncClamp_mem (show -(f.topLevel + 1) ≤ f.topLevel by unfold topLevel; omega)
    (x * f.fullScale)
  unfold levelOf
  unfold topLevel at h ⊢
  omega

/-- A level shifted into the container's top bits is, as a word of the container, its low `depth`
bits shifted there. -/
theorem mul_shift_emod (L : Int) :
    L * 2 ^ f.shift % 2 ^ (8 * f.bytes) = L % 2 ^ f.depth * 2 ^ f.shift := by
  have hM : (2 : Int) ^ (8 * f.bytes) = 2 ^ f.shift * 2 ^ f.depth := by
    rw [← Int.pow_add, f.shift_add_depth]
  rw [hM, Int.mul_comm L, Int.mul_emod_mul_of_pos _ _ (Int.pow_pos (by decide)), Int.mul_comm]

/-- **Writing then reading gives the level back.** The top bits of the container written for `x`
read, in two's complement, as the level `x` is stored at. -/
theorem level_write (x : Float32) (bs : List UInt8) : f.level (f.write x bs) = f.levelOf x := by
  obtain ⟨hlo, hhi⟩ := f.levelOf_mem x
  have hd := f.two_pow_depth
  have hD : ((2 ^ (f.depth - 1) : Nat) : Int) = 2 ^ (f.depth - 1) := Int.natCast_pow 2 _
  have hS : ((2 ^ f.shift : Nat) : Int) = 2 ^ f.shift := Int.natCast_pow 2 _
  have hM' : 2 ^ (8 * f.bytes) = 2 ^ f.depth * 2 ^ f.shift := by
    rw [← Nat.pow_add, Nat.add_comm, f.shift_add_depth]
  unfold write level
  generalize f.levelOf x = L at hlo hhi ⊢
  unfold topLevel at hhi
  dsimp only
  rw [List.take_left' (length_littleEndianBytes _ _), littleEndian_littleEndianBytes]
  -- the word holds the level modulo `2 ^ depth`, above `shift` clear bits
  have hN : L % 2 ^ f.depth = if 0 ≤ L then L else L + 2 ^ f.depth := by
    split
    · exact Int.emod_eq_of_lt ‹_› (by omega)
    · rw [← Int.add_emod_right L (2 ^ f.depth)]
      exact Int.emod_eq_of_lt (by omega) (by omega)
  have hword := f.mul_shift_emod L
  have hNlt : (L % 2 ^ f.depth).toNat < 2 ^ f.depth := by
    have := Int.emod_lt_of_pos L (show (0 : Int) < 2 ^ f.depth from Int.pow_pos (by decide))
    have hD2 : ((2 ^ f.depth : Nat) : Int) = 2 ^ f.depth := Int.natCast_pow 2 _
    omega
  have hNnonneg : 0 ≤ L % 2 ^ f.depth := Int.emod_nonneg _ (by omega)
  rw [hword, ← hS, ← Int.toNat_of_nonneg hNnonneg, ← Int.natCast_mul, Int.toNat_natCast,
    Nat.mod_eq_of_lt (by rw [hM']; exact Nat.mul_lt_mul_of_pos_right hNlt (Nat.two_pow_pos _)),
    Nat.mul_div_cancel _ (Nat.two_pow_pos _), Int.toNat_of_nonneg hNnonneg, hN]
  split <;> split <;> omega

/-- Writing reads the value only through the level it is stored at. -/
theorem write_congr {x y : Float32} (h : f.levelOf x = f.levelOf y) (bs : List UInt8) :
    f.write x bs = f.write y bs := by
  unfold write
  rw [h]

/-! ## Reading exactly -/

/-- Full scale is the power of two `2 ^ (depth - 1)`: a mantissa `2 ^ 23` at exponent
`depth - 24`. -/
theorem value_fullScale :
    Single.value f.fullScale = .finite .positive (2 ^ 23) ((f.depth : Int) - 24) (by decide) := by
  have := f.depth_le_32
  unfold fullScale
  rw [Single.value_ofBits_pow (by omega) (by omega)]
  congr 1
  omega

/-- **Reading divides exactly.** A nonzero level converts to a normal number that denotes its
rounding to 24 bits; the sample read is that number with its exponent lowered by `depth - 1`. -/
theorem value_read {bs : List UInt8} (h0 : f.level bs ≠ 0) :
    ∃ m e h, Single.value (Float32.ofInt (f.level bs)) =
        .finite (if f.level bs < 0 then .negative else .positive) m e h ∧
      Single.Normal m e ∧ m * 2 ^ e.toNat = Single.round24 (f.level bs).natAbs * 2 ^ (-e).toNat ∧
      Single.value (f.read bs) =
        .finite (if f.level bs < 0 then .negative else .positive) m (e - f.depth + 1) h := by
  have := f.depth_le_32
  have := f.depth_pos
  obtain ⟨m, e, h, hval, hnorm, hround⟩ := Single.value_ofInt h0 (f.natAbs_level_lt bs)
  -- an integer's exponent is at least `-23`, so lowering it by at most 31 stays normal
  have he := Single.exponent_ge_of_eq h hnorm.mantissa_lt hround
  refine ⟨m, e, h, hval, hnorm, hround, ?_⟩
  exact Single.value_div_pow_two hval hnorm (by omega) (by have := hnorm.exponent_le; omega)
    f.value_fullScale

/-- A zero level reads as positive zero. -/
theorem value_read_of_zero {bs : List UInt8} (h0 : f.level bs = 0) :
    Single.value (f.read bs) = .zero .positive := by
  unfold read
  rw [h0]
  exact Single.value_div_of_zero Single.value_ofInt_zero f.value_fullScale

/-- **Scaling back up is exact.** A sample read and multiplied by full scale has the value of its
level converted. -/
theorem value_read_mul_fullScale (bs : List UInt8) :
    Single.value (f.read bs * f.fullScale) = Single.value (Float32.ofInt (f.level bs)) := by
  by_cases h0 : f.level bs = 0
  · rw [Single.value_mul_of_zero (f.value_read_of_zero h0) f.value_fullScale, h0,
      Single.value_ofInt_zero]
  · obtain ⟨m, e, h, hval, hnorm, hround, hread⟩ := f.value_read h0
    have := f.depth_le_32
    have := f.depth_pos
    have he := Single.exponent_ge_of_eq h hnorm.mantissa_lt hround
    have he' := hnorm.exponent_le
    have hnorm' : Single.Normal m (e - f.depth + 1) :=
      ⟨hnorm.mantissa_ge, hnorm.mantissa_lt, by omega, by omega⟩
    have hmul := Single.value_mul_pow_two hread hnorm' (by omega) (by omega) f.value_fullScale
    rw [show e - (f.depth : Int) + 1 + f.depth - 1 = e by omega] at hmul
    rw [hmul, hval]

/-- **A sample read denotes its converted level over full scale**, exactly. -/
theorem toRat?_read (bs : List UInt8) :
    Single.toRat? (f.read bs) =
      some ((Single.roundInt (f.level bs) : ℚ) / 2 ^ (f.depth - 1)) := by
  by_cases h0 : f.level bs = 0
  · rw [Single.toRat?_of_zero (f.value_read_of_zero h0), h0]
    simp [Single.roundInt]
  · obtain ⟨m, e, h, hval, -, -, hread⟩ := f.value_read h0
    have := f.depth_pos
    -- the converted level denotes `± m · 2 ^ e`; the sample the same at `e - (depth - 1)`
    have hint := Single.toRat?_ofInt (f.natAbs_level_lt bs)
    rw [Single.toRat?_of_finite hval] at hint
    rw [Single.toRat?_of_finite hread, ← Option.some.inj hint,
      show e - (f.depth : ℤ) + 1 = e - ((f.depth - 1 : ℕ) : ℤ) by omega,
      zpow_sub₀ two_ne_zero, zpow_natCast, mul_div_assoc]

/-! ## Reading and storing again -/

/-- The rounding of a level stays within `2 ^ (depth - 1)` in magnitude. -/
theorem roundInt_level_mem (bs : List UInt8) :
    -(2 ^ (f.depth - 1) : Int) ≤ Single.roundInt (f.level bs) ∧
      Single.roundInt (f.level bs) ≤ 2 ^ (f.depth - 1) := by
  have h := Single.natAbs_roundInt_le (f.natAbs_level_le bs)
  have hD : ((2 ^ (f.depth - 1) : Nat) : Int) = 2 ^ (f.depth - 1) := Int.natCast_pow 2 _
  omega

/-- At most 25 bits deep, every level converts exactly. -/
theorem roundInt_level {bs : List UInt8} (hd : f.depth ≤ 25) :
    Single.roundInt (f.level bs) = f.level bs :=
  Single.roundInt_of_natAbs_le (Nat.le_trans (f.natAbs_level_le bs)
    (Nat.pow_le_pow_right (by decide) (by omega)))

/-- **Storing a sample read.** The level a read sample is stored at is its level rounded to 24
bits, held below the top level: only a rounding up past the top is cut back. -/
theorem levelOf_read (bs : List UInt8) :
    f.levelOf (f.read bs) = min f.topLevel (Single.roundInt (f.level bs)) := by
  have hround := f.roundInt_level_mem bs
  have hpos : (0 : Int) < 2 ^ (f.depth - 1) := Int.pow_pos (by decide)
  unfold levelOf
  rw [Single.truncClamp_congr _ _ (f.value_read_mul_fullScale bs),
    Single.truncClamp_ofInt _ _ (f.natAbs_level_lt bs)]
  unfold topLevel
  omega

/-- The least level is minus a power of two, which rounding keeps. -/
theorem roundInt_least : Single.roundInt (-(f.topLevel + 1)) = -(f.topLevel + 1) := by
  have hpos : (0 : Int) < 2 ^ (f.depth - 1) := Int.pow_pos (by decide)
  have hD : ((2 ^ (f.depth - 1) : Nat) : Int) = 2 ^ (f.depth - 1) := Int.natCast_pow 2 _
  have hkeep : Single.round24 (2 ^ (f.depth - 1)) = 2 ^ (f.depth - 1) := by
    simpa using Single.round24_mul_pow (M := 1) (f.depth - 1) (by decide)
  have habs : (-(f.topLevel + 1)).natAbs = 2 ^ (f.depth - 1) := by
    unfold topLevel
    omega
  rw [Single.roundInt_eq_self_iff, habs, hkeep]

/-- The top level is kept by rounding, or carried up to the next power of two. -/
theorem topLevel_le_roundInt : f.topLevel ≤ Single.roundInt f.topLevel := by
  have hpos : (0 : Int) < 2 ^ (f.depth - 1) := Int.pow_pos (by decide)
  have hD : ((2 ^ (f.depth - 1) : Nat) : Int) = 2 ^ (f.depth - 1) := Int.natCast_pow 2 _
  have hup := Single.le_round24_pow_sub_one (f.depth - 1)
  have habs : f.topLevel.natAbs = 2 ^ (f.depth - 1) - 1 := by
    unfold topLevel
    omega
  unfold Single.roundInt
  rw [if_neg (by unfold topLevel; omega), habs]
  unfold topLevel
  omega

/-- **A stored level survives a read.** Reading a level that `levelOf` gives and storing it again
gives the same level: it is a bound, or an integer that 24 bits hold. -/
theorem levelOf_read_write (x : Float32) (bs : List UInt8) :
    f.levelOf (f.read (f.write x bs)) = f.levelOf x := by
  rw [levelOf_read, level_write]
  obtain ⟨hlo, hhi⟩ := f.levelOf_mem x
  have hcases := Single.truncClamp_eq_bound_or_kept (-(f.topLevel + 1)) f.topLevel (x * f.fullScale)
  have hpos : (0 : Int) < 2 ^ (f.depth - 1) := Int.pow_pos (by decide)
  unfold levelOf at hlo hhi ⊢
  generalize Single.truncClamp (-(f.topLevel + 1)) f.topLevel (x * f.fullScale) = L
    at hcases hlo hhi ⊢
  rcases hcases with rfl | rfl | hL
  · rw [f.roundInt_least]
    unfold topLevel
    omega
  · have := f.topLevel_le_roundInt
    omega
  · rw [hL]
    omega

/-- **Writing a sample read.** Writing back the sample read from a container stores its level
rounded to 24 bits and held below the top, and keeps every byte after the container. -/
theorem write_read (bs : List UInt8) :
    f.write (f.read bs) bs =
      littleEndianBytes f.bytes
          ((min (Single.roundInt (f.level bs)) f.topLevel * 2 ^ f.shift % 2 ^ (8 * f.bytes)).toNat) ++
        bs.drop f.bytes := by
  unfold write
  rw [levelOf_read, Int.min_comm]

/-- **Decoding then encoding is the identity on what encoding writes.** -/
theorem write_read_write (x : Float32) (bs bs' : List UInt8) :
    f.write (f.read (f.write x bs)) bs' = f.write x bs' :=
  f.write_congr (f.levelOf_read_write x bs) bs'

end SampleFormat

/-- **The sample codec round trip.** For every format and every container:

* the level read is the container's top `depth` bits in two's complement;
* the sample read denotes exactly `q / 2 ^ (depth - 1)`, where `q` is the integer the level
  converts to; it lies in `[-1, 1]`, and is `1` only at 26 bits or more, where rounding to 24
  bits can carry the top level up to full scale;
* writing the sample back over its container stores `min q top`, which is the level itself at
  25 bits or fewer, and keeps the bytes after the container;
* whatever a value is written as, reading it and writing it again writes the same bytes. -/
theorem sample_codec_round_trip (f : SampleFormat) (bs : List UInt8) :
    (-(2 ^ (f.depth - 1) : ℤ) ≤ f.level bs ∧ f.level bs ≤ f.topLevel ∧
      f.level bs % 2 ^ f.depth = ((littleEndian (bs.take f.bytes) / 2 ^ f.shift : ℕ) : ℤ)) ∧
    (∃ q : ℤ, Single.toRat? (Float32.ofInt (f.level bs)) = some (q : ℚ) ∧
      Single.toRat? (f.read bs) = some ((q : ℚ) / 2 ^ (f.depth - 1)) ∧
      -1 ≤ (q : ℚ) / 2 ^ (f.depth - 1) ∧ (q : ℚ) / 2 ^ (f.depth - 1) ≤ 1 ∧
      ((q : ℚ) / 2 ^ (f.depth - 1) = 1 → 26 ≤ f.depth) ∧
      (f.depth ≤ 25 → min q f.topLevel = f.level bs) ∧
      f.write (f.read bs) bs =
        littleEndianBytes f.bytes ((min q f.topLevel * 2 ^ f.shift % 2 ^ (8 * f.bytes)).toNat) ++
          bs.drop f.bytes) ∧
    ∀ (x : Float32) (bs' : List UInt8), f.write (f.read (f.write x bs)) bs' = f.write x bs' := by
  obtain ⟨hlo, hhi, hbits⟩ := f.level_spec bs
  obtain ⟨hqlo, hqhi⟩ := f.roundInt_level_mem bs
  have hp : (0 : ℚ) < 2 ^ (f.depth - 1) := pow_pos two_pos _
  refine ⟨⟨hlo, hhi, hbits⟩, ⟨Single.roundInt (f.level bs), Single.toRat?_ofInt (f.natAbs_level_lt bs),
    f.toRat?_read bs, ?lower, ?upper, ?one, ?exact, f.write_read bs⟩,
    fun x bs' => f.write_read_write x bs bs'⟩
  case lower =>
    have hq : ((-(2 : ℤ) ^ (f.depth - 1) : ℤ) : ℚ) ≤ (Single.roundInt (f.level bs) : ℚ) :=
      Int.cast_le.2 hqlo
    rw [Int.cast_neg, Int.cast_pow, Int.cast_ofNat] at hq
    rw [le_div_iff₀ hp, neg_one_mul]
    exact hq
  case upper =>
    have hq : (Single.roundInt (f.level bs) : ℚ) ≤ (((2 : ℤ) ^ (f.depth - 1) : ℤ) : ℚ) :=
      Int.cast_le.2 hqhi
    rw [Int.cast_pow, Int.cast_ofNat] at hq
    rw [div_le_one₀ hp]
    exact hq
  case one =>
    -- at 25 bits or fewer the level converts exactly, and the top level is below full scale
    intro h1
    refine Nat.not_lt.1 fun hd => ?_
    have hkeep : Single.roundInt (f.level bs) = f.level bs := f.roundInt_level (by omega)
    rw [div_eq_one_iff_eq hp.ne'] at h1
    have h2 : Single.roundInt (f.level bs) = 2 ^ (f.depth - 1) := by exact_mod_cast h1
    unfold SampleFormat.topLevel at hhi
    omega
  case exact =>
    intro hd
    rw [f.roundInt_level hd]
    exact Int.min_eq_left hhi

end PcmBiquad
