import PcmBiquad.Error
/-!
  How one interleaved sample is stored.

  A sample is a little-endian signed integer in a container of one to four bytes, and its
  significant value sits in the container's top `depth` bits. A `SampleFormat` carries the two
  widths together with the facts that make them usable:

  * `1 ≤ bytes ≤ 4` — the container is one to four bytes wide;
  * `1 ≤ depth ≤ 8 * bytes` — at least one significant bit, and no more than the container has.

  `SampleFormat.make?` checks these facts in that order, so a bad container is reported before a
  bad depth. The bits below the value (`shift` of them) are dropped on reading and zeroed on
  writing, and a value is scaled by `fullScale = 2 ^ (depth - 1)` into `[-1, 1)`.
-/

namespace PcmBiquad

-- Powers are core's `Nat.pow` and `Int.pow`, whatever other instances are loaded beside.
attribute [local instance (high)] instPowNat

/-- The layout of one sample: a container of `bytes` bytes whose top `depth` bits hold it. -/
structure SampleFormat where
  /-- Container width in bytes. -/
  bytes : Nat
  /-- Significant bits, counted from the top of the container. -/
  depth : Nat
  bytes_pos : 1 ≤ bytes := by omega
  bytes_le : bytes ≤ 4 := by omega
  depth_pos : 1 ≤ depth := by omega
  depth_le : depth ≤ 8 * bytes := by omega
  deriving DecidableEq

namespace SampleFormat

/-- The format used before any other is chosen: 16 significant bits in 4 bytes. -/
def standard : SampleFormat := ⟨4, 16, by omega, by omega, by omega, by omega⟩

instance : Inhabited SampleFormat := ⟨standard⟩

/-- The format with the given depth and container width, if the two fit together. -/
def make? (depth bytes : Nat) : Except FilterError SampleFormat :=
  if h : 1 ≤ bytes ∧ bytes ≤ 4 then
    if h' : 1 ≤ depth ∧ depth ≤ 8 * bytes then
      .ok ⟨bytes, depth, h.1, h.2, h'.1, h'.2⟩
    else .error (.invalidFormat depth bytes)
  else .error (.unsupportedContainer bytes)

/-- The narrowest container for `depth` bits: `⌈depth / 8⌉` bytes, and at least one. -/
def packed? (depth : Nat) : Except FilterError SampleFormat :=
  make? depth (max 1 ((depth + 7) / 8))

/-- Bits below the significant value. -/
def shift (f : SampleFormat) : Nat := 8 * f.bytes - f.depth

/-- Full scale, `2 ^ (depth - 1)`: a power of two has a zero fraction and the biased
exponent `127 + (depth - 1)`. -/
def fullScale (f : SampleFormat) : Float32 :=
  Float32.ofBits (UInt32.ofNat ((126 + f.depth) * 2 ^ (23 : Nat)))

/-- Whether this is the standard format. -/
def isStandard (f : SampleFormat) : Bool := f.bytes == 4 && f.depth == 16

/-! ## What the constructors accept -/

/-- A container outside one to four bytes is refused for its width, whatever the depth. -/
theorem make?_of_bad_container {depth bytes : Nat} (h : ¬(1 ≤ bytes ∧ bytes ≤ 4)) :
    make? depth bytes = .error (.unsupportedContainer bytes) := by
  simp only [make?, dif_neg h]

/-- In a good container, a depth of zero or wider than the container is refused. -/
theorem make?_of_bad_depth {depth bytes : Nat} (hb : 1 ≤ bytes ∧ bytes ≤ 4)
    (h : ¬(1 ≤ depth ∧ depth ≤ 8 * bytes)) :
    make? depth bytes = .error (.invalidFormat depth bytes) := by
  simp only [make?, dif_pos hb, dif_neg h]

/-- Widths that fit together make the format with exactly those widths. -/
theorem make?_of_valid {depth bytes : Nat} (hb : 1 ≤ bytes ∧ bytes ≤ 4)
    (hd : 1 ≤ depth ∧ depth ≤ 8 * bytes) :
    make? depth bytes = .ok ⟨bytes, depth, hb.1, hb.2, hd.1, hd.2⟩ := by
  simp only [make?, dif_pos hb, dif_pos hd]

/-- The dropped bits and the significant bits fill the container. -/
theorem shift_add_depth (f : SampleFormat) : f.shift + f.depth = 8 * f.bytes := by
  have := f.depth_le
  unfold shift
  omega

end SampleFormat

end PcmBiquad
