import PcmBiquad.Sample.Format
import PcmBiquad.Single
/-!
  Reading and writing one sample.

  Reading takes the container's bytes as a little-endian word, keeps its top `depth` bits as a
  two's-complement integer — the *level* — and divides it by full scale. Writing goes back: the
  value times full scale is rounded toward zero and held within the levels a `depth`-bit integer
  has, `[-2 ^ (depth - 1), 2 ^ (depth - 1) - 1]`; NaN writes silence. The level is placed in the
  top bits and the container is overwritten, while bytes after it keep their content. Lossy by
  design: low bits are dropped, and nothing is dithered.

  `decode?` and `encode?` refuse a byte string shorter than the container.
-/

namespace PcmBiquad

-- Powers are core's `Nat.pow` and `Int.pow`, whatever other instances are loaded beside.
attribute [local instance (high)] instPowNat

/-- A byte string shorter than the container that was to be read or written. -/
structure ShortContainer where
  /-- The container width. -/
  needed : Nat
  /-- The bytes that were there. -/
  length : Nat
  deriving Repr, DecidableEq

/-- The report of a short container, in terms of the byte range that could not be taken. -/
def ShortContainer.message (e : ShortContainer) : String :=
  s!"range end index {e.needed} out of range for slice of length {e.length}"

/-- The number that bytes denote, least significant byte first. -/
def littleEndian : List UInt8 → Nat
  | [] => 0
  | b :: rest => b.toNat + 256 * littleEndian rest

/-- The lowest `count` bytes of a number, least significant first. -/
def littleEndianBytes : Nat → Nat → List UInt8
  | 0, _ => []
  | count + 1, w => UInt8.ofNat (w % 256) :: littleEndianBytes count (w / 256)

namespace SampleFormat

/-- The greatest level a sample can hold, `2 ^ (depth - 1) - 1`; the least is `-(top + 1)`. -/
def topLevel (f : SampleFormat) : Int := 2 ^ (f.depth - 1) - 1

/-- The signed level in the top `depth` bits of the container at the front of `bs`. -/
def level (f : SampleFormat) (bs : List UInt8) : Int :=
  let u := littleEndian (bs.take f.bytes) / 2 ^ f.shift
  if u < 2 ^ (f.depth - 1) then u else (u : Int) - 2 ^ f.depth

/-- The value of the sample at the front of `bs`, nominally in `[-1, 1)`. -/
def read (f : SampleFormat) (bs : List UInt8) : Float32 :=
  Float32.ofInt (f.level bs) / f.fullScale

/-- The level that stores `x`: `x` times full scale, rounded toward zero and held in range. -/
def levelOf (f : SampleFormat) (x : Float32) : Int :=
  Single.truncClamp (-(f.topLevel + 1)) f.topLevel (x * f.fullScale)

/-- `bs` with its first container overwritten by the sample `x`. -/
def write (f : SampleFormat) (x : Float32) (bs : List UInt8) : List UInt8 :=
  let word := f.levelOf x * 2 ^ f.shift % 2 ^ (8 * f.bytes)
  littleEndianBytes f.bytes word.toNat ++ bs.drop f.bytes

/-- Reads the sample at the front of `bs`, which must hold a whole container. -/
def decode? (f : SampleFormat) (bs : List UInt8) : Except ShortContainer Float32 :=
  if bs.length < f.bytes then .error ⟨f.bytes, bs.length⟩ else .ok (f.read bs)

/-- Writes `x` over the first container of `bs`, which must hold a whole one. -/
def encode? (f : SampleFormat) (x : Float32) (bs : List UInt8) :
    Except ShortContainer (List UInt8) :=
  if bs.length < f.bytes then .error ⟨f.bytes, bs.length⟩ else .ok (f.write x bs)

end SampleFormat

end PcmBiquad
