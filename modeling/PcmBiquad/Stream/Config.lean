import PcmBiquad.Sample.Format
import PcmBiquad.Filter.Kind
/-!
  The shape of an audio stream, and the filter to run on it.

  A `StreamConfig` gives the channel count, bit depth, container width and sample rate of an
  interleaved stream; its defaults are two channels of 16-bit samples in 4-byte containers at
  48 kHz. A frame holds one container per channel, so its stride is `channels * bytes`. The
  stride is kept in a 64-bit machine word; `stride?` computes it there, and a product that does
  not fit is a `StrideOverflow`, a fault that stops the computation rather than wrapping.

  A `FilterConfig` is the kind and cutoff that every channel runs; by default a high pass at
  300 Hz, which removes rumble and DC offset.
-/

namespace PcmBiquad

-- Powers are core's `Nat.pow` and `Int.pow`, whatever other instances are loaded beside.
attribute [local instance (high)] instPowNat

/-- A frame of `channels` containers of `bytes` bytes each, too large for a 64-bit word. -/
structure StrideOverflow where
  channels : Nat
  bytes : Nat
  deriving Repr, DecidableEq

/-- The fault as the machine arithmetic reports it. -/
def StrideOverflow.message (_ : StrideOverflow) : String := "attempt to multiply with overflow"

/-- The shape of an interleaved stream. -/
structure StreamConfig where
  channels : Nat := 2
  depth : Nat := 16
  bytes : Nat := 4
  rate : Nat := 48000
  deriving Repr, DecidableEq

namespace StreamConfig

/-- Bytes per frame, one container per channel. -/
def stride (s : StreamConfig) : Nat := s.channels * s.bytes

/-- The stride as a 64-bit machine word computes it: the stride, or the overflow when it does
not fit. -/
def stride? (s : StreamConfig) : Except StrideOverflow Nat :=
  if s.stride < 2 ^ (64 : Nat) then .ok s.stride else .error ⟨s.channels, s.bytes⟩

/-- A stride that fits is computed exactly. -/
theorem stride?_eq_ok (s : StreamConfig) (h : s.stride < 2 ^ (64 : Nat)) :
    s.stride? = .ok s.stride := by
  unfold stride?
  rw [if_pos h]

/-- A stride that does not fit is the overflow of the two widths. -/
theorem stride?_eq_error (s : StreamConfig) (h : ¬s.stride < 2 ^ (64 : Nat)) :
    s.stride? = .error ⟨s.channels, s.bytes⟩ := by
  unfold stride?
  rw [if_neg h]

/-- The sample format of the stream, if its depth and container fit together. -/
def format? (s : StreamConfig) : Except FilterError SampleFormat := SampleFormat.make? s.depth s.bytes

end StreamConfig

/-- The filter every channel of a stream runs. -/
structure FilterConfig where
  kind : FilterKind := .highPass
  cutoff : Float32 := 300

end PcmBiquad
