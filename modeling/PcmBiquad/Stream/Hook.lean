import PcmBiquad.Stream.Config
import PcmBiquad.Event
/-!
  The two calls an audio driver makes on a stream: `prepare`, when the stream's shape is fixed,
  and `pointer`, when it asks how far the hardware has got in the ring buffer.

  `pointer` is given the hardware position in bytes and answers it in frames: zero when the
  position is not inside the buffer or no frame size is known, else the whole frames before it
  (`bytesToFrames`). A hook may also filter the buffer on the way.

  `prepare` fails in one of two ways (`PrepareError`): the hook refuses the stream and stays as
  it was, or the stream's frame size does not fit in a machine word, a fault that ends the whole
  computation.
-/

namespace PcmBiquad

/-- The frame a byte position falls in, or zero if it lies outside the buffer of `length` bytes
or the stride is zero. -/
def bytesToFrames (length stride pos : Nat) : Nat :=
  if length ≤ pos ∨ stride = 0 then 0 else pos / stride

/-- Why a hook did not take a stream. -/
inductive PrepareError where
  /-- The stream was refused; the hook is unchanged. -/
  | refused (e : FilterError)
  /-- The frame size overflowed a machine word; nothing after it runs. -/
  | overflow (e : StrideOverflow)
  deriving Repr, DecidableEq

/-- Something that can sit between an audio driver and its ring buffer. -/
class PositionHook (σ : Type) where
  /-- Adapts to a stream shape in place, refuses it, or faults on its frame size. -/
  prepare : StreamConfig → InPlace PrepareError σ Unit
  /-- Answers the frame position for a byte position; may filter the buffer on the way. -/
  pointer : σ → List UInt8 → Nat → Nat × σ × List UInt8 × List Event

end PcmBiquad
