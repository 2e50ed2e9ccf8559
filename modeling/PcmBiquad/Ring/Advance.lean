import PcmBiquad.Ring.Region
import PcmBiquad.Filter.Bank
/-!
  Catching up with a hardware position on a ring buffer of interleaved frames.

  A `Geometry` says how many frames the ring holds and how many bytes each takes. `advance`
  filters, in place, the frames between the cursor (the last processed position) and the
  hardware position, and moves the cursor there:

  * a buffer shorter than the geometry claims is left alone, with a warning, and the cursor
    stays;
  * an idle region changes nothing;
  * otherwise each run of the region is filtered as whole frames, tail before head, and the
    cursor becomes the hardware position modulo the ring size.
-/

namespace PcmBiquad

/-- The shape of a ring buffer: its frame count and the bytes per frame. -/
structure Geometry where
  frames : Nat
  stride : Nat
  deriving Repr, DecidableEq

namespace Geometry

/-- The geometry that fits as many whole frames as a buffer of `length` bytes holds (none if
the stride is zero). -/
def forBuffer (length stride : Nat) : Geometry :=
  ⟨if stride = 0 then 0 else length / stride, stride⟩

/-- The bytes the ring spans. -/
def bytes (g : Geometry) : Nat := g.frames * g.stride

end Geometry

/-- The bytes `[start, stop)`. -/
def sliceRange (start stop : Nat) (bytes : List UInt8) : List UInt8 :=
  (bytes.drop start).take (stop - start)

/-- `bytes` with the part `[start, stop)` replaced by `part`. -/
def replaceRange (start stop : Nat) (part bytes : List UInt8) : List UInt8 :=
  bytes.take start ++ part ++ bytes.drop stop

/-- Filters the frames of each run in order. -/
def filterRuns (g : Geometry) : List Run → List UInt8 → FilterBank → List UInt8 × FilterBank
  | [], buffer, bank => (buffer, bank)
  | run :: runs, buffer, bank =>
    let start := run.start * g.stride
    let stop := run.stop * g.stride
    let (part, bank') := bank.processFrames (sliceRange start stop buffer) g.stride
    filterRuns g runs (replaceRange start stop part buffer) bank'

/-- The cursor, buffer and bank after catching up, and the events raised. -/
structure Advanced where
  cursor : Nat
  buffer : List UInt8
  bank : FilterBank
  events : List Event

/-- Filters the frames from `cursor` up to the hardware position `hw`. -/
def advance (cursor hw : Nat) (g : Geometry) (buffer : List UInt8) (bank : FilterBank) :
    Advanced :=
  if buffer.length < g.bytes then
    ⟨cursor, buffer, bank, [.bufferShort buffer.length g.frames g.stride]⟩
  else
    match Region.between cursor hw g.frames with
    | .idle => ⟨cursor, buffer, bank, []⟩
    | region =>
      let (buffer', bank') := filterRuns g region.runs buffer bank
      ⟨hw % g.frames, buffer', bank', [.filtering region]⟩

end PcmBiquad
