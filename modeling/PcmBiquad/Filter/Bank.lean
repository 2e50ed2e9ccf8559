import PcmBiquad.Filter.Biquad
import PcmBiquad.Sample.Codec
import PcmBiquad.Event
/-!
  A bank of biquad sections, one per channel of an interleaved stream.

  A `FilterBank` owns a fixed number of sections (its capacity), of which the first `active`
  filter frames; the field `active_le` keeps `active` within the capacity. Frames are laid out as
  consecutive sample containers of the bank's `SampleFormat`, channel 0 first.

  * `configure` sets the number of active channels and the format, applying the same
    `FilterParams` to every active section and clearing its history; asking for more channels
    than the bank holds is refused and changes nothing.
  * `processFrame` filters the first `min active (containers in the frame)` samples in place —
    read, pass through the channel's section, write back — and leaves any other byte alone.
  * `processFrames` does this for each whole frame of a region; a stride of zero does nothing,
    and a partial frame at the end is left alone.
-/

namespace PcmBiquad

/-- A fixed set of per-channel sections, the number in use, and the sample format. -/
structure FilterBank where
  channels : List Biquad
  active : Nat
  format : SampleFormat
  active_le : active ≤ channels.length

namespace FilterBank

/-- The number of sections the bank holds. -/
def capacity (b : FilterBank) : Nat := b.channels.length

/-- `capacity` identical sections of the given design, none active, standard format. -/
def make (capacity : Nat) (kind : FilterKind) (rate cutoff : Float32) : FilterBank :=
  ⟨List.replicate capacity (Biquad.make kind rate cutoff), 0, .standard, Nat.zero_le _⟩

/-- The sections with `f` applied to the first `n`. -/
def mapFirst (f : Biquad → Biquad) : Nat → List Biquad → List Biquad
  | 0, chs => chs
  | _, [] => []
  | n + 1, ch :: chs => f ch :: mapFirst f n chs

/-- Touching the first sections keeps their number. -/
theorem length_mapFirst (f : Biquad → Biquad) (n : Nat) (chs : List Biquad) :
    (mapFirst f n chs).length = chs.length := by
  induction n generalizing chs with
  | zero => rfl
  | succ n ih => cases chs <;> simp [mapFirst, ih]

/-- Section `i` after touching the first `n`: touched if `i < n`, as it was otherwise. -/
theorem getElem?_mapFirst (f : Biquad → Biquad) (n : Nat) (chs : List Biquad) (i : Nat) :
    (mapFirst f n chs)[i]? = if i < n then chs[i]?.map f else chs[i]? := by
  induction n generalizing chs i with
  | zero => simp [mapFirst]
  | succ n ih =>
    cases chs with
    | nil => simp [mapFirst]
    | cons ch chs => cases i <;> simp [mapFirst, ih]

/-- The bank running `count` of its channels on `format`, each of those reconfigured by `params`
and cleared; the other channels are kept as they are. -/
def activate (b : FilterBank) (count : Nat) (format : SampleFormat) (params : FilterParams)
    (h : count ≤ b.channels.length) : FilterBank :=
  ⟨mapFirst (fun ch => (ch.reconfigure params).reset) count b.channels, count, format,
    by simpa [length_mapFirst] using h⟩

/-- Runs `count` channels of the given format, each reconfigured by `params` and cleared; asking
for more channels than the bank holds is refused before anything changes. -/
def configure (count : Nat) (format : SampleFormat) (params : FilterParams) :
    InPlace FilterError FilterBank Unit := do
  let b ← InPlace.current
  if h : count ≤ b.channels.length then
    InPlace.update fun _ => b.activate count format params h
    InPlace.emit (.bankConfigured count b.capacity format.depth format.bytes)
  else throw (.capacityExceeded count b.capacity)

/-- Configuring either activates the channels and reports it, or refuses with the bank and the
events exactly as they were. -/
theorem configure_run (b : FilterBank) (log : List Event) (count : Nat) (format : SampleFormat)
    (params : FilterParams) :
    (configure count format params).run ⟨b, log⟩ =
      if h : count ≤ b.channels.length then
        .ok () ⟨b.activate count format params h,
          log ++ [.bankConfigured count b.capacity format.depth format.bytes]⟩
      else .error (.capacityExceeded count b.capacity) ⟨b, log⟩ := by
  by_cases h : count ≤ b.channels.length
  · simp only [configure, EStateM.run, bind, EStateM.bind, InPlace.current, dif_pos h]
    rfl
  · simp only [configure, EStateM.run, bind, EStateM.bind, InPlace.current, dif_neg h]
    rfl

/-- Filters the samples at the front of `bytes` with the sections in order, `n` at most, as
long as whole containers remain; returns the bytes and the sections after. -/
def filterSamples (format : SampleFormat) : List Biquad → Nat → List UInt8 → List UInt8 × List Biquad
  | ch :: chs, n + 1, bytes =>
    if bytes.length < format.bytes then (bytes, ch :: chs)
    else
      let (y, ch') := ch.process (format.read bytes)
      let (rest, chs') := filterSamples format chs n (bytes.drop format.bytes)
      (format.write y (bytes.take format.bytes) ++ rest, ch' :: chs')
  | chs, _, bytes => (bytes, chs)

/-- Filtering a frame keeps the number of sections. -/
theorem length_filterSamples (format : SampleFormat) (chs : List Biquad) (n : Nat)
    (bytes : List UInt8) : (filterSamples format chs n bytes).2.length = chs.length := by
  induction chs generalizing n bytes with
  | nil => cases n <;> simp [filterSamples]
  | cons ch chs ih =>
    cases n with
    | zero => simp [filterSamples]
    | succ n =>
      simp only [filterSamples]
      split <;> simp [ih]

/-- Filters one interleaved frame in place. -/
def processFrame (b : FilterBank) (frame : List UInt8) : List UInt8 × FilterBank :=
  let r := filterSamples b.format b.channels b.active frame
  (r.1, ⟨r.2, b.active, b.format, by
    rw [show r.2.length = b.channels.length from length_filterSamples ..]; exact b.active_le⟩)

/-- Filters `count` frames of `stride` bytes at the front of `bytes`, in order. -/
def processCount (b : FilterBank) (stride : Nat) : Nat → List UInt8 → List UInt8 × FilterBank
  | 0, bytes => (bytes, b)
  | count + 1, bytes =>
    let (frame, b') := b.processFrame (bytes.take stride)
    let (rest, b'') := b'.processCount stride count (bytes.drop stride)
    (frame ++ rest, b'')

/-- Filters every whole frame of `stride` bytes in a region; a zero stride does nothing. -/
def processFrames (b : FilterBank) (region : List UInt8) (stride : Nat) : List UInt8 × FilterBank :=
  if stride = 0 then (region, b) else b.processCount stride (region.length / stride) region

/-- Clears the history of every section. -/
def reset (b : FilterBank) : FilterBank :=
  ⟨b.channels.map Biquad.reset, b.active, b.format, by simpa using b.active_le⟩

/-- Applies `f` to section `i`, if the bank has one; says whether it had. -/
def modifyChannel (b : FilterBank) (i : Nat) (f : Biquad → Biquad) : FilterBank × Bool :=
  if i < b.channels.length then
    (⟨b.channels.modify i f, b.active, b.format, by simpa using b.active_le⟩, true)
  else (b, false)

/-- Reconfigures section `i` by `params`, if there is one. -/
def override (b : FilterBank) (i : Nat) (params : FilterParams) : FilterBank × Bool :=
  b.modifyChannel i (·.reconfigure params)

/-- Clears the history of section `i`, if there is one. -/
def resetChannel (b : FilterBank) (i : Nat) : FilterBank × Bool :=
  b.modifyChannel i Biquad.reset

end FilterBank

end PcmBiquad
