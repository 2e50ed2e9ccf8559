import PcmBiquad.Stream.Hook
import PcmBiquad.Ring.Advance
/-!
  A hook that filters a stream in place as the hardware plays it.

  A `StreamFilter` owns a filter bank sized for the most channels it will ever run, a cursor
  into the ring buffer, the filter to run, and the stream it was last configured for (none at
  first). Until a configuration succeeds it leaves every buffer alone.

  `configure` checks the sample format, then configures the bank with the full design — kind,
  the stream's rate and the cutoff — on the stream's channels. Only when both succeed does it
  move the cursor back to the start and remember the stream and filter; a refusal changes
  nothing. `advance` filters from the cursor up to a frame position, sizing the ring by the
  buffer; `pointer` converts a byte position to frames and advances there.

  Its stride never overflows a machine word: a configured stream has no more channels than the
  bank holds, and a bank that exists in memory is far smaller than `2 ^ 64` bytes.
-/

namespace PcmBiquad

/-- A filter bank with its cursor, filter and stream. -/
structure StreamFilter where
  bank : FilterBank
  cursor : Nat
  filter : FilterConfig
  stream : Option StreamConfig

namespace StreamFilter

/-- A stream filter for up to `maxChannels` channels running `filter`, designed at 48 kHz until a
stream is configured. -/
def make (maxChannels : Nat) (filter : FilterConfig := {}) : StreamFilter :=
  ⟨FilterBank.make maxChannels filter.kind 48000 filter.cutoff, 0, filter, none⟩

/-- Configures for a stream and filter: checks the sample format, configures the bank's
channels with the full design, then rewinds the cursor and remembers the stream and filter. -/
def configure (s : StreamConfig) (filter : FilterConfig) : InPlace FilterError StreamFilter Unit := do
  let format ← InPlace.check s.format?
  let params := FilterParams.full filter.kind (Float32.ofNat s.rate) filter.cutoff
  InPlace.focus bank (fun sf bank => { sf with bank }) (FilterBank.configure s.channels format params)
  InPlace.update fun sf => { sf with cursor := 0, filter, stream := some s }
  InPlace.emit (.streamPrepared s.channels s.depth s.rate filter.kind filter.cutoff)

/-- Configuring either refuses with the stream filter and the events exactly as they were — a
bad format first, then too many channels — or activates the channels and rewinds, raising the
bank's event and then the stream's. -/
theorem configure_run (sf : StreamFilter) (log : List Event) (s : StreamConfig)
    (filter : FilterConfig) :
    (configure s filter).run ⟨sf, log⟩ =
      match s.format? with
      | .error e => .error e ⟨sf, log⟩
      | .ok format =>
        if h : s.channels ≤ sf.bank.channels.length then
          .ok () ⟨⟨sf.bank.activate s.channels format
              (FilterParams.full filter.kind (Float32.ofNat s.rate) filter.cutoff) h, 0, filter, some s⟩,
            log ++ [.bankConfigured s.channels sf.bank.capacity format.depth format.bytes,
              .streamPrepared s.channels s.depth s.rate filter.kind filter.cutoff]⟩
        else .error (.capacityExceeded s.channels sf.bank.capacity) ⟨sf, log⟩ := by
  cases hf : s.format? with
  | error e =>
    simp only [configure, hf]
    rfl
  | ok format =>
    have hb := FilterBank.configure_run sf.bank log s.channels format
      (FilterParams.full filter.kind (Float32.ofNat s.rate) filter.cutoff)
    simp only [EStateM.run] at hb
    by_cases h : s.channels ≤ sf.bank.channels.length
    · simp only [dif_pos h] at hb ⊢
      simp only [configure, hf, EStateM.run, bind, EStateM.bind, InPlace.check, InPlace.focus,
        InPlace.update, InPlace.emit, hb, List.append_assoc, List.cons_append, List.nil_append]
    · simp only [dif_neg h] at hb ⊢
      simp only [configure, hf, EStateM.run, bind, EStateM.bind, InPlace.check, InPlace.focus, hb]

/-- Filters the buffer from the cursor up to frame `hw`, once configured. -/
def advance (sf : StreamFilter) (buffer : List UInt8) (hw : Nat) :
    StreamFilter × List UInt8 × List Event :=
  match sf.stream with
  | none => (sf, buffer, [])
  | some s =>
    let r := PcmBiquad.advance sf.cursor hw (Geometry.forBuffer buffer.length s.stride) buffer sf.bank
    ({ sf with cursor := r.cursor, bank := r.bank }, r.buffer, r.events)

/-- The frame stride of the configured stream, or zero. -/
def stride (sf : StreamFilter) : Nat := (sf.stream.map StreamConfig.stride).getD 0

/-- Configures for a stream, keeping the current filter. -/
def prepare (s : StreamConfig) : InPlace FilterError StreamFilter Unit := do
  let sf ← InPlace.current
  configure s sf.filter

/-- Preparing is configuring with the filter already chosen. -/
theorem prepare_run (sf : StreamFilter) (log : List Event) (s : StreamConfig) :
    (prepare s).run ⟨sf, log⟩ = (configure s sf.filter).run ⟨sf, log⟩ := rfl

/-- Converts a byte position to frames and filters up to it. -/
def pointer (sf : StreamFilter) (buffer : List UInt8) (pos : Nat) :
    Nat × StreamFilter × List UInt8 × List Event :=
  let frames := bytesToFrames buffer.length sf.stride pos
  let (sf', buffer', events) := sf.advance buffer frames
  (frames, sf', buffer', events)

instance : PositionHook StreamFilter where
  prepare s := EStateM.adaptExcept PrepareError.refused (prepare s)
  pointer := pointer

end StreamFilter

end PcmBiquad
