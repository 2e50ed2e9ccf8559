import Mathlib
import PcmBiquad.Proofs.CatchUp
import PcmBiquad.Proofs.Configure
/-!
  The two position hooks answer alike.

  A driver makes two kinds of call on a hook (`HookCall`): `prepare` with the shape of a stream,
  and `pointer` with the ring buffer as it is then and a byte position in it.
  `PositionHook.replies` makes a list of such calls on a hook and collects what each answers; an
  overflow fault ends the list, as it ends the computation.

  `expectedReplies stride` is what the hook contract promises, kept with the frame stride of the
  last stream taken: a prepare is refused exactly for an invalid sample format, with that
  format's error, and is otherwise taken, its stride becoming the stride; a pointer answers
  `bytesToFrames length stride pos`.

  A bypass and a stream filter keep their stride in different places — a field of its own, and
  the stream the filter was configured for — and only the filter touches the buffer. Each hook
  gives the promised replies (`Bypass.replies_eq`, `StreamFilter.replies_eq`): the bypass as long
  as no accepted frame overflows a machine word, the filter as long as its bank has room for
  every stream. `hooks_interchangeable` puts the two together for fresh hooks.
-/

namespace PcmBiquad

/-- A call a driver makes on a position hook. -/
inductive HookCall where
  /-- The stream's shape is fixed. -/
  | prepare (s : StreamConfig)
  /-- How far has the hardware got: a byte position in the ring buffer as it is now. -/
  | pointer (buffer : List UInt8) (pos : Nat)

/-- The channels a call asks for: those of the stream it prepares, none for a query. -/
def HookCall.channels : HookCall → Nat
  | .prepare s => s.channels
  | .pointer .. => 0

/-- What a hook answers to a call. -/
inductive HookReply where
  /-- The outcome of a prepare. -/
  | prepared (result : Except PrepareError Unit)
  /-- The frame position a pointer query answers. -/
  | frames (n : Nat)

namespace PositionHook

variable {σ : Type} [PositionHook σ]

/-- Makes the calls on the hook `h` in order and collects the replies; an overflow fault is the
last reply, since nothing runs after it. -/
def replies (h : σ) : List HookCall → List HookReply
  | [] => []
  | .prepare s :: calls =>
    match (PositionHook.prepare s : InPlace PrepareError σ Unit).run ⟨h, []⟩ with
    | .ok _ w => .prepared (.ok ()) :: replies w.obj calls
    | .error (.overflow o) _ => [.prepared (.error (.overflow o))]
    | .error e w => .prepared (.error e) :: replies w.obj calls
  | .pointer buffer pos :: calls =>
    .frames (PositionHook.pointer h buffer pos).1 :: replies (PositionHook.pointer h buffer pos).2.1 calls

end PositionHook

/-- The replies the hook contract promises, given the frame stride of the last stream taken: a
prepare is refused for an invalid sample format with that format's error and is otherwise taken,
its stride becoming the stride; a pointer answers the frame of its byte position. -/
def expectedReplies (stride : Nat) : List HookCall → List HookReply
  | [] => []
  | .prepare s :: calls =>
    match s.format? with
    | .error e => .prepared (.error (.refused e)) :: expectedReplies stride calls
    | .ok _ => .prepared (.ok ()) :: expectedReplies s.stride calls
  | .pointer buffer pos :: calls =>
    .frames (bytesToFrames buffer.length stride pos) :: expectedReplies stride calls

/-- A position at or past the end of the buffer reads as frame zero. -/
theorem bytesToFrames_of_le {length pos : Nat} (stride : Nat) (h : length ≤ pos) :
    bytesToFrames length stride pos = 0 := by
  unfold bytesToFrames
  rw [if_pos (.inl h)]

/-- A stream of a valid format whose channels a bank of `m` sections could run has a frame that
fits a machine word, provided four bytes per section do. -/
theorem StreamConfig.stride_lt_of_format? {s : StreamConfig} {format : SampleFormat} {m : Nat}
    (hf : s.format? = .ok format) (hch : s.channels ≤ m) (hmem : 4 * m < 2 ^ 64) :
    s.stride < 2 ^ 64 := by
  have hbytes := StreamConfig.bytes_of_format?_eq_ok hf
  have hle := format.bytes_le
  have : s.channels * s.bytes ≤ m * 4 := Nat.mul_le_mul hch (by omega)
  unfold StreamConfig.stride
  omega

/-! ## The bypass -/

namespace Bypass

/-- A bypass refuses a stream of an invalid format and keeps its stride. -/
theorem replies_prepare_of_error (b : Bypass) {s : StreamConfig} {e : FilterError}
    (hf : s.format? = .error e) (calls : List HookCall) :
    PositionHook.replies b (.prepare s :: calls) =
      .prepared (.error (.refused e)) :: PositionHook.replies b calls := by
  have hrun : (PositionHook.prepare s : InPlace PrepareError Bypass Unit).run ⟨b, []⟩ =
      .error (.refused e) ⟨b, []⟩ := by
    show (prepare s).run ⟨b, []⟩ = _
    rw [prepare_run, hf]
  simp only [PositionHook.replies, hrun]

/-- A bypass takes the stride of a stream of a valid format whose frame fits a machine word. -/
theorem replies_prepare_of_ok (b : Bypass) {s : StreamConfig} {format : SampleFormat}
    (hf : s.format? = .ok format) (hs : s.stride < 2 ^ 64) (calls : List HookCall) :
    PositionHook.replies b (.prepare s :: calls) =
      .prepared (.ok ()) :: PositionHook.replies ({ stride := s.stride } : Bypass) calls := by
  have hrun : (PositionHook.prepare s : InPlace PrepareError Bypass Unit).run ⟨b, []⟩ =
      .ok () ⟨{ stride := s.stride }, []⟩ := by
    show (prepare s).run ⟨b, []⟩ = _
    rw [prepare_run, hf, StreamConfig.stride?_eq_ok s hs]
  simp only [PositionHook.replies, hrun]

/-- A bypass answers a query with the frame of the position, and stays as it was. -/
theorem replies_pointer (b : Bypass) (buffer : List UInt8) (pos : Nat) (calls : List HookCall) :
    PositionHook.replies b (.pointer buffer pos :: calls) =
      .frames (bytesToFrames buffer.length b.stride pos) :: PositionHook.replies b calls := rfl

/-- A bypass hands the buffer back untouched. -/
theorem buffer_pointer (b : Bypass) (buffer : List UInt8) (pos : Nat) :
    (PositionHook.pointer b buffer pos).2.2.1 = buffer := rfl

/-- **A bypass gives the promised replies** as long as every stream of a valid format it is
given could run on a bank of `m` sections whose frames, four bytes a section, fit a machine
word. -/
theorem replies_eq {m : Nat} (hmem : 4 * m < 2 ^ 64) (b : Bypass) (calls : List HookCall)
    (hcalls : ∀ c ∈ calls, c.channels ≤ m) :
    PositionHook.replies b calls = expectedReplies b.stride calls := by
  induction calls generalizing b with
  | nil => rfl
  | cons c calls ih =>
    have hrest : ∀ c ∈ calls, c.channels ≤ m := fun c hc => hcalls c (List.mem_cons_of_mem _ hc)
    cases c with
    | prepare s =>
      have hch : s.channels ≤ m := hcalls (.prepare s) (List.mem_cons_self ..)
      cases hf : s.format? with
      | error e =>
        rw [replies_prepare_of_error b hf, ih b hrest]
        simp only [expectedReplies, hf]
      | ok format =>
        rw [replies_prepare_of_ok b hf (StreamConfig.stride_lt_of_format? hf hch hmem),
          ih _ hrest]
        simp only [expectedReplies, hf]
    | pointer buffer pos =>
      rw [replies_pointer, ih b hrest]
      rfl

end Bypass

/-! ## The stream filter -/

namespace StreamFilter

/-- Catching up keeps the stream the filter is configured for. -/
@[simp] theorem stream_advance (sf : StreamFilter) (buffer : List UInt8) (hw : Nat) :
    (sf.advance buffer hw).1.stream = sf.stream := by
  unfold advance
  split <;> rfl

/-- Catching up keeps the number of sections the bank holds. -/
@[simp] theorem capacity_advance (sf : StreamFilter) (buffer : List UInt8) (hw : Nat) :
    (sf.advance buffer hw).1.bank.capacity = sf.bank.capacity := by
  unfold advance
  split
  · rfl
  · exact PcmBiquad.capacity_advance _ _ _ _ _

/-- **What a pointer query answers does not depend on the filtering it does**: the frame of the
position under the configured stride, computed before the buffer is touched. -/
theorem fst_pointer (sf : StreamFilter) (buffer : List UInt8) (pos : Nat) :
    (sf.pointer buffer pos).1 = bytesToFrames buffer.length sf.stride pos := rfl

/-- A stream filter refuses a stream of an invalid format, as the format's refusal, and stays as
it was. -/
theorem replies_prepare_of_error (sf : StreamFilter) {s : StreamConfig} {e : FilterError}
    (hf : s.format? = .error e) (calls : List HookCall) :
    PositionHook.replies sf (.prepare s :: calls) =
      .prepared (.error (.refused e)) :: PositionHook.replies sf calls := by
  have hrun : (PositionHook.prepare s : InPlace PrepareError StreamFilter Unit).run ⟨sf, []⟩ =
      .error (.refused e) ⟨sf, []⟩ := by
    show (EStateM.adaptExcept PrepareError.refused (prepare s)).run ⟨sf, []⟩ = _
    rw [EStateM.run_adaptExcept, prepare_run, configure_run, hf]
  simp only [PositionHook.replies, hrun]

/-- A stream filter with room for its channels takes a stream of a valid format: the stride
becomes the stream's, and the bank keeps its sections. -/
theorem replies_prepare_of_ok (sf : StreamFilter) {s : StreamConfig} {format : SampleFormat}
    (hf : s.format? = .ok format) (hch : s.channels ≤ sf.bank.capacity) (calls : List HookCall) :
    ∃ sf' : StreamFilter, sf'.stride = s.stride ∧ sf'.bank.capacity = sf.bank.capacity ∧
      PositionHook.replies sf (.prepare s :: calls) =
        .prepared (.ok ()) :: PositionHook.replies sf' calls := by
  have hrun : (PositionHook.prepare s : InPlace PrepareError StreamFilter Unit).run ⟨sf, []⟩ =
      .ok () ⟨⟨sf.bank.activate s.channels format
          (FilterParams.full sf.filter.kind (Float32.ofNat s.rate) sf.filter.cutoff) hch, 0,
          sf.filter, some s⟩,
        [.bankConfigured s.channels sf.bank.capacity format.depth format.bytes,
          .streamPrepared s.channels s.depth s.rate sf.filter.kind sf.filter.cutoff]⟩ := by
    show (EStateM.adaptExcept PrepareError.refused (prepare s)).run ⟨sf, []⟩ = _
    rw [EStateM.run_adaptExcept, prepare_run, configure_run, hf]
    simp only [dif_pos (show s.channels ≤ sf.bank.channels.length from hch), List.nil_append]
  refine ⟨⟨sf.bank.activate s.channels format
      (FilterParams.full sf.filter.kind (Float32.ofNat s.rate) sf.filter.cutoff) hch, 0,
      sf.filter, some s⟩, rfl, ?_, by simp only [PositionHook.replies, hrun]⟩
  simp only [FilterBank.capacity, FilterBank.activate, FilterBank.length_mapFirst]

/-- A stream filter answers a query with the frame of the position; it may filter, but keeps its
stride and its sections. -/
theorem replies_pointer (sf : StreamFilter) (buffer : List UInt8) (pos : Nat)
    (calls : List HookCall) :
    PositionHook.replies sf (.pointer buffer pos :: calls) =
      .frames (bytesToFrames buffer.length sf.stride pos) ::
        PositionHook.replies (sf.pointer buffer pos).2.1 calls := rfl

/-- Answering a query keeps the stride and the sections. -/
theorem stride_pointer (sf : StreamFilter) (buffer : List UInt8) (pos : Nat) :
    (sf.pointer buffer pos).2.1.stride = sf.stride ∧
      (sf.pointer buffer pos).2.1.bank.capacity = sf.bank.capacity := by
  refine ⟨?_, capacity_advance _ _ _⟩
  show ((sf.advance buffer _).1.stream.map StreamConfig.stride).getD 0 = _
  rw [stream_advance]
  rfl

/-- **A stream filter gives the promised replies** as long as its bank has room for every
stream it is given. -/
theorem replies_eq (sf : StreamFilter) (calls : List HookCall)
    (hcalls : ∀ c ∈ calls, c.channels ≤ sf.bank.capacity) :
    PositionHook.replies sf calls = expectedReplies sf.stride calls := by
  induction calls generalizing sf with
  | nil => rfl
  | cons c calls ih =>
    have hrest : ∀ c ∈ calls, c.channels ≤ sf.bank.capacity :=
      fun c hc => hcalls c (List.mem_cons_of_mem _ hc)
    cases c with
    | prepare s =>
      cases hf : s.format? with
      | error e =>
        rw [replies_prepare_of_error sf hf, ih sf hrest]
        simp only [expectedReplies, hf]
      | ok format =>
        obtain ⟨sf', hstride, hcap, hreplies⟩ :=
          replies_prepare_of_ok sf hf (hcalls (.prepare s) (List.mem_cons_self ..)) calls
        rw [hreplies, ih sf' (by rw [hcap]; exact hrest), hstride]
        simp only [expectedReplies, hf]
    | pointer buffer pos =>
      obtain ⟨hstride, hcap⟩ := stride_pointer sf buffer pos
      rw [replies_pointer, ih _ (by rw [hcap]; exact hrest), hstride]
      rfl

end StreamFilter

/-- A fresh stream filter knows no stride yet. -/
@[simp] theorem StreamFilter.stride_make (maxChannels : Nat) (filter : FilterConfig) :
    (StreamFilter.make maxChannels filter).stride = 0 := rfl

/-- A fresh stream filter holds a section for each channel it may run. -/
@[simp] theorem StreamFilter.capacity_make (maxChannels : Nat) (filter : FilterConfig) :
    (StreamFilter.make maxChannels filter).bank.capacity = maxChannels := by
  simp [StreamFilter.make, FilterBank.make, FilterBank.capacity]

/-- **The two position hooks are interchangeable.** Driven by the same calls — prepares accepted
or refused in any order, and pointer queries on buffers of any length at any byte position,
before the first prepare too — a fresh bypass and a fresh stream filter whose bank has room for
every stream give the same replies, and both the ones the contract promises: a prepare is refused
exactly for an invalid format, with the format's error, and a pointer answers the frame of its
position under the stride of the last stream taken, zero before any. A position at or past the
end of the buffer answers zero, what the stream filter answers does not depend on its filtering,
and the bypass hands every buffer back untouched.

The hypothesis `hmem` says the filter's bank fits in a 64-bit address space, at four bytes a
section at the least, as every bank that exists does. It is needed: a bank of `2 ^ 62` sections
would take a stream whose frame overflows a machine word, where the bypass faults. -/
theorem hooks_interchangeable (maxChannels : Nat) (filter : FilterConfig) (calls : List HookCall)
    (hcalls : ∀ c ∈ calls, c.channels ≤ maxChannels) (hmem : 4 * maxChannels < 2 ^ 64) :
    PositionHook.replies ({} : Bypass) calls = expectedReplies 0 calls ∧
      PositionHook.replies (StreamFilter.make maxChannels filter) calls = expectedReplies 0 calls ∧
      (∀ length stride pos, length ≤ pos → bytesToFrames length stride pos = 0) ∧
      (∀ (sf : StreamFilter) (buffer : List UInt8) (pos : Nat),
        (sf.pointer buffer pos).1 = bytesToFrames buffer.length sf.stride pos) ∧
      (∀ (b : Bypass) (buffer : List UInt8) (pos : Nat),
        (PositionHook.pointer b buffer pos).2.2.1 = buffer) := by
  refine ⟨Bypass.replies_eq hmem {} calls hcalls, ?_, fun _ stride _ h => bytesToFrames_of_le stride h,
    StreamFilter.fst_pointer, Bypass.buffer_pointer⟩
  rw [StreamFilter.replies_eq _ calls (by simpa using hcalls), StreamFilter.stride_make]

/-- A stereo bank and a bypass, queried before any prepare, then given a mono 16-bit stream, a
stream of 17-bit samples in two-byte containers (refused) and queries inside, at the end of and
past an eight-byte buffer. -/
theorem stereo_hooks_interchangeable :
    (∀ c ∈ [HookCall.pointer (List.replicate 8 0) 6, .prepare ⟨1, 16, 2, 48000⟩,
        .pointer (List.replicate 8 0) 6, .prepare ⟨2, 17, 2, 48000⟩,
        .pointer (List.replicate 8 0) 8, .pointer (List.replicate 8 0) 9], c.channels ≤ 2) ∧
      4 * 2 < 2 ^ 64 ∧
      PositionHook.replies ({} : Bypass) [HookCall.pointer (List.replicate 8 0) 6,
          .prepare ⟨1, 16, 2, 48000⟩, .pointer (List.replicate 8 0) 6, .prepare ⟨2, 17, 2, 48000⟩,
          .pointer (List.replicate 8 0) 8, .pointer (List.replicate 8 0) 9] =
        PositionHook.replies (StreamFilter.make 2 {}) [HookCall.pointer (List.replicate 8 0) 6,
          .prepare ⟨1, 16, 2, 48000⟩, .pointer (List.replicate 8 0) 6, .prepare ⟨2, 17, 2, 48000⟩,
          .pointer (List.replicate 8 0) 8, .pointer (List.replicate 8 0) 9] := by
  obtain ⟨hb, hs, -⟩ := hooks_interchangeable 2 {} [HookCall.pointer (List.replicate 8 0) 6,
    .prepare ⟨1, 16, 2, 48000⟩, .pointer (List.replicate 8 0) 6, .prepare ⟨2, 17, 2, 48000⟩,
    .pointer (List.replicate 8 0) 8, .pointer (List.replicate 8 0) 9] (by decide) (by decide)
  exact ⟨by decide, by decide, hb.trans hs.symm⟩

end PcmBiquad
