import PcmBiquad.Stream.Filter
import PcmBiquad.Stream.Bypass
import PcmBiquad.Proofs.Frames
/-!
  Configuring a stream is all or nothing.

  `StreamFilter.configure` makes two checks before it touches anything — the sample format, then
  the bank's capacity — and `FilterBank.configure` makes the second one itself, again before
  writing. Both run in `InPlace`, where a refusal keeps whatever was changed before it, so that
  nothing was changed is a fact about the ORDER of their steps, not about their types.

  * `ConfigureRefusal` says, without the code, why a stream is refused: the format's own error,
    or, for a valid format, more channels than the bank holds.
  * `FilterBank.configure_eq_error_iff`, `StreamFilter.configure_eq_error_iff` — a refusal
    happens exactly for those reasons and leaves the object and the log as they were.
  * `StreamFilter.configure_eq_ok` — a success raises the bank's record and then the stream's,
    and leaves the channels activated under the full design, the cursor at zero.
  * `configure_fails_atomically` gathers these, with the two `prepare` hooks.

  What an accepted configuration leaves is `StreamFilter.Configured`: the stream remembered, its
  format valid, and a fresh section of the full design on every channel, whatever the sections
  held before (`configured_of_configure_eq_ok`).
-/

namespace PcmBiquad

/-- Why configuring for the stream `s` a stream filter whose bank holds `capacity` channels is
refused: the sample format's own refusal, or, when the format is valid, too many channels. -/
inductive ConfigureRefusal (capacity : Nat) (s : StreamConfig) : FilterError → Prop
  | format {e : FilterError} : s.format? = .error e → ConfigureRefusal capacity s e
  | channels {format : SampleFormat} : s.format? = .ok format → capacity < s.channels →
      ConfigureRefusal capacity s (.capacityExceeded s.channels capacity)

namespace FilterBank

/-- The bank refuses exactly when asked for more channels than it holds, and then neither the
bank nor the log has changed. -/
theorem configure_eq_error_iff (b : FilterBank) (log : List Event) (count : Nat)
    (format : SampleFormat) (params : FilterParams) (e : FilterError) (w : Logged FilterBank) :
    (configure count format params).run ⟨b, log⟩ = .error e w ↔
      w = ⟨b, log⟩ ∧ b.capacity < count ∧ e = .capacityExceeded count b.capacity := by
  rw [configure_run]
  by_cases h : count ≤ b.channels.length
  · have hcap : ¬b.capacity < count := by unfold capacity; omega
    simp only [dif_pos h, reduceCtorEq, false_iff, not_and]
    exact fun _ hlt => absurd hlt hcap
  · have hcap : b.capacity < count := by unfold capacity; omega
    simp only [dif_neg h, EStateM.Result.error.injEq, hcap, true_and]
    constructor
    · rintro ⟨rfl, rfl⟩
      exact ⟨rfl, rfl⟩
    · rintro ⟨rfl, rfl⟩
      exact ⟨rfl, rfl⟩

/-- A bank that accepts activates its channels and raises one record. -/
theorem configure_eq_ok {b : FilterBank} {log : List Event} {count : Nat} {format : SampleFormat}
    {params : FilterParams} {u : Unit} {w : Logged FilterBank}
    (hrun : (configure count format params).run ⟨b, log⟩ = .ok u w) :
    ∃ h : count ≤ b.channels.length, w = ⟨b.activate count format params h,
      log ++ [.bankConfigured count b.capacity format.depth format.bytes]⟩ := by
  rw [configure_run] at hrun
  by_cases h : count ≤ b.channels.length
  · simp only [dif_pos h, EStateM.Result.ok.injEq] at hrun
    exact ⟨h, hrun.2.symm⟩
  · simp only [dif_neg h, reduceCtorEq] at hrun

end FilterBank

namespace StreamFilter

/-- A stream filter refuses exactly for a `ConfigureRefusal`, and then neither the filter — its
bank, cursor, filter and stream — nor the log has changed. -/
theorem configure_eq_error_iff (sf : StreamFilter) (log : List Event) (s : StreamConfig)
    (filter : FilterConfig) (e : FilterError) (w : Logged StreamFilter) :
    (configure s filter).run ⟨sf, log⟩ = .error e w ↔
      w = ⟨sf, log⟩ ∧ ConfigureRefusal sf.bank.capacity s e := by
  rw [configure_run]
  cases hf : s.format? with
  | error e' =>
    simp only [EStateM.Result.error.injEq]
    constructor
    · rintro ⟨rfl, rfl⟩
      exact ⟨rfl, .format hf⟩
    · rintro ⟨rfl, hr⟩
      cases hr with
      | format h => exact ⟨by rw [hf] at h; cases h; rfl, rfl⟩
      | channels h _ => rw [hf] at h; cases h
  | ok format =>
    by_cases h : s.channels ≤ sf.bank.channels.length
    · have hcap : ¬sf.bank.capacity < s.channels := by unfold FilterBank.capacity; omega
      simp only [dif_pos h, reduceCtorEq, false_iff, not_and]
      rintro _ hr
      cases hr with
      | format h' => rw [hf] at h'; cases h'
      | channels _ hlt => exact hcap hlt
    · have hcap : sf.bank.capacity < s.channels := by unfold FilterBank.capacity; omega
      simp only [dif_neg h, EStateM.Result.error.injEq]
      constructor
      · rintro ⟨rfl, rfl⟩
        exact ⟨rfl, .channels hf hcap⟩
      · rintro ⟨rfl, hr⟩
        cases hr with
        | format h' => rw [hf] at h'; cases h'
        | channels _ _ => exact ⟨rfl, rfl⟩

/-- A stream filter that accepts has a valid format and room for the channels; it activates
them under the full design, rewinds the cursor, remembers stream and filter, and raises the
bank's record and then the stream's. -/
theorem configure_eq_ok {sf : StreamFilter} {log : List Event} {s : StreamConfig}
    {filter : FilterConfig} {u : Unit} {w : Logged StreamFilter}
    (hrun : (configure s filter).run ⟨sf, log⟩ = .ok u w) :
    ∃ format, s.format? = .ok format ∧ ∃ h : s.channels ≤ sf.bank.channels.length,
      w = ⟨⟨sf.bank.activate s.channels format
          (FilterParams.full filter.kind (Float32.ofNat s.rate) filter.cutoff) h, 0, filter, some s⟩,
        log ++ [.bankConfigured s.channels sf.bank.capacity format.depth format.bytes,
          .streamPrepared s.channels s.depth s.rate filter.kind filter.cutoff]⟩ := by
  rw [configure_run] at hrun
  cases hf : s.format? with
  | error e => simp only [hf, reduceCtorEq] at hrun
  | ok format =>
    simp only [hf] at hrun
    by_cases h : s.channels ≤ sf.bank.channels.length
    · simp only [dif_pos h, EStateM.Result.ok.injEq] at hrun
      exact ⟨format, rfl, h, hrun.2.symm⟩
    · simp only [dif_neg h, reduceCtorEq] at hrun

/-- Preparing through the hook refuses exactly when configuring with the current filter would,
with the same reason wrapped as a refusal, and then nothing has changed. -/
theorem hook_prepare_eq_error_iff (sf : StreamFilter) (log : List Event) (s : StreamConfig)
    (e : PrepareError) (w : Logged StreamFilter) :
    (PositionHook.prepare s : InPlace PrepareError StreamFilter Unit).run ⟨sf, log⟩ = .error e w ↔
      w = ⟨sf, log⟩ ∧ ∃ e', e = .refused e' ∧ ConfigureRefusal sf.bank.capacity s e' := by
  show (EStateM.adaptExcept PrepareError.refused (prepare s)).run ⟨sf, log⟩ = _ ↔ _
  rw [EStateM.run_adaptExcept, prepare_run]
  cases h : (configure s sf.filter).run ⟨sf, log⟩ with
  | ok u w' =>
    simp only [reduceCtorEq, false_iff, not_and, not_exists]
    rintro rfl e' - hr
    have := (configure_eq_error_iff sf log s sf.filter e' ⟨sf, log⟩).mpr ⟨rfl, hr⟩
    rw [h] at this
    cases this
  | error e' w' =>
    have hiff := configure_eq_error_iff sf log s sf.filter e' w'
    simp only [h, true_iff] at hiff
    obtain ⟨rfl, hr⟩ := hiff
    simp only [EStateM.Result.error.injEq]
    constructor
    · rintro ⟨rfl, rfl⟩
      exact ⟨rfl, e', rfl, hr⟩
    · rintro ⟨rfl, e'', rfl, hr'⟩
      refine ⟨?_, rfl⟩
      have h'' := (configure_eq_error_iff sf log s sf.filter e'' ⟨sf, log⟩).mpr ⟨rfl, hr'⟩
      rw [h] at h''
      cases h''
      rfl

end StreamFilter

/-! ## What an accepted configuration leaves -/

/-- Touching the first `n` sections is mapping over them and keeping the rest. -/
theorem FilterBank.mapFirst_eq (f : Biquad → Biquad) (n : Nat) (chs : List Biquad) :
    FilterBank.mapFirst f n chs = (chs.take n).map f ++ chs.drop n := by
  induction n generalizing chs with
  | zero => simp [FilterBank.mapFirst]
  | succ n ih => cases chs <;> simp [FilterBank.mapFirst, ih]

/-- A full reconfiguration followed by a reset leaves a fresh section of that design, whatever
the section was before. -/
theorem Biquad.reset_reconfigure_full (ch : Biquad) (kind : FilterKind) (rate cutoff : Float32) :
    (ch.reconfigure (.full kind rate cutoff)).reset = Biquad.make kind rate cutoff :=
  Biquad.reset_reconfigure ch _

/-- Activating `n` channels under a full design runs `n` fresh sections of it and keeps the other
sections idle. -/
theorem FilterBank.activate_full_running (b : FilterBank) (n : Nat) (format : SampleFormat)
    (kind : FilterKind) (rate cutoff : Float32) (h : n ≤ b.channels.length) :
    (b.activate n format (.full kind rate cutoff) h).Running format
      (List.replicate n (Biquad.make kind rate cutoff)) (b.channels.drop n) where
  format_eq := rfl
  channels_eq := by
    simp only [activate, mapFirst_eq, Biquad.reset_reconfigure_full, List.map_const',
      List.length_take, Nat.min_eq_left h]
  active_eq := by simp [activate]

/-- The sample format of a stream has the stream's container width. -/
theorem StreamConfig.bytes_of_format?_eq_ok {s : StreamConfig} {format : SampleFormat}
    (h : s.format? = .ok format) : format.bytes = s.bytes := by
  unfold StreamConfig.format? SampleFormat.make? at h
  split at h
  · split at h
    · cases h
      rfl
    · cases h
  · cases h

/-- A stream filter configured for the stream `s`, whose samples have the format `format`: its
bank filters through the sections `live`, one for each channel of the stream, and holds the
sections `idle` beyond them. -/
structure StreamFilter.Configured (sf : StreamFilter) (s : StreamConfig) (format : SampleFormat)
    (live idle : List Biquad) : Prop where
  stream_eq : sf.stream = some s
  format_eq : s.format? = .ok format
  running : sf.bank.Running format live idle
  length_live : live.length = s.channels

/-- The live sections of a configured filter fill exactly one frame of the stream. -/
theorem StreamFilter.Configured.stride_eq {sf : StreamFilter} {s : StreamConfig}
    {format : SampleFormat} {live idle : List Biquad} (hc : sf.Configured s format live idle) :
    live.length * format.bytes = s.stride := by
  rw [hc.length_live, StreamConfig.bytes_of_format?_eq_ok hc.format_eq]
  rfl

/-- **After an accepted configuration** the filter runs, on every channel of the stream, a fresh
section of the full design — the filter's kind and cutoff at the stream's rate — whatever the
sections, the cursor and the stream were before; the cursor is at zero and the filter is the
one given. -/
theorem StreamFilter.configured_of_configure_eq_ok {sf : StreamFilter} {log : List Event}
    {s : StreamConfig} {filter : FilterConfig} {u : Unit} {w : Logged StreamFilter}
    (hrun : (configure s filter).run ⟨sf, log⟩ = .ok u w) :
    ∃ format, w.obj.Configured s format
        (List.replicate s.channels (Biquad.make filter.kind (Float32.ofNat s.rate) filter.cutoff))
        (sf.bank.channels.drop s.channels) ∧
      w.obj.cursor = 0 ∧ w.obj.filter = filter := by
  obtain ⟨format, hf, h, rfl⟩ := configure_eq_ok hrun
  exact ⟨format, ⟨rfl, hf, FilterBank.activate_full_running _ _ _ _ _ _ h, by simp⟩, rfl, rfl⟩

/-- The bypass hook refuses an invalid format with the format's own error, before it computes
or stores anything. -/
theorem Bypass.hook_prepare_of_format_error (b : Bypass) (log : List Event) {s : StreamConfig}
    {e : FilterError} (hf : s.format? = .error e) :
    (PositionHook.prepare s : InPlace PrepareError Bypass Unit).run ⟨b, log⟩ =
      .error (.refused e) ⟨b, log⟩ := by
  show (Bypass.prepare s).run ⟨b, log⟩ = _
  rw [Bypass.prepare_run, hf]

/-- **Configuration fails atomically.** A stream filter refuses a configuration exactly for a
bad sample format (with the format's error) or, the format being valid, for more channels than
its bank holds; a refusal leaves the whole filter and the log as they were, and an acceptance
raises exactly the bank's record and then the stream's, both at debug level. The bank's own
configure refuses exactly for too many channels, preparing through the stream filter's hook
refuses exactly as configuring would, and the bypass hook refuses a bad format; each refusal
changes nothing. -/
theorem configure_fails_atomically (sf : StreamFilter) (bank : FilterBank) (bypass : Bypass)
    (log : List Event) (s : StreamConfig) (filter : FilterConfig) (count : Nat)
    (format : SampleFormat) (params : FilterParams) :
    (∀ e w, (StreamFilter.configure s filter).run ⟨sf, log⟩ = .error e w ↔
      w = ⟨sf, log⟩ ∧ ConfigureRefusal sf.bank.capacity s e) ∧
    (∀ u w, (StreamFilter.configure s filter).run ⟨sf, log⟩ = .ok u w →
      ∃ fmt, s.format? = .ok fmt ∧
        w.log = log ++ [.bankConfigured s.channels sf.bank.capacity fmt.depth fmt.bytes,
          .streamPrepared s.channels s.depth s.rate filter.kind filter.cutoff] ∧
        (w.log.drop log.length).map Event.level = [.debug, .debug]) ∧
    (∀ e w, (FilterBank.configure count format params).run ⟨bank, log⟩ = .error e w ↔
      w = ⟨bank, log⟩ ∧ bank.capacity < count ∧ e = .capacityExceeded count bank.capacity) ∧
    (∀ e w, (PositionHook.prepare s : InPlace PrepareError StreamFilter Unit).run ⟨sf, log⟩ =
        .error e w ↔
      w = ⟨sf, log⟩ ∧ ∃ e', e = .refused e' ∧ ConfigureRefusal sf.bank.capacity s e') ∧
    (∀ e, s.format? = .error e →
      (PositionHook.prepare s : InPlace PrepareError Bypass Unit).run ⟨bypass, log⟩ =
        .error (.refused e) ⟨bypass, log⟩) := by
  refine ⟨StreamFilter.configure_eq_error_iff sf log s filter, ?_,
    FilterBank.configure_eq_error_iff bank log count format params,
    StreamFilter.hook_prepare_eq_error_iff sf log s,
    fun e hf => Bypass.hook_prepare_of_format_error bypass log hf⟩
  intro u w hrun
  obtain ⟨fmt, hf, -, rfl⟩ := StreamFilter.configure_eq_ok hrun
  exact ⟨fmt, hf, rfl, by simp [Event.level]⟩

end PcmBiquad
