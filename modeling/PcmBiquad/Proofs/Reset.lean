import PcmBiquad.Proofs.Session
/-!
  An accepted configuration forgets everything before it.

  `StreamFilter.configure` puts a fresh section of the full design on every channel of the
  stream and rewinds the cursor, so what a stream filter does afterwards depends only on the
  configuration and on how many sections its bank holds — not on the sections' histories, on
  sections overridden by hand, on the cursor or on the stream before.

  Two stream filters in that position are `Twins`: of equal capacity, at the same cursor with
  the same filter, configured for the same stream with the same live sections; their idle
  sections may hold anything. Twins answer every call alike and stay twins (`call_twins`), on
  whatever buffer the call is made.

  The stream layer makes its calls as `Request`s: a catch-up brings the ring buffer as it is at
  that moment, which the hardware may have rewritten since the last call. `StreamFilter.serve`
  makes such requests in turn, and `serve_twins` carries `call_twins` through them: twins show
  the same at every request and end twins (`session_twins` is the same along one buffer handed
  from call to call). `configure_is_complete_reset` puts this together: after one accepted
  configuration, any two filters of equal capacity are twins, stay twins through any requests,
  and configuring again changes nothing.
-/

namespace PcmBiquad

/-- A bank is determined by its format and by the sections it runs and holds. -/
theorem FilterBank.Running.bank_eq {b₁ b₂ : FilterBank} {format : SampleFormat}
    {live idle : List Biquad} (h₁ : b₁.Running format live idle)
    (h₂ : b₂.Running format live idle) : b₁ = b₂ := by
  obtain ⟨chs₁, active₁, format₁, _⟩ := b₁
  obtain ⟨chs₂, active₂, format₂, _⟩ := b₂
  have hchs : chs₁ = chs₂ := h₁.channels_eq.trans h₂.channels_eq.symm
  have hactive : active₁ = active₂ := h₁.active_eq.trans h₂.active_eq.symm
  have hformat : format₁ = format₂ := h₁.format_eq.trans h₂.format_eq.symm
  subst hchs hactive hformat
  rfl

namespace StreamFilter

/-- Two stream filters that no later call can tell apart: of equal capacity, at the same cursor
with the same filter, and configured for the same stream and format with the same live sections;
their idle sections may differ. -/
structure Twins (sf₁ sf₂ : StreamFilter) : Prop where
  capacity_eq : sf₁.bank.capacity = sf₂.bank.capacity
  cursor_eq : sf₁.cursor = sf₂.cursor
  filter_eq : sf₁.filter = sf₂.filter
  configured : ∃ s format live idle₁ idle₂,
    sf₁.Configured s format live idle₁ ∧ sf₂.Configured s format live idle₂

/-- Configuring replies, changes and reports as its run does, the events starting afresh. -/
theorem settle_configure (sf : StreamFilter) (s : StreamConfig) (filter : FilterConfig) :
    settle (configure s filter) sf =
      match s.format? with
      | .error e => (.refused e, sf, [])
      | .ok format =>
        if h : s.channels ≤ sf.bank.channels.length then
          (.done, ⟨sf.bank.activate s.channels format
              (.full filter.kind (Float32.ofNat s.rate) filter.cutoff) h, 0, filter, some s⟩,
            [.bankConfigured s.channels sf.bank.capacity format.depth format.bytes,
              .streamPrepared s.channels s.depth s.rate filter.kind filter.cutoff])
        else (.refused (.capacityExceeded s.channels sf.bank.capacity), sf, []) := by
  unfold settle
  rw [configure_run]
  cases s.format? with
  | error e => rfl
  | ok format =>
    by_cases h : s.channels ≤ sf.bank.channels.length
    · simp only [dif_pos h, List.nil_append]
    · simp only [dif_neg h]

/-- Preparing is configuring with the filter already held. -/
theorem settle_prepare (sf : StreamFilter) (s : StreamConfig) :
    settle (prepare s) sf = settle (configure s sf.filter) sf := by
  unfold settle
  rw [prepare_run]

/-- A configured filter holds a section for each channel of the stream and its idle ones. -/
theorem Configured.capacity_eq {sf : StreamFilter} {s : StreamConfig} {format : SampleFormat}
    {live idle : List Biquad} (hc : sf.Configured s format live idle) :
    sf.bank.capacity = s.channels + idle.length := by
  rw [FilterBank.capacity, hc.running.channels_eq, List.length_append, hc.length_live]

/-- A query keeps the filter. -/
theorem filter_call_query (sf : StreamFilter) (buffer : List UInt8) (q : Query) :
    (sf.call buffer (.query q)).2.1.filter = sf.filter := by
  rw [snd_call_query]
  unfold advance
  split <;> rfl

variable {sf₁ sf₂ : StreamFilter}

/-- The same configuration accepted on two filters of equal capacity leaves twins. -/
theorem twins_activate (hcap : sf₁.bank.capacity = sf₂.bank.capacity) {s : StreamConfig}
    {format : SampleFormat} (hfmt : s.format? = .ok format) (filter : FilterConfig)
    (h₁ : s.channels ≤ sf₁.bank.channels.length) (h₂ : s.channels ≤ sf₂.bank.channels.length) :
    Twins ⟨sf₁.bank.activate s.channels format
        (.full filter.kind (Float32.ofNat s.rate) filter.cutoff) h₁, 0, filter, some s⟩
      ⟨sf₂.bank.activate s.channels format
        (.full filter.kind (Float32.ofNat s.rate) filter.cutoff) h₂, 0, filter, some s⟩ where
  capacity_eq := by
    simpa only [FilterBank.capacity, FilterBank.activate, FilterBank.length_mapFirst] using hcap
  cursor_eq := rfl
  filter_eq := rfl
  configured :=
    ⟨s, format, _, _, _,
      ⟨rfl, hfmt, FilterBank.activate_full_running _ _ _ _ _ _ h₁, List.length_replicate⟩,
      ⟨rfl, hfmt, FilterBank.activate_full_running _ _ _ _ _ _ h₂, List.length_replicate⟩⟩

/-- Two filters of equal capacity configure alike: the same reply and the same events, and
afterwards they are twins if the configuration was accepted and both as they were if not. -/
theorem settle_configure_alike (hcap : sf₁.bank.capacity = sf₂.bank.capacity)
    (s : StreamConfig) (filter : FilterConfig) :
    (settle (configure s filter) sf₁).1 = (settle (configure s filter) sf₂).1 ∧
      (settle (configure s filter) sf₁).2.2 = (settle (configure s filter) sf₂).2.2 ∧
      (Twins (settle (configure s filter) sf₁).2.1 (settle (configure s filter) sf₂).2.1 ∨
        (settle (configure s filter) sf₁).2.1 = sf₁ ∧ (settle (configure s filter) sf₂).2.1 = sf₂) := by
  -- the capacity is the number of sections, which is all the refusal looks at
  have hlen : sf₁.bank.channels.length = sf₂.bank.channels.length := hcap
  rw [settle_configure, settle_configure]
  cases hfmt : s.format? with
  | error e => exact ⟨rfl, rfl, .inr ⟨rfl, rfl⟩⟩
  | ok format =>
    by_cases h₁ : s.channels ≤ sf₁.bank.channels.length
    · have h₂ : s.channels ≤ sf₂.bank.channels.length := hlen ▸ h₁
      dsimp only
      rw [dif_pos h₁, dif_pos h₂]
      exact ⟨rfl, by rw [hcap], .inl (twins_activate hcap hfmt filter h₁ h₂)⟩
    · have h₂ : ¬ s.channels ≤ sf₂.bank.channels.length := hlen ▸ h₁
      dsimp only
      rw [dif_neg h₁, dif_neg h₂]
      exact ⟨by rw [hcap], rfl, .inr ⟨rfl, rfl⟩⟩

/-- Twins answer a query alike, leave the same buffer, report the same events and stay twins:
the pass, the cursor's move and the region all depend on the cursor and the live sections
alone. -/
theorem call_query_twins (ht : Twins sf₁ sf₂) (buffer : List UInt8) (q : Query) :
    (sf₁.call buffer (.query q)).1 = (sf₂.call buffer (.query q)).1 ∧
      (sf₁.call buffer (.query q)).2.2 = (sf₂.call buffer (.query q)).2.2 ∧
      Twins (sf₁.call buffer (.query q)).2.1 (sf₂.call buffer (.query q)).2.1 := by
  obtain ⟨s, format, live, idle₁, idle₂, hc₁, hc₂⟩ := ht.configured
  obtain ⟨hbuf₁, hc₁', hcur₁, hev₁⟩ := call_query_eq hc₁ buffer q
  obtain ⟨hbuf₂, hc₂', hcur₂, hev₂⟩ := call_query_eq hc₂ buffer q
  rw [← ht.cursor_eq] at hbuf₂ hc₂' hcur₂ hev₂
  refine ⟨?reply, Prod.ext (hbuf₁.trans hbuf₂.symm) (hev₁.trans hev₂.symm), ?twins⟩
  case reply =>
    -- a pointer reply counts frames of the stream's stride, the same on both
    cases q with
    | advance frame => rfl
    | pointer byte =>
      show Reply.frames (bytesToFrames buffer.length sf₁.stride byte) =
        .frames (bytesToFrames buffer.length sf₂.stride byte)
      rw [stride_of_configured hc₁, stride_of_configured hc₂]
  case twins =>
    -- catching up moves sections between histories, never between live and idle
    have hidle : idle₁.length = idle₂.length := by
      have := ht.capacity_eq
      rw [hc₁.capacity_eq, hc₂.capacity_eq] at this
      omega
    refine ⟨?_, hcur₁.trans hcur₂.symm, ?_, ⟨s, format, _, idle₁, idle₂, hc₁', hc₂'⟩⟩
    · rw [hc₁'.capacity_eq, hc₂'.capacity_eq, hidle]
    · rw [filter_call_query, filter_call_query, ht.filter_eq]

/-- Preparing through a call is configuring with the filter already held. -/
theorem call_prepare (sf : StreamFilter) (buffer : List UInt8) (s : StreamConfig) :
    sf.call buffer (.prepare s) = sf.call buffer (.configure s sf.filter) := by
  simp only [call, settle_prepare]

/-- Twins configure alike and stay twins; see `settle_configure_alike`. -/
theorem call_configure_twins (ht : Twins sf₁ sf₂) (buffer : List UInt8) (s : StreamConfig)
    (filter : FilterConfig) :
    (sf₁.call buffer (.configure s filter)).1 = (sf₂.call buffer (.configure s filter)).1 ∧
      (sf₁.call buffer (.configure s filter)).2.2 = (sf₂.call buffer (.configure s filter)).2.2 ∧
      Twins (sf₁.call buffer (.configure s filter)).2.1 (sf₂.call buffer (.configure s filter)).2.1 := by
  obtain ⟨hreply, hevents, hafter⟩ := settle_configure_alike ht.capacity_eq s filter
  refine ⟨hreply, Prod.ext rfl hevents, ?_⟩
  rcases hafter with htwins | ⟨h₁, h₂⟩
  · exact htwins
  · -- refused: both are as they were, twins still
    show Twins (settle (configure s filter) sf₁).2.1 (settle (configure s filter) sf₂).2.1
    rw [h₁, h₂]
    exact ht

/-- Twins answer every call alike — the same reply, buffer and events — and stay twins. -/
theorem call_twins (ht : Twins sf₁ sf₂) (buffer : List UInt8) (c : Call) :
    (sf₁.call buffer c).1 = (sf₂.call buffer c).1 ∧
      (sf₁.call buffer c).2.2 = (sf₂.call buffer c).2.2 ∧
      Twins (sf₁.call buffer c).2.1 (sf₂.call buffer c).2.1 := by
  cases c with
  | query q => exact call_query_twins ht buffer q
  | prepare s =>
    rw [call_prepare, call_prepare, ← ht.filter_eq]
    exact call_configure_twins ht buffer s sf₁.filter
  | configure s filter => exact call_configure_twins ht buffer s filter

/-- Twins show the same through any session — each call's reply, buffer, cursor and events —
and end it twins, with the same buffer. -/
theorem session_twins (ht : Twins sf₁ sf₂) (buffer : List UInt8) (calls : List Call) :
    (sf₁.session buffer calls).1 = (sf₂.session buffer calls).1 ∧
      (sf₁.session buffer calls).2.2 = (sf₂.session buffer calls).2.2 ∧
      Twins (sf₁.session buffer calls).2.1 (sf₂.session buffer calls).2.1 := by
  induction calls generalizing sf₁ sf₂ buffer with
  | nil => exact ⟨rfl, rfl, ht⟩
  | cons c cs ih =>
    obtain ⟨hreply, hrest, ht'⟩ := call_twins ht buffer c
    obtain ⟨hbuf, hevents⟩ := Prod.ext_iff.mp hrest
    obtain ⟨hseen, hfinal, htfinal⟩ := ih ht' (sf₁.call buffer c).2.2.1
    rw [session_cons, session_cons]
    -- the rest of the session starts from the same buffer on both
    rw [hbuf] at hseen hfinal htfinal ⊢
    refine ⟨?_, hfinal, htfinal⟩
    show (_ :: _) = (_ :: _)
    rw [hreply, hevents, ht'.cursor_eq, hseen]

/-! ## Requests, each with the buffer of its moment -/

/-- A call the stream layer makes on a stream filter. A catch-up brings the ring buffer as it is
at that moment: the hardware may have rewritten it since the previous call. -/
inductive Request where
  /-- Catch up with a frame position in this buffer. -/
  | advance (buffer : List UInt8) (frame : Nat)
  /-- Report a byte position of this buffer in frames, catching up with it on the way. -/
  | pointer (buffer : List UInt8) (byte : Nat)
  /-- Take the shape of a stream, keeping the filter held. -/
  | prepare (s : StreamConfig)
  /-- Take the shape of a stream and a filter. -/
  | configure (s : StreamConfig) (filter : FilterConfig)

/-- The buffer a request brings; a configuration brings none. -/
def Request.buffer : Request → List UInt8
  | .advance buffer _ | .pointer buffer _ => buffer
  | .prepare _ | .configure .. => []

/-- The call a request makes. -/
def Request.call : Request → Call
  | .advance _ frame => .query (.advance frame)
  | .pointer _ byte => .query (.pointer byte)
  | .prepare s => .prepare s
  | .configure s filter => .configure s filter

/-- Serves the requests in order, each on the buffer it brings: what each shows — its reply, the
buffer as the call leaves it, the cursor and the events — and the filter after the last. -/
def serve (sf : StreamFilter) : List Request → List Observation × StreamFilter
  | [] => ([], sf)
  | r :: rs =>
    let (reply, sf', buffer', events) := sf.call r.buffer r.call
    let (seen, sf'') := serve sf' rs
    (⟨reply, buffer', sf'.cursor, events⟩ :: seen, sf'')

/-- One request, then the others. -/
theorem serve_cons (sf : StreamFilter) (r : Request) (rs : List Request) :
    sf.serve (r :: rs) =
      (⟨(sf.call r.buffer r.call).1, (sf.call r.buffer r.call).2.2.1,
          (sf.call r.buffer r.call).2.1.cursor, (sf.call r.buffer r.call).2.2.2⟩ ::
          ((sf.call r.buffer r.call).2.1.serve rs).1,
        ((sf.call r.buffer r.call).2.1.serve rs).2) := rfl

/-- Twins served the same requests show the same at each — reply, buffer, cursor and events —
and end twins. -/
theorem serve_twins (ht : Twins sf₁ sf₂) (requests : List Request) :
    (sf₁.serve requests).1 = (sf₂.serve requests).1 ∧
      Twins (sf₁.serve requests).2 (sf₂.serve requests).2 := by
  induction requests generalizing sf₁ sf₂ with
  | nil => exact ⟨rfl, ht⟩
  | cons r rs ih =>
    -- the first request is one call on the buffer it brings; the twins it leaves serve the rest
    obtain ⟨hreply, hrest, ht'⟩ := call_twins ht r.buffer r.call
    obtain ⟨hbuf, hevents⟩ := Prod.ext_iff.mp hrest
    obtain ⟨hseen, htfinal⟩ := ih ht'
    rw [serve_cons, serve_cons]
    refine ⟨?_, htfinal⟩
    show (_ :: _) = (_ :: _)
    rw [hreply, hbuf, hevents, ht'.cursor_eq, hseen]

/-- Configuring again as last accepted changes nothing but the log. -/
theorem configure_again {sf : StreamFilter} {log : List Event} {s : StreamConfig}
    {filter : FilterConfig} {u : Unit} {w : Logged StreamFilter}
    (hconf : (configure s filter).run ⟨sf, log⟩ = .ok u w) (log' : List Event) :
    ∃ events, (configure s filter).run ⟨w.obj, log'⟩ = .ok () ⟨w.obj, log' ++ events⟩ := by
  obtain ⟨format, hfmt, h, rfl⟩ := configure_eq_ok hconf
  have hfirst := FilterBank.activate_full_running sf.bank s.channels format filter.kind
    (Float32.ofNat s.rate) filter.cutoff h
  have h' : s.channels ≤ (sf.bank.activate s.channels format
      (.full filter.kind (Float32.ofNat s.rate) filter.cutoff) h).channels.length := by
    simpa only [FilterBank.activate, FilterBank.length_mapFirst] using h
  -- the second activation finds the fresh sections the first left, and the same idle ones
  have hsecond := FilterBank.activate_full_running _ s.channels format filter.kind
    (Float32.ofNat s.rate) filter.cutoff h'
  rw [hfirst.channels_eq, List.drop_left' List.length_replicate] at hsecond
  refine ⟨?events, ?run⟩
  case run =>
    rw [configure_run, hfmt]
    dsimp only
    rw [dif_pos h', hsecond.bank_eq hfirst]

end StreamFilter

/-- **An accepted configuration is a complete reset.** Configure two stream filters of equal
capacity for the same stream and filter — in any states, whatever their sections' histories and
overrides, their cursors and their streams. If one accepts, so does the other, and the two are
twins: from then on no requests — catch-ups on whatever buffers, preparations, configurations —
tell them apart. Every request gives the same reply, leaves its buffer the same, puts the cursor
in the same place and raises the same events, and afterwards the two are twins still.
Configuring once more changes nothing but the log. -/
theorem configure_is_complete_reset {sf₁ sf₂ : StreamFilter} {log₁ : List Event}
    {s : StreamConfig} {filter : FilterConfig} {u : Unit} {w₁ : Logged StreamFilter}
    (hcap : sf₁.bank.capacity = sf₂.bank.capacity)
    (hconf : (StreamFilter.configure s filter).run ⟨sf₁, log₁⟩ = .ok u w₁) (log₂ : List Event) :
    (∃ w₂, (StreamFilter.configure s filter).run ⟨sf₂, log₂⟩ = .ok () w₂ ∧
      StreamFilter.Twins w₁.obj w₂.obj ∧
      ∀ requests, (w₁.obj.serve requests).1 = (w₂.obj.serve requests).1 ∧
        StreamFilter.Twins (w₁.obj.serve requests).2 (w₂.obj.serve requests).2) ∧
      ∀ log, ∃ events,
        (StreamFilter.configure s filter).run ⟨w₁.obj, log⟩ = .ok () ⟨w₁.obj, log ++ events⟩ := by
  refine ⟨?_, StreamFilter.configure_again hconf⟩
  obtain ⟨format, hfmt, h₁, rfl⟩ := StreamFilter.configure_eq_ok hconf
  have h₂ : s.channels ≤ sf₂.bank.channels.length := by
    have hlen : sf₁.bank.channels.length = sf₂.bank.channels.length := hcap
    omega
  -- the other filter accepts too, and the two are twins from then on
  have hrun₂ := StreamFilter.configure_run sf₂ log₂ s filter
  rw [hfmt] at hrun₂
  dsimp only at hrun₂
  rw [dif_pos h₂] at hrun₂
  have htwins := StreamFilter.twins_activate hcap hfmt filter h₁ h₂
  exact ⟨_, hrun₂, htwins, StreamFilter.serve_twins htwins⟩

/-- A fresh high-pass filter and a fresh low-pass one, of two channels each, both configured for a
stereo 16-bit stream with the default filter. -/
theorem stereo_configure_is_complete_reset :
    (StreamFilter.make 2).bank.capacity = (StreamFilter.make 2 ⟨.lowPass, 1000⟩).bank.capacity ∧
      (StreamFilter.configure ⟨2, 16, 2, 48000⟩ {}).run ⟨StreamFilter.make 2, []⟩ =
        .ok () ⟨⟨(StreamFilter.make 2).bank.activate 2
            ⟨2, 16, by decide, by decide, by decide, by decide⟩
            (.full .highPass (Float32.ofNat 48000) 300) (by decide), 0, {}, some ⟨2, 16, 2, 48000⟩⟩,
          [.bankConfigured 2 2 16 2, .streamPrepared 2 16 48000 .highPass 300]⟩ ∧
      ∃ w₂, (StreamFilter.configure ⟨2, 16, 2, 48000⟩ {}).run
          ⟨StreamFilter.make 2 ⟨.lowPass, 1000⟩, []⟩ = .ok () w₂ ∧
        ∀ requests,
          (StreamFilter.serve ⟨(StreamFilter.make 2).bank.activate 2
              ⟨2, 16, by decide, by decide, by decide, by decide⟩
              (.full .highPass (Float32.ofNat 48000) 300) (by decide), 0, {}, some ⟨2, 16, 2, 48000⟩⟩
            requests).1 = (w₂.obj.serve requests).1 := by
  refine ⟨?capacity, ?configured, (configure_is_complete_reset ?capacity ?configured []).1.imp
    fun w₂ h => ⟨h.1, fun requests => (h.2.2 requests).1⟩⟩
  case capacity => simp [StreamFilter.make, FilterBank.make, FilterBank.capacity]
  case configured =>
    rw [StreamFilter.configure_run]
    rfl

end PcmBiquad
