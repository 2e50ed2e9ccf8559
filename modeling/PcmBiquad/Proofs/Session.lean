import Mathlib
import PcmBiquad.Proofs.Configure
/-!
  A stream filter driven by the stream layer, call after call, on one ring buffer.

  The stream layer asks for positions (`Query`): `advance` to a frame, or `pointer` at a byte,
  which is turned into a frame first. Each query filters the frames between the cursor and that
  position and leaves the rest for later, so a buffer is filtered in pieces, one cyclic interval
  per query. The main result, `queries_filter_as_one_pass`, says the pieces add up: after any
  accepted configuration, any sequence of queries leaves the buffer exactly as ONE sequential
  pass over the concatenated intervals (`visitsFrom`) would, with a fresh section per channel
  carried through every visit, and every byte outside the visited frames untouched.

  The induction is over the queries. Its invariant is `StreamFilter.Configured` together with a
  cursor inside the ring: one query passes over `cyclicInterval` from the cursor
  (`call_query_eq`), and the cursor lands on the target reduced, where the next interval starts.
-/

namespace PcmBiquad

/-- A position query the stream layer makes on its ring buffer. -/
inductive Query where
  /-- Catch up with a frame position. -/
  | advance (frame : Nat)
  /-- Report a byte position in frames, catching up with it on the way. -/
  | pointer (byte : Nat)

/-- The frame position a query catches up with, in a buffer of `length` bytes whose frames are
`stride` bytes apart. -/
def Query.target (length stride : Nat) : Query → Nat
  | .advance frame => frame
  | .pointer byte => bytesToFrames length stride byte

/-- A call the stream layer makes on a stream filter. -/
inductive Call where
  | query (q : Query)
  | prepare (s : StreamConfig)
  | configure (s : StreamConfig) (filter : FilterConfig)

/-- What a call answers: nothing, a frame position, or a refusal. -/
inductive Reply where
  | done
  | frames (n : Nat)
  | refused (e : FilterError)
  deriving DecidableEq

/-- What the stream layer sees of a call: its reply, the buffer and the cursor after it, and the
events it raised. -/
structure Observation where
  reply : Reply
  buffer : List UInt8
  cursor : Nat
  events : List Event

/-- The whole frames of `stride` bytes in a buffer of `length` bytes; none for a zero stride. -/
def ringFrames (length stride : Nat) : Nat := if stride = 0 then 0 else length / stride

/-- A frame of the ring lies inside the buffer. -/
theorem succ_mul_le_of_lt_ringFrames {length stride v : Nat} (hv : v < ringFrames length stride) :
    (v + 1) * stride ≤ length := by
  unfold ringFrames at hv
  split at hv
  · omega
  · exact Nat.le_trans (Nat.mul_le_mul_right _ hv) (Nat.div_mul_le_self _ _)

/-- The frames visited by catching up with the positions `hs` in turn, on a ring of `n` frames,
from position `c`: each leg is the cyclic interval from the previous position, reduced. -/
def visitsFrom (n : Nat) : Nat → List Nat → List Nat
  | _, [] => []
  | c, h :: hs => cyclicInterval n c h ++ visitsFrom n (h % n) hs

/-- On an empty ring nothing is ever visited. -/
@[simp] theorem visitsFrom_zero (c : Nat) (hs : List Nat) : visitsFrom 0 c hs = [] := by
  induction hs generalizing c with
  | nil => rfl
  | cons h hs ih => simp [visitsFrom, ih]

/-- Every visited frame is a frame of the ring. -/
theorem lt_of_mem_visitsFrom {n c v : Nat} {hs : List Nat} (hv : v ∈ visitsFrom n c hs) : v < n := by
  induction hs generalizing c with
  | nil => cases hv
  | cons h hs ih =>
    rcases List.mem_append.mp hv with hv | hv
    · exact lt_of_mem_cyclicInterval hv
    · exact ih hv

namespace StreamFilter

/-- Runs an in-place configuration on `sf`: done or refused, with the filter as the call left it
and the events it raised. -/
def settle (m : InPlace FilterError StreamFilter Unit) (sf : StreamFilter) :
    Reply × StreamFilter × List Event :=
  match m.run ⟨sf, []⟩ with
  | .ok _ w => (.done, w.obj, w.log)
  | .error e w => (.refused e, w.obj, w.log)

/-- Makes one call with the ring buffer `buffer`: the reply, the filter and the buffer after,
and the events raised. -/
def call (sf : StreamFilter) (buffer : List UInt8) : Call → Reply × StreamFilter × List UInt8 × List Event
  | .query (.advance frame) =>
    let (sf', buffer', events) := sf.advance buffer frame
    (.done, sf', buffer', events)
  | .query (.pointer byte) =>
    let (frames, sf', buffer', events) := sf.pointer buffer byte
    (.frames frames, sf', buffer', events)
  | .prepare s =>
    let (reply, sf', events) := settle (prepare s) sf
    (reply, sf', buffer, events)
  | .configure s filter =>
    let (reply, sf', events) := settle (configure s filter) sf
    (reply, sf', buffer, events)

/-- Makes the calls in order: what each shows, and the filter and the buffer after the last. -/
def session (sf : StreamFilter) (buffer : List UInt8) :
    List Call → List Observation × StreamFilter × List UInt8
  | [] => ([], sf, buffer)
  | c :: cs =>
    let (reply, sf', buffer', events) := sf.call buffer c
    let (seen, sf'', buffer'') := session sf' buffer' cs
    (⟨reply, buffer', sf'.cursor, events⟩ :: seen, sf'', buffer'')

/-- One call, then the others. -/
theorem session_cons (sf : StreamFilter) (buffer : List UInt8) (c : Call) (cs : List Call) :
    sf.session buffer (c :: cs) =
      (⟨(sf.call buffer c).1, (sf.call buffer c).2.2.1, (sf.call buffer c).2.1.cursor,
          (sf.call buffer c).2.2.2⟩ ::
          ((sf.call buffer c).2.1.session (sf.call buffer c).2.2.1 cs).1,
        ((sf.call buffer c).2.1.session (sf.call buffer c).2.2.1 cs).2) := rfl

variable {sf : StreamFilter} {s : StreamConfig} {format : SampleFormat} {live idle : List Biquad}

/-- A configured filter frames its ring with the stream's stride. -/
theorem stride_of_configured (hc : sf.Configured s format live idle) : sf.stride = s.stride := by
  simp [stride, hc.stream_eq]

/-- A configured filter catches up with a frame position by the pass over the cyclic interval
from its cursor, sizing the ring by the buffer; it stays configured with the sections that
result, its cursor moves as the ring processor moves it, and it reports the region it filters. -/
theorem advance_eq_pass (hc : sf.Configured s format live idle) (buffer : List UInt8) (hw : Nat) :
    (sf.advance buffer hw).2.1 = (format.sequentialPass s.stride
        (cyclicInterval (ringFrames buffer.length s.stride) sf.cursor hw) buffer live).1 ∧
      (sf.advance buffer hw).1.Configured s format (format.sequentialPass s.stride
        (cyclicInterval (ringFrames buffer.length s.stride) sf.cursor hw) buffer live).2 idle ∧
      (sf.advance buffer hw).1.cursor =
        (if ringFrames buffer.length s.stride = 0 ∨
            sf.cursor % ringFrames buffer.length s.stride = hw % ringFrames buffer.length s.stride
          then sf.cursor else hw % ringFrames buffer.length s.stride) ∧
      (sf.advance buffer hw).2.2 =
        if Region.between sf.cursor hw (ringFrames buffer.length s.stride) = .idle then []
        else [.filtering (Region.between sf.cursor hw (ringFrames buffer.length s.stride))] := by
  -- the ring holds only whole frames, so the buffer is never too short for it
  have hfit : (Geometry.forBuffer buffer.length s.stride).bytes ≤ buffer.length := by
    unfold Geometry.forBuffer Geometry.bytes
    split
    · simp
    · exact Nat.div_mul_le_self _ _
  obtain ⟨hbuf, hbank⟩ := advance_eq sf.cursor hw _ hc.running hc.stride_eq hfit
  have hcur := cursor_advance sf.cursor hw _ sf.bank hfit
  have hevents := events_advance sf.cursor hw _ sf.bank hfit
  unfold advance
  rw [hc.stream_eq]
  exact ⟨hbuf, ⟨rfl, hc.format_eq, hbank, by simp [hc.length_live]⟩, hcur, hevents⟩

/-- A query catches up with its target. -/
theorem snd_call_query (sf : StreamFilter) (buffer : List UInt8) (q : Query) :
    (sf.call buffer (.query q)).2 = sf.advance buffer (q.target buffer.length sf.stride) := by
  cases q <;> rfl

/-- A query on a configured filter is the pass over the cyclic interval from the cursor to the
query's target; see `advance_eq_pass`. -/
theorem call_query_eq (hc : sf.Configured s format live idle) (buffer : List UInt8) (q : Query) :
    (sf.call buffer (.query q)).2.2.1 = (format.sequentialPass s.stride
        (cyclicInterval (ringFrames buffer.length s.stride) sf.cursor
          (q.target buffer.length s.stride)) buffer live).1 ∧
      (sf.call buffer (.query q)).2.1.Configured s format (format.sequentialPass s.stride
        (cyclicInterval (ringFrames buffer.length s.stride) sf.cursor
          (q.target buffer.length s.stride)) buffer live).2 idle ∧
      (sf.call buffer (.query q)).2.1.cursor =
        (if ringFrames buffer.length s.stride = 0 ∨ sf.cursor % ringFrames buffer.length s.stride =
            q.target buffer.length s.stride % ringFrames buffer.length s.stride
          then sf.cursor else q.target buffer.length s.stride % ringFrames buffer.length s.stride) ∧
      (sf.call buffer (.query q)).2.2.2 =
        if Region.between sf.cursor (q.target buffer.length s.stride)
            (ringFrames buffer.length s.stride) = .idle then []
        else [.filtering (Region.between sf.cursor (q.target buffer.length s.stride)
          (ringFrames buffer.length s.stride))] := by
  rw [snd_call_query, stride_of_configured hc]
  exact advance_eq_pass hc buffer _

/-- The pass over visits inside the ring keeps the buffer's length. -/
private theorem length_pass_visits (hc : sf.Configured s format live idle) {buffer : List UInt8}
    (vs : List Nat) (hvs : ∀ v ∈ vs, v < ringFrames buffer.length s.stride) :
    (format.sequentialPass s.stride vs buffer live).1.length = buffer.length := by
  apply format.length_sequentialPass s.stride vs live (Nat.le_of_eq hc.stride_eq)
  exact fun v hv => succ_mul_le_of_lt_ringFrames (hvs v hv)

/-- **Queries in sequence are one pass.** From a configured filter whose cursor lies in the ring,
any sequence of queries leaves the buffer as the pass over the frames they visit in turn. -/
theorem session_queries_eq (hc : sf.Configured s format live idle) (buffer : List UInt8)
    (qs : List Query)
    (hcur : ringFrames buffer.length s.stride = 0 ∨ sf.cursor < ringFrames buffer.length s.stride) :
    (sf.session buffer (qs.map .query)).2.2 = (format.sequentialPass s.stride
      (visitsFrom (ringFrames buffer.length s.stride) sf.cursor
        (qs.map (·.target buffer.length s.stride))) buffer live).1 := by
  induction qs generalizing sf buffer live with
  | nil => rfl
  | cons q qs ih =>
    obtain ⟨hbuf, hc', hcur', -⟩ := call_query_eq hc buffer q
    -- the first query keeps the buffer's length, hence the ring and every later target
    have hlen := length_pass_visits hc (cyclicInterval (ringFrames buffer.length s.stride)
      sf.cursor (q.target buffer.length s.stride)) (fun v hv => lt_of_mem_cyclicInterval hv)
    rw [← hbuf] at hlen
    have hN : ringFrames (sf.call buffer (.query q)).2.2.1.length s.stride =
        ringFrames buffer.length s.stride := by rw [hlen]
    have hqs : (qs.map (·.target (sf.call buffer (.query q)).2.2.1.length s.stride)) =
        qs.map (·.target buffer.length s.stride) := by rw [hlen]
    -- the next leg starts where the cursor landed: the target reduced, or anywhere on an
    -- empty ring, where no leg visits anything
    have hnext : visitsFrom (ringFrames buffer.length s.stride) (sf.call buffer (.query q)).2.1.cursor
          (qs.map (·.target buffer.length s.stride)) =
        visitsFrom (ringFrames buffer.length s.stride)
          (q.target buffer.length s.stride % ringFrames buffer.length s.stride)
          (qs.map (·.target buffer.length s.stride)) := by
      rcases hcur with h0 | hlt
      · rw [h0, visitsFrom_zero, visitsFrom_zero]
      · rw [hcur', Nat.mod_eq_of_lt hlt]
        split
        · rename_i heq
          rcases heq with h0 | heq
          · rw [h0, visitsFrom_zero, visitsFrom_zero]
          · rw [heq]
        · rfl
    have hcur'' : ringFrames buffer.length s.stride = 0 ∨
        (sf.call buffer (.query q)).2.1.cursor < ringFrames buffer.length s.stride := by
      rcases hcur with h0 | hlt
      · exact .inl h0
      · right
        rw [hcur']
        split
        · exact hlt
        · exact Nat.mod_lt _ (by omega)
    rw [List.map_cons, session_cons, List.map_cons, visitsFrom, SampleFormat.sequentialPass_append,
      ← hbuf, ← hnext]
    have := ih hc' (sf.call buffer (.query q)).2.2.1 (by rw [hN]; exact hcur'')
    rw [hN, hqs] at this
    exact this

end StreamFilter

/-- **Incremental filtering is one sequential pass.** After a stream filter — in any state —
accepts a configuration for the stream `s` (of sample format `format`) and the filter `filter`,
any sequence of position queries on a ring buffer leaves the buffer exactly as one pass over the
frames visited query after query: the cyclic interval from `0` to the first target, then from
each target, reduced, to the next, on a ring of `⌊length / stride⌋` frames. Each visit of a frame
passes every channel's container through that channel's own section, which starts fresh, of the
filter's kind and cutoff at the stream's rate, and is carried through all visits. No byte outside
the visited frames changes. -/
theorem queries_filter_as_one_pass {sf₀ : StreamFilter} {log : List Event} {s : StreamConfig}
    {filter : FilterConfig} {u : Unit} {w : Logged StreamFilter} {format : SampleFormat}
    (hconf : (StreamFilter.configure s filter).run ⟨sf₀, log⟩ = .ok u w)
    (hfmt : s.format? = .ok format) (buffer : List UInt8) (qs : List Query) :
    (w.obj.session buffer (qs.map .query)).2.2 =
        (format.sequentialPass s.stride
          (visitsFrom (ringFrames buffer.length s.stride) 0 (qs.map (·.target buffer.length s.stride)))
          buffer
          (List.replicate s.channels (Biquad.make filter.kind (Float32.ofNat s.rate) filter.cutoff))).1 ∧
      ∀ i, (∀ v ∈ visitsFrom (ringFrames buffer.length s.stride) 0
          (qs.map (·.target buffer.length s.stride)), i < v * s.stride ∨ (v + 1) * s.stride ≤ i) →
        (w.obj.session buffer (qs.map .query)).2.2[i]? = buffer[i]? := by
  obtain ⟨format', hc, hcursor, -⟩ := StreamFilter.configured_of_configure_eq_ok hconf
  obtain rfl : format = format' := by
    have := hc.format_eq
    rw [hfmt] at this
    cases this
    rfl
  have hcur : ringFrames buffer.length s.stride = 0 ∨
      w.obj.cursor < ringFrames buffer.length s.stride := by
    rw [hcursor]
    omega
  have hsession := StreamFilter.session_queries_eq hc buffer qs hcur
  rw [hcursor] at hsession
  refine ⟨hsession, fun i hi => ?_⟩
  rw [hsession]
  apply format.getElem?_sequentialPass s.stride _ _ (Nat.le_of_eq hc.stride_eq) _ hi
  exact fun v hv => succ_mul_le_of_lt_ringFrames (lt_of_mem_visitsFrom hv)

/-- A fresh one-channel filter configured for 16-bit samples in 2-byte containers, then asked to
catch up with frame 3 and with the frame of byte 2 of an 8-byte ring. -/
theorem mono_queries_filter_as_one_pass :
    (StreamFilter.configure ⟨1, 16, 2, 48000⟩ {}).run ⟨StreamFilter.make 1, []⟩ =
        .ok () ⟨⟨(StreamFilter.make 1).bank.activate 1 ⟨2, 16, by decide, by decide, by decide, by decide⟩
            (.full .highPass (Float32.ofNat 48000) 300) (by decide), 0, {}, some ⟨1, 16, 2, 48000⟩⟩,
          [.bankConfigured 1 1 16 2, .streamPrepared 1 16 48000 .highPass 300]⟩ ∧
      StreamConfig.format? ⟨1, 16, 2, 48000⟩ = .ok ⟨2, 16, by decide, by decide, by decide, by decide⟩ ∧
      (StreamFilter.session ⟨(StreamFilter.make 1).bank.activate 1
            ⟨2, 16, by decide, by decide, by decide, by decide⟩
            (.full .highPass (Float32.ofNat 48000) 300) (by decide), 0, {}, some ⟨1, 16, 2, 48000⟩⟩
          (List.replicate 8 0) ([.advance 3, .pointer 2].map .query)).2.2 =
        (SampleFormat.sequentialPass ⟨2, 16, by decide, by decide, by decide, by decide⟩ 2
          (visitsFrom 4 0 [3, 1]) (List.replicate 8 0)
          [Biquad.make .highPass (Float32.ofNat 48000) 300]).1 := by
  refine ⟨?configured, rfl, (queries_filter_as_one_pass ?configured rfl (List.replicate 8 0)
    [.advance 3, .pointer 2]).1⟩
  rw [StreamFilter.configure_run]
  rfl

end PcmBiquad
