import PcmBiquad.Proofs.Frames
/-!
  One call of `advance`, whatever the bank holds.

  `Proofs/Frames` reads `advance` for a bank whose live sections fill a frame exactly. Here the
  bank is arbitrary — any number of active sections, any format, any stride — and `advance` is
  compared with the plainest account of its work: cut each frame of the cyclic interval out of
  the buffer in turn, hand it to the bank, and splice what comes back into its place
  (`FilterBank.processFramesAt`).

  * `FilterBank.processCount_eq_processFramesAt` — filtering a region frame by frame is handing
    the bank its frames in order;
  * `filterRuns_eq_processFramesAt` — the region's runs, tail before head, hand it the frames of
    the cyclic interval;
  * `advance_spec` — the exits of `advance`: a short buffer (left alone, one warning), an idle
    region (left alone, the cursor as it was, unreduced), and otherwise the frames
    `(cursor + k) mod N` for `k < d`, handed over in that order, with every byte of the other
    frames untouched, the cursor on `hw mod N` and one trace record counting `d` frames.

  Catching up never changes how many sections the bank holds (`capacity_advance`).
-/

namespace PcmBiquad

/-! ## Slices of a buffer -/

/-- Splicing a part of the right length back keeps the buffer's length. -/
theorem length_replaceRange {a c : Nat} {part buffer : List UInt8} (hac : a ≤ c)
    (hc : c ≤ buffer.length) (hpart : part.length = c - a) :
    (replaceRange a c part buffer).length = buffer.length := by
  simp only [replaceRange, List.length_append, List.length_take, List.length_drop, hpart]
  omega

/-- A slice inside the buffer has the length of its range. -/
theorem length_sliceRange {a c : Nat} {buffer : List UInt8} (hc : c ≤ buffer.length) :
    (sliceRange a c buffer).length = c - a := by
  simp only [sliceRange, List.length_take, List.length_drop]
  omega

/-- Splicing leaves every byte outside the range as it was. -/
theorem getElem?_replaceRange {a c : Nat} {part buffer : List UInt8} (hac : a ≤ c)
    (hc : c ≤ buffer.length) (hpart : part.length = c - a) {i : Nat} (hi : i < a ∨ c ≤ i) :
    (replaceRange a c part buffer)[i]? = buffer[i]? := by
  unfold replaceRange
  rcases hi with hi | hi
  · rw [List.append_assoc, List.getElem?_append_left (by simp; omega), List.getElem?_take_of_lt hi]
  · rw [List.getElem?_append_right (by simp; omega), List.getElem?_drop]
    congr 1
    simp only [List.length_append, List.length_take, hpart]
    omega

/-- A range past a prefix is the same range of the rest, shifted by the prefix's length. -/
theorem sliceRange_append_shift (xs ys : List UInt8) (a c : Nat) :
    sliceRange (xs.length + a) (xs.length + c) (xs ++ ys) = sliceRange a c ys := by
  simp only [sliceRange, List.drop_length_add_append]
  congr 1
  omega

/-- Splicing past a prefix keeps the prefix. -/
theorem replaceRange_append_shift (xs ys part : List UInt8) (a c : Nat) :
    replaceRange (xs.length + a) (xs.length + c) part (xs ++ ys) =
      xs ++ replaceRange a c part ys := by
  simp only [replaceRange, List.take_length_add_append, List.drop_length_add_append,
    List.append_assoc]

/-- A range inside a prefix ignores what follows it. -/
theorem sliceRange_append_restrict {xs : List UInt8} (ys : List UInt8) {a c : Nat}
    (hac : a ≤ c) (hc : c ≤ xs.length) : sliceRange a c (xs ++ ys) = sliceRange a c xs := by
  unfold sliceRange
  rw [List.drop_append_of_le_length (by omega), List.take_append_of_le_length (by simp; omega)]

/-- Splicing inside a prefix keeps what follows it. -/
theorem replaceRange_append_restrict {xs : List UInt8} (ys part : List UInt8) {a c : Nat}
    (hac : a ≤ c) (hc : c ≤ xs.length) :
    replaceRange a c part (xs ++ ys) = replaceRange a c part xs ++ ys := by
  unfold replaceRange
  rw [List.take_append_of_le_length (by omega), List.drop_append_of_le_length hc]
  simp only [List.append_assoc]

namespace FilterBank

/-! ## One frame handed to the bank -/

/-- Filtering samples keeps the number of bytes. -/
theorem length_filterSamples_bytes (format : SampleFormat) (chs : List Biquad) (n : Nat)
    (bytes : List UInt8) : (filterSamples format chs n bytes).1.length = bytes.length := by
  induction chs generalizing n bytes with
  | nil => cases n <;> rfl
  | cons ch chs ih =>
    cases n with
    | zero => rfl
    | succ n =>
      simp only [filterSamples]
      split
      · rfl
      · rename_i hshort
        rw [List.length_append, ih, format.length_write _ (by simp; omega)]
        simp
        omega

/-- A frame comes back as long as it was handed over. -/
@[simp] theorem length_processFrame (b : FilterBank) (frame : List UInt8) :
    (b.processFrame frame).1.length = frame.length :=
  length_filterSamples_bytes _ _ _ _

/-- Filtering a frame keeps the number of sections. -/
@[simp] theorem capacity_processFrame (b : FilterBank) (frame : List UInt8) :
    (b.processFrame frame).2.capacity = b.capacity :=
  length_filterSamples _ _ _ _

/-- An empty frame holds no container: the bank gives it back and is unchanged. -/
theorem processFrame_nil (b : FilterBank) : b.processFrame [] = ([], b) := by
  have h : filterSamples b.format b.channels b.active [] = ([], b.channels) := by
    have := b.format.bytes_pos
    match b.channels, b.active with
    | [], _ => rfl
    | _ :: _, 0 => rfl
    | _ :: _, _ + 1 =>
      simp only [filterSamples, List.length_nil, if_pos (show 0 < b.format.bytes by omega)]
  unfold processFrame
  simp only [h]

/-- Cuts frame `v` out of a buffer whose frames are `stride` bytes apart, hands it to the bank,
and splices the filtered frame back in its place. -/
def processFrameAt (b : FilterBank) (stride v : Nat) (buffer : List UInt8) :
    List UInt8 × FilterBank :=
  (replaceRange (v * stride) ((v + 1) * stride)
      (b.processFrame (sliceRange (v * stride) ((v + 1) * stride) buffer)).1 buffer,
    (b.processFrame (sliceRange (v * stride) ((v + 1) * stride) buffer)).2)

/-- Hands the bank the frames `vs` in order, each cut out of the buffer as the earlier ones left
it. -/
def processFramesAt (b : FilterBank) (stride : Nat) : List Nat → List UInt8 → List UInt8 × FilterBank
  | [], buffer => (buffer, b)
  | v :: vs, buffer =>
    (b.processFrameAt stride v buffer).2.processFramesAt stride vs (b.processFrameAt stride v buffer).1

/-- Frames `vs ++ ws`: first `vs`, then `ws`. -/
theorem processFramesAt_append (b : FilterBank) (stride : Nat) (vs ws : List Nat)
    (buffer : List UInt8) :
    b.processFramesAt stride (vs ++ ws) buffer =
      (b.processFramesAt stride vs buffer).2.processFramesAt stride ws
        (b.processFramesAt stride vs buffer).1 := by
  induction vs generalizing b buffer with
  | nil => rfl
  | cons v vs ih => exact ih _ _

/-- With a zero stride every frame is empty, and nothing changes. -/
theorem processFramesAt_zero (b : FilterBank) (vs : List Nat) (buffer : List UInt8) :
    b.processFramesAt 0 vs buffer = (buffer, b) := by
  induction vs with
  | nil => rfl
  | cons v vs ih =>
    have hframe : b.processFrameAt 0 v buffer = (buffer, b) := by
      simp only [processFrameAt, Nat.mul_zero, sliceRange, Nat.sub_self, List.take_zero,
        processFrame_nil, replaceRange, List.drop_zero, List.take_zero, List.nil_append]
    simp only [processFramesAt, hframe, ih]

/-- A frame inside the buffer comes back in place, the buffer as long as before. -/
theorem length_processFrameAt (b : FilterBank) {stride v : Nat} {buffer : List UInt8}
    (hv : (v + 1) * stride ≤ buffer.length) :
    (b.processFrameAt stride v buffer).1.length = buffer.length := by
  apply length_replaceRange (Nat.mul_le_mul_right _ (Nat.le_succ v)) hv
  rw [length_processFrame, length_sliceRange hv]

/-- Frames inside the buffer come back in place, the buffer as long as before. -/
theorem length_processFramesAt (b : FilterBank) {stride : Nat} {vs : List Nat}
    {buffer : List UInt8} (hvs : ∀ v ∈ vs, (v + 1) * stride ≤ buffer.length) :
    (b.processFramesAt stride vs buffer).1.length = buffer.length := by
  induction vs generalizing b buffer with
  | nil => rfl
  | cons v vs ih =>
    have hlen := b.length_processFrameAt (hvs v (List.mem_cons_self ..))
    simp only [processFramesAt]
    rw [ih, hlen]
    intro w hw
    rw [hlen]
    exact hvs w (List.mem_cons_of_mem _ hw)

/-- Handing frames over never changes how many sections the bank holds. -/
@[simp] theorem capacity_processFramesAt (b : FilterBank) (stride : Nat) (vs : List Nat)
    (buffer : List UInt8) : (b.processFramesAt stride vs buffer).2.capacity = b.capacity := by
  induction vs generalizing b buffer with
  | nil => rfl
  | cons v vs ih =>
    simp only [processFramesAt]
    rw [ih]
    exact capacity_processFrame _ _

/-- Every byte outside the frames handed over keeps its value. -/
theorem getElem?_processFramesAt (b : FilterBank) {stride : Nat} {vs : List Nat}
    {buffer : List UInt8} (hvs : ∀ v ∈ vs, (v + 1) * stride ≤ buffer.length) {i : Nat}
    (hi : ∀ v ∈ vs, i < v * stride ∨ (v + 1) * stride ≤ i) :
    (b.processFramesAt stride vs buffer).1[i]? = buffer[i]? := by
  induction vs generalizing b buffer with
  | nil => rfl
  | cons v vs ih =>
    have hv := hvs v (List.mem_cons_self ..)
    have hlen := b.length_processFrameAt hv
    have hframe : (b.processFrameAt stride v buffer).1[i]? = buffer[i]? :=
      getElem?_replaceRange (Nat.mul_le_mul_right _ (Nat.le_succ v)) hv
        (by rw [length_processFrame, length_sliceRange hv]) (hi v (List.mem_cons_self ..))
    simp only [processFramesAt]
    rw [ih, hframe]
    · intro w hw
      rw [hlen]
      exact hvs w (List.mem_cons_of_mem _ hw)
    · intro w hw
      exact hi w (List.mem_cons_of_mem _ hw)

/-! ## Frames past a prefix, frames inside a prefix -/

/-- Frame `k + v` of a buffer whose first `k` frames are `xs` is frame `v` of the rest. -/
theorem processFrameAt_shift (b : FilterBank) {stride k : Nat} {xs : List UInt8}
    (hxs : xs.length = k * stride) (v : Nat) (ys : List UInt8) :
    b.processFrameAt stride (k + v) (xs ++ ys) =
      (xs ++ (b.processFrameAt stride v ys).1, (b.processFrameAt stride v ys).2) := by
  have hlo : (k + v) * stride = xs.length + v * stride := by rw [hxs, Nat.add_mul]
  have hhi : (k + v + 1) * stride = xs.length + (v + 1) * stride := by
    rw [hxs, Nat.add_assoc, Nat.add_mul]
  simp only [processFrameAt, hlo, hhi, sliceRange_append_shift, replaceRange_append_shift]

/-- Frames numbered past a prefix of `k` frames are frames of the rest. -/
theorem processFramesAt_shift (b : FilterBank) {stride k : Nat} {xs : List UInt8}
    (hxs : xs.length = k * stride) (vs : List Nat) (ys : List UInt8) :
    b.processFramesAt stride (vs.map (k + ·)) (xs ++ ys) =
      (xs ++ (b.processFramesAt stride vs ys).1, (b.processFramesAt stride vs ys).2) := by
  induction vs generalizing b ys with
  | nil => rfl
  | cons v vs ih =>
    simp only [List.map_cons, processFramesAt, b.processFrameAt_shift hxs, ih]

/-- A frame inside a prefix ignores what follows the prefix. -/
theorem processFrameAt_restrict (b : FilterBank) {stride v : Nat} {xs : List UInt8}
    (ys : List UInt8) (hv : (v + 1) * stride ≤ xs.length) :
    b.processFrameAt stride v (xs ++ ys) =
      ((b.processFrameAt stride v xs).1 ++ ys, (b.processFrameAt stride v xs).2) := by
  have hle : v * stride ≤ (v + 1) * stride := Nat.mul_le_mul_right _ (Nat.le_succ v)
  simp only [processFrameAt, sliceRange_append_restrict ys hle hv,
    replaceRange_append_restrict ys _ hle hv]

/-- Frames inside a prefix ignore what follows the prefix. -/
theorem processFramesAt_restrict (b : FilterBank) {stride : Nat} {vs : List Nat}
    {xs : List UInt8} (ys : List UInt8) (hvs : ∀ v ∈ vs, (v + 1) * stride ≤ xs.length) :
    b.processFramesAt stride vs (xs ++ ys) =
      ((b.processFramesAt stride vs xs).1 ++ ys, (b.processFramesAt stride vs xs).2) := by
  induction vs generalizing b xs with
  | nil => rfl
  | cons v vs ih =>
    have hv := hvs v (List.mem_cons_self ..)
    have hlen := b.length_processFrameAt hv
    simp only [processFramesAt, b.processFrameAt_restrict ys hv]
    rw [ih]
    intro w hw
    rw [hlen]
    exact hvs w (List.mem_cons_of_mem _ hw)

/-! ## A region, frame by frame -/

/-- Frame `0` is the first `stride` bytes. -/
theorem processFrameAt_zero (b : FilterBank) (stride : Nat) (buffer : List UInt8) :
    b.processFrameAt stride 0 buffer =
      ((b.processFrame (buffer.take stride)).1 ++ buffer.drop stride,
        (b.processFrame (buffer.take stride)).2) := by
  simp only [processFrameAt, Nat.zero_mul, Nat.zero_add, Nat.one_mul, sliceRange, replaceRange,
    List.drop_zero, List.take_zero, List.nil_append, Nat.sub_zero]

/-- Filtering the first `k` frames of a region, each cut off the front in turn, is handing the
bank frames `0, …, k - 1` of the region. -/
theorem processCount_eq_processFramesAt (b : FilterBank) (stride k : Nat) {region : List UInt8}
    (h : k * stride ≤ region.length) :
    b.processCount stride k region = b.processFramesAt stride (List.range k) region := by
  induction k generalizing b region with
  | zero => rfl
  | succ k ih =>
    rw [Nat.succ_mul] at h
    -- the first frame comes back as long as it was, so the others are the rest, one frame on
    have hfirst : (b.processFrame (region.take stride)).1.length = 1 * stride := by
      rw [length_processFrame, List.length_take, Nat.one_mul]
      omega
    have hsucc : (List.range k).map Nat.succ = (List.range k).map (1 + ·) :=
      List.map_congr_left fun v _ => by omega
    rw [processCount_succ, List.range_succ_eq_map, processFramesAt, processFrameAt_zero, hsucc,
      processFramesAt_shift _ hfirst, ih _ (by simp; omega)]

/-- Filtering the whole frames of the slice `[a, c)` of a buffer and splicing the result back is
handing the bank frames `a, …, c - 1` of the buffer. -/
theorem processFrames_slice (b : FilterBank) (stride : Nat) {a c : Nat} {buffer : List UInt8}
    (hac : a ≤ c) (hc : c * stride ≤ buffer.length) :
    (replaceRange (a * stride) (c * stride)
        (b.processFrames (sliceRange (a * stride) (c * stride) buffer) stride).1 buffer,
      (b.processFrames (sliceRange (a * stride) (c * stride) buffer) stride).2) =
      b.processFramesAt stride (List.range' a (c - a)) buffer := by
  by_cases h0 : stride = 0
  · -- a zero stride hands over empty frames, and splices an empty slice back
    subst h0
    simp only [processFrames, ↓reduceIte, Nat.mul_zero, sliceRange, Nat.sub_self, List.take_zero,
      replaceRange, List.drop_zero, List.nil_append, processFramesAt_zero]
  · have hle : a * stride ≤ c * stride := Nat.mul_le_mul_right _ hac
    have hM : (sliceRange (a * stride) (c * stride) buffer).length = (c - a) * stride := by
      rw [length_sliceRange hc, Nat.sub_mul]
    have hX : (buffer.take (a * stride)).length = a * stride := by simp; omega
    have hk : (sliceRange (a * stride) (c * stride) buffer).length / stride = c - a := by
      rw [hM, Nat.mul_div_cancel _ (Nat.pos_of_ne_zero h0)]
    -- on the whole buffer: skip the frames before `a`, and stop before the bytes from `c` on
    have hwhole : b.processFramesAt stride (List.range' a (c - a)) buffer =
        (buffer.take (a * stride) ++ ((b.processFramesAt stride (List.range (c - a))
            (sliceRange (a * stride) (c * stride) buffer)).1 ++ buffer.drop (c * stride)),
          (b.processFramesAt stride (List.range (c - a))
            (sliceRange (a * stride) (c * stride) buffer)).2) := by
      rw [List.range'_eq_map_range]
      conv => lhs; rw [eq_take_sliceRange_drop buffer hle]
      rw [b.processFramesAt_shift hX, b.processFramesAt_restrict]
      intro v hv
      rw [List.mem_range] at hv
      rw [hM]
      exact Nat.mul_le_mul_right _ hv
    rw [hwhole, processFrames, if_neg h0, hk,
      processCount_eq_processFramesAt _ _ _ (Nat.le_of_eq hM.symm)]
    simp only [replaceRange, List.append_assoc]

end FilterBank

/-! ## Runs of a region, and the whole call -/

/-- Filtering runs that lie inside the buffer hands the bank their frames, run after run. -/
theorem filterRuns_eq_processFramesAt (g : Geometry) (runs : List Run) {buffer : List UInt8}
    (bank : FilterBank)
    (hruns : ∀ r ∈ runs, r.start ≤ r.stop ∧ r.stop * g.stride ≤ buffer.length) :
    filterRuns g runs buffer bank =
      bank.processFramesAt g.stride (runs.flatMap Run.indices) buffer := by
  induction runs generalizing buffer bank with
  | nil => rfl
  | cons r runs ih =>
    obtain ⟨hrs, hrb⟩ := hruns r (List.mem_cons_self ..)
    have hrun := bank.processFrames_slice g.stride hrs hrb
    -- the run keeps the buffer's length, so the later runs still fit
    have hlen : (bank.processFramesAt g.stride (List.range' r.start (r.stop - r.start))
        buffer).1.length = buffer.length := by
      apply bank.length_processFramesAt
      intro v hv
      rw [List.mem_range'_1] at hv
      exact Nat.le_trans (Nat.mul_le_mul_right _ (by omega)) hrb
    have hbuf := congrArg Prod.fst hrun
    have hbank := congrArg Prod.snd hrun
    dsimp only at hbuf hbank
    rw [filterRuns_cons, List.flatMap_cons, FilterBank.processFramesAt_append, Run.indices,
      Run.length, ← hbuf, ← hbank]
    apply ih
    intro r' hr'
    rw [hbuf, hlen]
    exact hruns r' (List.mem_cons_of_mem _ hr')

/-- The runs of a region inside a buffer that holds the ring hand the bank the cyclic interval
from the cursor to the hardware position. -/
theorem filterRuns_between (cursor hw : Nat) (g : Geometry) {buffer : List UInt8}
    (bank : FilterBank) (hfit : g.frames * g.stride ≤ buffer.length) :
    filterRuns g (Region.between cursor hw g.frames).runs buffer bank =
      bank.processFramesAt g.stride (cyclicInterval g.frames cursor hw) buffer := by
  rw [← Region.visits_between]
  apply filterRuns_eq_processFramesAt
  intro r hr
  obtain ⟨hrs, hrn⟩ := Region.runs_between_le cursor hw g.frames r hr
  exact ⟨hrs, Nat.le_trans (Nat.mul_le_mul_right _ hrn) hfit⟩

/-! ## The exits of `advance` -/

/-- The number of frames from position `c` up to position `h` around a ring of `n` frames:
`(h - c) mod n`, both positions reduced first, and none on an empty ring. -/
def ringGap (n c h : Nat) : Nat := if n = 0 then 0 else (h % n + n - c % n) % n

/-- Going `ringGap` frames on from `c` meets the cyclic interval. -/
theorem cyclicInterval_eq_map_range (n c h : Nat) :
    cyclicInterval n c h = (List.range (ringGap n c h)).map fun k => (c + k) % n := by
  unfold cyclicInterval ringGap
  split <;> rfl

/-- Six frames on from frame 6 of 8 wraps: the tail `6, 7`, then the head `0, 1`. -/
example : (List.range (ringGap 8 6 2)).map (fun k => (6 + k) % 8) = [6, 7, 0, 1] := by decide

/-- No frame lies between two positions exactly when the ring is empty or they coincide on it. -/
theorem ringGap_eq_zero_iff (n c h : Nat) : ringGap n c h = 0 ↔ n = 0 ∨ c % n = h % n := by
  unfold ringGap
  by_cases hn : n = 0
  · simp [hn]
  · have hc : c % n < n := Nat.mod_lt _ (Nat.pos_of_ne_zero hn)
    have hh : h % n < n := Nat.mod_lt _ (Nat.pos_of_ne_zero hn)
    rw [if_neg hn]
    by_cases hlt : c % n ≤ h % n
    · rw [show h % n + n - c % n = (h % n - c % n) + n by omega, Nat.add_mod_right,
        Nat.mod_eq_of_lt (by omega)]
      omega
    · rw [Nat.mod_eq_of_lt (by omega)]
      omega

/-- A region counts the frames between its two positions. -/
theorem frames_between (c h n : Nat) : (Region.between c h n).frames = ringGap n c h := by
  rw [← Region.length_visits, Region.visits_between, cyclicInterval_eq_map_range, List.length_map,
    List.length_range]

/-- A buffer shorter than the ring is left alone with a warning, and the cursor stays. -/
theorem advance_of_lt {cursor hw : Nat} {g : Geometry} {buffer : List UInt8} (bank : FilterBank)
    (hshort : buffer.length < g.frames * g.stride) :
    advance cursor hw g buffer bank =
      ⟨cursor, buffer, bank, [.bufferShort buffer.length g.frames g.stride]⟩ := by
  unfold advance Geometry.bytes
  rw [if_pos hshort]

/-- Catching up with an idle region changes nothing and reports nothing; the cursor stays as it
was, unreduced. -/
theorem advance_of_idle {cursor hw : Nat} {g : Geometry} {buffer : List UInt8} (bank : FilterBank)
    (hfit : g.frames * g.stride ≤ buffer.length)
    (hidle : Region.between cursor hw g.frames = .idle) :
    advance cursor hw g buffer bank = ⟨cursor, buffer, bank, []⟩ := by
  unfold advance Geometry.bytes
  rw [if_neg (by omega), hidle]

/-- Otherwise the region's runs are filtered, the cursor moves to the hardware position, reduced,
and the region is reported. -/
theorem advance_of_ne_idle {cursor hw : Nat} {g : Geometry} {buffer : List UInt8}
    (bank : FilterBank) (hfit : g.frames * g.stride ≤ buffer.length)
    (hidle : Region.between cursor hw g.frames ≠ .idle) :
    advance cursor hw g buffer bank =
      ⟨hw % g.frames, (filterRuns g (Region.between cursor hw g.frames).runs buffer bank).1,
        (filterRuns g (Region.between cursor hw g.frames).runs buffer bank).2,
        [.filtering (Region.between cursor hw g.frames)]⟩ := by
  unfold advance Geometry.bytes
  rw [if_neg (by omega)]
  split
  · contradiction
  · rfl

/-- Catching up never changes how many sections the bank holds. -/
theorem capacity_advance (cursor hw : Nat) (g : Geometry) (buffer : List UInt8)
    (bank : FilterBank) : (advance cursor hw g buffer bank).bank.capacity = bank.capacity := by
  by_cases hshort : buffer.length < g.frames * g.stride
  · rw [advance_of_lt bank hshort]
  · by_cases hidle : Region.between cursor hw g.frames = .idle
    · rw [advance_of_idle bank (by omega) hidle]
    · rw [advance_of_ne_idle bank (by omega) hidle, filterRuns_between cursor hw g bank (by omega)]
      exact bank.capacity_processFramesAt _ _ _

/-- **One call of `advance`.** On a buffer shorter than the ring it claims, nothing changes, the
cursor comes back as it was and one warning is raised. Otherwise let `d = (hw - cursor) mod N`
be the frames between the two positions (none on an empty ring). For `d = 0` nothing changes,
the cursor comes back unreduced and nothing is reported. For `d > 0` the bank is handed the
frames `(cursor + k) mod N`, `k < d`, in that order — the tail of the ring before its head —
each cut out of the buffer and spliced back; every byte outside those frames keeps its value,
the cursor moves to `hw mod N`, and one trace record reports the region, of `d` frames. -/
theorem advance_spec (cursor hw : Nat) (g : Geometry) (buffer : List UInt8) (bank : FilterBank) :
    (buffer.length < g.frames * g.stride →
      advance cursor hw g buffer bank =
          ⟨cursor, buffer, bank, [.bufferShort buffer.length g.frames g.stride]⟩ ∧
        (Event.bufferShort buffer.length g.frames g.stride).level = .warn) ∧
    (g.frames * g.stride ≤ buffer.length →
      (ringGap g.frames cursor hw = 0 → advance cursor hw g buffer bank = ⟨cursor, buffer, bank, []⟩) ∧
      (0 < ringGap g.frames cursor hw →
        ((advance cursor hw g buffer bank).buffer, (advance cursor hw g buffer bank).bank) =
            bank.processFramesAt g.stride
              ((List.range (ringGap g.frames cursor hw)).map fun k => (cursor + k) % g.frames)
              buffer ∧
          (∀ i, (∀ k < ringGap g.frames cursor hw, i < (cursor + k) % g.frames * g.stride ∨
              ((cursor + k) % g.frames + 1) * g.stride ≤ i) →
            (advance cursor hw g buffer bank).buffer[i]? = buffer[i]?) ∧
          (advance cursor hw g buffer bank).cursor = hw % g.frames ∧
          (advance cursor hw g buffer bank).events = [.filtering (Region.between cursor hw g.frames)] ∧
          (Region.between cursor hw g.frames).frames = ringGap g.frames cursor hw ∧
          (Event.filtering (Region.between cursor hw g.frames)).level = .trace)) := by
  refine ⟨fun hshort => ⟨advance_of_lt bank hshort, rfl⟩, fun hfit => ⟨fun hd => ?idle, fun hd => ?work⟩⟩
  case idle =>
    exact advance_of_idle bank hfit ((Region.between_eq_idle_iff _ _ _).2 ((ringGap_eq_zero_iff _ _ _).1 hd))
  case work =>
    have hidle : Region.between cursor hw g.frames ≠ .idle := fun h =>
      Nat.ne_of_gt hd ((ringGap_eq_zero_iff _ _ _).2 ((Region.between_eq_idle_iff _ _ _).1 h))
    have hpass : ((advance cursor hw g buffer bank).buffer, (advance cursor hw g buffer bank).bank) =
        bank.processFramesAt g.stride (cyclicInterval g.frames cursor hw) buffer := by
      rw [advance_of_ne_idle bank hfit hidle, ← filterRuns_between cursor hw g bank hfit]
    -- every frame of the interval lies in the ring, and so inside the buffer
    have hinside : ∀ v ∈ cyclicInterval g.frames cursor hw, (v + 1) * g.stride ≤ buffer.length :=
      fun v hv => Nat.le_trans (Nat.mul_le_mul_right _ (lt_of_mem_cyclicInterval hv)) hfit
    rw [cyclicInterval_eq_map_range] at hpass hinside
    refine ⟨hpass, fun i hi => ?_, by rw [advance_of_ne_idle bank hfit hidle],
      by rw [advance_of_ne_idle bank hfit hidle], frames_between _ _ _, rfl⟩
    rw [show (advance cursor hw g buffer bank).buffer = _ from congrArg Prod.fst hpass]
    apply bank.getElem?_processFramesAt hinside
    intro v hv
    obtain ⟨k, hk, rfl⟩ := List.mem_map.1 hv
    exact hi k (List.mem_range.1 hk)

end PcmBiquad
