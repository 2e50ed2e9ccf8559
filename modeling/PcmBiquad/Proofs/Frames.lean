import PcmBiquad.Ring.Advance
import PcmBiquad.Proofs.Cycle
/-!
  Filtering interleaved frames in place, container by container.

  The bank filters a frame by cutting it into containers, and the ring processor filters a run
  by cutting the buffer into a slice of frames and splicing the result back. This file gives the
  same work a meaning on the WHOLE buffer, with no slicing, and proves the two agree.

  * `SampleFormat.filterAt o ch buf` — the container at byte `o` is read, passed through the
    section `ch` and written back in place (the rest of `buf` is untouched).
  * `SampleFormat.filterFrameAt base chs` — a frame: channel `i`'s container at
    `base + i * bytes` goes through the `i`-th section, in channel order.
  * `SampleFormat.sequentialPass stride vs` — the frames `vs`, in order, each at `v * stride`,
    with every channel's section threaded through all of them.

  Two locality facts carry everything: work at an offset past a prefix `xs` is work on the rest
  shifted by `xs.length` (`filterFrameAt_shift`), and work that stays inside `xs` ignores what
  follows it (`filterFrameAt_restrict`). From them, `FilterBank.processCount_eq` and
  `filterRuns_eq` show that the bank and the ring processor compute `sequentialPass` over the
  frames they visit.
-/

namespace PcmBiquad

/-! ## Reading and writing a container in a longer buffer -/

/-- `count` little-endian bytes are `count` bytes. -/
@[simp] theorem length_littleEndianBytes (count w : Nat) :
    (littleEndianBytes count w).length = count := by
  induction count generalizing w with
  | zero => rfl
  | succ count ih => simp [littleEndianBytes, ih]

namespace SampleFormat

variable (f : SampleFormat)

/-- A sample is read from the container's bytes alone. -/
theorem read_append {bs : List UInt8} (cs : List UInt8) (h : f.bytes ≤ bs.length) :
    f.read (bs ++ cs) = f.read bs := by
  simp only [read, level, List.take_append_of_le_length h]

/-- Writing replaces the container and keeps every byte after it. -/
theorem write_append (y : Float32) {bs : List UInt8} (cs : List UInt8) (h : f.bytes ≤ bs.length) :
    f.write y (bs ++ cs) = f.write y bs ++ cs := by
  simp only [write, List.drop_append_of_le_length h, List.append_assoc]

/-- Writing over a whole container keeps the length. -/
theorem length_write (y : Float32) {bs : List UInt8} (h : f.bytes ≤ bs.length) :
    (f.write y bs).length = bs.length := by
  simp only [write, List.length_append, length_littleEndianBytes, List.length_drop]
  omega

/-! ## One container, one frame, one pass -/

/-- Filters the container at byte `o` of `buf` through the section `ch`: the sample there is
read, passed through `ch`, and written back in place. -/
def filterAt (o : Nat) (ch : Biquad) (buf : List UInt8) : List UInt8 × Biquad :=
  let (y, ch') := ch.process (f.read (buf.drop o))
  (buf.take o ++ f.write y (buf.drop o), ch')

/-- Filters the frame whose first container starts at byte `base`: the container of channel `i`,
at `base + i * bytes`, goes through the `i`-th section, in channel order. -/
def filterFrameAt : Nat → List Biquad → List UInt8 → List UInt8 × List Biquad
  | _, [], buf => (buf, [])
  | base, ch :: chs, buf =>
    let (buf', ch') := f.filterAt base ch buf
    let (buf'', chs') := filterFrameAt (base + f.bytes) chs buf'
    (buf'', ch' :: chs')

/-- Filters the frames `vs` in order, frame `v` starting at byte `v * stride`, with each
channel's section carried from one frame to the next. -/
def sequentialPass (stride : Nat) : List Nat → List UInt8 → List Biquad → List UInt8 × List Biquad
  | [], buf, chs => (buf, chs)
  | v :: vs, buf, chs =>
    let (buf', chs') := f.filterFrameAt (v * stride) chs buf
    sequentialPass stride vs buf' chs'

/-! ## Lengths -/

/-- Filtering a container inside the buffer keeps its length. -/
theorem length_filterAt {o : Nat} (ch : Biquad) {buf : List UInt8} (h : o + f.bytes ≤ buf.length) :
    (f.filterAt o ch buf).1.length = buf.length := by
  simp only [filterAt, List.length_append, List.length_take,
    f.length_write _ (show f.bytes ≤ (buf.drop o).length by simp; omega), List.length_drop]
  omega

/-- Filtering a frame inside the buffer keeps its length. -/
theorem length_filterFrameAt (base : Nat) (chs : List Biquad) {buf : List UInt8}
    (h : base + chs.length * f.bytes ≤ buf.length) :
    (f.filterFrameAt base chs buf).1.length = buf.length := by
  induction chs generalizing base buf with
  | nil => rfl
  | cons ch chs ih =>
    have hlen := f.length_filterAt ch (show base + f.bytes ≤ buf.length by
      simp only [List.length_cons] at h; rw [Nat.succ_mul] at h; omega)
    simp only [filterFrameAt]
    rw [ih _ (by simp only [List.length_cons] at h; rw [Nat.succ_mul] at h; omega), hlen]

/-- A frame gives back one section per channel. -/
@[simp] theorem length_filterFrameAt_sections (base : Nat) (chs : List Biquad) (buf : List UInt8) :
    (f.filterFrameAt base chs buf).2.length = chs.length := by
  induction chs generalizing base buf with
  | nil => rfl
  | cons ch chs ih => simp [filterFrameAt, ih]

/-! ## Locality -/

/-- Filtering past a prefix is filtering the rest, the prefix kept. -/
theorem filterAt_shift (xs : List UInt8) (o : Nat) (ch : Biquad) (ys : List UInt8) :
    f.filterAt (xs.length + o) ch (xs ++ ys) =
      (xs ++ (f.filterAt o ch ys).1, (f.filterAt o ch ys).2) := by
  simp only [filterAt, List.drop_length_add_append, List.take_length_add_append, List.append_assoc]

/-- Filtering a container inside a prefix ignores what follows the prefix. -/
theorem filterAt_restrict {o : Nat} (ch : Biquad) {xs : List UInt8} (ys : List UInt8)
    (h : o + f.bytes ≤ xs.length) :
    f.filterAt o ch (xs ++ ys) = ((f.filterAt o ch xs).1 ++ ys, (f.filterAt o ch xs).2) := by
  have hd : f.bytes ≤ (xs.drop o).length := by simp; omega
  simp only [filterAt, List.drop_append_of_le_length (show o ≤ xs.length by omega),
    List.take_append_of_le_length (show o ≤ xs.length by omega), f.read_append ys hd,
    f.write_append _ ys hd, List.append_assoc]

/-- A frame past a prefix is a frame of the rest, the prefix kept. -/
theorem filterFrameAt_shift (xs : List UInt8) (o : Nat) (chs : List Biquad) (ys : List UInt8) :
    f.filterFrameAt (xs.length + o) chs (xs ++ ys) =
      (xs ++ (f.filterFrameAt o chs ys).1, (f.filterFrameAt o chs ys).2) := by
  induction chs generalizing o ys with
  | nil => rfl
  | cons ch chs ih =>
    simp only [filterFrameAt, f.filterAt_shift, Nat.add_assoc, ih]

/-- A frame inside a prefix ignores what follows the prefix. -/
theorem filterFrameAt_restrict (base : Nat) (chs : List Biquad) {xs : List UInt8}
    (ys : List UInt8) (h : base + chs.length * f.bytes ≤ xs.length) :
    f.filterFrameAt base chs (xs ++ ys) =
      ((f.filterFrameAt base chs xs).1 ++ ys, (f.filterFrameAt base chs xs).2) := by
  induction chs generalizing base xs with
  | nil => rfl
  | cons ch chs ih =>
    simp only [List.length_cons, Nat.succ_mul] at h
    have hlen := f.length_filterAt ch (show base + f.bytes ≤ xs.length by omega)
    simp only [filterFrameAt, f.filterAt_restrict ch ys (show base + f.bytes ≤ xs.length by omega)]
    rw [ih _ (by omega)]

/-- A frame at a byte offset equal to the length of a prefix is a frame at the front of the
rest. -/
theorem filterFrameAt_of_prefix {xs : List UInt8} {base : Nat} (hxs : xs.length = base)
    (chs : List Biquad) (ys : List UInt8) :
    f.filterFrameAt base chs (xs ++ ys) =
      (xs ++ (f.filterFrameAt 0 chs ys).1, (f.filterFrameAt 0 chs ys).2) := by
  simpa only [hxs, Nat.add_zero] using f.filterFrameAt_shift xs 0 chs ys

/-- The container at the front is written back ahead of the bytes that follow it. -/
theorem filterAt_zero (ch : Biquad) {buf : List UInt8} (h : f.bytes ≤ buf.length) :
    f.filterAt 0 ch buf =
      (f.write (ch.process (f.read buf)).1 (buf.take f.bytes) ++ buf.drop f.bytes,
        (ch.process (f.read buf)).2) := by
  have hw := f.write_append (ch.process (f.read buf)).1 (buf.drop f.bytes)
    (show f.bytes ≤ (buf.take f.bytes).length by simp; omega)
  rw [List.take_append_drop] at hw
  simp only [filterAt, List.take_zero, List.drop_zero, List.nil_append, hw]

/-! ## Bytes outside the work -/

/-- Filtering a container inside the buffer leaves every byte outside it as it was. -/
theorem getElem?_filterAt {o : Nat} (ch : Biquad) {buf : List UInt8} (h : o + f.bytes ≤ buf.length)
    {i : Nat} (hi : i < o ∨ o + f.bytes ≤ i) : (f.filterAt o ch buf).1[i]? = buf[i]? := by
  simp only [filterAt, write]
  rcases hi with hi | hi
  · rw [List.getElem?_append_left (by simp; omega), List.getElem?_take_of_lt hi]
  · rw [List.getElem?_append_right (by simp; omega), List.getElem?_append_right (by simp; omega),
      List.getElem?_drop, List.getElem?_drop]
    congr 1
    simp only [List.length_take, length_littleEndianBytes]
    omega

/-- Filtering a frame inside the buffer leaves every byte outside it as it was. -/
theorem getElem?_filterFrameAt (base : Nat) (chs : List Biquad) {buf : List UInt8}
    (h : base + chs.length * f.bytes ≤ buf.length) {i : Nat}
    (hi : i < base ∨ base + chs.length * f.bytes ≤ i) :
    (f.filterFrameAt base chs buf).1[i]? = buf[i]? := by
  induction chs generalizing base buf with
  | nil => rfl
  | cons ch chs ih =>
    simp only [List.length_cons, Nat.succ_mul] at h hi
    have hlen := f.length_filterAt ch (show base + f.bytes ≤ buf.length by omega)
    simp only [filterFrameAt]
    rw [ih _ (by omega) (by omega), f.getElem?_filterAt ch (by omega) (by omega)]

/-! ## Passes -/

variable (stride : Nat)

/-- A pass over frame `v` and then `vs`. -/
theorem sequentialPass_cons (v : Nat) (vs : List Nat) (buf : List UInt8) (chs : List Biquad) :
    f.sequentialPass stride (v :: vs) buf chs =
      f.sequentialPass stride vs (f.filterFrameAt (v * stride) chs buf).1
        (f.filterFrameAt (v * stride) chs buf).2 := rfl

/-- A pass over two lists of frames is the pass over the first, then over the second. -/
theorem sequentialPass_append (vs ws : List Nat) (buf : List UInt8) (chs : List Biquad) :
    f.sequentialPass stride (vs ++ ws) buf chs =
      f.sequentialPass stride ws (f.sequentialPass stride vs buf chs).1
        (f.sequentialPass stride vs buf chs).2 := by
  induction vs generalizing buf chs with
  | nil => rfl
  | cons v vs ih => simp only [List.cons_append, sequentialPass, ih]

/-- A pass with no channel changes nothing. -/
@[simp] theorem sequentialPass_nil_sections (vs : List Nat) (buf : List UInt8) :
    f.sequentialPass stride vs buf [] = (buf, []) := by
  induction vs with
  | nil => rfl
  | cons v vs ih => simpa only [sequentialPass, filterFrameAt] using ih

/-- A pass gives back one section per channel. -/
@[simp] theorem length_sequentialPass_sections (vs : List Nat) (buf : List UInt8)
    (chs : List Biquad) : (f.sequentialPass stride vs buf chs).2.length = chs.length := by
  induction vs generalizing buf chs with
  | nil => rfl
  | cons v vs ih => simp [sequentialPass, ih]

variable {f stride} in
/-- A frame of the channels `chs` fits inside its stride, and frame `v` inside the buffer. -/
private theorem frame_le {chs : List Biquad} {v n : Nat} (hfit : chs.length * f.bytes ≤ stride)
    (h : (v + 1) * stride ≤ n) : v * stride + chs.length * f.bytes ≤ n := by
  rw [Nat.succ_mul] at h
  omega

/-- A pass over frames inside the buffer keeps its length. -/
theorem length_sequentialPass (vs : List Nat) (chs : List Biquad) {buf : List UInt8}
    (hfit : chs.length * f.bytes ≤ stride) (h : ∀ v ∈ vs, (v + 1) * stride ≤ buf.length) :
    (f.sequentialPass stride vs buf chs).1.length = buf.length := by
  induction vs generalizing buf chs with
  | nil => rfl
  | cons v vs ih =>
    have hv := frame_le hfit (h v (List.mem_cons_self ..))
    have hlen := f.length_filterFrameAt (v * stride) chs hv
    simp only [sequentialPass]
    rw [ih _ (by simpa using hfit), hlen]
    intro w hw
    rw [hlen]
    exact h w (List.mem_cons_of_mem _ hw)

/-- A pass over frames inside the buffer leaves every byte outside those frames as it was. -/
theorem getElem?_sequentialPass (vs : List Nat) (chs : List Biquad) {buf : List UInt8}
    (hfit : chs.length * f.bytes ≤ stride) (h : ∀ v ∈ vs, (v + 1) * stride ≤ buf.length) {i : Nat}
    (hi : ∀ v ∈ vs, i < v * stride ∨ (v + 1) * stride ≤ i) :
    (f.sequentialPass stride vs buf chs).1[i]? = buf[i]? := by
  induction vs generalizing buf chs with
  | nil => rfl
  | cons v vs ih =>
    have hv := frame_le hfit (h v (List.mem_cons_self ..))
    have hlen := f.length_filterFrameAt (v * stride) chs hv
    have hout : i < v * stride ∨ v * stride + chs.length * f.bytes ≤ i := by
      rcases hi v (List.mem_cons_self ..) with hlt | hge
      · exact .inl hlt
      · rw [Nat.succ_mul] at hge
        exact .inr (by omega)
    simp only [sequentialPass]
    rw [ih _ (by simpa using hfit), f.getElem?_filterFrameAt (v * stride) chs hv hout]
    · intro w hw
      rw [hlen]
      exact h w (List.mem_cons_of_mem _ hw)
    · intro w hw
      exact hi w (List.mem_cons_of_mem _ hw)

/-- A pass over frames numbered past a prefix of `k` frames is a pass over the rest. -/
theorem sequentialPass_shift (k : Nat) (vs : List Nat) {xs : List UInt8} (ys : List UInt8)
    (chs : List Biquad) (hxs : xs.length = k * stride) :
    f.sequentialPass stride (vs.map (k + ·)) (xs ++ ys) chs =
      (xs ++ (f.sequentialPass stride vs ys chs).1, (f.sequentialPass stride vs ys chs).2) := by
  induction vs generalizing ys chs with
  | nil => rfl
  | cons v vs ih =>
    simp only [List.map_cons, sequentialPass, Nat.add_mul, ← hxs, f.filterFrameAt_shift, ih]

/-- A pass over frames inside a prefix ignores what follows the prefix. -/
theorem sequentialPass_restrict (vs : List Nat) (chs : List Biquad) {xs : List UInt8}
    (ys : List UInt8) (hfit : chs.length * f.bytes ≤ stride)
    (h : ∀ v ∈ vs, (v + 1) * stride ≤ xs.length) :
    f.sequentialPass stride vs (xs ++ ys) chs =
      ((f.sequentialPass stride vs xs chs).1 ++ ys, (f.sequentialPass stride vs xs chs).2) := by
  induction vs generalizing xs chs with
  | nil => rfl
  | cons v vs ih =>
    have hv := frame_le hfit (h v (List.mem_cons_self ..))
    have hlen := f.length_filterFrameAt (v * stride) chs hv
    simp only [sequentialPass, f.filterFrameAt_restrict (v * stride) chs ys hv]
    rw [ih _ (by simpa using hfit)]
    intro w hw
    rw [hlen]
    exact h w (List.mem_cons_of_mem _ hw)

end SampleFormat

/-! ## The bank computes the frame -/

namespace FilterBank

/-- The bank filters samples of `format` through the sections `live`, one for each active
channel, and holds the sections `idle` after them. -/
structure Running (b : FilterBank) (format : SampleFormat) (live idle : List Biquad) : Prop where
  format_eq : b.format = format
  channels_eq : b.channels = live ++ idle
  active_eq : b.active = live.length

/-- The bank's sample loop filters the frame at byte zero through the live sections and keeps
the idle ones, given a whole container for each live section. -/
theorem filterSamples_eq (format : SampleFormat) (live idle : List Biquad) {bytes : List UInt8}
    (h : live.length * format.bytes ≤ bytes.length) :
    filterSamples format (live ++ idle) live.length bytes =
      ((format.filterFrameAt 0 live bytes).1, (format.filterFrameAt 0 live bytes).2 ++ idle) := by
  induction live generalizing bytes with
  | nil => cases idle <;> rfl
  | cons ch live ih =>
    simp only [List.length_cons, Nat.succ_mul] at h
    have hB : format.bytes ≤ bytes.length := by omega
    have hW : (format.write (ch.process (format.read bytes)).1
        (bytes.take format.bytes)).length = format.bytes := by
      rw [format.length_write _ (by simp; omega)]
      simp
      omega
    have hrest := ih (show live.length * format.bytes ≤ (bytes.drop format.bytes).length by
      simp; omega)
    simp only [List.cons_append, List.length_cons, filterSamples, SampleFormat.filterFrameAt,
      format.filterAt_zero ch hB, Nat.zero_add, format.filterFrameAt_of_prefix hW,
      show ¬bytes.length < format.bytes by omega, if_false, hrest]

/-- A running bank filters a frame through its live sections, in channel order, and keeps
running with the sections that result. -/
theorem processFrame_eq {b : FilterBank} {format : SampleFormat} {live idle : List Biquad}
    (hb : b.Running format live idle) {frame : List UInt8}
    (h : live.length * format.bytes ≤ frame.length) :
    (b.processFrame frame).1 = (format.filterFrameAt 0 live frame).1 ∧
      (b.processFrame frame).2.Running format (format.filterFrameAt 0 live frame).2 idle := by
  have hs : filterSamples b.format b.channels b.active frame =
      ((format.filterFrameAt 0 live frame).1, (format.filterFrameAt 0 live frame).2 ++ idle) := by
    rw [hb.format_eq, hb.channels_eq, hb.active_eq]
    exact filterSamples_eq format live idle h
  refine ⟨congrArg Prod.fst hs, ⟨hb.format_eq, congrArg Prod.snd hs, ?_⟩⟩
  show b.active = _
  rw [hb.active_eq, SampleFormat.length_filterFrameAt_sections]

/-- `count` frames: the first, then the rest. -/
theorem processCount_succ (b : FilterBank) (stride k : Nat) (bytes : List UInt8) :
    b.processCount stride (k + 1) bytes =
      ((b.processFrame (bytes.take stride)).1 ++
          ((b.processFrame (bytes.take stride)).2.processCount stride k (bytes.drop stride)).1,
        ((b.processFrame (bytes.take stride)).2.processCount stride k (bytes.drop stride)).2) := rfl

/-- A running bank whose live sections fill a frame of `stride` bytes filters the first `k`
frames of a region as the pass over frames `0, …, k - 1`. -/
theorem processCount_eq {b : FilterBank} {format : SampleFormat} {live idle : List Biquad}
    (hb : b.Running format live idle) {stride : Nat} (hstride : live.length * format.bytes = stride)
    (k : Nat) {region : List UInt8} (h : k * stride ≤ region.length) :
    (b.processCount stride k region).1 =
        (format.sequentialPass stride (List.range k) region live).1 ∧
      (b.processCount stride k region).2.Running format
        (format.sequentialPass stride (List.range k) region live).2 idle := by
  induction k generalizing b live region with
  | zero => exact ⟨rfl, hb⟩
  | succ k ih =>
    rw [Nat.succ_mul] at h
    have htake : (region.take stride).length = stride := by simp; omega
    obtain ⟨hframe, hb'⟩ := processFrame_eq hb
      (show live.length * format.bytes ≤ (region.take stride).length by omega)
    obtain ⟨hrest, hb''⟩ := ih hb' (by simp [hstride])
      (show k * stride ≤ (region.drop stride).length by simp; omega)
    -- the first frame lies inside the first `stride` bytes, and the others are the rest of the
    -- region, one frame further on
    have hfirst := format.filterFrameAt_restrict 0 live (region.drop stride)
      (show 0 + live.length * format.bytes ≤ (region.take stride).length by omega)
    rw [List.take_append_drop] at hfirst
    have hlen : (format.filterFrameAt 0 live (region.take stride)).1.length = 1 * stride := by
      rw [format.length_filterFrameAt 0 live (by omega), htake, Nat.one_mul]
    have hspec := format.sequentialPass_shift stride 1 (List.range k) (region.drop stride)
      (format.filterFrameAt 0 live (region.take stride)).2 hlen
    have hsucc : (List.range k).map (1 + ·) = (List.range k).map Nat.succ :=
      List.map_congr_left fun v _ => by omega
    rw [hsucc] at hspec
    rw [List.range_succ_eq_map, SampleFormat.sequentialPass_cons, Nat.zero_mul, hfirst, hspec,
      processCount_succ]
    exact ⟨by rw [hframe, hrest], hb''⟩

/-- A running bank filters the whole frames of a region of `k` frames as the pass over frames
`0, …, k - 1`; with no live section there is nothing to filter either way. -/
theorem processFrames_eq {b : FilterBank} {format : SampleFormat} {live idle : List Biquad}
    (hb : b.Running format live idle) {stride : Nat} (hstride : live.length * format.bytes = stride)
    (k : Nat) {region : List UInt8} (hlen : region.length = k * stride) :
    (b.processFrames region stride).1 =
        (format.sequentialPass stride (List.range k) region live).1 ∧
      (b.processFrames region stride).2.Running format
        (format.sequentialPass stride (List.range k) region live).2 idle := by
  by_cases h0 : stride = 0
  · have hlive : live = [] := by
      have := format.bytes_pos
      cases live with
      | nil => rfl
      | cons ch live =>
        simp only [List.length_cons, h0] at hstride
        rw [Nat.succ_mul] at hstride
        omega
    subst hlive
    simp only [processFrames, h0, if_true, SampleFormat.sequentialPass_nil_sections]
    exact ⟨trivial, hb⟩
  · have hk : region.length / stride = k := by
      rw [hlen, Nat.mul_div_cancel _ (Nat.pos_of_ne_zero h0)]
    simp only [processFrames, h0, if_false, hk]
    exact processCount_eq hb hstride k (by omega)

end FilterBank

/-! ## The ring processor computes the pass -/

/-- A buffer is its bytes before `a`, the slice `[a, c)`, and its bytes from `c` on. -/
theorem eq_take_sliceRange_drop (buffer : List UInt8) {a c : Nat} (hac : a ≤ c) :
    buffer = buffer.take a ++ (sliceRange a c buffer ++ buffer.drop c) := by
  have hrest : (buffer.drop a).drop (c - a) = buffer.drop c := by
    rw [List.drop_drop, Nat.add_sub_cancel' hac]
  rw [sliceRange, ← hrest, List.take_append_drop, List.take_append_drop]

/-- Filtering the slice of frames `[a, c)` as a region and splicing the result back is the pass
over those frames on the whole buffer. -/
theorem processFrames_slice {b : FilterBank} {format : SampleFormat} {live idle : List Biquad}
    (hb : b.Running format live idle) {stride : Nat} (hstride : live.length * format.bytes = stride)
    {a c : Nat} {buffer : List UInt8} (hac : a ≤ c) (hc : c * stride ≤ buffer.length) :
    replaceRange (a * stride) (c * stride)
        (b.processFrames (sliceRange (a * stride) (c * stride) buffer) stride).1 buffer =
        (format.sequentialPass stride (List.range' a (c - a)) buffer live).1 ∧
      (b.processFrames (sliceRange (a * stride) (c * stride) buffer) stride).2.Running format
        (format.sequentialPass stride (List.range' a (c - a)) buffer live).2 idle := by
  have hle : a * stride ≤ c * stride := Nat.mul_le_mul_right _ hac
  have hM : (sliceRange (a * stride) (c * stride) buffer).length = (c - a) * stride := by
    simp only [sliceRange, List.length_take, List.length_drop, Nat.sub_mul]
    omega
  have hX : (buffer.take (a * stride)).length = a * stride := by simp; omega
  obtain ⟨hpart, hb'⟩ := FilterBank.processFrames_eq hb hstride (c - a) hM
  -- on the whole buffer: skip the frames before `a`, and stop before the bytes from `c` on
  have hpass : format.sequentialPass stride (List.range' a (c - a)) buffer live =
      (buffer.take (a * stride) ++ ((format.sequentialPass stride (List.range (c - a))
          (sliceRange (a * stride) (c * stride) buffer) live).1 ++ buffer.drop (c * stride)),
        (format.sequentialPass stride (List.range (c - a))
          (sliceRange (a * stride) (c * stride) buffer) live).2) := by
    have hshift := format.sequentialPass_shift stride a (List.range (c - a))
      (sliceRange (a * stride) (c * stride) buffer ++ buffer.drop (c * stride)) live hX
    rw [← eq_take_sliceRange_drop buffer hle] at hshift
    rw [List.range'_eq_map_range, hshift,
      format.sequentialPass_restrict stride _ live _ (Nat.le_of_eq hstride)]
    intro v hv
    rw [List.mem_range] at hv
    rw [hM]
    exact Nat.mul_le_mul_right _ hv
  rw [hpass]
  exact ⟨by rw [replaceRange, hpart, List.append_assoc], hb'⟩

/-- One run, then the others. -/
theorem filterRuns_cons (g : Geometry) (run : Run) (runs : List Run) (buffer : List UInt8)
    (bank : FilterBank) :
    filterRuns g (run :: runs) buffer bank =
      filterRuns g runs (replaceRange (run.start * g.stride) (run.stop * g.stride)
          (bank.processFrames (sliceRange (run.start * g.stride) (run.stop * g.stride) buffer)
            g.stride).1 buffer)
        (bank.processFrames (sliceRange (run.start * g.stride) (run.stop * g.stride) buffer)
          g.stride).2 := rfl

/-- A running bank filters runs of frames inside the buffer as the pass over their frames, run
after run. -/
theorem filterRuns_eq (g : Geometry) {b : FilterBank} {format : SampleFormat}
    {live idle : List Biquad} (hb : b.Running format live idle)
    (hstride : live.length * format.bytes = g.stride) (runs : List Run) {buffer : List UInt8}
    (hruns : ∀ r ∈ runs, r.start ≤ r.stop ∧ r.stop * g.stride ≤ buffer.length) :
    (filterRuns g runs buffer b).1 =
        (format.sequentialPass g.stride (runs.flatMap Run.indices) buffer live).1 ∧
      (filterRuns g runs buffer b).2.Running format
        (format.sequentialPass g.stride (runs.flatMap Run.indices) buffer live).2 idle := by
  induction runs generalizing b live buffer with
  | nil => exact ⟨rfl, hb⟩
  | cons r runs ih =>
    obtain ⟨hrs, hrb⟩ := hruns r (List.mem_cons_self ..)
    obtain ⟨hpart, hb'⟩ := processFrames_slice hb hstride hrs hrb
    -- the run keeps the buffer's length, so the later runs still fit
    have hlen : (format.sequentialPass g.stride (List.range' r.start (r.stop - r.start)) buffer
        live).1.length = buffer.length := by
      apply format.length_sequentialPass g.stride _ live (Nat.le_of_eq hstride)
      intro v hv
      rw [List.mem_range'_1] at hv
      exact Nat.le_trans (Nat.mul_le_mul_right _ (by omega)) hrb
    rw [filterRuns_cons, List.flatMap_cons, SampleFormat.sequentialPass_append, hpart]
    refine ih hb' (by simp [hstride]) ?_
    intro r' hr'
    rw [hlen]
    exact hruns r' (List.mem_cons_of_mem _ hr')

/-- Catching up on a buffer that holds the ring filters, with a running bank, exactly the pass
over the cyclic interval from the cursor to the hardware position. -/
theorem advance_eq (cursor hw : Nat) (g : Geometry) {buffer : List UInt8} {b : FilterBank}
    {format : SampleFormat} {live idle : List Biquad} (hb : b.Running format live idle)
    (hstride : live.length * format.bytes = g.stride) (hfit : g.bytes ≤ buffer.length) :
    (advance cursor hw g buffer b).buffer =
        (format.sequentialPass g.stride (cyclicInterval g.frames cursor hw) buffer live).1 ∧
      (advance cursor hw g buffer b).bank.Running format
        (format.sequentialPass g.stride (cyclicInterval g.frames cursor hw) buffer live).2 idle := by
  rw [← Region.visits_between]
  unfold advance
  rw [if_neg (by omega)]
  split
  · rename_i hidle
    rw [hidle]
    exact ⟨rfl, hb⟩
  · apply filterRuns_eq g hb hstride
    intro r hr
    obtain ⟨hrs, hrn⟩ := Region.runs_between_le cursor hw g.frames r hr
    exact ⟨hrs, Nat.le_trans (Nat.mul_le_mul_right _ hrn) hfit⟩

/-- The cursor moves to the hardware position, reduced, unless the region is idle: an empty ring
or two positions that coincide around it. -/
theorem cursor_advance (cursor hw : Nat) (g : Geometry) {buffer : List UInt8} (bank : FilterBank)
    (hfit : g.bytes ≤ buffer.length) :
    (advance cursor hw g buffer bank).cursor =
      if g.frames = 0 ∨ cursor % g.frames = hw % g.frames then cursor else hw % g.frames := by
  unfold advance
  rw [if_neg (by omega)]
  split
  · rename_i hidle
    rw [if_pos ((Region.between_eq_idle_iff cursor hw g.frames).mp hidle)]
  · rename_i hnot
    rw [if_neg (fun h => hnot ((Region.between_eq_idle_iff cursor hw g.frames).mpr h))]

/-- What catching up reports depends on the positions alone, never on the sections: nothing for
an idle region, and otherwise the region it filters. -/
theorem events_advance (cursor hw : Nat) (g : Geometry) {buffer : List UInt8} (bank : FilterBank)
    (hfit : g.bytes ≤ buffer.length) :
    (advance cursor hw g buffer bank).events =
      if Region.between cursor hw g.frames = .idle then []
      else [.filtering (Region.between cursor hw g.frames)] := by
  unfold advance
  rw [if_neg (by omega)]
  split
  · rename_i hidle
    rw [if_pos hidle]
  · rename_i hnot
    rw [if_neg hnot]

end PcmBiquad
