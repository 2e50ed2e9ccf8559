import PcmBiquad.Proofs.Recurrence
import PcmBiquad.Proofs.CatchUp
/-!
  A bank filters a frame channel by channel, in place.

  Cut a frame into containers of the bank's format (`frontChunks`). The first `active` sections
  of a bank are live, and a frame of `len` bytes holds `len / bytes` whole containers; the bank
  filters the first `m = min active (len / bytes)` of them (`FilterBank.filtered`), container `i`
  by section `i`: read, passed once through the section, and written back in its place
  (`SampleFormat.filterContainer`). The bytes from `m * bytes` on and the sections from `m` on are
  kept (`processFrame_eq_zipWith`). The bank's type keeps `active` within its sections and its
  format valid, so the loop finds a section for every live channel and never cuts a broken
  container, whatever configurations, frames and resets came before.

  Over a run of frames each channel therefore sees only its own containers
  (`channelContainers`): the containers it writes, and the section it ends with, are its own
  section's run over the samples it read (`channel_run`), whatever the other channels hold.
  Filtering a region is handing the bank its whole frames in order, the bytes of a partial frame
  at the end kept, and a stride of zero does nothing (`processFrames_eq_mapM`).
  `frames_filtered_per_channel` gathers these.
-/

namespace PcmBiquad

/-! ## Cutting bytes into pieces -/

/-- The first `count` pieces of `size` bytes at the front of `bytes`. -/
def frontChunks (size : Nat) : Nat → List UInt8 → List (List UInt8)
  | 0, _ => []
  | count + 1, bytes => bytes.take size :: frontChunks size count (bytes.drop size)

@[simp] theorem length_frontChunks (size count : Nat) (bytes : List UInt8) :
    (frontChunks size count bytes).length = count := by
  induction count generalizing bytes with
  | zero => rfl
  | succ count ih => simp [frontChunks, ih]

/-- Pieces cut from bytes that hold them all are whole. -/
theorem length_of_mem_frontChunks {size count : Nat} {bytes : List UInt8}
    (h : count * size ≤ bytes.length) {p : List UInt8} (hp : p ∈ frontChunks size count bytes) :
    p.length = size := by
  induction count generalizing bytes with
  | zero => simp [frontChunks] at hp
  | succ count ih =>
    rw [Nat.succ_mul] at h
    simp only [frontChunks, List.mem_cons] at hp
    rcases hp with rfl | hp
    · simp only [List.length_take]
      omega
    · exact ih (by simp only [List.length_drop]; omega) hp

/-- Whole pieces laid end to end are cut back out, whatever follows them. -/
theorem frontChunks_flatten_append {size : Nat} {pieces : List (List UInt8)}
    (h : ∀ p ∈ pieces, p.length = size) (rest : List UInt8) :
    frontChunks size pieces.length (pieces.flatten ++ rest) = pieces := by
  induction pieces with
  | nil => rfl
  | cons p pieces ih =>
    have hp := h p (List.mem_cons_self ..)
    simp only [List.length_cons, frontChunks, List.flatten_cons, List.append_assoc]
    rw [List.take_left' hp, List.drop_left' hp, ih fun q hq => h q (List.mem_cons_of_mem _ hq)]

/-! ## One container through one section -/

namespace SampleFormat

variable (f : SampleFormat)

/-- Section `ch` filtering a container: the container with the section's output written back,
and the section after. -/
def filterContainer (ch : Biquad) (c : List UInt8) : List UInt8 × Biquad :=
  (f.write (ch.process (f.read c)).1 c, (ch.process (f.read c)).2)

/-- A sample is read from the container's bytes alone. -/
theorem read_take (bs : List UInt8) : f.read (bs.take f.bytes) = f.read bs := by
  simp only [read, level, List.take_take, Nat.min_self]

end SampleFormat

/-! ## One frame through the bank -/

namespace FilterBank

/-- The containers a bank filters in a frame of `length` bytes: one for each live section, as
far as whole containers reach. -/
def filtered (b : FilterBank) (length : Nat) : Nat := min b.active (length / b.format.bytes)

/-- The bank's sample loop filters the first `min n (whole containers)` containers of `bytes`,
container `i` through section `i`, and keeps the other bytes and sections, as long as there is a
section for each of the `n` channels. -/
theorem filterSamples_eq_zipWith (format : SampleFormat) (chs : List Biquad) (n : Nat)
    (bytes : List UInt8) (h : n ≤ chs.length) :
    filterSamples format chs n bytes =
      (((List.zipWith format.filterContainer chs
          (frontChunks format.bytes (min n (bytes.length / format.bytes)) bytes)).map Prod.fst).flatten ++
        bytes.drop (min n (bytes.length / format.bytes) * format.bytes),
       (List.zipWith format.filterContainer chs
          (frontChunks format.bytes (min n (bytes.length / format.bytes)) bytes)).map Prod.snd ++
        chs.drop (min n (bytes.length / format.bytes))) := by
  induction chs generalizing n bytes with
  | nil =>
    obtain rfl : n = 0 := Nat.le_zero.mp h
    simp [filterSamples, frontChunks]
  | cons ch chs ih =>
    cases n with
    | zero => simp [filterSamples, frontChunks]
    | succ n =>
      have hpos := format.bytes_pos
      by_cases hb : bytes.length < format.bytes
      · -- not one whole container: nothing is filtered
        have h0 : bytes.length / format.bytes = 0 := Nat.div_eq_of_lt hb
        simp [filterSamples, hb, h0, frontChunks]
      · -- the first container goes through `ch`, the rest of the frame through the others
        have hm : min (n + 1) (bytes.length / format.bytes) =
            min n ((bytes.drop format.bytes).length / format.bytes) + 1 := by
          rw [List.length_drop, Nat.div_eq_sub_div hpos (by omega)]
          omega
        have hdrop : (min n ((bytes.drop format.bytes).length / format.bytes) + 1) * format.bytes =
            format.bytes + min n ((bytes.drop format.bytes).length / format.bytes) * format.bytes := by
          rw [Nat.succ_mul, Nat.add_comm]
        rw [hm, hdrop]
        simp only [filterSamples, if_neg hb,
          ih n (bytes.drop format.bytes) (Nat.le_of_succ_le_succ h), frontChunks,
          List.zipWith_cons_cons, List.map_cons, List.flatten_cons, List.drop_succ_cons,
          SampleFormat.filterContainer, format.read_take, List.drop_drop, List.append_assoc,
          List.cons_append]

variable (b : FilterBank) (frame : List UInt8)

@[simp] theorem active_processFrame : (b.processFrame frame).2.active = b.active := rfl

@[simp] theorem format_processFrame : (b.processFrame frame).2.format = b.format := rfl

/-- **A bank filters a frame channel by channel, in place**: container `i`, for `i` below the
number filtered, is replaced by what section `i` makes of it, and section `i` moves on by that one
sample; every later byte and section is kept. -/
theorem processFrame_eq_zipWith :
    (b.processFrame frame).1 =
        ((List.zipWith b.format.filterContainer b.channels
            (frontChunks b.format.bytes (b.filtered frame.length) frame)).map Prod.fst).flatten ++
          frame.drop (b.filtered frame.length * b.format.bytes) ∧
      (b.processFrame frame).2.channels =
        (List.zipWith b.format.filterContainer b.channels
            (frontChunks b.format.bytes (b.filtered frame.length) frame)).map Prod.snd ++
          b.channels.drop (b.filtered frame.length) := by
  have h := filterSamples_eq_zipWith b.format b.channels b.active frame b.active_le
  exact ⟨congrArg Prod.fst h, congrArg Prod.snd h⟩

/-- The bank filters one container for each section it moves on. -/
theorem length_zipWith_filterContainer :
    (List.zipWith b.format.filterContainer b.channels
      (frontChunks b.format.bytes (b.filtered frame.length) frame)).length =
        b.filtered frame.length := by
  have := b.active_le
  simp only [List.length_zipWith, length_frontChunks, filtered]
  omega

/-- The filtered frame, cut into containers, shows what each section wrote. -/
theorem frontChunks_processFrame :
    frontChunks b.format.bytes (b.filtered (b.processFrame frame).1.length) (b.processFrame frame).1 =
      (List.zipWith b.format.filterContainer b.channels
        (frontChunks b.format.bytes (b.filtered frame.length) frame)).map Prod.fst := by
  have hwhole : b.filtered frame.length * b.format.bytes ≤ frame.length := by
    have := Nat.div_mul_le_self frame.length b.format.bytes
    have := Nat.mul_le_mul_right b.format.bytes (Nat.min_le_right b.active (frame.length / b.format.bytes))
    unfold filtered
    omega
  -- every container written back is whole, so cutting the frame again finds them
  have hpieces : ∀ p ∈ (List.zipWith b.format.filterContainer b.channels
      (frontChunks b.format.bytes (b.filtered frame.length) frame)).map Prod.fst,
        p.length = b.format.bytes := by
    intro p hp
    obtain ⟨j, hj, rfl⟩ := List.mem_iff_getElem.mp hp
    have hj' : j < (frontChunks b.format.bytes (b.filtered frame.length) frame).length := by
      simp only [List.length_map, List.length_zipWith] at hj
      omega
    have hc := length_of_mem_frontChunks hwhole (List.getElem_mem hj')
    rw [List.getElem_map, List.getElem_zipWith, SampleFormat.filterContainer,
      b.format.length_write _ (Nat.le_of_eq hc.symm)]
    exact hc
  have hcut := frontChunks_flatten_append hpieces (frame.drop (b.filtered frame.length * b.format.bytes))
  rw [List.length_map, length_zipWith_filterContainer] at hcut
  rw [length_processFrame, (processFrame_eq_zipWith b frame).1]
  exact hcut

/-! ## Each channel sees only its own containers -/

/-- One call of `processFrame`, as a step of the state monad over the bank. -/
def frameStep (frame : List UInt8) : StateM FilterBank (List UInt8) :=
  modifyGet fun b => b.processFrame frame

/-- The containers of channel `i` over a run of frames: container `i` of each frame in which the
bank filters it. -/
def channelContainers (i : Nat) (frames : List (List UInt8)) : List (List UInt8) :=
  frames.filterMap fun frame => (frontChunks b.format.bytes (b.filtered frame.length) frame)[i]?

/-- Filtering a frame keeps which containers belong to which channel. -/
@[simp] theorem channelContainers_processFrame :
    (b.processFrame frame).2.channelContainers = b.channelContainers := rfl

/-- A channel whose container is filtered: the filtered frame holds what its section wrote
there, and the section has moved on by that sample. -/
theorem channel_processFrame_of_filtered {i : Nat} {c : List UInt8} {ch : Biquad}
    (hc : (frontChunks b.format.bytes (b.filtered frame.length) frame)[i]? = some c)
    (hch : b.channels[i]? = some ch) :
    (frontChunks b.format.bytes (b.filtered (b.processFrame frame).1.length)
        (b.processFrame frame).1)[i]? = some (b.format.filterContainer ch c).1 ∧
      (b.processFrame frame).2.channels[i]? = some (b.format.filterContainer ch c).2 := by
  have hi : i < (List.zipWith b.format.filterContainer b.channels
      (frontChunks b.format.bytes (b.filtered frame.length) frame)).length := by
    rw [length_zipWith_filterContainer, ← length_frontChunks b.format.bytes (b.filtered frame.length) frame]
    exact (List.getElem?_eq_some_iff.mp hc).1
  have hz : (List.zipWith b.format.filterContainer b.channels
      (frontChunks b.format.bytes (b.filtered frame.length) frame))[i]? =
        some (b.format.filterContainer ch c) := by
    rw [List.getElem?_zipWith, hch, hc]
  refine ⟨?written, ?moved⟩
  case written => rw [frontChunks_processFrame, List.getElem?_map, hz]; rfl
  case moved =>
    rw [(processFrame_eq_zipWith b frame).2, List.getElem?_append_left (by simpa using hi),
      List.getElem?_map, hz]
    rfl

/-- A channel whose container is not filtered: the filtered frame has none for it either, and
its section is kept. -/
theorem channel_processFrame_of_not_filtered {i : Nat}
    (hc : (frontChunks b.format.bytes (b.filtered frame.length) frame)[i]? = none) :
    (frontChunks b.format.bytes (b.filtered (b.processFrame frame).1.length)
        (b.processFrame frame).1)[i]? = none ∧
      (b.processFrame frame).2.channels[i]? = b.channels[i]? := by
  have hi : b.filtered frame.length ≤ i := by
    simpa using List.getElem?_eq_none_iff.mp hc
  have hlen := length_zipWith_filterContainer b frame
  refine ⟨?written, ?kept⟩
  case written =>
    rw [List.getElem?_eq_none_iff, length_processFrame, length_frontChunks]
    exact hi
  case kept =>
    rw [(processFrame_eq_zipWith b frame).2, List.getElem?_append_right (by rw [List.length_map, hlen]; exact hi),
      List.getElem?_drop, List.length_map, hlen, Nat.add_sub_cancel' hi]

/-- **Each channel's outputs depend only on its own containers.** Over any run of frames, the
containers channel `i` writes, and the section it ends with, are its own section's run over the
samples of its own containers. -/
theorem channel_run (frames : List (List UInt8)) {i : Nat} {ch : Biquad}
    (hch : b.channels[i]? = some ch) :
    b.channelContainers i ((frames.mapM frameStep).run b).1 =
        List.zipWith b.format.write
          (ch.processBlock ((b.channelContainers i frames).map b.format.read)).1
          (b.channelContainers i frames) ∧
      ((frames.mapM frameStep).run b).2.channels[i]? =
        some (ch.processBlock ((b.channelContainers i frames).map b.format.read)).2 := by
  induction frames generalizing b ch with
  | nil => exact ⟨rfl, hch⟩
  | cons frame frames ih =>
    rw [run_mapM_cons]
    show (b.processFrame frame).2.channelContainers i
        ((b.processFrame frame).1 :: ((frames.mapM frameStep).run (b.processFrame frame).2).1) = _ ∧
      ((frames.mapM frameStep).run (b.processFrame frame).2).2.channels[i]? = _
    rw [channelContainers_processFrame]
    cases hc : (frontChunks b.format.bytes (b.filtered frame.length) frame)[i]? with
    | some c =>
      -- the frame holds a container of channel `i`: its section filters it, then the rest
      obtain ⟨hc', hch'⟩ := channel_processFrame_of_filtered b frame hc hch
      obtain ⟨ih₁, ih₂⟩ := ih (b.processFrame frame).2 hch'
      rw [channelContainers_processFrame] at ih₁
      simp only [channelContainers, List.filterMap_cons, hc, hc'] at ih₁ ⊢
      rw [ih₁, ih₂]
      exact ⟨rfl, rfl⟩
    | none =>
      -- the frame holds none of channel `i`'s containers: the channel is untouched by it
      obtain ⟨hc', hch'⟩ := channel_processFrame_of_not_filtered b frame hc
      rw [hch] at hch'
      obtain ⟨ih₁, ih₂⟩ := ih (b.processFrame frame).2 hch'
      rw [channelContainers_processFrame] at ih₁
      simp only [channelContainers, List.filterMap_cons, hc, hc'] at ih₁ ⊢
      exact ⟨ih₁, ih₂⟩

/-! ## A region, frame after frame -/

/-- Filtering `count` frames of a region is handing the bank its first `count` pieces of
`stride` bytes in order, the bytes after them kept. -/
theorem processCount_eq_mapM (stride count : Nat) (bytes : List UInt8) :
    b.processCount stride count bytes =
      ((((frontChunks stride count bytes).mapM frameStep).run b).1.flatten ++
          bytes.drop (count * stride),
        (((frontChunks stride count bytes).mapM frameStep).run b).2) := by
  induction count generalizing b bytes with
  | zero =>
    rw [Nat.zero_mul, List.drop_zero]
    rfl
  | succ count ih =>
    rw [processCount_succ, frontChunks, run_mapM_cons, ih]
    simp only [List.flatten_cons, List.append_assoc, List.drop_drop, Nat.succ_mul, Nat.add_comm]
    rfl

/-- A stride of zero filters nothing. -/
theorem processFrames_zero (region : List UInt8) : b.processFrames region 0 = (region, b) := rfl

/-- Filtering a region is handing the bank its whole frames in order; the bytes of a partial
frame at the end are kept. -/
theorem processFrames_eq_mapM (region : List UInt8) {stride : Nat} (h : 0 < stride) :
    b.processFrames region stride =
      ((((frontChunks stride (region.length / stride) region).mapM frameStep).run b).1.flatten ++
          region.drop (region.length / stride * stride),
        (((frontChunks stride (region.length / stride) region).mapM frameStep).run b).2) := by
  rw [processFrames, if_neg (Nat.pos_iff_ne_zero.mp h)]
  exact b.processCount_eq_mapM stride _ region

end FilterBank

/-- **A filter bank filters frames per channel and in place.** For every bank — whatever
configurations, frames, resets and overrides led to it:

* in a frame it filters the first `m = min active (len / bytes)` containers, container `i`
  replaced by what section `i` writes for it, section `i` moved on by exactly that sample, and
  every byte from `m * bytes` on and every section from `m` on kept;
* over any run of frames, the containers each channel writes and the section it ends with are its
  own section's run over its own containers;
* filtering a region with stride zero changes nothing, and with a positive stride is filtering its
  whole frames in order, a partial frame at the end kept. -/
theorem frames_filtered_per_channel (b : FilterBank) :
    (∀ frame : List UInt8,
      (b.processFrame frame).1 =
          ((List.zipWith b.format.filterContainer b.channels
              (frontChunks b.format.bytes (b.filtered frame.length) frame)).map Prod.fst).flatten ++
            frame.drop (b.filtered frame.length * b.format.bytes) ∧
        (b.processFrame frame).2.channels =
          (List.zipWith b.format.filterContainer b.channels
              (frontChunks b.format.bytes (b.filtered frame.length) frame)).map Prod.snd ++
            b.channels.drop (b.filtered frame.length) ∧
        (b.processFrame frame).2.active = b.active ∧ (b.processFrame frame).2.format = b.format) ∧
    (∀ (frames : List (List UInt8)) (i : Nat) (ch : Biquad), b.channels[i]? = some ch →
      b.channelContainers i ((frames.mapM FilterBank.frameStep).run b).1 =
          List.zipWith b.format.write
            (ch.processBlock ((b.channelContainers i frames).map b.format.read)).1
            (b.channelContainers i frames) ∧
        ((frames.mapM FilterBank.frameStep).run b).2.channels[i]? =
          some (ch.processBlock ((b.channelContainers i frames).map b.format.read)).2) ∧
    (∀ region : List UInt8, b.processFrames region 0 = (region, b)) ∧
    (∀ (region : List UInt8) (stride : Nat), 0 < stride →
      b.processFrames region stride =
        ((((frontChunks stride (region.length / stride) region).mapM FilterBank.frameStep).run b).1.flatten ++
            region.drop (region.length / stride * stride),
          (((frontChunks stride (region.length / stride) region).mapM FilterBank.frameStep).run b).2)) :=
  ⟨fun frame => ⟨(b.processFrame_eq_zipWith frame).1, (b.processFrame_eq_zipWith frame).2, rfl, rfl⟩,
    fun frames _ _ hch => b.channel_run frames hch, b.processFrames_zero,
    fun region _ h => b.processFrames_eq_mapM region h⟩

end PcmBiquad
