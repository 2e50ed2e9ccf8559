import PcmBiquad.Proofs.Session
import PcmBiquad.Proofs.Canonical
import PcmBiquad.Proofs.SampleCodec
/-!
  A stream filter running the bypass is transparent, apart from quantisation.

  The bypass design is the identity `y = 1 · x + 0 · x₁ + 0 · x₂ - 0 · y₁ - 0 · y₂`. In single
  precision that returns `x` exactly as long as the history is finite and `x` is not a negative
  zero (`Biquad.value_output_identity`); a sample read from a container is positive zero or a
  finite number, and the history holds only such samples and outputs. `Biquad.Transparent` is
  that invariant, and a section keeps it as it filters (`Biquad.Transparent.process`), so a
  block of such samples passes through with its values (`Biquad.Transparent.processBlock`).

  A transparent section therefore filters a container by writing back what it reads
  (`SampleFormat.requantize`, decoding and encoding again in place). Writing back is idempotent
  (`requantize_requantize`) and touches one container, so a pass requantises each container of
  each frame it visits, once however often it visits it, and keeps every other byte
  (`sequentialPass_transparent`); the bank's own loop does the same for each whole container of an
  active channel (`filterSamples_transparent`). At 25 bits or fewer, writing back clears the bits
  below the sample and nothing else (`requantize_of_depth_le`). `bypass_is_transparent` collects
  it for a configured stream filter and for a bank.
-/

namespace PcmBiquad

open Float.Model (UnpackedFloat)
open Float.Model.UnpackedFloat

/-! ## A bypass section passes a value through -/

namespace Single

/-- Adding zero times a number that is neither infinite nor NaN changes nothing, except to a
negative zero. -/
theorem value_add_zero_mul {x z : Float32} (hz : z.isFinite = true) (hx : value x ≠ .zero .negative) :
    value (x + 0 * z) = value x := by
  obtain ⟨s, hs⟩ := value_zero_mul hz
  exact value_add_of_zero hs hx

/-- Subtracting zero times a number that is neither infinite nor NaN changes nothing, except to a
negative zero. -/
theorem value_sub_zero_mul {x z : Float32} (hz : z.isFinite = true) (hx : value x ≠ .zero .negative) :
    value (x - 0 * z) = value x := by
  obtain ⟨s, hs⟩ := value_zero_mul hz
  exact value_sub_of_zero hs hx

theorem isFinite_of_value_eq {x y : Float32} (h : value x = value y) : x.isFinite = y.isFinite := by
  show (value x).isFinite = (value y).isFinite
  rw [h]

end Single

/-- A bypass section whose history holds only numbers that are neither infinite nor NaN, as a
section has after passing samples read from containers since it was cleared. -/
structure Biquad.Transparent (ch : Biquad) : Prop where
  kind_eq : ch.kind = .bypass
  x1_finite : ch.history.x1.isFinite = true
  x2_finite : ch.history.x2.isFinite = true
  y1_finite : ch.history.y1.isFinite = true
  y2_finite : ch.history.y2.isFinite = true

namespace Biquad

/-- A cleared bypass section is transparent. -/
theorem transparent_of_silent {ch : Biquad} (hk : ch.kind = .bypass) (hh : ch.history = .silent) :
    ch.Transparent :=
  ⟨hk, by rw [hh]; rfl, by rw [hh]; rfl, by rw [hh]; rfl, by rw [hh]; rfl⟩

/-- **The identity recurrence returns its input**, whatever finite history it holds: every term
but `1 · x` is a zero, and adding a zero keeps any value but a negative zero. -/
theorem value_output_identity (h : History) {x : Float32} (hx : Single.value x ≠ .zero .negative)
    (h1 : h.x1.isFinite = true) (h2 : h.x2.isFinite = true) (h3 : h.y1.isFinite = true)
    (h4 : h.y2.isFinite = true) : Single.value (output .identity h x) = Single.value x := by
  show Single.value (1 * x + 0 * h.x1 + 0 * h.x2 - 0 * h.y1 - 0 * h.y2) = _
  have e1 : Single.value (1 * x) = Single.value x := Single.value_one_mul x
  have e2 : Single.value (1 * x + 0 * h.x1) = Single.value x :=
    (Single.value_add_zero_mul h1 (by rw [e1]; exact hx)).trans e1
  have e3 : Single.value (1 * x + 0 * h.x1 + 0 * h.x2) = Single.value x :=
    (Single.value_add_zero_mul h2 (by rw [e2]; exact hx)).trans e2
  have e4 : Single.value (1 * x + 0 * h.x1 + 0 * h.x2 - 0 * h.y1) = Single.value x :=
    (Single.value_sub_zero_mul h3 (by rw [e3]; exact hx)).trans e3
  exact (Single.value_sub_zero_mul h4 (by rw [e4]; exact hx)).trans e4

/-- A transparent section passes a finite sample that is not a negative zero through with its
value, and stays transparent. -/
theorem Transparent.process {ch : Biquad} (hch : ch.Transparent) {x : Float32}
    (hx : Single.value x ≠ .zero .negative) (hxf : x.isFinite = true) :
    Single.value (ch.process x).1 = Single.value x ∧ (ch.process x).2.Transparent := by
  have hc : ch.coefficients = .identity := by
    rw [ch.coefficients_eq, hch.kind_eq]
    rfl
  have hy : Single.value (ch.process x).1 = Single.value x := by
    show Single.value (output ch.coefficients ch.history x) = _
    rw [hc]
    exact value_output_identity _ hx hch.x1_finite hch.x2_finite hch.y1_finite hch.y2_finite
  refine ⟨hy, ⟨hch.kind_eq, hxf, hch.x1_finite, ?_, hch.y1_finite⟩⟩
  show (ch.process x).1.isFinite = true
  rw [Single.isFinite_of_value_eq hy, hxf]

/-- A transparent section passes a block of finite samples, none of them a negative zero,
through with their values, and stays transparent: on such input the bypass is exact however long
it has run since it was cleared. -/
theorem Transparent.processBlock {ch : Biquad} (hch : ch.Transparent) {xs : List Float32}
    (hxs : ∀ x ∈ xs, x.isFinite = true ∧ Single.value x ≠ .zero .negative) :
    (ch.processBlock xs).1.map Single.value = xs.map Single.value ∧
      (ch.processBlock xs).2.Transparent := by
  induction xs generalizing ch with
  | nil => exact ⟨rfl, hch⟩
  | cons x xs ih =>
    -- the step lemma for the first sample, then the rest from the section it leaves
    obtain ⟨hxf, hx⟩ := hxs x (List.mem_cons_self ..)
    obtain ⟨hy, hch'⟩ := hch.process hx hxf
    obtain ⟨hrest, hend⟩ := ih hch' fun y hy => hxs y (List.mem_cons_of_mem _ hy)
    refine ⟨?_, hend⟩
    show Single.value (ch.process x).1 :: ((ch.process x).2.processBlock xs).1.map Single.value = _
    rw [hy, hrest, List.map_cons]

end Biquad

namespace SampleFormat

variable (f : SampleFormat)

/-! ## Writing back what a container reads -/

/-- A sample read is never a negative zero: it is positive zero or a finite number. -/
theorem value_read_ne (bs : List UInt8) : Single.value (f.read bs) ≠ .zero .negative := by
  by_cases h0 : f.level bs = 0
  · rw [f.value_read_of_zero h0]
    exact fun h => nomatch h
  · obtain ⟨m, e, h, -, -, -, hread⟩ := f.value_read h0
    rw [hread]
    exact fun h => nomatch h

/-- A sample read is neither infinite nor NaN. -/
theorem isFinite_read (bs : List UInt8) : (f.read bs).isFinite = true := by
  show (Single.value (f.read bs)).isFinite = true
  by_cases h0 : f.level bs = 0
  · rw [f.value_read_of_zero h0]
    rfl
  · obtain ⟨m, e, h, -, -, -, hread⟩ := f.value_read h0
    rw [hread]
    rfl

/-- Storing reads a value only through the number it denotes. -/
theorem levelOf_congr {x y : Float32} (h : Single.value x = Single.value y) :
    f.levelOf x = f.levelOf y := by
  unfold levelOf
  apply Single.truncClamp_congr
  rw [Single.value_mul, Single.value_mul, h]

/-- The container at the front of `c` written back as it reads: the sample is decoded and encoded
again in place. -/
def requantize (c : List UInt8) : List UInt8 := f.write (f.read c) c

/-- Byte `i` of `buf` once the container holding it — the one starting at `i / bytes * bytes` —
is written back as it reads. -/
def requantizedAt? (buf : List UInt8) (i : Nat) : Option UInt8 :=
  (f.requantize ((buf.drop (i / f.bytes * f.bytes)).take f.bytes))[i % f.bytes]?

/-- Writing twice over one container is writing the second value. -/
theorem write_write (x y : Float32) (bs : List UInt8) : f.write x (f.write y bs) = f.write x bs := by
  unfold write
  rw [List.drop_left' (length_littleEndianBytes _ _)]

/-- **Writing back what a container reads is idempotent.** -/
theorem requantize_requantize (c : List UInt8) : f.requantize (f.requantize c) = f.requantize c := by
  unfold requantize
  rw [f.write_read_write, write_write]

theorem length_requantize {c : List UInt8} (h : f.bytes ≤ c.length) : (f.requantize c).length = c.length :=
  f.length_write _ h

/-- Only the container at the front takes part. -/
theorem requantize_append {c : List UInt8} (rest : List UInt8) (h : f.bytes ≤ c.length) :
    f.requantize (c ++ rest) = f.requantize c ++ rest := by
  unfold requantize
  rw [f.read_append rest h, f.write_append _ rest h]

/-- Two buffers that agree on `n` bytes from `o` have the same slice there. -/
theorem take_drop_eq_of_getElem? {xs ys : List UInt8} {o n : Nat}
    (h : ∀ t < n, xs[o + t]? = ys[o + t]?) : (xs.drop o).take n = (ys.drop o).take n := by
  apply List.ext_getElem?
  intro t
  rw [List.getElem?_take, List.getElem?_take, List.getElem?_drop, List.getElem?_drop]
  split
  · exact h t ‹_›
  · rfl

/-- Writing back the container at the front of `bs` touches only that container. -/
theorem requantize_eq_take_append {bs : List UInt8} (h : f.bytes ≤ bs.length) :
    f.requantize bs = f.requantize (bs.take f.bytes) ++ bs.drop f.bytes := by
  conv => lhs; rw [← List.take_append_drop f.bytes bs]
  exact f.requantize_append _ (by simp; omega)

theorem length_requantize_take {bs : List UInt8} (h : f.bytes ≤ bs.length) :
    (f.requantize (bs.take f.bytes)).length = f.bytes := by
  rw [f.length_requantize (by simp; omega)]
  simp
  omega

/-- Byte `i` of the buffer with its `k`-th container written back as it reads: that container's
bytes are requantised, every other byte is kept. -/
theorem getElem?_requantize_at {k : Nat} {buf : List UInt8} (h : (k + 1) * f.bytes ≤ buf.length)
    (i : Nat) :
    (buf.take (k * f.bytes) ++ f.requantize (buf.drop (k * f.bytes)))[i]? =
      if i / f.bytes = k then f.requantizedAt? buf i else buf[i]? := by
  have hn := f.bytes_pos
  rw [Nat.succ_mul] at h
  have hd : f.bytes ≤ (buf.drop (k * f.bytes)).length := by simp; omega
  have hq := f.length_requantize_take hd
  have htake : (buf.take (k * f.bytes)).length = k * f.bytes := by simp; omega
  have hdm := Nat.mod_add_div i f.bytes
  rw [f.requantize_eq_take_append hd, ← List.append_assoc]
  rcases lt_trichotomy (i / f.bytes) k with hlt | heq | hgt
  · -- before the container
    have hi : i < k * f.bytes := (Nat.div_lt_iff_lt_mul hn).1 hlt
    rw [if_neg (Nat.ne_of_lt hlt), List.getElem?_append_left (by simp; omega),
      List.getElem?_append_left (by omega), List.getElem?_take_of_lt hi]
  · -- inside it: the byte `i % bytes` of the container requantised
    have hi := (Nat.div_eq_iff hn).1 heq
    have hmod : i % f.bytes = i - k * f.bytes := by
      rw [heq, Nat.mul_comm] at hdm
      omega
    rw [if_pos heq]
    unfold requantizedAt?
    rw [heq, hmod, List.getElem?_append_left (by rw [List.length_append, htake, hq]; omega),
      List.getElem?_append_right (by rw [htake]; omega), htake]
  · -- after it
    have hi : (k + 1) * f.bytes ≤ i := (Nat.le_div_iff_mul_le hn).1 hgt
    rw [Nat.succ_mul] at hi
    rw [if_neg (Nat.ne_of_gt hgt), List.getElem?_append_right (by simp; omega), List.length_append,
      htake, hq, List.getElem?_drop, List.getElem?_drop]
    congr 1
    omega

/-- Requantising one container leaves what requantising gives for every byte: its own container
is idempotent, and the others are untouched. -/
theorem requantizedAt?_requantize_at {k : Nat} {buf : List UInt8}
    (h : (k + 1) * f.bytes ≤ buf.length) (i : Nat) :
    f.requantizedAt? (buf.take (k * f.bytes) ++ f.requantize (buf.drop (k * f.bytes))) i =
      f.requantizedAt? buf i := by
  have hn := f.bytes_pos
  have hk : k * f.bytes + f.bytes ≤ buf.length := by rwa [Nat.succ_mul] at h
  have hd : f.bytes ≤ (buf.drop (k * f.bytes)).length := by simp; omega
  unfold requantizedAt?
  by_cases hj : i / f.bytes = k
  · -- its own container, requantised once more
    rw [hj, List.drop_left' (by simp; omega), f.requantize_eq_take_append hd,
      List.take_left' (f.length_requantize_take hd), f.requantize_requantize]
  · -- another container: none of its bytes is in the one requantised
    rw [take_drop_eq_of_getElem? fun t ht => ?_]
    rw [f.getElem?_requantize_at h, if_neg]
    rw [Nat.div_eq_of_lt_le (by rw [Nat.mul_comm]; omega) (by rw [Nat.succ_mul]; omega)]
    exact hj

/-! ## Filtering with transparent sections -/

/-- A transparent section filters a container by writing back what it reads, and stays
transparent. -/
theorem filterAt_transparent {ch : Biquad} (hch : ch.Transparent) (o : Nat) (buf : List UInt8) :
    (f.filterAt o ch buf).1 = buf.take o ++ f.requantize (buf.drop o) ∧
      (f.filterAt o ch buf).2.Transparent := by
  obtain ⟨hy, hch'⟩ := hch.process (f.value_read_ne (buf.drop o)) (f.isFinite_read _)
  refine ⟨?_, hch'⟩
  show buf.take o ++ f.write (ch.process (f.read (buf.drop o))).1 (buf.drop o) = _
  rw [f.write_congr (f.levelOf_congr hy)]
  rfl

/-- **A frame of transparent sections requantises its containers.** Filtering the frame whose
first container is the `k`-th requantises the containers `k, …, k + channels - 1` and keeps every
other byte; what requantising gives is unchanged, and the sections stay transparent. -/
theorem filterFrameAt_transparent {k : Nat} {chs : List Biquad} (hchs : ∀ ch ∈ chs, ch.Transparent)
    (buf : List UInt8) (h : (k + chs.length) * f.bytes ≤ buf.length) :
    (∀ i, (f.filterFrameAt (k * f.bytes) chs buf).1[i]? =
        if k ≤ i / f.bytes ∧ i / f.bytes < k + chs.length then f.requantizedAt? buf i else buf[i]?) ∧
      (∀ i, f.requantizedAt? (f.filterFrameAt (k * f.bytes) chs buf).1 i = f.requantizedAt? buf i) ∧
      ∀ ch ∈ (f.filterFrameAt (k * f.bytes) chs buf).2, ch.Transparent := by
  induction chs generalizing k buf with
  | nil =>
    refine ⟨fun i => ?_, fun i => rfl, fun ch hch => nomatch hch⟩
    rw [if_neg (by simp)]
    rfl
  | cons ch chs ih =>
    simp only [List.length_cons] at h
    have hk : (k + 1) * f.bytes ≤ buf.length := Nat.le_trans
      (Nat.mul_le_mul_right _ (by omega)) h
    obtain ⟨hbuf, hch'⟩ := f.filterAt_transparent (hchs ch (List.mem_cons_self ..)) (k * f.bytes) buf
    have hlen := f.length_filterAt ch (show k * f.bytes + f.bytes ≤ buf.length by
      rwa [Nat.succ_mul] at hk)
    -- the rest of the frame starts one container on, in the buffer with the first requantised
    obtain ⟨hget, hre, hts⟩ := ih (k := k + 1) (fun c hc => hchs c (List.mem_cons_of_mem _ hc))
      (f.filterAt (k * f.bytes) ch buf).1 (by rw [hlen]; rwa [Nat.add_assoc, Nat.add_comm 1])
    simp only [filterFrameAt, ← Nat.succ_mul]
    refine ⟨fun i => ?_, fun i => ?_, ?_⟩
    · rw [hget, hbuf, f.getElem?_requantize_at hk, f.requantizedAt?_requantize_at hk,
        List.length_cons]
      by_cases hi : i / f.bytes = k
      · rw [if_pos hi, if_neg (by omega), if_pos (by omega)]
      · rw [if_neg hi]
        by_cases hj : k + 1 ≤ i / f.bytes ∧ i / f.bytes < k + 1 + chs.length
        · rw [if_pos hj, if_pos (by omega)]
        · rw [if_neg hj, if_neg (by omega)]
    · rw [hre, hbuf, f.requantizedAt?_requantize_at hk]
    · intro c hc
      rcases List.mem_cons.1 hc with rfl | hc
      · exact hch'
      · exact hts c hc

/-- **A pass of transparent sections requantises the frames it visits.** With `c` sections filling
a frame of `c · bytes` bytes, a pass over frames inside the buffer requantises every container of
a visited frame — once, however often the frame is visited — and keeps every other byte. -/
theorem sequentialPass_transparent {c : Nat} (vs : List Nat) {chs : List Biquad}
    (hchs : ∀ ch ∈ chs, ch.Transparent) (hc : chs.length = c) (buf : List UInt8)
    (h : ∀ v ∈ vs, (v + 1) * (c * f.bytes) ≤ buf.length) :
    (∀ i, (f.sequentialPass (c * f.bytes) vs buf chs).1[i]? =
        if ∃ v ∈ vs, v * c ≤ i / f.bytes ∧ i / f.bytes < (v + 1) * c then f.requantizedAt? buf i
        else buf[i]?) ∧
      (∀ i, f.requantizedAt? (f.sequentialPass (c * f.bytes) vs buf chs).1 i = f.requantizedAt? buf i) ∧
      ∀ ch ∈ (f.sequentialPass (c * f.bytes) vs buf chs).2, ch.Transparent := by
  induction vs generalizing buf chs with
  | nil =>
    refine ⟨fun i => ?_, fun i => rfl, hchs⟩
    rw [if_neg (by simp)]
    rfl
  | cons v vs ih =>
    have hv : (v * c + chs.length) * f.bytes ≤ buf.length := by
      rw [hc, ← Nat.succ_mul, Nat.mul_assoc]
      exact h v (List.mem_cons_self ..)
    obtain ⟨hget, hre, hts⟩ := f.filterFrameAt_transparent hchs buf hv
    have hlen := f.length_filterFrameAt (v * c * f.bytes) chs (by rw [← Nat.add_mul]; exact hv)
    -- the later frames see the buffer with this one requantised
    obtain ⟨hget', hre', hts'⟩ := ih hts (by rw [length_filterFrameAt_sections, hc])
      (f.filterFrameAt (v * c * f.bytes) chs buf).1
      (fun w hw => by rw [hlen]; exact h w (List.mem_cons_of_mem _ hw))
    simp only [sequentialPass_cons, ← Nat.mul_assoc]
    refine ⟨fun i => ?_, fun i => by rw [hre', hre], hts'⟩
    rw [hget', hre, hget, hc]
    have hsucc : (v + 1) * c = v * c + c := Nat.succ_mul v c
    by_cases hw : ∃ w ∈ vs, w * c ≤ i / f.bytes ∧ i / f.bytes < (w + 1) * c
    · obtain ⟨w, hw', hwi⟩ := hw
      rw [if_pos ⟨w, hw', hwi⟩, if_pos ⟨w, List.mem_cons_of_mem _ hw', hwi⟩]
    · rw [if_neg hw]
      by_cases hi : v * c ≤ i / f.bytes ∧ i / f.bytes < v * c + c
      · rw [if_pos hi, if_pos ⟨v, List.mem_cons_self .., by rw [hsucc]; exact hi⟩]
      · rw [if_neg hi, if_neg]
        rintro ⟨w, hw', hwi⟩
        rcases List.mem_cons.1 hw' with rfl | hw'
        · exact hi (by rw [← hsucc]; exact hwi)
        · exact hw ⟨w, hw', hwi⟩

/-- What requantising gives past the first container is what it gives on the rest. -/
theorem requantizedAt?_drop (bytes : List UInt8) (j : Nat) :
    f.requantizedAt? (bytes.drop f.bytes) j = f.requantizedAt? bytes (j + f.bytes) := by
  have hn := f.bytes_pos
  unfold requantizedAt?
  rw [Nat.add_div_right _ hn, Nat.add_mod_right, List.drop_drop, Nat.succ_mul, Nat.add_comm f.bytes]

/-- **The bank's sample loop with transparent sections requantises.** Filtering the samples at the
front of `bytes` with sections of which the first `count` are transparent requantises each whole
container the loop reaches — the first `min count sections` — and keeps every other byte; the
sections it ran stay transparent. -/
theorem filterSamples_transparent (chs : List Biquad) (count : Nat)
    (hchs : ∀ ch ∈ chs.take count, ch.Transparent) (bytes : List UInt8) :
    (∀ i, (FilterBank.filterSamples f chs count bytes).1[i]? =
        if i / f.bytes < min count chs.length ∧ (i / f.bytes + 1) * f.bytes ≤ bytes.length then
          f.requantizedAt? bytes i
        else bytes[i]?) ∧
      ∀ ch ∈ (FilterBank.filterSamples f chs count bytes).2.take count, ch.Transparent := by
  have hn := f.bytes_pos
  induction chs generalizing count bytes with
  | nil =>
    refine ⟨fun i => ?_, fun ch hch => ?_⟩
    · rw [if_neg (by simp)]
      cases count <;> rfl
    · cases count <;> simp [FilterBank.filterSamples] at hch
  | cons ch chs ih =>
    cases count with
    | zero =>
      refine ⟨fun i => ?_, fun ch hch => ?_⟩
      · rw [if_neg (by simp)]
        rfl
      · simp at hch
    | succ count =>
      by_cases hshort : bytes.length < f.bytes
      · -- a partial container is left alone
        have hrun : FilterBank.filterSamples f (ch :: chs) (count + 1) bytes = (bytes, ch :: chs) := by
          simp only [FilterBank.filterSamples, if_pos hshort]
        rw [hrun]
        refine ⟨fun i => ?_, hchs⟩
        rw [if_neg]
        rintro ⟨-, hi⟩
        rw [Nat.succ_mul] at hi
        omega
      · -- the first container is requantised, the rest of the frame goes to the other sections
        obtain ⟨hy, hch'⟩ := (hchs ch (List.mem_cons_self ..)).process (f.value_read_ne bytes)
          (f.isFinite_read bytes)
        obtain ⟨hget, hts⟩ := ih count (fun c hc => hchs c (List.mem_cons_of_mem _ hc))
          (bytes.drop f.bytes)
        have hread : f.read bytes = f.read (bytes.take f.bytes) := by
          conv => lhs; rw [← List.take_append_drop f.bytes bytes]
          exact f.read_append _ (by simp; omega)
        have hq := f.length_requantize_take (show f.bytes ≤ bytes.length by omega)
        have hrun : FilterBank.filterSamples f (ch :: chs) (count + 1) bytes =
            (f.requantize (bytes.take f.bytes) ++
                (FilterBank.filterSamples f chs count (bytes.drop f.bytes)).1,
              (ch.process (f.read bytes)).2 ::
                (FilterBank.filterSamples f chs count (bytes.drop f.bytes)).2) := by
          simp only [FilterBank.filterSamples, if_neg hshort]
          rw [f.write_congr (f.levelOf_congr hy), hread]
          rfl
        rw [hrun]
        refine ⟨fun i => ?_, fun c hc => ?_⟩
        · by_cases hi : i < f.bytes
          · have hdiv : i / f.bytes = 0 := Nat.div_eq_of_lt hi
            rw [List.getElem?_append_left (by omega), if_pos (by simp [hdiv]; omega)]
            unfold requantizedAt?
            rw [hdiv, Nat.zero_mul, List.drop_zero, Nat.mod_eq_of_lt hi]
          · obtain ⟨j, rfl⟩ : ∃ j, i = j + f.bytes := ⟨i - f.bytes, by omega⟩
            rw [List.getElem?_append_right (by omega), hq, Nat.add_sub_cancel, hget,
              f.requantizedAt?_drop, List.getElem?_drop, Nat.add_div_right _ hn, List.length_drop]
            simp only [List.length_cons, Nat.succ_mul, Nat.add_comm f.bytes j]
            congr 1
            apply propext
            omega
        · rcases List.mem_cons.1 hc with rfl | hc
          · exact hch'
          · exact hts c hc

/-! ## Requantising at 25 bits or fewer -/

/-- Bytes read as a number and written back are the bytes. -/
theorem littleEndianBytes_littleEndian (bs : List UInt8) :
    littleEndianBytes bs.length (littleEndian bs) = bs := by
  induction bs with
  | nil => rfl
  | cons b bs ih =>
    have hb := b.toNat_lt
    simp only [List.length_cons, littleEndianBytes, littleEndian]
    rw [show (b.toNat + 256 * littleEndian bs) / 256 = littleEndian bs by omega, ih,
      show (b.toNat + 256 * littleEndian bs) % 256 = b.toNat by omega, UInt8.ofNat_toNat]

/-- **At 25 bits or fewer, requantising clears the low bits.** A container written back as it
reads holds its own word with the `shift` bits below the sample cleared. -/
theorem requantize_of_depth_le {c : List UInt8} (hd : f.depth ≤ 25) (hc : c.length = f.bytes) :
    f.requantize c = littleEndianBytes f.bytes (littleEndian c / 2 ^ f.shift * 2 ^ f.shift) := by
  obtain ⟨-, hhi, hbits⟩ := f.level_spec c
  have hS : ((2 ^ f.shift : Nat) : Int) = 2 ^ f.shift := Int.natCast_pow 2 _
  rw [List.take_of_length_le (Nat.le_of_eq hc)] at hbits
  unfold requantize
  rw [f.write_read, f.roundInt_level hd, Int.min_eq_left hhi,
    List.drop_eq_nil_of_le (Nat.le_of_eq hc), List.append_nil]
  congr 1
  -- the level, shifted into place, is the container's top bits over clear low bits
  rw [f.mul_shift_emod, hbits, ← hS, ← Int.natCast_mul, Int.toNat_natCast]

/-- A container whose low bits are clear is left as it was. -/
theorem requantize_of_low_bits {c : List UInt8} (hd : f.depth ≤ 25) (hc : c.length = f.bytes)
    (hlow : littleEndian c % 2 ^ f.shift = 0) : f.requantize c = c := by
  rw [f.requantize_of_depth_le hd hc, Nat.div_mul_cancel (Nat.dvd_of_mod_eq_zero hlow), ← hc,
    littleEndianBytes_littleEndian]

/-- A byte of a whole container whose low bits are clear requantises to itself. -/
theorem requantizedAt?_of_low_bits {buf : List UInt8} {i : Nat} (hd : f.depth ≤ 25)
    (hi : (i / f.bytes + 1) * f.bytes ≤ buf.length)
    (hlow : littleEndian ((buf.drop (i / f.bytes * f.bytes)).take f.bytes) % 2 ^ f.shift = 0) :
    f.requantizedAt? buf i = buf[i]? := by
  have hn := f.bytes_pos
  have hdm := Nat.mod_add_div i f.bytes
  unfold requantizedAt?
  rw [f.requantize_of_low_bits hd (by simp; rw [Nat.succ_mul] at hi; omega) hlow,
    List.getElem?_take_of_lt (Nat.mod_lt _ hn), List.getElem?_drop]
  congr 1
  rw [Nat.mul_comm] at hdm
  omega

end SampleFormat

/-! ## A bank of transparent sections -/

namespace FilterBank

/-- A bank whose active sections are all transparent. -/
def Transparent (b : FilterBank) : Prop := ∀ ch ∈ b.channels.take b.active, ch.Transparent

/-- The banks `b₀` reaches by filtering frames, one `processFrame` after another. -/
inductive Reaches (b₀ : FilterBank) : FilterBank → Prop
  | refl : Reaches b₀ b₀
  | step {b : FilterBank} (frame : List UInt8) : Reaches b₀ b → Reaches b₀ (b.processFrame frame).2

/-- A bank of transparent sections filters a frame by requantising each whole container of an
active channel, and stays transparent. -/
theorem processFrame_transparent {b : FilterBank} (hb : b.Transparent) (frame : List UInt8) :
    (∀ i, (b.processFrame frame).1[i]? =
        if i / b.format.bytes < b.active ∧ (i / b.format.bytes + 1) * b.format.bytes ≤ frame.length
        then b.format.requantizedAt? frame i else frame[i]?) ∧
      (b.processFrame frame).2.Transparent := by
  obtain ⟨hget, hts⟩ := b.format.filterSamples_transparent b.channels b.active hb frame
  rw [Nat.min_eq_left b.active_le] at hget
  exact ⟨hget, hts⟩

/-- Filtering frames keeps a bank transparent. -/
theorem Reaches.transparent {b₀ b : FilterBank} (h₀ : b₀.Transparent) (h : b₀.Reaches b) :
    b.Transparent := by
  induction h with
  | refl => exact h₀
  | step frame _ ih => exact (processFrame_transparent ih frame).2

end FilterBank

/-- Byte `i` lies in frame `v` of `c` containers of `n` bytes exactly when its container does. -/
theorem frame_iff {n c v i : Nat} (hn : 0 < n) :
    v * c ≤ i / n ∧ i / n < (v + 1) * c ↔ v * (c * n) ≤ i ∧ i < (v + 1) * (c * n) := by
  rw [Nat.le_div_iff_mul_le hn, Nat.div_lt_iff_lt_mul hn, Nat.mul_assoc, Nat.mul_assoc]

/-- **A bypass stream is transparent apart from quantisation.** After a stream filter accepts a
configuration running the bypass — at any cutoff and any sample rate — for the stream `s`, whose
samples have the format `format`:

* any sequence of position queries on a ring buffer changes it only by writing back each
  container of a visited frame as it reads, and a frame visited again, on a later lap, changes no
  further: writing back is idempotent;
* at 25 bits or fewer, writing back clears the container's `shift` low bits, so a buffer whose
  containers have clear low bits is left byte for byte as it was;
* a bank whose active sections run the bypass from a cleared history filters each frame, after
  any frames before it, by writing back the whole containers of its active channels. -/
theorem bypass_is_transparent {sf₀ : StreamFilter} {log : List Event} {s : StreamConfig}
    {filter : FilterConfig} {u : Unit} {w : Logged StreamFilter} {format : SampleFormat}
    (hconf : (StreamFilter.configure s filter).run ⟨sf₀, log⟩ = .ok u w)
    (hkind : filter.kind = .bypass) (hfmt : s.format? = .ok format) (buffer : List UInt8)
    (qs : List Query) :
    (∀ i, (w.obj.session buffer (qs.map .query)).2.2[i]? =
        if ∃ v ∈ visitsFrom (ringFrames buffer.length s.stride) 0
            (qs.map (Query.target buffer.length s.stride)), v * s.stride ≤ i ∧ i < (v + 1) * s.stride
        then format.requantizedAt? buffer i else buffer[i]?) ∧
      (∀ c, format.requantize (format.requantize c) = format.requantize c) ∧
      (format.depth ≤ 25 → ∀ c, c.length = format.bytes →
        format.requantize c =
          littleEndianBytes format.bytes (littleEndian c / 2 ^ format.shift * 2 ^ format.shift)) ∧
      (format.depth ≤ 25 →
        (∀ j, (j + 1) * format.bytes ≤ buffer.length →
          littleEndian ((buffer.drop (j * format.bytes)).take format.bytes) % 2 ^ format.shift = 0) →
        (w.obj.session buffer (qs.map .query)).2.2 = buffer) ∧
      ∀ (b₀ b : FilterBank) (frame : List UInt8) (i : Nat),
        (∀ ch ∈ b₀.channels.take b₀.active, ch.kind = .bypass ∧ ch.history = .silent) →
        b₀.Reaches b → (b.processFrame frame).1[i]? =
          if i / b.format.bytes < b.active ∧ (i / b.format.bytes + 1) * b.format.bytes ≤ frame.length
          then b.format.requantizedAt? frame i else frame[i]? := by
  obtain ⟨format', hc, hcursor, -⟩ := StreamFilter.configured_of_configure_eq_ok hconf
  obtain rfl : format = format' := by
    have := hc.format_eq
    rw [hfmt] at this
    cases this
    rfl
  have hn := format.bytes_pos
  have hcur : ringFrames buffer.length s.stride = 0 ∨
      w.obj.cursor < ringFrames buffer.length s.stride := by
    rw [hcursor]
    omega
  -- the queries are one pass, of fresh bypass sections filling a frame of `s.channels` containers
  have hsession := StreamFilter.session_queries_eq hc buffer qs hcur
  rw [hcursor] at hsession
  have hlive : ∀ ch ∈ List.replicate s.channels
      (Biquad.make filter.kind (Float32.ofNat s.rate) filter.cutoff), ch.Transparent := by
    intro ch hch
    rw [List.eq_of_mem_replicate hch]
    exact Biquad.transparent_of_silent hkind rfl
  have hstride : s.stride = s.channels * format.bytes := by
    rw [← hc.stride_eq, List.length_replicate]
  obtain ⟨hget, -, -⟩ := format.sequentialPass_transparent
    (visitsFrom (ringFrames buffer.length s.stride) 0 (qs.map (·.target buffer.length s.stride)))
    hlive (List.length_replicate ..) buffer fun v hv => by
      rw [← hstride]
      exact succ_mul_le_of_lt_ringFrames (lt_of_mem_visitsFrom hv)
  rw [← hstride] at hget
  have hpoint : ∀ i, (w.obj.session buffer (qs.map .query)).2.2[i]? =
      if ∃ v ∈ visitsFrom (ringFrames buffer.length s.stride) 0
          (qs.map (Query.target buffer.length s.stride)), v * s.stride ≤ i ∧ i < (v + 1) * s.stride
      then format.requantizedAt? buffer i else buffer[i]? := by
    intro i
    rw [hsession, hget]
    simp only [frame_iff hn, ← hstride]
  refine ⟨hpoint, format.requantize_requantize, fun hd c hc => format.requantize_of_depth_le hd hc,
    fun hd hlow => ?_, fun b₀ b frame i h₀ hreach => ?_⟩
  · -- each visited container already holds what writing back gives
    apply List.ext_getElem?
    intro i
    rw [hpoint]
    split
    · rename_i hv
      obtain ⟨v, hv, hvi⟩ := hv
      have hin : (i / format.bytes + 1) * format.bytes ≤ buffer.length := by
        rw [hstride] at hvi
        rw [← frame_iff hn] at hvi
        have hframe := succ_mul_le_of_lt_ringFrames (lt_of_mem_visitsFrom hv)
        rw [hstride, ← Nat.mul_assoc] at hframe
        exact Nat.le_trans (Nat.mul_le_mul_right _ (by omega)) hframe
      exact format.requantizedAt?_of_low_bits hd hin (hlow _ hin)
    · rfl
  · have h₀' : b₀.Transparent := fun ch hch =>
      Biquad.transparent_of_silent (h₀ ch hch).1 (h₀ ch hch).2
    exact (FilterBank.processFrame_transparent (hreach.transparent h₀') frame).1 i

/-- A fresh one-channel filter configured for the bypass on 16-bit samples in 2-byte containers,
asked to catch up with frame 3 and with the frame of byte 2 of a silent 8-byte ring: the silence
has clear low bits and is left as it was. -/
theorem mono_bypass_is_transparent :
    (StreamFilter.configure ⟨1, 16, 2, 48000⟩ { kind := .bypass }).run
        ⟨StreamFilter.make 1 { kind := .bypass }, []⟩ =
        .ok () ⟨⟨(StreamFilter.make 1 { kind := .bypass }).bank.activate 1
            ⟨2, 16, by decide, by decide, by decide, by decide⟩
            (.full .bypass (Float32.ofNat 48000) 300) (by decide), 0, { kind := .bypass },
            some ⟨1, 16, 2, 48000⟩⟩,
          [.bankConfigured 1 1 16 2, .streamPrepared 1 16 48000 .bypass 300]⟩ ∧
      StreamConfig.format? ⟨1, 16, 2, 48000⟩ = .ok ⟨2, 16, by decide, by decide, by decide, by decide⟩ ∧
      (StreamFilter.session ⟨(StreamFilter.make 1 { kind := .bypass }).bank.activate 1
            ⟨2, 16, by decide, by decide, by decide, by decide⟩
            (.full .bypass (Float32.ofNat 48000) 300) (by decide), 0, { kind := .bypass },
            some ⟨1, 16, 2, 48000⟩⟩
          (List.replicate 8 0) ([.advance 3, .pointer 2].map .query)).2.2 = List.replicate 8 0 := by
  refine ⟨?configured, rfl, (bypass_is_transparent ?configured rfl rfl (List.replicate 8 0)
    [.advance 3, .pointer 2]).2.2.2.1 (by decide) fun j _ => ?clear⟩
  case configured =>
    rw [StreamFilter.configure_run]
    rfl
  case clear => exact Nat.mod_one _

end PcmBiquad
