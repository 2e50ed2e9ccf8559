import PcmBiquad.Proofs.Hooks
/-!
  Where the frame arithmetic fits a machine word.

  Frame strides and byte offsets live in 64-bit words, and a product that does not fit is a fault
  that ends the computation. The two hooks differ in how they bound the stride:

  * the bypass checks only the sample format before it multiplies, so it takes exactly the
    streams of a valid format whose frame fits a word, keeping their true stride
    (`Bypass.prepare_eq_ok_iff`), and faults on every other stream of a valid format, however
    many channels it names (`Bypass.prepare_eq_overflow_iff`);
  * a stream filter takes a stream only when its bank has a section for each channel, so its
    stride is at most four bytes a section, and fits a word whenever the bank's sections do
    (`StreamFilter.stride_lt_of_hook_prepare`).

  Once a buffer holds the whole ring — the only case in which `advance` filters — every run it
  cuts from the buffer lies inside it, with no byte bound past the ring's size, and a region that
  is not idle comes from a ring of at least one frame, the only size it reduces positions by
  (`slices_within_buffer`).
-/

namespace PcmBiquad

namespace Bypass

/-- **A bypass takes exactly the streams of a valid format whose frame fits a word**, and then
keeps their true stride and raises nothing. -/
theorem prepare_eq_ok_iff (b : Bypass) (log : List Event) (s : StreamConfig) (w : Logged Bypass) :
    (prepare s).run ⟨b, log⟩ = .ok () w ↔
      (∃ format, s.format? = .ok format) ∧ s.stride < 2 ^ 64 ∧ w = ⟨{ stride := s.stride }, log⟩ := by
  rw [prepare_run]
  cases hf : s.format? with
  | error e => simp
  | ok format =>
    by_cases hs : s.stride < 2 ^ 64
    · rw [StreamConfig.stride?_eq_ok s hs]
      constructor
      · rintro ⟨⟩
        exact ⟨⟨format, rfl⟩, hs, rfl⟩
      · rintro ⟨-, -, rfl⟩
        rfl
    · rw [StreamConfig.stride?_eq_error s hs]
      constructor
      · rintro ⟨⟩
      · rintro ⟨-, hlt, -⟩
        exact absurd hlt hs

/-- **A bypass faults on every stream of a valid format whose frame does not fit a word**, and
only on those. -/
theorem prepare_eq_overflow_iff (b : Bypass) (log : List Event) (s : StreamConfig) :
    (∃ o w, (prepare s).run ⟨b, log⟩ = .error (.overflow o) w) ↔
      (∃ format, s.format? = .ok format) ∧ 2 ^ 64 ≤ s.stride := by
  rw [prepare_run]
  cases hf : s.format? with
  | error e => simp
  | ok format =>
    by_cases hs : s.stride < 2 ^ 64
    · rw [StreamConfig.stride?_eq_ok s hs]
      constructor
      · rintro ⟨o, w, ⟨⟩⟩
      · rintro ⟨-, hge⟩
        exact absurd hs (Nat.not_lt.mpr hge)
    · rw [StreamConfig.stride?_eq_error s hs]
      exact ⟨fun _ => ⟨⟨format, rfl⟩, Nat.le_of_not_lt hs⟩, fun _ => ⟨_, _, rfl⟩⟩

end Bypass

namespace StreamFilter

/-- **A stream filter's stride fits a word** for every stream its hook takes, as long as four
bytes for each section of its bank do. -/
theorem stride_lt_of_hook_prepare {sf : StreamFilter} {log : List Event} {s : StreamConfig}
    {w : Logged StreamFilter}
    (hrun : (PositionHook.prepare s : InPlace PrepareError StreamFilter Unit).run ⟨sf, log⟩ = .ok () w)
    (hmem : 4 * sf.bank.capacity < 2 ^ 64) :
    w.obj.stride = s.stride ∧ s.stride < 2 ^ 64 := by
  -- the hook is `configure` with the current filter, its refusals relabelled
  have hconf : (configure s sf.filter).run ⟨sf, log⟩ = .ok () w := by
    have h : (EStateM.adaptExcept PrepareError.refused (prepare s)).run ⟨sf, log⟩ = .ok () w := hrun
    rw [EStateM.run_adaptExcept, prepare_run] at h
    cases hc : (configure s sf.filter).run ⟨sf, log⟩ with
    | ok u w' =>
      rw [hc] at h
      simpa using h
    | error e w' =>
      rw [hc] at h
      simp at h
  obtain ⟨format, hf, hch, rfl⟩ := configure_eq_ok hconf
  exact ⟨rfl, StreamConfig.stride_lt_of_format? hf hch hmem⟩

end StreamFilter

/-- **Every slice the ring processor takes lies inside the buffer.** When the buffer holds the
ring, each run of the region has its byte bounds in order and within the ring's size, and a
region that is not idle comes from a ring of at least one frame. -/
theorem slices_within_buffer (cursor hw : Nat) (g : Geometry) {buffer : List UInt8}
    (hlen : ¬buffer.length < g.bytes) :
    (Region.between cursor hw g.frames ≠ .idle → 0 < g.frames) ∧
      ∀ r ∈ (Region.between cursor hw g.frames).runs,
        r.start * g.stride ≤ r.stop * g.stride ∧ r.stop * g.stride ≤ g.bytes ∧ g.bytes ≤ buffer.length := by
  refine ⟨fun hidle => ?_, fun r hr => ?_⟩
  · -- an empty ring is idle before anything is reduced
    apply Nat.pos_of_ne_zero
    intro h0
    rw [h0, Region.between_zero] at hidle
    exact hidle rfl
  · obtain ⟨hstart, hstop⟩ := Region.runs_between_le cursor hw g.frames r hr
    exact ⟨Nat.mul_le_mul_right _ hstart, Nat.mul_le_mul_right _ hstop, Nat.le_of_not_lt hlen⟩

end PcmBiquad
