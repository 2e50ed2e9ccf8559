import PcmBiquad.Proofs.Configure
/-!
  Retuning a section, alone or across a bank.

  A section's design — kind, sample rate and cutoff — fixes its coefficients: `Biquad` carries
  `coefficients_eq`, so every section there is has the coefficients of its design, and so does
  every section reachable from a fresh one by processing, clearing and retuning, and every section
  a bank holds, whatever was done to the bank or to one of its channels. What remains to be said of
  an update is how it merges into the design and what it does to the history.

  * Empty params change nothing, history included (`Biquad.reconfigure_of_isEmpty`); any other
    params give the fresh section of the merged design, each field taken from the params where
    given and kept where not (`Biquad.reconfigure_of_not_isEmpty`).
  * Clearing a section makes it the fresh section of its own design (`Biquad.reset_eq_make`), so an
    update followed by a clear is the fresh section of the merged design, for empty params too
    (`Biquad.reset_reconfigure`).
  * A bank that accepts a configuration does exactly that to each of its first `count` sections
    and leaves the others alone (`FilterBank.getElem?_channels_configure`): every active section
    starts from silence, and an earlier override of one section survives in exactly the fields the
    params leave unset.

  `parameter_updates_coherent` gathers these.
-/

namespace PcmBiquad

namespace FilterBank

/-- A bank that accepts a configuration holds, at each of its first `count` positions, the fresh
section of the design merged from the params and the section that was there, and elsewhere the
section that was there. -/
theorem getElem?_channels_configure {b : FilterBank} {log : List Event} {count : Nat}
    {format : SampleFormat} {p : FilterParams} {u : Unit} {w : Logged FilterBank}
    (hrun : (configure count format p).run ⟨b, log⟩ = .ok u w) (i : Nat) :
    w.obj.channels[i]? = b.channels[i]?.map fun ch =>
      if i < count then .make (p.kind.getD ch.kind) (p.rate.getD ch.rate) (p.cutoff.getD ch.cutoff)
      else ch := by
  obtain ⟨h, rfl⟩ := configure_eq_ok hrun
  simp only [activate, getElem?_mapFirst, Biquad.reset_reconfigure]
  by_cases hi : i < count <;> simp [hi]

/-- A bank that accepts a configuration runs `count` channels on the format given. -/
theorem active_format_configure {b : FilterBank} {log : List Event} {count : Nat}
    {format : SampleFormat} {p : FilterParams} {u : Unit} {w : Logged FilterBank}
    (hrun : (configure count format p).run ⟨b, log⟩ = .ok u w) :
    w.obj.active = count ∧ w.obj.format = format := by
  obtain ⟨h, rfl⟩ := configure_eq_ok hrun
  exact ⟨rfl, rfl⟩

end FilterBank

/-- **Parameter updates form a coherent state machine.** Empty params leave a section exactly as it
was. Any other params give the fresh section of the merged design: a silent history and that
design's coefficients. Every section there is has the coefficients of its design, so every section
reachable by processing, clearing and retuning has them, in a bank or not. Params followed by a
clear always give the fresh section of the merged design. A bank that accepts a configuration runs
`count` channels on the given format, holds at each of its first `count` positions the section
there so updated and cleared, and at every other position the section that was there. -/
theorem parameter_updates_coherent :
    (∀ (f : Biquad) (p : FilterParams), p.isEmpty = true → f.reconfigure p = f) ∧
    (∀ (f : Biquad) (p : FilterParams), p.isEmpty = false →
      f.reconfigure p = .make (p.kind.getD f.kind) (p.rate.getD f.rate) (p.cutoff.getD f.cutoff) ∧
        (f.reconfigure p).history = .silent ∧
        (f.reconfigure p).coefficients =
          design (p.kind.getD f.kind) (p.rate.getD f.rate) (p.cutoff.getD f.cutoff)) ∧
    (∀ f : Biquad, f.coefficients = design f.kind f.rate f.cutoff) ∧
    (∀ (f : Biquad) (p : FilterParams), (f.reconfigure p).reset =
      .make (p.kind.getD f.kind) (p.rate.getD f.rate) (p.cutoff.getD f.cutoff)) ∧
    ∀ (b : FilterBank) (log : List Event) (count : Nat) (format : SampleFormat) (p : FilterParams)
      (w : Logged FilterBank), (FilterBank.configure count format p).run ⟨b, log⟩ = .ok () w →
      w.obj.active = count ∧ w.obj.format = format ∧
        ∀ i, w.obj.channels[i]? = b.channels[i]?.map fun ch =>
          if i < count then (ch.reconfigure p).reset else ch := by
  refine ⟨fun f p h => Biquad.reconfigure_of_isEmpty h, fun f p h => ?updated,
    fun f => f.coefficients_eq, Biquad.reset_reconfigure,
    fun b log count format p w hrun => ?bank⟩
  case updated =>
    rw [Biquad.reconfigure_of_not_isEmpty h]
    exact ⟨rfl, rfl, rfl⟩
  case bank =>
    obtain ⟨hactive, hformat⟩ := FilterBank.active_format_configure hrun
    refine ⟨hactive, hformat, fun i => ?_⟩
    simp only [FilterBank.getElem?_channels_configure hrun i, Biquad.reset_reconfigure]

end PcmBiquad
