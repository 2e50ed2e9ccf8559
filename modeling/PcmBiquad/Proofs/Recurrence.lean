import PcmBiquad.Filter.Biquad
/-!
  A section's outputs follow the direct form I recurrence, whatever history it starts from.

  Index the samples of a run by time (`timeline`): sample `k` of the run at `k ≥ 0`, and before
  the run the samples the section holds, newest first, at `-1, -2, -3`. The shift registers of a
  section line up with these delays at every step (`timeline_cons`), so the outputs `y` of a run
  of inputs `x` satisfy

    `y k = b0 x k + b1 x (k - 1) + b2 x (k - 2) - a1 y (k - 1) - a2 y (k - 2)`,

  term for term in the order written (`processBlock_recurrence`), and after `n` samples the
  registers hold `x (n - 1), x (n - 2), x (n - 3)` and `y (n - 1), y (n - 2), y (n - 3)`
  (`processBlock_snd`). The third slot of a register is shifted in and never read
  (`processBlock_third_slots`).

  Filtering a block is mapping `process` over it in the state monad (`mapM_process`), and a block
  split anywhere gives the same outputs and the same section as the whole (`processBlock_append`).
  `direct_form_recurrence` gathers these.
-/

namespace PcmBiquad

/-- The samples of a run by time: sample `k` of `run` at `k ≥ 0`, and the samples `held` before
it, newest first, at `-1, -2, …`. -/
def timeline (held run : List Float32) (k : Int) : Float32 :=
  if 0 ≤ k then run.getD k.toNat 0 else held.getD (-k - 1).toNat 0

namespace History

/-- The inputs held, newest first. -/
def inputs (h : History) : List Float32 := [h.x1, h.x2, h.x3]

/-- The outputs held, newest first. -/
def outputs (h : History) : List Float32 := [h.y1, h.y2, h.y3]

end History

/-- At a time within the run, the timeline reads the run. -/
@[simp] theorem timeline_natCast (held run : List Float32) (k : Nat) :
    timeline held run k = run.getD k 0 := by
  simp [timeline]

/-- Moving the first sample of a run into the held samples shifts the timeline by one, as far
back as three held samples reach. -/
theorem timeline_cons (a b c x : Float32) (run : List Float32) {k : Int} (hk : -3 ≤ k) :
    timeline [a, b, c] (x :: run) (k + 1) = timeline [x, a, b] run k := by
  rcases (show 0 ≤ k ∨ k = -1 ∨ k = -2 ∨ k = -3 by omega) with hk | rfl | rfl | rfl
  · obtain ⟨n, rfl⟩ := Int.eq_ofNat_of_zero_le hk
    rw [show (n : Int) + 1 = ((n + 1 : Nat) : Int) by omega, timeline_natCast, timeline_natCast]
    rfl
  all_goals rfl

namespace Biquad

variable (f : Biquad) (x : Float32) (xs ys : List Float32)

/-- A block's first output is the first sample filtered, the rest filtered from there. -/
theorem processBlock_cons :
    f.processBlock (x :: xs) =
      ((f.process x).1 :: ((f.process x).2.processBlock xs).1,
        ((f.process x).2.processBlock xs).2) := rfl

/-- The timeline of a run from one sample on is the run's own timeline, shifted by one: the
registers after that sample hold it in front of what they held. -/
theorem timeline_inputs_cons {k : Int} (hk : -3 ≤ k) :
    timeline f.history.inputs (x :: xs) (k + 1) = timeline (f.process x).2.history.inputs xs k :=
  timeline_cons _ _ _ _ _ hk

theorem timeline_outputs_cons {k : Int} (hk : -3 ≤ k) :
    timeline f.history.outputs (f.processBlock (x :: xs)).1 (k + 1) =
      timeline (f.process x).2.history.outputs ((f.process x).2.processBlock xs).1 k :=
  timeline_cons _ _ _ _ _ hk

/-- **The outputs of a run satisfy the direct form I recurrence**, with the history the section
starts from at negative times. -/
theorem processBlock_recurrence (k : Nat) (hk : k < xs.length) :
    timeline f.history.outputs (f.processBlock xs).1 k =
      f.coefficients.b0 * timeline f.history.inputs xs k
        + f.coefficients.b1 * timeline f.history.inputs xs (k - 1 : Int)
        + f.coefficients.b2 * timeline f.history.inputs xs (k - 2 : Int)
        - f.coefficients.a1 * timeline f.history.outputs (f.processBlock xs).1 (k - 1 : Int)
        - f.coefficients.a2 * timeline f.history.outputs (f.processBlock xs).1 (k - 2 : Int) := by
  induction xs generalizing f k with
  | nil => exact absurd hk (Nat.not_lt_zero k)
  | cons x xs ih =>
    cases k with
    | zero => rfl
    | succ k =>
      -- every time of step `k + 1` is a time of step `k` one later, read in the shifted registers
      have hk' : k < xs.length := Nat.lt_of_succ_lt_succ hk
      have e0 : ((k + 1 : Nat) : Int) = (k : Int) + 1 := by omega
      have e1 : (k : Int) + 1 - 1 = (k - 1 : Int) + 1 := by omega
      have e2 : (k : Int) + 1 - 2 = (k - 2 : Int) + 1 := by omega
      rw [e0, e1, e2, f.timeline_inputs_cons x xs (by omega), f.timeline_inputs_cons x xs (by omega),
        f.timeline_inputs_cons x xs (by omega), f.timeline_outputs_cons x xs (by omega),
        f.timeline_outputs_cons x xs (by omega), f.timeline_outputs_cons x xs (by omega)]
      exact ih (f.process x).2 k hk'

/-- **After a run the registers hold its last three inputs and outputs**, the history it started
from filling in for a run shorter than three; nothing else of the section changes. -/
theorem processBlock_snd :
    (f.processBlock xs).2 = { f with history :=
      ⟨timeline f.history.inputs xs (xs.length - 1), timeline f.history.inputs xs (xs.length - 2),
        timeline f.history.inputs xs (xs.length - 3),
        timeline f.history.outputs (f.processBlock xs).1 (xs.length - 1),
        timeline f.history.outputs (f.processBlock xs).1 (xs.length - 2),
        timeline f.history.outputs (f.processBlock xs).1 (xs.length - 3)⟩ } := by
  induction xs generalizing f with
  | nil => rfl
  | cons x xs ih =>
    -- the run after its first sample is a run of one sample fewer from the shifted registers
    have e : ∀ j : Int, j ≤ 3 → ((x :: xs).length - j : Int) = ((xs.length - j : Int)) + 1 := by
      intro j _
      simp only [List.length_cons]
      omega
    rw [e 1 (by omega), e 2 (by omega), e 3 (by omega),
      f.timeline_inputs_cons x xs (by omega), f.timeline_inputs_cons x xs (by omega),
      f.timeline_inputs_cons x xs (by omega), f.timeline_outputs_cons x xs (by omega),
      f.timeline_outputs_cons x xs (by omega), f.timeline_outputs_cons x xs (by omega)]
    exact ih (f.process x).2

/-- **The third slots are never read**: whatever they hold, a run gives the same outputs. -/
theorem processBlock_third_slots (a b : Float32) :
    ({ f with history := { f.history with x3 := a, y3 := b } }.processBlock xs).1 =
      (f.processBlock xs).1 := by
  -- one sample shifts both third slots out, after which the two sections are the same
  cases xs with
  | nil => rfl
  | cons x xs => rfl

/-- A block split in two is filtered as the first part, then the second from where the first
left the section. -/
theorem processBlock_append :
    f.processBlock (xs ++ ys) =
      ((f.processBlock xs).1 ++ ((f.processBlock xs).2.processBlock ys).1,
        ((f.processBlock xs).2.processBlock ys).2) := by
  induction xs generalizing f with
  | nil => rfl
  | cons x xs ih =>
    rw [List.cons_append, processBlock_cons, ih, processBlock_cons]
    rfl

end Biquad

/-- Mapping a step of the state monad over `x :: xs` runs it on `x`, then maps it over `xs` from
the state it left. -/
theorem run_mapM_cons {σ α β : Type} (step : α → StateM σ β) (x : α) (xs : List α) (s : σ) :
    ((x :: xs).mapM step).run s =
      (((step x).run s).1 :: ((xs.mapM step).run ((step x).run s).2).1,
        ((xs.mapM step).run ((step x).run s).2).2) := by
  simp only [List.mapM_cons, StateT.run_bind, StateT.run_pure]
  rfl

namespace Biquad

variable (f : Biquad) (xs : List Float32)

/-- One call of `process`, as a step of the state monad over the section. -/
def step (x : Float32) : StateM Biquad Float32 := modifyGet fun f => f.process x

/-- Filtering a block is mapping `process` over its samples, each call seeing the section the
previous one left. -/
theorem mapM_process : (xs.mapM step).run f = f.processBlock xs := by
  induction xs generalizing f with
  | nil => rfl
  | cons x xs ih =>
    rw [run_mapM_cons, ih]
    rfl

end Biquad

/-- **The shift-register section computes the direct form I recurrence.** For every section —
any design, any history — and every run of inputs `x`, with `y` the outputs:

* filtering the run as a block is calling `process` on each sample in turn;
* there is one output per input, and output `k` is
  `b0 x k + b1 x (k - 1) + b2 x (k - 2) - a1 y (k - 1) - a2 y (k - 2)`, grouped left to right,
  where the times `-1, -2` read the newest held inputs and outputs;
* after the run the registers hold `x`, and `y`, at `n - 1, n - 2, n - 3`, the held samples
  filling in for a short run, and the design is unchanged;
* the third slot of either register influences no output;
* a block split at any point gives the same outputs and the same section. -/
theorem direct_form_recurrence (f : Biquad) (xs : List Float32) :
    let c := f.coefficients
    let x := timeline f.history.inputs xs
    let y := timeline f.history.outputs (f.processBlock xs).1
    let n : Int := xs.length
    (xs.mapM Biquad.step).run f = f.processBlock xs ∧
      (f.processBlock xs).1.length = xs.length ∧
      (∀ k : Nat, k < xs.length →
        y k = c.b0 * x k + c.b1 * x (k - 1 : Int) + c.b2 * x (k - 2 : Int)
          - c.a1 * y (k - 1 : Int) - c.a2 * y (k - 2 : Int)) ∧
      (f.processBlock xs).2 =
        { f with history := ⟨x (n - 1), x (n - 2), x (n - 3), y (n - 1), y (n - 2), y (n - 3)⟩ } ∧
      (∀ a b : Float32,
        ({ f with history := { f.history with x3 := a, y3 := b } }.processBlock xs).1 =
          (f.processBlock xs).1) ∧
      ∀ ys : List Float32, f.processBlock (xs ++ ys) =
        ((f.processBlock xs).1 ++ ((f.processBlock xs).2.processBlock ys).1,
          ((f.processBlock xs).2.processBlock ys).2) :=
  ⟨f.mapM_process xs, f.length_processBlock xs, f.processBlock_recurrence xs, f.processBlock_snd xs,
    f.processBlock_third_slots xs, f.processBlock_append xs⟩

end PcmBiquad
