import PcmBiquad.Filter.Design
/-!
  A biquad section running on one channel.

  A `Biquad` holds its design — kind, sample rate and cutoff — with the coefficients that design
  gives (the field `coefficients_eq` ties them together), and two shift registers holding the
  last three inputs and the last three outputs, newest first. `Biquad.process` is the direct
  form I recurrence

    `y = b0 x + b1 x₁ + b2 x₂ - a1 y₁ - a2 y₂`,

  evaluated left to right in single precision, after which both registers shift by one, `x` and
  `y` entering at the front. The third slot of each register is shifted in but never read.

  `Biquad.reconfigure` applies `FilterParams`, a set of optional changes: if none is given the
  section is left exactly as it was, history included; otherwise the given fields are replaced,
  the history is cleared and the coefficients are designed anew.
-/

namespace PcmBiquad

/-- Changes to a section's design; an absent field keeps its current value. -/
structure FilterParams where
  kind : Option FilterKind := none
  rate : Option Float32 := none
  cutoff : Option Float32 := none
  deriving Inhabited

namespace FilterParams

/-- Whether no change is given. -/
def isEmpty (p : FilterParams) : Bool := p.kind.isNone && p.rate.isNone && p.cutoff.isNone

/-- The params that set all three fields. -/
def full (kind : FilterKind) (rate cutoff : Float32) : FilterParams := ⟨some kind, some rate, some cutoff⟩

/-- Params are empty exactly when no field is given. -/
theorem isEmpty_iff {p : FilterParams} :
    p.isEmpty = true ↔ p.kind = none ∧ p.rate = none ∧ p.cutoff = none := by
  simp [isEmpty, Option.isNone_iff_eq_none, Bool.and_eq_true, and_assoc]

end FilterParams

/-- The last three inputs `x₁, x₂, x₃` and outputs `y₁, y₂, y₃` of a section, newest first. -/
structure History where
  x1 : Float32
  x2 : Float32
  x3 : Float32
  y1 : Float32
  y2 : Float32
  y3 : Float32

/-- The history of a section that has seen only silence. -/
def History.silent : History := ⟨0, 0, 0, 0, 0, 0⟩

/-- A biquad section with its design, coefficients and history. -/
structure Biquad where
  kind : FilterKind
  rate : Float32
  cutoff : Float32
  coefficients : Coefficients Float32
  history : History
  coefficients_eq : coefficients = design kind rate cutoff

namespace Biquad

/-- A fresh section of the given design. -/
def make (kind : FilterKind) (rate cutoff : Float32) : Biquad :=
  ⟨kind, rate, cutoff, design kind rate cutoff, .silent, rfl⟩

/-- The bypass at 48 kHz with cutoff zero. -/
instance : Inhabited Biquad := ⟨make .bypass 48000 0⟩

/-- The output for input `x` given coefficients and history. -/
def output (c : Coefficients Float32) (h : History) (x : Float32) : Float32 :=
  c.b0 * x + c.b1 * h.x1 + c.b2 * h.x2 - c.a1 * h.y1 - c.a2 * h.y2

/-- Filters one sample: the output, and the section with both registers shifted, `x` and that
output entering as the newest history. -/
def process (f : Biquad) (x : Float32) : Float32 × Biquad :=
  let y := output f.coefficients f.history x
  (y, { f with history := ⟨x, f.history.x1, f.history.x2, y, f.history.y1, f.history.y2⟩ })

/-- Filters samples in order, each seeing the history the earlier ones left. -/
def processBlock (f : Biquad) : List Float32 → List Float32 × Biquad
  | [] => ([], f)
  | x :: xs =>
    let (y, f') := f.process x
    let (ys, f'') := f'.processBlock xs
    (y :: ys, f'')

/-- Clears the history. -/
def reset (f : Biquad) : Biquad := { f with history := .silent }

/-- Applies `p`: nothing at all if it is empty, else a new design with cleared history. -/
def reconfigure (f : Biquad) (p : FilterParams) : Biquad :=
  if p.isEmpty then f
  else make (p.kind.getD f.kind) (p.rate.getD f.rate) (p.cutoff.getD f.cutoff)

/-! ## What each operation does -/

/-- Empty params leave a section exactly as it was. -/
@[simp] theorem reconfigure_of_isEmpty {f : Biquad} {p : FilterParams} (h : p.isEmpty = true) :
    f.reconfigure p = f := by
  simp [reconfigure, h]

/-- Params with a change give a fresh section of the merged design. -/
theorem reconfigure_of_not_isEmpty {f : Biquad} {p : FilterParams} (h : p.isEmpty = false) :
    f.reconfigure p = make (p.kind.getD f.kind) (p.rate.getD f.rate) (p.cutoff.getD f.cutoff) := by
  simp [reconfigure, h]

/-- Clearing the history of a section gives the fresh section of its design, since the
coefficients are the design's own. -/
theorem reset_eq_make (f : Biquad) : f.reset = make f.kind f.rate f.cutoff := by
  obtain ⟨kind, rate, cutoff, _, history, rfl⟩ := f
  rfl

/-- Params followed by a clear give the fresh section of the merged design, each field taken
from the params where given and kept where not; empty params are no exception. -/
theorem reset_reconfigure (f : Biquad) (p : FilterParams) :
    (f.reconfigure p).reset =
      make (p.kind.getD f.kind) (p.rate.getD f.rate) (p.cutoff.getD f.cutoff) := by
  cases h : p.isEmpty with
  | false =>
    rw [reconfigure_of_not_isEmpty h]
    rfl
  | true =>
    obtain ⟨hk, hr, hc⟩ := FilterParams.isEmpty_iff.1 h
    rw [reconfigure_of_isEmpty h, reset_eq_make, hk, hr, hc]
    rfl

/-- A fresh section has a silent history. -/
@[simp] theorem history_make (kind : FilterKind) (rate cutoff : Float32) :
    (make kind rate cutoff).history = .silent := rfl

/-- Clearing the history keeps the design. -/
@[simp] theorem kind_reset (f : Biquad) : f.reset.kind = f.kind := rfl

/-- Processing keeps the design. -/
@[simp] theorem kind_process (f : Biquad) (x : Float32) : (f.process x).2.kind = f.kind := rfl

/-- A block gives one output per input. -/
theorem length_processBlock (f : Biquad) (xs : List Float32) :
    (f.processBlock xs).1.length = xs.length := by
  induction xs generalizing f with
  | nil => rfl
  | cons x xs ih => simp [processBlock, ih]

end Biquad

end PcmBiquad
