/-!
  The stretch of a ring buffer that a moving hardware position has uncovered.

  Frames are numbered `0, …, n - 1` around the ring. Going from the last processed position to
  the hardware position, both taken modulo `n`, uncovers a `Region`:

  * `idle` — the positions coincide (or the ring is empty), nothing to do;
  * `pending run` — one run `[from, to)` when `from < to`;
  * `wrapped tail head` — the run `[from, n)` to the end of the ring, then `[0, to)` from its
    start.

  `Region.runs` lists the non-empty runs in the order they are to be processed (tail before
  head), `Region.frames` counts the frames they hold, and `Region.visits` lists the frame
  indices in the order they are visited, one for each frame covered (`length_visits`).
-/

namespace PcmBiquad

/-- The frames `[start, stop)` of a ring. -/
structure Run where
  start : Nat
  stop : Nat
  deriving Repr, DecidableEq

namespace Run

/-- The number of frames in the run. -/
def length (r : Run) : Nat := r.stop - r.start

/-- The frame indices of the run, in order. -/
def indices (r : Run) : List Nat := List.range' r.start r.length

/-- A run has one index for each of its frames. -/
@[simp] theorem length_indices (r : Run) : r.indices.length = r.length := List.length_range' ..

/-- The run as a range, written `start..stop`. -/
def describe (r : Run) : String := s!"{r.start}..{r.stop}"

end Run

/-- What lies between the last processed frame and the hardware position. -/
inductive Region where
  | idle
  | pending (run : Run)
  | wrapped (tail head : Run)
  deriving Repr, DecidableEq

namespace Region

/-- The region from `last` to `hw` on a ring of `frames` frames. -/
def between (last hw frames : Nat) : Region :=
  if frames = 0 then idle
  else
    let a := last % frames
    let b := hw % frames
    if a = b then idle
    else if a < b then pending ⟨a, b⟩
    else wrapped ⟨a, frames⟩ ⟨0, b⟩

/-- The frames the region covers. -/
def frames : Region → Nat
  | idle => 0
  | pending run => run.length
  | wrapped tail head => tail.length + head.length

/-- The non-empty runs, tail before head. -/
def runs : Region → List Run
  | idle => []
  | pending run => [run].filter (0 < ·.length)
  | wrapped tail head => [tail, head].filter (0 < ·.length)

/-- The frame indices the region visits, run after run. -/
def visits (r : Region) : List Nat := r.runs.flatMap Run.indices

/-- An empty ring has nothing to process. -/
@[simp] theorem between_zero (last hw : Nat) : between last hw 0 = idle := rfl

/-- Dropping the empty runs drops no frame. -/
theorem flatMap_indices_filter (rs : List Run) :
    (rs.filter (0 < ·.length)).flatMap Run.indices = rs.flatMap Run.indices := by
  induction rs with
  | nil => rfl
  | cons r rs ih =>
    by_cases h : 0 < r.length
    · simp [h, ih]
    · have hr : r.indices = [] := by simp only [Run.indices]; rw [Nat.eq_zero_of_not_pos h]; rfl
      simp [h, ih, hr]

/-- A region visits as many frames as it covers. -/
theorem length_visits (r : Region) : r.visits.length = r.frames := by
  cases r with
  | idle => rfl
  | pending run =>
    simp only [visits, runs, flatMap_indices_filter, List.flatMap_cons, List.flatMap_nil,
      List.append_nil, Run.length_indices, frames]
  | wrapped tail head =>
    simp only [visits, runs, flatMap_indices_filter, List.flatMap_cons, List.flatMap_nil,
      List.append_nil, List.length_append, Run.length_indices, frames]

/-- The region written as `Pending(a..b)` or `Wrapped { tail: a..b, head: c..d }`. -/
def describe : Region → String
  | idle => "Idle"
  | pending run => s!"Pending({run.describe})"
  | wrapped tail head => "Wrapped \x7b tail: " ++ tail.describe ++ ", head: " ++ head.describe ++ " \x7d"

end Region

end PcmBiquad
