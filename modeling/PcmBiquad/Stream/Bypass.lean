import PcmBiquad.Stream.Hook
/-!
  The hook that filters nothing.

  `Bypass` only remembers the frame stride of the last stream it accepted (zero at first). It
  refuses a stream whose sample format is invalid, keeping the stride it had, and never touches
  the buffer. The format is checked before the stride is computed, so a valid format whose frame
  does not fit in a machine word is the overflow fault, and an invalid one is a plain refusal
  whatever its channel count.
-/

namespace PcmBiquad

/-- A hook that converts positions and filters nothing. -/
structure Bypass where
  stride : Nat := 0
  deriving Repr, DecidableEq

namespace Bypass

/-- Takes the frame stride of a stream with a valid format whose frame fits a machine word;
refuses an invalid format before the stride is computed. -/
def prepare (s : StreamConfig) : InPlace PrepareError Bypass Unit := do
  let _ ← InPlace.check (s.format?.mapError .refused)
  let stride ← InPlace.check (s.stride?.mapError .overflow)
  InPlace.update fun b => { b with stride }

/-- Preparing refuses an invalid format, faults on a stride too large for a machine word, and
otherwise takes the stride; it raises no event. -/
theorem prepare_run (b : Bypass) (log : List Event) (s : StreamConfig) :
    (prepare s).run ⟨b, log⟩ =
      match s.format?, s.stride? with
      | .error e, _ => .error (.refused e) ⟨b, log⟩
      | .ok _, .error o => .error (.overflow o) ⟨b, log⟩
      | .ok _, .ok stride => .ok () ⟨{ b with stride }, log⟩ := by
  -- each `mapError` meets a constructor, so it reduces once the two checks are split
  cases hf : s.format? with
  | error e =>
    simp only [prepare, hf, InPlace.check, EStateM.run, bind, EStateM.bind]
    rfl
  | ok format =>
    cases hs : s.stride? with
    | error o =>
      simp only [prepare, hf, hs, InPlace.check, EStateM.run, bind, EStateM.bind]
      rfl
    | ok stride =>
      simp only [prepare, hf, hs, InPlace.check, InPlace.update, EStateM.run, bind, EStateM.bind]
      rfl

/-- The frame position of a byte position. -/
def pointer (b : Bypass) (buffer : List UInt8) (pos : Nat) : Nat :=
  bytesToFrames buffer.length b.stride pos

instance : PositionHook Bypass where
  prepare := prepare
  pointer b buffer pos := (b.pointer buffer pos, b, buffer, [])

end Bypass

end PcmBiquad
