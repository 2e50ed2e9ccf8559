import PcmBiquad.Ring.Region
import PcmBiquad.Filter.Kind
import PcmBiquad.Text.Decimal
import PcmBiquad.Single
/-!
  Diagnostic events that the filter library reports as it works.

  Each event has a severity `Level` and a one-line message. Operations return the events they
  raise, in order, beside their result; whoever runs them decides whether to show them.

  A call that changes an object in place and may be refused runs in `InPlace`: the object and
  the events raised so far (`Logged`) are its state, and a refusal stops the call early while
  keeping whatever it had already changed or raised, as a method on a mutable receiver does.

  Numbers in messages are written plainly: integers in decimal, and a single-precision cutoff by
  `Single.text` — the shortest decimal that reads back, never with an exponent.
-/

namespace PcmBiquad

/-- How much an event matters. -/
inductive Level where
  | trace
  | debug
  | warn
  deriving Repr, DecidableEq

/-- The upper-case name of a level. -/
def Level.name : Level → String
  | .trace => "TRACE"
  | .debug => "DEBUG"
  | .warn => "WARN"

/-- A single-precision number in words: `NaN`, `inf`, `-inf`, or its shortest round-trip
decimal in positional notation, with `-` before any negative value, zero included. -/
def Single.text (x : Float32) : String :=
  let signed (s : Float.Model.UnpackedFloat.Sign) (body : String) : String :=
    match s with
    | .negative => "-" ++ body
    | .positive => body
  match Single.value x with
  | .notANumber => "NaN"
  | .infinity s => signed s "inf"
  | .zero s => signed s "0"
  | .finite s mant exp _ =>
    let (g, p) := shortestDecimal Float.Model.Format.binary32 mant exp
    signed s (positional g p)

/-- Something the library reports. -/
inductive Event where
  /-- A bank now runs `count` of its `capacity` channels on samples of the given format. -/
  | bankConfigured (count capacity depth bytes : Nat)
  /-- A stream filter is ready for a stream of the given shape and filter. -/
  | streamPrepared (channels depth rate : Nat) (kind : FilterKind) (cutoff : Float32)
  /-- A buffer too short for the geometry it was given was left alone. -/
  | bufferShort (length frames stride : Nat)
  /-- A region of a ring buffer is about to be filtered. -/
  | filtering (region : Region)

namespace Event

/-- The severity of an event. -/
def level : Event → Level
  | bankConfigured .. => .debug
  | streamPrepared .. => .debug
  | bufferShort .. => .warn
  | filtering .. => .trace

/-- The message of an event. -/
def message : Event → String
  | bankConfigured count capacity depth bytes =>
    s!"filter bank configured: {count} of {capacity} channels, {depth}-bit in {bytes} bytes"
  | streamPrepared channels depth rate kind cutoff =>
    s!"stream filter prepared: {channels} ch, {depth} bit, {rate} Hz, {kind.name} @ " ++
      Single.text cutoff ++ " Hz"
  | bufferShort length frames stride =>
    s!"buffer of {length} bytes is shorter than {frames} frames of {stride} bytes; skipping"
  | filtering region => s!"filtering {region.describe} ({region.frames} frames)"

/-- The level's name, a space, and the message. -/
def line (e : Event) : String := e.level.name ++ " " ++ e.message

end Event

/-- An object together with the events raised so far, oldest first. -/
structure Logged (σ : Type) where
  obj : σ
  log : List Event

/-- A call on an object of type `σ` that changes it in place, may raise events, and may stop
early with an error of type `ε`; what it changed before stopping stays changed. -/
abbrev InPlace (ε σ α : Type) := EStateM ε (Logged σ) α

namespace InPlace

variable {ε σ τ α : Type}

/-- The object as it is now. -/
def current : InPlace ε σ σ := fun w => .ok w.obj w

/-- Changes the object. -/
def update (f : σ → σ) : InPlace ε σ Unit := fun w => .ok () { w with obj := f w.obj }

/-- Raises an event. -/
def emit (e : Event) : InPlace ε σ Unit := fun w => .ok () { w with log := w.log ++ [e] }

/-- Goes on with the value of a check that passed, or stops with the error of one that failed. -/
def check : Except ε α → InPlace ε σ α
  | .ok a => fun w => .ok a w
  | .error e => fun w => .error e w

/-- Runs a call on a part of the object, which `part` reads and `put` writes back, whether the
call finishes or stops early. -/
def focus (part : σ → τ) (put : σ → τ → σ) (m : InPlace ε τ α) : InPlace ε σ α := fun w =>
  match m ⟨part w.obj, w.log⟩ with
  | .ok a w' => .ok a ⟨put w.obj w'.obj, w'.log⟩
  | .error e w' => .error e ⟨put w.obj w'.obj, w'.log⟩

end InPlace

end PcmBiquad
