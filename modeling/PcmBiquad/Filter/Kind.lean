import PcmBiquad.Error
import PcmBiquad.Text.Blank
/-!
  The four kinds of filter a channel can run, and their names.

  A kind is written by its name — `none`, `lowpass`, `highpass`, `bandpass` — and read back by
  `FilterKind.ofName?`, which also takes `bypass` and the hyphenated `low-pass`, `high-pass`,
  `band-pass`. Reading ignores surrounding blanks (`PcmBiquad.isBlank`) and the case of ASCII
  letters; a text outside these spellings is refused with the text as it was given.
-/

namespace PcmBiquad

/-- What a channel filter does to its signal. -/
inductive FilterKind where
  /-- Passes the signal through unchanged. -/
  | bypass
  /-- Second-order Butterworth low pass. -/
  | lowPass
  /-- Second-order Butterworth high pass. -/
  | highPass
  /-- Second-order band pass over a band a quarter of the centre wide on each side. -/
  | bandPass
  deriving Repr, DecidableEq, Inhabited

namespace FilterKind

/-- The name of a kind; the bypass is named `none`. -/
def name : FilterKind → String
  | bypass => "none"
  | lowPass => "lowpass"
  | highPass => "highpass"
  | bandPass => "bandpass"

/-- The kind a cleaned-up (trimmed, lower-case) spelling denotes. -/
def ofSpelling? : String → Option FilterKind
  | "none" | "bypass" => some bypass
  | "lowpass" | "low-pass" => some lowPass
  | "highpass" | "high-pass" => some highPass
  | "bandpass" | "band-pass" => some bandPass
  | _ => none

/-- Reads a kind from text, ignoring surrounding blanks and ASCII case. -/
def ofName? (text : String) : Except FilterError FilterKind :=
  match ofSpelling? (String.ofList ((trimBlankChars text.toList).map Char.toLower)) with
  | some kind => .ok kind
  | none => .error (.unknownKind text)

end FilterKind

end PcmBiquad
