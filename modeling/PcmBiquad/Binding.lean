import PcmBiquad.Stream.Filter
/-!
  What the filter library shows to a scripting host.

  A script names filter kinds by the enumeration `Bypass`, `LowPass`, `HighPass`, `BandPass`
  (`Bypass` being the kind named `none`), receives coefficients as the five-tuple
  `(b0, b1, b2, a1, a2)`, and sees every refusal of the library as a `ValueError` carrying the
  refusal's message. A script's stream filter is configured in one call with all of the
  stream's shape and the filter, the container width defaulting to four bytes.
-/

namespace PcmBiquad

namespace FilterKind

/-- The kind a script's enumeration member names. -/
def ofMember? : String → Option FilterKind
  | "Bypass" => some .bypass
  | "LowPass" => some .lowPass
  | "HighPass" => some .highPass
  | "BandPass" => some .bandPass
  | _ => none

end FilterKind

/-- The exception class a script sees for a refusal. -/
def FilterError.exceptionClass (_ : FilterError) : String := "ValueError"

/-- The coefficients of a design, as a script receives them. -/
def designTuple (kind : FilterKind) (rate cutoff : Float32) : List Float32 :=
  (design kind rate cutoff).toList

/-- A script's one-call configuration of a stream filter. -/
def StreamFilter.configureAll (channels depth rate : Nat) (kind : FilterKind) (cutoff : Float32)
    (bytes : Nat := 4) : InPlace FilterError StreamFilter Unit :=
  StreamFilter.configure ⟨channels, depth, bytes, rate⟩ ⟨kind, cutoff⟩

end PcmBiquad
