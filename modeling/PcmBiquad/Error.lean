/-!
  Refusals of the filter library.

  A request is refused for one of four causes, each carrying the values that explain it:

  * `capacityExceeded` — a bank was asked to run more channels than it holds;
  * `invalidFormat`    — a bit depth of zero, or wider than its container;
  * `unsupportedContainer` — a container that is not one to four bytes wide;
  * `unknownKind`      — a filter name outside the known spellings, kept as it was given.

  `FilterError.message` is the one place where a refusal is put into words.
-/

namespace PcmBiquad

/-- Why the filter library refused a request. -/
inductive FilterError where
  /-- More channels were requested than the bank has room for. -/
  | capacityExceeded (requested capacity : Nat)
  /-- The bit depth is zero or does not fit in the container. -/
  | invalidFormat (bitDepth bytesPerSample : Nat)
  /-- The container width is not between one and four bytes. -/
  | unsupportedContainer (bytes : Nat)
  /-- The text names no filter kind; it is kept exactly as given, untrimmed. -/
  | unknownKind (text : String)
  deriving Repr, DecidableEq

namespace FilterError

/-- The sentence that reports a refusal. -/
def message : FilterError → String
  | capacityExceeded requested capacity =>
    s!"Channel count {requested} exceeds filter bank capacity of {capacity}"
  | invalidFormat bitDepth bytes =>
    s!"Bit depth {bitDepth} does not fit in a {bytes}-byte sample"
  | unsupportedContainer bytes =>
    s!"Unsupported sample container of {bytes} bytes (expected 1 to 4)"
  | unknownKind text => "Unknown filter kind: " ++ text

end FilterError

end PcmBiquad
