/-!
  Blank characters: the Unicode `White_Space` property.

  The property holds of 25 code points — the ASCII controls from tab to carriage return, space,
  next line, no-break space, ogham space mark, the typographic spaces `U+2000` to `U+200A`, the
  line and paragraph separators, the narrow no-break space, the medium mathematical space and
  the ideographic space. The zero-width space `U+200B` and the Mongolian vowel separator `U+180E`
  are not in it. `trimBlank` removes such characters from both ends of a text.
-/

namespace PcmBiquad

/-- The Unicode `White_Space` property. -/
def isBlank (c : Char) : Bool :=
  let n := c.toNat
  (0x09 ≤ n && n ≤ 0x0D) || n == 0x20 || n == 0x85 || n == 0xA0 || n == 0x1680 ||
    (0x2000 ≤ n && n ≤ 0x200A) || n == 0x2028 || n == 0x2029 || n == 0x202F ||
    n == 0x205F || n == 0x3000

/-- The characters of a text without its leading and trailing blanks. -/
def trimBlankChars (cs : List Char) : List Char :=
  ((cs.dropWhile isBlank).reverse.dropWhile isBlank).reverse

/-- A text without its leading and trailing blanks. -/
def trimBlank (s : String) : String :=
  String.ofList (trimBlankChars s.toList)

end PcmBiquad
