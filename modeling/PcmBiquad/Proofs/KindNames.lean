import Mathlib.Data.List.TakeWhile
import PcmBiquad.Filter.Kind
/-!
  Reading a filter kind from its name.

  `FilterKind.ofName?` cleans a text in two steps that know different alphabets: it trims the
  Unicode blanks at both ends (`trimBlank`, the `White_Space` table) and lowercases the letters
  `A` to `Z` only (`String.toLower`). The cleaned text is then one of the kind's `spellings`, or
  the text is refused with itself, untrimmed, as the cause.

  * `isBlank_toLower` — lowercasing never turns a blank into a letter or back, since it moves
    only `A`–`Z`, by 32 code points, onto `a`–`z`;
  * `trimBlankChars_blank_append`, `trimBlankChars_append_blank` — blanks put around a text are
    trimmed with its own;
  * `trimBlank_toLower` — so trimming and lowercasing commute;
  * `ofName?_eq_ok_iff`, `ofName?_eq_error_iff` — what the reader accepts and what it refuses;
  * **`ofName?_accepts_spellings`** — together with the two invariances: the kind read does not
    change when blanks are put around the text or when its ASCII letters change case.
-/

namespace PcmBiquad

/-! ## Blanks and ASCII case -/

/-- Lowercasing moves the letters `A` to `Z` on by 32 code points and keeps every other
character. -/
theorem toNat_toLower (c : Char) :
    c.toLower.toNat = if 65 ≤ c.toNat ∧ c.toNat ≤ 90 then c.toNat + 32 else c.toNat := by
  have hA : 'A'.val.toNat = 65 := rfl
  have hZ : 'Z'.val.toNat = 90 := rfl
  have hupper : (c.val ≥ 'A'.val ∧ c.val ≤ 'Z'.val) ↔ (65 ≤ c.toNat ∧ c.toNat ≤ 90) := by
    rw [GE.ge, UInt32.le_iff_toNat_le, UInt32.le_iff_toNat_le, hA, hZ]
    rfl
  unfold Char.toLower
  split
  · next h =>
    have hc := hupper.mp h
    rw [if_pos hc]
    show (c.val + ('a'.val - 'A'.val)).toNat = c.toNat + 32
    rw [UInt32.toNat_add, show ('a'.val - 'A'.val).toNat = 32 from rfl]
    show (c.toNat + 32) % 2 ^ 32 = c.toNat + 32
    exact Nat.mod_eq_of_lt (by omega)
  · next h =>
    rw [if_neg (fun h' => h (hupper.mpr h'))]

/-- A character is blank exactly when its lowercase is: no letter of `A` to `Z` or `a` to `z`
is blank. -/
@[simp] theorem isBlank_toLower (c : Char) : isBlank c.toLower = isBlank c := by
  have h := toNat_toLower c
  simp only [isBlank, h]
  split <;> grind

/-- Trimming commutes with lowercasing, character by character. -/
theorem trimBlankChars_map_toLower (cs : List Char) :
    trimBlankChars (cs.map Char.toLower) = (trimBlankChars cs).map Char.toLower := by
  simp [trimBlankChars, List.dropWhile_map, ← List.map_reverse, Function.comp_def]

/-- Blanks put in front of a text are trimmed with its own leading blanks. -/
theorem trimBlankChars_blank_append {pre cs : List Char} (hpre : ∀ c ∈ pre, isBlank c) :
    trimBlankChars (pre ++ cs) = trimBlankChars cs := by
  rw [trimBlankChars, trimBlankChars, List.dropWhile_append_of_pos hpre]

/-- Blanks put after a text are trimmed with its own trailing blanks. -/
theorem trimBlankChars_append_blank {cs post : List Char} (hpost : ∀ c ∈ post, isBlank c) :
    trimBlankChars (cs ++ post) = trimBlankChars cs := by
  unfold trimBlankChars
  by_cases hnil : cs.dropWhile isBlank = []
  · -- a text of blanks only: with the blanks after it, nothing is left either
    have hcs : ∀ c ∈ cs, isBlank c := List.dropWhile_eq_nil_iff.mp hnil
    have hall : (cs ++ post).dropWhile isBlank = [] := by
      rw [List.dropWhile_eq_nil_iff]
      intro c hc
      rcases List.mem_append.mp hc with h | h
      · exact hcs c h
      · exact hpost c h
    rw [hall, hnil]
  · -- the leading trim stops inside the text, so the added blanks all come at the end
    rw [List.dropWhile_append, if_neg (by simpa using hnil), List.reverse_append,
      List.dropWhile_append_of_pos (by simpa using hpost)]

/-- The characters of a lowercased text are its characters lowercased. -/
theorem toList_toLower (s : String) : s.toLower.toList = s.toList.map Char.toLower :=
  String.toList_map

/-- Lowercasing a text and then trimming it is trimming it and then lowercasing it. -/
theorem trimBlank_toLower (s : String) : trimBlank s.toLower = (trimBlank s).toLower := by
  rw [← String.toList_inj]
  simp only [trimBlank, toList_toLower, String.toList_ofList, trimBlankChars_map_toLower]

/-- Blanks put around a text are trimmed away. -/
theorem trimBlank_pad {pre post : List Char} (s : String) (hpre : ∀ c ∈ pre, isBlank c)
    (hpost : ∀ c ∈ post, isBlank c) :
    trimBlank (String.ofList pre ++ s ++ String.ofList post) = trimBlank s := by
  simp only [trimBlank, String.toList_append, String.toList_ofList,
    trimBlankChars_append_blank hpost, List.append_assoc, trimBlankChars_blank_append hpre]

namespace FilterKind

/-! ## The grammar of kind names -/

/-- The cleaned-up texts a kind is read from: its name, and `bypass` or the hyphenated form. -/
def spellings : FilterKind → List String
  | bypass => ["none", "bypass"]
  | lowPass => ["lowpass", "low-pass"]
  | highPass => ["highpass", "high-pass"]
  | bandPass => ["bandpass", "band-pass"]

/-- A cleaned-up text denotes a kind exactly when it is one of the kind's spellings. -/
theorem ofSpelling?_eq_some_iff (t : String) (k : FilterKind) :
    ofSpelling? t = some k ↔ t ∈ k.spellings := by
  unfold ofSpelling?
  split <;> cases k <;> simp_all [spellings]

/-- The text the reader matches: the given one, trimmed and lowercased. -/
theorem toLower_trimBlank (s : String) :
    (trimBlank s).toLower = String.ofList ((trimBlankChars s.toList).map Char.toLower) := by
  rw [← String.toList_inj]
  simp only [trimBlank, toList_toLower, String.toList_ofList]

/-- A text is read as a kind exactly when, trimmed and lowercased, it is a spelling of the kind. -/
theorem ofName?_eq_ok_iff (s : String) (k : FilterKind) :
    ofName? s = .ok k ↔ (trimBlank s).toLower ∈ k.spellings := by
  rw [toLower_trimBlank, ← ofSpelling?_eq_some_iff, ofName?]
  split <;> simp_all

/-- A text is refused exactly when, trimmed and lowercased, it spells no kind; the refusal
carries the text as it was given. -/
theorem ofName?_eq_error_iff (s : String) (e : FilterError) :
    ofName? s = .error e ↔
      e = .unknownKind s ∧ ∀ k : FilterKind, (trimBlank s).toLower ∉ k.spellings := by
  simp only [toLower_trimBlank, ← ofSpelling?_eq_some_iff, ofName?]
  cases h : ofSpelling? (String.ofList ((trimBlankChars s.toList).map Char.toLower)) with
  | some k => simp
  | none => simp [eq_comm]

/-- Each kind is read back from its name. -/
theorem ofName?_name (k : FilterKind) : ofName? k.name = .ok k := by
  cases k <;> rfl

/-- **The reader accepts exactly its grammar.** A text is read as the kind whose spelling it is
once its Unicode blanks are trimmed and its ASCII letters lowercased, and is otherwise refused
with the untrimmed text. Blanks put around a text, or a change of case of its ASCII letters,
leave the kind read unchanged. -/
theorem ofName?_accepts_spellings :
    (∀ s k, ofName? s = .ok k ↔ (trimBlank s).toLower ∈ k.spellings) ∧
    (∀ s e, ofName? s = .error e ↔
      e = .unknownKind s ∧ ∀ k : FilterKind, (trimBlank s).toLower ∉ k.spellings) ∧
    (∀ s pre post k, (∀ c ∈ pre, isBlank c) → (∀ c ∈ post, isBlank c) →
      (ofName? (String.ofList pre ++ s ++ String.ofList post) = .ok k ↔ ofName? s = .ok k)) ∧
    (∀ s t k, s.toLower = t.toLower → (ofName? s = .ok k ↔ ofName? t = .ok k)) := by
  refine ⟨ofName?_eq_ok_iff, ofName?_eq_error_iff, ?pad, ?letterCase⟩
  case pad =>
    intro s pre post k hpre hpost
    rw [ofName?_eq_ok_iff, ofName?_eq_ok_iff, trimBlank_pad s hpre hpost]
  case letterCase =>
    intro s t k hst
    rw [ofName?_eq_ok_iff, ofName?_eq_ok_iff, ← trimBlank_toLower, ← trimBlank_toLower, hst]

/-- An ideographic space is trimmed, but a zero-width space is no blank; the refusal keeps the
text as given. -/
example : ofName? "\u3000High-PASS " = .ok highPass ∧
    ofName? "\u200Bnone" = .error (.unknownKind "\u200Bnone") := ⟨rfl, rfl⟩

end FilterKind

end PcmBiquad
