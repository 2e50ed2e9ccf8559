import Mathlib.Data.Rat.Floor
import PcmBiquad.Proofs.Quantiser
/-!
  Which sample layouts can be built.

  A `SampleFormat` carries its own validity — a container of one to four bytes, one to
  `8 · bytes` significant bits — so every format there is, the standard one included, is a valid
  layout. What remains is that the two constructors build exactly those, and what they report
  otherwise.

  * `make? depth bytes` succeeds exactly with the format of those widths (`make?_eq_ok_iff`),
    hence exactly for a valid layout (`exists_make?_eq_ok_iff`). A container outside one to four
    bytes is refused for its width whatever the depth; a bad depth in a good container is refused
    with both widths.
  * `packed? depth` asks for the narrowest container that holds `depth` bits
    (`packed?_bytes_isLeast`): it succeeds exactly for one to 32 bits; zero bits are refused as a
    depth that does not fit one byte, and more than 32 for a container of `⌈depth / 8⌉` bytes.
  * Every format drops exactly `8 · bytes - depth` bits, its full scale is exactly
    `2 ^ (depth - 1)` (`toRat?_fullScale`), and the shifts a 32-bit word reader and writer use —
    the unused high bytes with the dropped bits, `32 - depth`, and the dropped bits alone — are
    below 32 (`shifts_lt_32`).

  `format_constructors_exact` gathers these.
-/

namespace PcmBiquad

/-- `(n + 7) / 8` is the ceiling of `n / 8`. -/
theorem add_seven_div_eight (n : Nat) : (n + 7) / 8 = ⌈(n : ℚ) / 8⌉₊ := by
  have hceil : (n : ℚ) / 8 ≤ ⌈(n : ℚ) / 8⌉₊ := Nat.le_ceil _
  rw [div_le_iff₀ (by norm_num)] at hceil
  have hn : n ≤ ⌈(n : ℚ) / 8⌉₊ * 8 := by exact_mod_cast hceil
  have hk : (n : ℚ) / 8 ≤ ((n + 7) / 8 : ℕ) := by
    rw [div_le_iff₀ (by norm_num)]
    exact_mod_cast (by omega : n ≤ (n + 7) / 8 * 8)
  have hle := Nat.ceil_le.2 hk
  omega

namespace SampleFormat

/-! ## What the constructors accept -/

/-- `make?` succeeds exactly with the format of the widths asked for. -/
theorem make?_eq_ok_iff {depth bytes : Nat} {f : SampleFormat} :
    make? depth bytes = .ok f ↔ f.depth = depth ∧ f.bytes = bytes := by
  constructor
  · intro h
    by_cases hb : 1 ≤ bytes ∧ bytes ≤ 4
    · by_cases hd : 1 ≤ depth ∧ depth ≤ 8 * bytes
      · rw [make?_of_valid hb hd] at h
        cases h
        exact ⟨rfl, rfl⟩
      · rw [make?_of_bad_depth hb hd] at h
        cases h
    · rw [make?_of_bad_container hb] at h
      cases h
  · rintro ⟨rfl, rfl⟩
    rw [make?_of_valid ⟨f.bytes_pos, f.bytes_le⟩ ⟨f.depth_pos, f.depth_le⟩]

/-- `make?` builds a format exactly for a valid layout. -/
theorem exists_make?_eq_ok_iff (depth bytes : Nat) :
    (∃ f, make? depth bytes = .ok f) ↔ 1 ≤ bytes ∧ bytes ≤ 4 ∧ 1 ≤ depth ∧ depth ≤ 8 * bytes := by
  simp only [make?_eq_ok_iff]
  constructor
  · rintro ⟨f, rfl, rfl⟩
    exact ⟨f.bytes_pos, f.bytes_le, f.depth_pos, f.depth_le⟩
  · rintro ⟨h₁, h₂, h₃, h₄⟩
    exact ⟨⟨bytes, depth, h₁, h₂, h₃, h₄⟩, rfl, rfl⟩

/-- `packed?` builds a format exactly for one to 32 bits. -/
theorem exists_packed?_eq_ok_iff (depth : Nat) :
    (∃ f, packed? depth = .ok f) ↔ 1 ≤ depth ∧ depth ≤ 32 := by
  rw [packed?, exists_make?_eq_ok_iff]
  omega

/-- A format `packed?` builds has the depth asked for, in the narrowest container that holds
it. -/
theorem packed?_bytes_isLeast {depth : Nat} {f : SampleFormat} (h : packed? depth = .ok f) :
    f.depth = depth ∧ IsLeast {n | 1 ≤ n ∧ depth ≤ 8 * n} f.bytes := by
  obtain ⟨hd, hb⟩ := make?_eq_ok_iff.1 h
  refine ⟨hd, ⟨f.bytes_pos, hd ▸ f.depth_le⟩, ?_⟩
  rintro n ⟨hn, hdn⟩
  rw [hb]
  omega

/-- More than 32 bits ask for a container of `⌈depth / 8⌉` bytes, refused for its width. -/
theorem packed?_of_gt {depth : Nat} (h : 32 < depth) :
    packed? depth = .error (.unsupportedContainer ⌈(depth : ℚ) / 8⌉₊) := by
  rw [packed?, make?_of_bad_container (by omega), max_eq_right (by omega), add_seven_div_eight]

/-! ## What every format holds -/

/-- Full scale is exactly `2 ^ (depth - 1)`. -/
theorem toRat?_fullScale (f : SampleFormat) :
    Single.toRat? f.fullScale = some (2 ^ (f.depth - 1)) := by
  have hd := f.depth_pos
  rw [Single.toRat?_of_finite f.value_fullScale, Single.apply_positive_mul_zpow, Nat.cast_pow,
    Nat.cast_ofNat, ← zpow_natCast (2 : ℚ) 23, ← zpow_add₀ two_ne_zero, ← zpow_natCast]
  congr 2
  omega

/-- A 32-bit word shifted by the container's unused high bytes and then by the dropped bits is
shifted by `32 - depth` in all; that and the dropped bits alone are below 32. -/
theorem shifts_lt_32 (f : SampleFormat) :
    (32 - 8 * f.bytes) + f.shift = 32 - f.depth ∧ 32 - f.depth < 32 ∧ f.shift < 32 := by
  have hsum := f.shift_add_depth
  have hd := f.depth_pos
  have hb := f.bytes_le
  omega

end SampleFormat

/-- **The format constructors accept exactly the valid layouts.** `make? depth bytes` builds a
format exactly when `1 ≤ bytes ≤ 4` and `1 ≤ depth ≤ 8 · bytes`, and then the one with those
widths; otherwise it refuses a bad container for its width, whatever the depth, and a bad depth in
a good container with both widths. `packed? depth` builds one exactly for one to 32 bits, in the
narrowest container that holds them; it refuses zero bits as a depth that one byte cannot hold and
more bits for a container of `⌈depth / 8⌉` bytes. The standard format is the one `make?` builds
for 16 bits in four bytes. Every format is a valid layout that drops exactly `8 · bytes - depth`
bits, has full scale exactly `2 ^ (depth - 1)`, and shifts a 32-bit word by less than 32. -/
theorem format_constructors_exact :
    (∀ depth bytes, (∃ f, SampleFormat.make? depth bytes = .ok f) ↔
      1 ≤ bytes ∧ bytes ≤ 4 ∧ 1 ≤ depth ∧ depth ≤ 8 * bytes) ∧
    (∀ depth bytes f, SampleFormat.make? depth bytes = .ok f → f.depth = depth ∧ f.bytes = bytes) ∧
    (∀ depth bytes, ¬(1 ≤ bytes ∧ bytes ≤ 4) →
      SampleFormat.make? depth bytes = .error (.unsupportedContainer bytes)) ∧
    (∀ depth bytes, 1 ≤ bytes ∧ bytes ≤ 4 → ¬(1 ≤ depth ∧ depth ≤ 8 * bytes) →
      SampleFormat.make? depth bytes = .error (.invalidFormat depth bytes)) ∧
    (∀ depth, (∃ f, SampleFormat.packed? depth = .ok f) ↔ 1 ≤ depth ∧ depth ≤ 32) ∧
    (∀ depth f, SampleFormat.packed? depth = .ok f →
      f.depth = depth ∧ IsLeast {n | 1 ≤ n ∧ depth ≤ 8 * n} f.bytes) ∧
    SampleFormat.packed? 0 = .error (.invalidFormat 0 1) ∧
    (∀ depth, 32 < depth →
      SampleFormat.packed? depth = .error (.unsupportedContainer ⌈(depth : ℚ) / 8⌉₊)) ∧
    SampleFormat.make? 16 4 = .ok SampleFormat.standard ∧
    ∀ f : SampleFormat, (1 ≤ f.bytes ∧ f.bytes ≤ 4 ∧ 1 ≤ f.depth ∧ f.depth ≤ 8 * f.bytes) ∧
      f.shift + f.depth = 8 * f.bytes ∧ Single.toRat? f.fullScale = some (2 ^ (f.depth - 1)) ∧
      ((32 - 8 * f.bytes) + f.shift = 32 - f.depth ∧ 32 - f.depth < 32 ∧ f.shift < 32) :=
  ⟨SampleFormat.exists_make?_eq_ok_iff, fun _ _ _ h => SampleFormat.make?_eq_ok_iff.1 h,
    fun _ _ h => SampleFormat.make?_of_bad_container h,
    fun _ _ hb hd => SampleFormat.make?_of_bad_depth hb hd, SampleFormat.exists_packed?_eq_ok_iff,
    fun _ _ h => SampleFormat.packed?_bytes_isLeast h, rfl, fun _ h => SampleFormat.packed?_of_gt h,
    rfl,
    fun f => ⟨⟨f.bytes_pos, f.bytes_le, f.depth_pos, f.depth_le⟩, f.shift_add_depth,
      f.toRat?_fullScale, f.shifts_lt_32⟩⟩

end PcmBiquad
