import PcmBiquad.Ring.Region
/-!
  The frames a ring processor visits, read as modular arithmetic.

  Going around a ring of `n` frames from the cursor `c` to the hardware position `h` meets the
  frames `(c + j) mod n` for `j < (h - c) mod n` — the `cyclicInterval`. `Region.between` finds
  the same frames in two straight runs, the tail `[c mod n, n)` and the head `[0, h mod n)`,
  dropping an empty head. `runs_between` lists the runs for each way the two positions can lie,
  so every run is non-empty and stays inside the ring (`runs_between_nonempty`,
  `runs_between_le`); `visits_between` says the runs, read in order, are exactly the cyclic
  interval. `between_enumerates_cyclic_interval` gathers what a caller may rely on: the count
  `(h - c) mod n`, when the region is idle, at most two non-empty runs inside the ring, tail
  before head.
-/

namespace PcmBiquad

/-- The frames met going around a ring of `n` frames from position `c` up to position `h`:
`(c + j) mod n` for `j < (h - c) mod n`, and none on an empty ring. -/
def cyclicInterval (n c h : Nat) : List Nat :=
  if n = 0 then [] else (List.range ((h % n + n - c % n) % n)).map fun j => (c + j) % n

/-- On an empty ring nothing is met. -/
@[simp] theorem cyclicInterval_zero (c h : Nat) : cyclicInterval 0 c h = [] := rfl

/-- A cyclic interval holds `(h - c) mod n` frames. -/
theorem length_cyclicInterval {n : Nat} (c h : Nat) (hn : 0 < n) :
    (cyclicInterval n c h).length = (h % n + n - c % n) % n := by
  simp [cyclicInterval, Nat.pos_iff_ne_zero.mp hn]

/-- Every frame of a cyclic interval is a frame of the ring. -/
theorem lt_of_mem_cyclicInterval {n c h v : Nat} (hv : v ∈ cyclicInterval n c h) : v < n := by
  unfold cyclicInterval at hv
  split at hv
  · simp at hv
  · obtain ⟨j, -, rfl⟩ := List.mem_map.mp hv
    exact Nat.mod_lt _ (by omega)

namespace Region

/-- The region is idle exactly on an empty ring or when the two positions coincide around it. -/
theorem between_eq_idle_iff (last hw n : Nat) :
    between last hw n = idle ↔ n = 0 ∨ last % n = hw % n := by
  unfold between
  by_cases hn : n = 0
  · simp [hn]
  · by_cases hab : last % n = hw % n
    · simp [hn, hab]
    · by_cases hlt : last % n < hw % n <;> simp [hn, hab, hlt]

/-- Keeping the non-empty runs keeps a run that starts before it stops. -/
theorem filter_cons_of_lt {r : Run} (rs : List Run) (h : r.start < r.stop) :
    (r :: rs).filter (0 < ·.length) = r :: rs.filter (0 < ·.length) :=
  List.filter_cons_of_pos (decide_eq_true (Nat.sub_pos_of_lt h))

/-- Keeping the non-empty runs drops a run that stops where it starts. -/
theorem filter_cons_of_stop_le {r : Run} (rs : List Run) (h : r.stop ≤ r.start) :
    (r :: rs).filter (0 < ·.length) = rs.filter (0 < ·.length) :=
  List.filter_cons_of_neg (by simp only [Run.length, Nat.sub_eq_zero_of_le h]; decide)

/-- The runs between two positions on a ring of `n` frames: none when the positions coincide,
one straight run when the cursor lies behind the hardware position, and otherwise the tail up to
the end of the ring followed by the head from its start, which is left out when it is empty. -/
theorem runs_between {last hw n : Nat} (hn : 0 < n) :
    (between last hw n).runs =
      if last % n = hw % n then []
      else if last % n < hw % n then [⟨last % n, hw % n⟩]
      else ⟨last % n, n⟩ :: if hw % n = 0 then [] else [⟨0, hw % n⟩] := by
  have ha : last % n < n := Nat.mod_lt _ hn
  simp only [between, Nat.pos_iff_ne_zero.mp hn, if_false]
  by_cases hab : last % n = hw % n
  · rw [if_pos hab, if_pos hab]
    rfl
  · rw [if_neg hab, if_neg hab]
    by_cases hlt : last % n < hw % n
    · rw [if_pos hlt, if_pos hlt, runs, filter_cons_of_lt _ hlt, List.filter_nil]
    · -- the tail is never empty; the head is empty exactly when the hardware is at frame 0
      rw [if_neg hlt, if_neg hlt, runs, filter_cons_of_lt _ ha]
      by_cases hz : hw % n = 0
      · rw [if_pos hz, filter_cons_of_stop_le _ (Nat.le_of_eq hz), List.filter_nil]
      · rw [if_neg hz, filter_cons_of_lt _ (Nat.pos_of_ne_zero hz), List.filter_nil]

/-- On a ring of `n > 0` frames every run between two positions is non-empty and inside the
ring. -/
theorem runs_between_nonempty {last hw n : Nat} (hn : 0 < n) :
    ∀ r ∈ (between last hw n).runs, r.start < r.stop ∧ r.stop ≤ n := by
  have ha : last % n < n := Nat.mod_lt _ hn
  have hb : hw % n < n := Nat.mod_lt _ hn
  rw [runs_between hn]
  (repeat' split) <;> simp <;> omega

/-- Every run of a region between two positions lies inside the ring, start before stop. -/
theorem runs_between_le (last hw n : Nat) :
    ∀ r ∈ (between last hw n).runs, r.start ≤ r.stop ∧ r.stop ≤ n := by
  intro r hr
  by_cases hn : n = 0
  · -- an empty ring has no runs
    subst hn
    simp [runs] at hr
  · obtain ⟨hlt, hle⟩ := runs_between_nonempty (Nat.pos_of_ne_zero hn) r hr
    exact ⟨Nat.le_of_lt hlt, hle⟩

/-- The runs of the region from `last` to `hw` on a ring of `n` frames visit exactly the cyclic
interval from `last` to `hw`, in order: the tail before the head. -/
theorem visits_between (last hw n : Nat) : (between last hw n).visits = cyclicInterval n last hw := by
  by_cases hn : n = 0
  · subst hn
    rfl
  have hpos : 0 < n := Nat.pos_of_ne_zero hn
  have ha : last % n < n := Nat.mod_lt _ hpos
  have hb : hw % n < n := Nat.mod_lt _ hpos
  -- every frame is `last mod n` plus a step, reduced once
  have hstep : ∀ j, (last + j) % n = (last % n + j) % n := fun j => (Nat.mod_add_mod last n j).symm
  simp only [between, visits, cyclicInterval, hn, if_false]
  by_cases hab : last % n = hw % n
  · simp only [hab, if_true, runs, List.flatMap_nil]
    rw [show hw % n + n - hw % n = n by omega, Nat.mod_self]
    rfl
  · simp only [hab, if_false]
    by_cases hlt : last % n < hw % n
    · -- one straight run `[last mod n, hw mod n)`
      have hcount : (hw % n + n - last % n) % n = hw % n - last % n := by
        rw [show hw % n + n - last % n = hw % n - last % n + n by omega, Nat.add_mod_right,
          Nat.mod_eq_of_lt (by omega)]
      simp only [hlt, if_true]
      rw [runs, flatMap_indices_filter]
      simp only [List.flatMap_cons, List.flatMap_nil, List.append_nil, Run.indices, Run.length,
        hcount, List.range'_eq_map_range]
      apply List.map_congr_left
      intro j hj
      rw [List.mem_range] at hj
      rw [hstep, Nat.mod_eq_of_lt (show last % n + j < n by omega)]
    · -- the tail `[last mod n, n)`, then the head `[0, hw mod n)`
      have hcount : (hw % n + n - last % n) % n = (n - last % n) + hw % n := by
        rw [Nat.mod_eq_of_lt (by omega)]
        omega
      simp only [hlt, if_false]
      rw [runs, flatMap_indices_filter]
      simp only [List.flatMap_cons, List.flatMap_nil, List.append_nil, Run.indices, Run.length,
        Nat.sub_zero, hcount]
      rw [List.range_add, List.map_append, List.map_map]
      congr 1
      · rw [List.range'_eq_map_range]
        apply List.map_congr_left
        intro j hj
        rw [List.mem_range] at hj
        rw [hstep, Nat.mod_eq_of_lt (show last % n + j < n by omega)]
      · rw [List.range'_eq_map_range]
        apply List.map_congr_left
        intro j hj
        rw [List.mem_range] at hj
        simp only [Function.comp, Nat.zero_add]
        rw [hstep, show last % n + (n - last % n + j) = n + j by omega, Nat.add_mod_left,
          Nat.mod_eq_of_lt (by omega)]

/-- **The region between two positions enumerates the cyclic interval.** On an empty ring it is
idle. On a ring of `n > 0` frames, with `a = last mod n` and `b = hw mod n`, it covers
`(b - a) mod n` frames, is idle exactly when `a = b`, and has at most two runs, each non-empty and
inside the ring, which read in order visit `a, a + 1, …` around the ring, one frame after
another. When it wraps, the tail up to `n` comes before the head from `0`, and an empty head is
dropped. -/
theorem between_enumerates_cyclic_interval (last hw : Nat) :
    between last hw 0 = idle ∧
    ∀ n, 0 < n →
      (between last hw n).frames = (hw % n + n - last % n) % n ∧
      (between last hw n = idle ↔ last % n = hw % n) ∧
      (between last hw n).runs.length ≤ 2 ∧
      (∀ r ∈ (between last hw n).runs, r.start < r.stop ∧ r.stop ≤ n) ∧
      (between last hw n).visits =
        (List.range (between last hw n).frames).map (fun j => (last % n + j) % n) ∧
      (hw % n < last % n →
        (between last hw n).runs =
          ⟨last % n, n⟩ :: if hw % n = 0 then [] else [⟨0, hw % n⟩]) := by
  refine ⟨between_zero last hw, fun n hn => ?_⟩
  have hframes : (between last hw n).frames = (hw % n + n - last % n) % n := by
    rw [← length_visits, visits_between, length_cyclicInterval _ _ hn]
  refine ⟨hframes, ?idle, ?count, ?inside, ?visits, ?wrapped⟩
  case idle =>
    exact (between_eq_idle_iff last hw n).trans (or_iff_right (Nat.pos_iff_ne_zero.mp hn))
  case count =>
    rw [runs_between hn]
    (repeat' split) <;> simp
  case inside => exact runs_between_nonempty hn
  case visits =>
    rw [visits_between, cyclicInterval, if_neg (Nat.pos_iff_ne_zero.mp hn), hframes]
    apply List.map_congr_left
    intro j _
    exact (Nat.mod_add_mod last n j).symm
  case wrapped =>
    intro hlt
    rw [runs_between hn, if_neg (by omega), if_neg (by omega)]

end Region

end PcmBiquad
