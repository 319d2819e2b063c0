import Mathlib.Data.Finset.Max
import Mathlib.Data.Rat.Floor
import Mathlib.Tactic.Linarith

/-! Finitely many rational numbers that compare with given ones as all rational numbers do. -/

namespace Hecuba

/-- Two numbers that compare alike with every number of a list. -/
def Alike (numbers : List ℚ) (v w : ℚ) : Prop := ∀ q ∈ numbers, (v < q ↔ w < q) ∧ (v = q ↔ w = q)

/-- Zero, the numbers, the next integers on both sides, and what lies halfway between two. -/
def samples (numbers : List ℚ) : List ℚ :=
  0 :: numbers.flatMap fun q => q :: (⌊q⌋ + 1) :: (⌈q⌉ - 1) :: numbers.map fun q' => (q + q') / 2

section samples

variable {numbers : List ℚ} {q : ℚ}

theorem mem_samples (h : q ∈ numbers) : q ∈ samples numbers := by
  simp only [samples, List.mem_cons, List.mem_flatMap]
  exact .inr ⟨q, h, .inl rfl⟩

theorem floor_mem_samples (h : q ∈ numbers) : (⌊q⌋ + 1 : ℚ) ∈ samples numbers := by
  simp only [samples, List.mem_cons, List.mem_flatMap]
  exact .inr ⟨q, h, .inr (.inl rfl)⟩

theorem ceil_mem_samples (h : q ∈ numbers) : (⌈q⌉ - 1 : ℚ) ∈ samples numbers := by
  simp only [samples, List.mem_cons, List.mem_flatMap]
  exact .inr ⟨q, h, .inr (.inr (.inl rfl))⟩

theorem half_mem_samples (h : q ∈ numbers) {q' : ℚ} (h' : q' ∈ numbers) : (q + q') / 2 ∈ samples numbers := by
  simp only [samples, List.mem_cons, List.mem_flatMap, List.mem_map]
  exact .inr ⟨q, h, .inr (.inr (.inr ⟨q', h', rfl⟩))⟩

/-- A number that lies between the same ones. -/
theorem alike_of_between {v w : ℚ} (hv : v ∉ numbers) (hlow : ∀ q ∈ numbers, q < v → q < w)
    (hhigh : ∀ q ∈ numbers, v < q → w < q) : Alike numbers v w := by
  intro q hq
  have hne : v ≠ q := fun h => hv (h ▸ hq)
  rcases lt_or_gt_of_ne hne with h | h
  · have hw := hhigh q hq h
    exact ⟨iff_of_true h hw, iff_of_false hne hw.ne⟩
  · have hw := hlow q hq h
    exact ⟨iff_of_false h.not_gt hw.not_gt, iff_of_false hne hw.ne'⟩

theorem exists_below (numbers : List ℚ) (v : ℚ) :
    (∀ q ∈ numbers, ¬ q < v) ∨ ∃ a ∈ numbers, a < v ∧ ∀ q ∈ numbers, q < v → q ≤ a := by
  by_cases h : (numbers.toFinset.filter (· < v)).Nonempty
  · obtain ⟨a, ha, hmax⟩ := Finset.exists_max_image _ id h
    simp only [Finset.mem_filter, List.mem_toFinset, id] at ha hmax
    exact .inr ⟨a, ha.1, ha.2, fun q hq hqv => hmax q ⟨hq, hqv⟩⟩
  · simp only [Finset.not_nonempty_iff_eq_empty, Finset.filter_eq_empty_iff, List.mem_toFinset] at h
    exact .inl h

theorem exists_above (numbers : List ℚ) (v : ℚ) :
    (∀ q ∈ numbers, ¬ v < q) ∨ ∃ b ∈ numbers, v < b ∧ ∀ q ∈ numbers, v < q → b ≤ q := by
  by_cases h : (numbers.toFinset.filter (v < ·)).Nonempty
  · obtain ⟨b, hb, hmin⟩ := Finset.exists_min_image _ id h
    simp only [Finset.mem_filter, List.mem_toFinset, id] at hb hmin
    exact .inr ⟨b, hb.1, hb.2, fun q hq hvq => hmin q ⟨hq, hvq⟩⟩
  · simp only [Finset.not_nonempty_iff_eq_empty, Finset.filter_eq_empty_iff, List.mem_toFinset] at h
    exact .inl h

/-- Every integer compares with the numbers as an integer among the samples does. -/
theorem exists_integer_sample (numbers : List ℚ) (v : ℤ) : ∃ w : ℤ, (w : ℚ) ∈ samples numbers ∧ Alike numbers v w := by
  by_cases hv : (v : ℚ) ∈ numbers
  · exact ⟨v, mem_samples hv, fun q _ => ⟨Iff.rfl, Iff.rfl⟩⟩
  · rcases exists_below numbers v with hbelow | ⟨a, ha, hav, hmax⟩
    · rcases exists_above numbers v with habove | ⟨b, hb, hvb, hmin⟩
      · exact ⟨0, by simp [samples], alike_of_between hv (fun q hq h => absurd h (hbelow q hq))
          fun q hq h => absurd h (habove q hq)⟩
      · refine ⟨⌈b⌉ - 1, by simpa using ceil_mem_samples hb,
          alike_of_between hv (fun q hq h => absurd h (hbelow q hq)) ?_⟩
        intro q hq h
        have hceil := Int.ceil_lt_add_one b
        have hbq := hmin q hq h
        push_cast
        linarith
    · refine ⟨⌊a⌋ + 1, by simpa using floor_mem_samples ha, alike_of_between hv (fun q hq h => ?_) fun q hq h => ?_⟩
      · have hfloor := Int.lt_floor_add_one a
        have hqa := hmax q hq h
        push_cast
        linarith
      · have hle : ⌊a⌋ + 1 ≤ v := by
          have := Int.floor_le a
          have hlt : (⌊a⌋ : ℚ) < v := lt_of_le_of_lt this hav
          exact_mod_cast hlt
        exact lt_of_le_of_lt (by exact_mod_cast hle) h

/-- Every number compares with the given ones as one of the samples does. -/
theorem exists_sample (numbers : List ℚ) (v : ℚ) : ∃ w ∈ samples numbers, Alike numbers v w := by
  by_cases hv : v ∈ numbers
  · exact ⟨v, mem_samples hv, fun q _ => ⟨Iff.rfl, Iff.rfl⟩⟩
  · rcases exists_below numbers v with hbelow | ⟨a, ha, hav, hmax⟩
    · rcases exists_above numbers v with habove | ⟨b, hb, hvb, hmin⟩
      · exact ⟨0, by simp [samples], alike_of_between hv (fun q hq h => absurd h (hbelow q hq))
          fun q hq h => absurd h (habove q hq)⟩
      · refine ⟨⌈b⌉ - 1, ceil_mem_samples hb, alike_of_between hv (fun q hq h => absurd h (hbelow q hq)) ?_⟩
        intro q hq h
        have hceil := Int.ceil_lt_add_one b
        have hbq := hmin q hq h
        linarith
    · rcases exists_above numbers v with habove | ⟨b, hb, hvb, hmin⟩
      · refine ⟨⌊a⌋ + 1, floor_mem_samples ha,
          alike_of_between hv (fun q hq h => ?_) fun q hq h => absurd h (habove q hq)⟩
        have hfloor := Int.lt_floor_add_one a
        have hqa := hmax q hq h
        linarith
      · refine ⟨(a + b) / 2, half_mem_samples ha hb, alike_of_between hv (fun q hq h => ?_) fun q hq h => ?_⟩
        · have hqa := hmax q hq h
          linarith
        · have hbq := hmin q hq h
          linarith

end samples

end Hecuba
