import Mathlib.Algebra.Order.Ring.Int
import Mathlib.Tactic.Ring

/-! Ranges of integers with a positive step. -/

namespace Hecuba

/-- The number of elements from `start`, a step at a time, before `stop`. -/
def rangeLength (start stop step : Int) : Nat :=
  if start < stop then ((stop - start - 1) / step).toNat + 1 else 0

def steppedRange (start stop step : Int) : List Int :=
  (List.range (rangeLength start stop step)).map fun k : Nat => start + step * k

section

variable {start stop step : Int}

@[simp] theorem steppedRange_length : (steppedRange start stop step).length = rangeLength start stop step := by
  simp [steppedRange]

theorem lt_rangeLength_iff (h : 0 < step) {k : Nat} :
    k < rangeLength start stop step ↔ start + step * k < stop := by
  have hk : 0 ≤ step * (k : Int) := Int.mul_nonneg h.le (Int.natCast_nonneg k)
  by_cases hlt : start < stop
  · have hq : 0 ≤ (stop - start - 1) / step := Int.ediv_nonneg (by omega) h.le
    have hle := @Int.le_ediv_iff_mul_le (k : Int) (stop - start - 1) _ h
    rw [mul_comm] at hle
    rw [rangeLength, if_pos hlt]
    constructor
    · intro hlt'
      have hmul := hle.mp (by omega)
      omega
    · intro hlt'
      have hmul := hle.mpr (by omega)
      omega
  · rw [rangeLength, if_neg hlt]
    omega

theorem rangeLength_eq_iff (h : 0 < step) {n : Nat} :
    rangeLength start stop step = n ↔ ∀ k : Nat, k < n ↔ start + step * k < stop := by
  simp only [← lt_rangeLength_iff h]
  constructor
  · intro hn k
    rw [hn]
  · intro hk
    have h1 := hk n
    have h2 := hk (rangeLength start stop step)
    omega

theorem rangeLength_pos_iff (h : 0 < step) : 0 < rangeLength start stop step ↔ start < stop := by
  rw [lt_rangeLength_iff h]
  simp

/-- The stop is at most one step past the last element. -/
theorem stop_le_rangeLength (h : 0 < step) : stop ≤ start + step * rangeLength start stop step := by
  by_contra hlt
  exact absurd ((lt_rangeLength_iff h).mpr (not_le.mp hlt)) (Nat.lt_irrefl _)

theorem rangeLength_lt_stop (h : 0 < step) (hle : start ≤ stop) :
    start + step * rangeLength start stop step < stop + step := by
  cases hn : rangeLength start stop step with
  | zero =>
    simp
    omega
  | succ n =>
    have hlast := (lt_rangeLength_iff h).mp (show n < rangeLength start stop step by omega)
    rw [Nat.cast_add_one, mul_add_one]
    omega

theorem steppedRange_getElem? (k : Nat) :
    (steppedRange start stop step)[k]? = if k < rangeLength start stop step then some (start + step * k) else none := by
  by_cases hk : k < rangeLength start stop step
  · simp [steppedRange, hk]
  · simp [steppedRange, hk]

theorem steppedRange_eq_nil_iff (h : 0 < step) : steppedRange start stop step = [] ↔ stop ≤ start := by
  rw [← List.length_eq_zero_iff, steppedRange_length, ← not_lt, ← rangeLength_pos_iff h]
  omega

/-- Two ranges with one step are the same when both are empty, or they start together and
the same elements come before their stops. -/
theorem steppedRange_eq_iff (h : 0 < step) {start' stop' : Int} :
    steppedRange start stop step = steppedRange start' stop' step ↔
      (stop ≤ start ∧ stop' ≤ start') ∨
        start < stop ∧ start = start' ∧ ∀ k : Nat, start + step * k < stop ↔ start + step * k < stop' := by
  constructor
  · intro he
    have hlen : rangeLength start stop step = rangeLength start' stop' step := by
      simpa using congrArg List.length he
    by_cases hlt : start < stop
    · have hstart : start = start' := by
        have h0 := congrArg (fun l : List Int => l[0]?) he
        have hpos := (rangeLength_pos_iff h).mpr hlt
        have hpos' := hpos
        rw [hlen] at hpos'
        simp only [steppedRange_getElem?, if_pos hpos, if_pos hpos'] at h0
        simpa using h0
      subst hstart
      exact .inr ⟨hlt, rfl, fun k => by rw [← lt_rangeLength_iff h, ← lt_rangeLength_iff h, hlen]⟩
    · have hnil := (steppedRange_eq_nil_iff h).mpr (not_lt.mp hlt)
      rw [hnil] at he
      exact .inl ⟨not_lt.mp hlt, (steppedRange_eq_nil_iff h).mp he.symm⟩
  · rintro (⟨h1, h2⟩ | ⟨-, rfl, hk⟩)
    · rw [(steppedRange_eq_nil_iff h).mpr h1, (steppedRange_eq_nil_iff h).mpr h2]
    · have hlen : rangeLength start stop step = rangeLength start stop' step :=
        (rangeLength_eq_iff h).mpr fun k => by rw [hk, lt_rangeLength_iff h]
      rw [steppedRange, hlen, steppedRange]

/-- Every `times`-th element of a range, from one position to another. -/
theorem steppedRange_scale (h : 0 < step) {times : Int} (ht : 0 < times) (first last : Int) :
    (steppedRange first last times).map (fun p => start + step * p) =
      steppedRange (start + step * first) (start + step * last) (step * times) := by
  have hlen : rangeLength (start + step * first) (start + step * last) (step * times) =
      rangeLength first last times := by
    refine (rangeLength_eq_iff (Int.mul_pos h ht)).mpr fun k => ?_
    have hsplit : step * (first + times * k) = step * first + step * times * k := by ring
    rw [lt_rangeLength_iff ht, ← mul_lt_mul_iff_right₀ h, hsplit]
    omega
  rw [steppedRange, steppedRange, hlen, List.map_map]
  refine List.map_congr_left fun k _ => ?_
  simp only [Function.comp_apply]
  ring

end

end Hecuba
