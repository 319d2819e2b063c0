import Hecuba.PlainKeys
import Hecuba.SteppedRanges

/-! Positions that count from the end of a view. The composer subtracts steps from the stop of
the view, which need not be a whole number of steps after its start. -/

namespace Hecuba

/-- The positions of a dimension of `size` elements that a slice selects, in order. -/
def Slice.positions (s : Slice) (size : Nat) : Except PyError (List Int) := do
  let (first, stride, len) ← s.indices size
  .ok ((List.range len).map fun k : Nat => first + stride * k)

/-- What the Nones of a slice stand for. -/
def Slice.bounds (s : Slice) (size : Nat) : Bounds := ⟨s.start.getD 0, s.stop.getD size, s.step.getD 1⟩

namespace Bounds

structure InDimension (s : Bounds) (size : Nat) : Prop where
  start_nonneg : 0 ≤ s.start
  start_le : s.start ≤ s.stop
  stop_le : s.stop ≤ size
  step_pos : 1 ≤ s.step

/-- `range(start, stop, step)` -/
def range (s : Bounds) : List Int := steppedRange s.start s.stop s.step

/-- `range(start, stop, step)[pos]`, for a position counted from the end. -/
def fromEnd (s : Bounds) (pos : Int) : Option Int := s.range[(s.range.length + pos).toNat]?

/-- `range(start, stop, step)[new]` -/
def getSlice (s : Bounds) (new : Slice) : Except PyError (List Int) := do
  let positions ← new.positions s.range.length
  .ok (positions.map fun p => s.start + s.step * p)

/-- What the stop lacks to be a whole number of steps after the start. -/
def shortfall (s : Bounds) : Int := s.start + s.step * s.range.length - s.stop

end Bounds

/-- A slice of a range of `n` elements with an end in `[-n, -1]`. -/
structure HasNegativeEnd (n : Nat) (new : Slice) : Prop where
  start_ge : ∀ x ∈ new.start, -n ≤ x
  stop_ge : ∀ y ∈ new.stop, -n ≤ y
  negative : new.start.getD 0 < 0 ∨ new.stop.getD 0 < 0
  step_pos : ∀ step ∈ new.step, 1 ≤ step

/-- The start falls before the array, and numpy takes it to the start of the range. -/
def WrapsToStart (size : Nat) (s : Bounds) (x : Int) : Prop :=
  x = -s.range.length ∧ (size = s.shortfall ∨ s.start = 0 ∧ size < s.shortfall)

/-- When a slice with a negative end is composed right: the range is aligned or only the stop
is negative, up to what is selected anyway or wraps. -/
def ComposedRight (size : Nat) (s : Bounds) (new : Slice) : Prop :=
  let n : Int := s.range.length
  let x := new.start.getD 0
  match new.stop with
  | none => s.shortfall = 0 ∨ WrapsToStart size s x
  | some y =>
    if 0 ≤ x then y ≠ -n ∨ s.shortfall ≤ s.start ∨ size ≤ x * s.step + s.shortfall
    else if y < 0 then
      s.shortfall = 0 ∨ y ≤ x ∧ (y ≠ -n ∨ s.shortfall ≤ s.start ∨ x = -n ∨ size ≤ (n + x) * s.step)
    else if y = 0 then x = -n ∧ s.start < s.shortfall ∧ n * s.step ≤ size
    else s.shortfall = 0 ∨ y < n + x ∨ WrapsToStart size s x

section range

variable {size : Nat} {s : Bounds}

theorem Slice.positions_eq {t : Slice} (h : 0 < t.step.getD 1) : t.positions size =
    .ok (steppedRange (Slice.clip t.start 0 0 size size) (Slice.clip t.stop size 0 size size) (t.step.getD 1)) := by
  rw [Slice.positions, Slice.indices, if_neg h.ne', if_pos h]
  rfl

theorem Bounds.stop_eq (s : Bounds) : s.stop = s.start + s.step * s.range.length - s.shortfall := by
  rw [Bounds.shortfall]
  omega

theorem Bounds.InDimension.shortfall_nonneg (h : s.InDimension size) : 0 ≤ s.shortfall := by
  have hle := @stop_le_rangeLength s.start s.stop s.step h.step_pos
  rw [Bounds.shortfall, Bounds.range, steppedRange_length]
  omega

theorem Bounds.InDimension.shortfall_lt (h : s.InDimension size) : s.shortfall < s.step := by
  have hlt := @rangeLength_lt_stop s.start s.stop s.step h.step_pos h.start_le
  rw [Bounds.shortfall, Bounds.range, steppedRange_length]
  omega

/-- The shortfall takes no element from those before a position. -/
theorem Bounds.InDimension.lt_iff (h : s.InDimension size) (m q : Int) :
    s.start + s.step * m < s.start + s.step * q - s.shortfall ↔ m < q := by
  have hnonneg := h.shortfall_nonneg
  have hlt := h.shortfall_lt
  have hstep := h.step_pos
  constructor
  · intro hm
    refine lt_of_mul_lt_mul_left (a := s.step) ?_ (by omega)
    omega
  · intro hm
    have hmul : s.step * (m + 1) ≤ s.step * q := mul_le_mul_of_nonneg_left hm (by omega)
    rw [mul_add_one] at hmul
    omega

theorem Bounds.InDimension.shortfall_eq_zero_iff (h : s.InDimension size) :
    s.shortfall = 0 ↔ s.step ∣ s.stop - s.start := by
  have hstop := s.stop_eq
  constructor
  · intro hr
    exact ⟨s.range.length, by omega⟩
  · rintro ⟨k, hk⟩
    have hr : s.shortfall = s.step * (s.range.length - k) := by
      rw [mul_sub]
      omega
    have hdvd : s.step ∣ s.shortfall := ⟨_, hr⟩
    exact Int.eq_zero_of_dvd_of_nonneg_of_lt h.shortfall_nonneg h.shortfall_lt hdvd

theorem Bounds.InDimension.length_le (h : s.InDimension size) : s.range.length ≤ size := by
  have hstart := h.start_nonneg
  have hstop := h.stop_le
  rw [Bounds.range, steppedRange_length]
  by_contra hlt
  have hlast := (lt_rangeLength_iff (lt_of_lt_of_le (by decide) h.step_pos)).mp (not_le.mp hlt)
  have hone : 1 * (size : Int) ≤ s.step * size := mul_le_mul_of_nonneg_right h.step_pos (Int.natCast_nonneg size)
  omega

theorem Bounds.InDimension.start_lt_stop (h : s.InDimension size) {x : Int} (hx : x < 0)
    (hn : -s.range.length ≤ x) : s.start < s.stop := by
  refine (rangeLength_pos_iff h.step_pos).mp ?_
  have hlen : s.range.length = rangeLength s.start s.stop s.step := steppedRange_length
  omega

end range

/-- The elements from `first` before `last` are those of the range from position `p` before
position `q`. -/
def Same (s : Bounds) (times first last p q : Int) : Prop :=
  steppedRange first last (s.step * times) =
    steppedRange (s.start + s.step * p) (s.start + s.step * q) (s.step * times)

section same

variable {size : Nat} {s : Bounds} {times first last p q : Int}

theorem Bounds.InDimension.same_empty (h : s.InDimension size) (ht : 0 < times) (hpq : q ≤ p) :
    Same s times first last p q ↔ last ≤ first := by
  have hstep : 0 < s.step * times := Int.mul_pos h.step_pos ht
  have hle : s.start + s.step * q ≤ s.start + s.step * p :=
    Int.add_le_add_left (mul_le_mul_of_nonneg_left hpq (Int.le_trans (by decide) h.step_pos)) _
  rw [Same, (steppedRange_eq_nil_iff hstep).mpr hle, steppedRange_eq_nil_iff hstep]

theorem Bounds.InDimension.same_ends (h : s.InDimension size) (ht : 0 < times)
    (hends : ∀ m, s.start + s.step * m < last ↔ m < q) :
    Same s times first last p q ↔ last ≤ first ∧ q ≤ p ∨ p < q ∧ first = s.start + s.step * p := by
  by_cases hpq : p < q
  · have hstep : 0 < s.step * times := Int.mul_pos h.step_pos ht
    have hlt (m : Int) : s.start + s.step * m < s.start + s.step * q ↔ m < q := by
      rw [add_lt_add_iff_left, mul_lt_mul_iff_right₀ (lt_of_lt_of_le (by decide) h.step_pos)]
    rw [Same, steppedRange_eq_iff hstep]
    constructor
    · rintro (⟨-, hle⟩ | ⟨-, hfirst, -⟩)
      · exact absurd ((hlt p).mpr hpq) (not_lt.mpr hle)
      · exact .inr ⟨hpq, hfirst⟩
    · rintro (⟨-, hle⟩ | ⟨-, rfl⟩)
      · omega
      · refine .inr ⟨(hends p).mpr hpq, rfl, fun k => ?_⟩
        have hsplit : s.start + s.step * p + s.step * times * k = s.start + s.step * (p + times * k) := by ring
        rw [hsplit, hends, hlt]
  · rw [h.same_empty ht (not_lt.mp hpq)]
    omega

end same

section ends

variable {size : Nat} {s : Bounds} {x y : Int}

theorem composeIndex_of_neg (h : x < 0) :
    composeIndex s x = s.start + s.step * (s.range.length + x) - s.shortfall := by
  rw [composeIndex, if_pos h, s.stop_eq]
  ring

/-- A position other than the first is after it, less the shortfall. -/
theorem Bounds.InDimension.composeIndex_nonneg (h : s.InDimension size) (hx : x < 0) (hn : -s.range.length ≤ x)
    (hlate : x ≠ -s.range.length ∨ s.shortfall ≤ s.start) : 0 ≤ composeIndex s x := by
  have hstart := h.start_nonneg
  have hlt := h.shortfall_lt
  rw [composeIndex_of_neg hx]
  by_cases hfirst : x = -s.range.length
  · rw [hfirst, add_neg_cancel, mul_zero]
    omega
  · have hmul : s.step * 1 ≤ s.step * (s.range.length + x) :=
      mul_le_mul_of_nonneg_left (by omega) (Int.le_trans (by decide) h.step_pos)
    omega

theorem Bounds.InDimension.composeIndex_lt (h : s.InDimension size) (hx : x < 0) : composeIndex s x < s.stop := by
  have hstep := h.step_pos
  have hmul : x * s.step < 0 := mul_neg_of_neg_of_pos hx hstep
  rw [composeIndex, if_pos hx]
  omega

theorem Bounds.InDimension.first_of_neg (h : s.InDimension size) (hx : x < 0) (hn : -s.range.length ≤ x)
    (hlate : x ≠ -s.range.length ∨ s.shortfall ≤ s.start) :
    Slice.clip (some (composeIndex s x)) 0 0 size size =
      s.start + s.step * (s.range.length + x) - s.shortfall := by
  have hnonneg := h.composeIndex_nonneg hx hn hlate
  have hlt := h.composeIndex_lt hx
  have hsize := h.stop_le
  rw [Slice.clip, if_neg (by omega), ← composeIndex_of_neg hx]
  omega

theorem first_of_wrap (hn : x = -s.range.length) (hx : x < 0) (hr : s.start < s.shortfall) :
    Slice.clip (some (composeIndex s x)) 0 0 size size = max (s.start - s.shortfall + size) 0 := by
  rw [composeIndex_of_neg hx, hn, add_neg_cancel, mul_zero, add_zero, Slice.clip, if_pos (by omega)]

theorem Bounds.InDimension.last_of_neg (h : s.InDimension size) (hy : y < 0) (hn : -s.range.length ≤ y)
    (hlate : y ≠ -s.range.length ∨ s.shortfall ≤ s.start) :
    Slice.clip (some (min (composeIndex s y) s.stop)) size 0 size size =
      s.start + s.step * (s.range.length + y) - s.shortfall := by
  rw [min_eq_left (h.composeIndex_lt hy).le]
  exact h.first_of_neg hy hn hlate

theorem Bounds.InDimension.last_of_wrap (h : s.InDimension size) (hn : y = -s.range.length) (hy : y < 0)
    (hr : s.start < s.shortfall) :
    Slice.clip (some (min (composeIndex s y) s.stop)) size 0 size size =
      max (s.start - s.shortfall + size) 0 := by
  rw [min_eq_left (h.composeIndex_lt hy).le]
  exact first_of_wrap hn hy hr

theorem Bounds.InDimension.last_eq_min (h : s.InDimension size) (hy : 0 < y) :
    Slice.clip (some (min (composeIndex s y) s.stop)) size 0 size size =
      min (s.start + s.step * y) s.stop := by
  have hstart := h.start_nonneg
  have hle := h.start_le
  have hsize := h.stop_le
  have hmul : 0 < s.step * y := Int.mul_pos h.step_pos hy
  rw [composeIndex_of_nonneg hy.le, mul_comm y, Slice.clip, if_neg (by omega)]
  omega

theorem Bounds.InDimension.lt_last_iff (h : s.InDimension size) (m : Int) :
    s.start + s.step * m < min (s.start + s.step * y) s.stop ↔ m < min y s.range.length := by
  have hlt := h.lt_iff m s.range.length
  rw [← s.stop_eq] at hlt
  rw [lt_min_iff, lt_min_iff, hlt, add_lt_add_iff_left, mul_lt_mul_iff_right₀ (lt_of_lt_of_le (by decide) h.step_pos)]

end ends

section cases

variable {size : Nat} {s : Bounds} {times x y : Int}

/-- Only the stop is negative: the shortfall does no harm, unless the stop falls before the array. -/
theorem Bounds.InDimension.same_of_negative_stop (h : s.InDimension size) (ht : 0 < times) (hx : 0 ≤ x)
    (hy : y < 0) (hn : -s.range.length ≤ y) :
    Same s times (Slice.clip (some (composeIndex s x)) 0 0 size size)
        (Slice.clip (some (min (composeIndex s y) s.stop)) size 0 size size)
        (min x s.range.length) (s.range.length + y) ↔
      y ≠ -s.range.length ∨ s.shortfall ≤ s.start ∨ size ≤ x * s.step + s.shortfall := by
  have hstart := h.start_nonneg
  have hsize := h.stop_le
  have hxstep : 0 ≤ x * s.step := Int.mul_nonneg hx (Int.le_trans (by decide) h.step_pos)
  have hfirst : Slice.clip (some (composeIndex s x)) 0 0 size size = min (s.start + x * s.step) size := by
    rw [composeIndex_of_nonneg hx, Slice.clip, if_neg (by omega)]
  by_cases hlate : y ≠ -s.range.length ∨ s.shortfall ≤ s.start
  · refine iff_of_true ?_ (hlate.imp_right Or.inl)
    have hlast := h.last_of_neg hy hn hlate
    have hend := h.composeIndex_lt hy
    rw [composeIndex_of_neg hy] at hend
    refine (h.same_ends ht fun m => ?_).mpr ?_
    · rw [hlast]
      exact h.lt_iff m _
    · have hbefore := h.lt_iff x (s.range.length + y)
      rw [hfirst, hlast, mul_comm x]
      by_cases hxy : x < s.range.length + y
      · have hxn : min x (s.range.length : Int) = x := by omega
        have hlt := hbefore.mpr hxy
        rw [hxn]
        omega
      · have hge := hbefore.not.mpr hxy
        omega
  · push Not at hlate
    obtain ⟨hfirst', hr⟩ := hlate
    rw [h.same_empty ht (by omega), hfirst, h.last_of_wrap hfirst' hy hr]
    omega

theorem Bounds.InDimension.wraps_iff (h : s.InDimension size) (hn : x = -s.range.length) :
    max (s.start - s.shortfall + size) 0 = s.start ↔ WrapsToStart size s x := by
  have hstart := h.start_nonneg
  rw [WrapsToStart, and_iff_right hn]
  omega

theorem Bounds.InDimension.not_wraps (h : s.InDimension size) (hx : x < 0)
    (hlate : x ≠ -s.range.length ∨ s.shortfall ≤ s.start) : ¬ WrapsToStart size s x := by
  rintro ⟨hn, hwrap⟩
  have hstart := h.start_nonneg
  have hsize := h.stop_le
  have hlt := h.start_lt_stop hx hn.ge
  omega

/-- A negative start, with a stop that is not. -/
theorem Bounds.InDimension.same_of_negative_start (h : s.InDimension size) (ht : 0 < times) (hx : x < 0)
    (hn : -s.range.length ≤ x) (hy : 0 < y) :
    Same s times (Slice.clip (some (composeIndex s x)) 0 0 size size)
        (Slice.clip (some (min (composeIndex s y) s.stop)) size 0 size size)
        (s.range.length + x) (min y s.range.length) ↔
      s.shortfall = 0 ∨ y < s.range.length + x ∨ WrapsToStart size s x := by
  have hnonneg := h.shortfall_nonneg
  rw [h.last_eq_min hy, h.same_ends ht h.lt_last_iff]
  by_cases hlate : x ≠ -s.range.length ∨ s.shortfall ≤ s.start
  · have hwraps := h.not_wraps hx hlate
    have hend := h.composeIndex_lt hx
    have hbefore := h.lt_last_iff (y := y) (s.range.length + x)
    have hbefore' := h.lt_last_iff (y := y) (s.range.length + x - 1)
    have hlt := h.shortfall_lt
    rw [h.first_of_neg hx hn hlate]
    rw [composeIndex_of_neg hx] at hend
    rw [mul_sub_one] at hbefore'
    rw [or_iff_left hwraps]
    by_cases hxy : y = s.range.length + x
    · rw [← hxy] at hend hbefore hbefore' ⊢
      omega
    · omega
  · push Not at hlate
    obtain ⟨hfirst, hr⟩ := hlate
    have hstart := h.start_nonneg
    have hp : s.range.length + x = 0 := by omega
    rw [first_of_wrap hfirst hx hr, hp, mul_zero, add_zero, ← h.wraps_iff hfirst]
    omega

/-- A negative start before a stop that is zero, which the composer takes for a None. -/
theorem Bounds.InDimension.same_of_zero_stop (h : s.InDimension size) (ht : 0 < times) (hx : x < 0)
    (hn : -s.range.length ≤ x) :
    Same s times (Slice.clip (some (composeIndex s x)) 0 0 size size)
        (Slice.clip (some (min (composeIndex s size) s.stop)) size 0 size size) (s.range.length + x) 0 ↔
      x = -s.range.length ∧ s.start < s.shortfall ∧ s.range.length * s.step ≤ size := by
  have hstart := h.start_nonneg
  have hsize := h.stop_le
  have hnonneg := h.shortfall_nonneg
  have hstop := s.stop_eq
  have hend := h.composeIndex_lt hx
  have hlt := h.start_lt_stop hx hn
  have hlen := h.length_le
  have hmul : s.step * s.range.length ≤ s.step * size :=
    mul_le_mul_of_nonneg_left (by omega) (Int.le_trans (by decide) h.step_pos)
  rw [h.same_empty ht (by omega), h.last_eq_min (by omega), mul_comm (s.range.length : Int)]
  by_cases hlate : x ≠ -s.range.length ∨ s.shortfall ≤ s.start
  · rw [h.first_of_neg hx hn hlate]
    rw [composeIndex_of_neg hx] at hend
    omega
  · push Not at hlate
    obtain ⟨hfirst, hr⟩ := hlate
    rw [first_of_wrap hfirst hx hr]
    omega

/-- Both ends are negative: they miss the elements of the range by the shortfall. -/
theorem Bounds.InDimension.same_of_negative_ends (h : s.InDimension size) (ht : 0 < times) (hx : x < 0)
    (hn : -s.range.length ≤ x) (hy : y < 0) (hn' : -s.range.length ≤ y) :
    Same s times (Slice.clip (some (composeIndex s x)) 0 0 size size)
        (Slice.clip (some (min (composeIndex s y) s.stop)) size 0 size size)
        (s.range.length + x) (s.range.length + y) ↔
      s.shortfall = 0 ∨ y ≤ x ∧ (y ≠ -s.range.length ∨ s.shortfall ≤ s.start ∨ x = -s.range.length ∨
        size ≤ (s.range.length + x) * s.step) := by
  have hstart := h.start_nonneg
  have hsize := h.stop_le
  have hnonneg := h.shortfall_nonneg
  have hlt := h.lt_iff (s.range.length + x) (s.range.length + y)
  have hstop := s.stop_eq
  by_cases hlate : y ≠ -s.range.length ∨ s.shortfall ≤ s.start
  · rw [h.last_of_neg hy hn' hlate, h.same_ends ht fun m => h.lt_iff m _]
    by_cases hlate' : x ≠ -s.range.length ∨ s.shortfall ≤ s.start
    · have hle : s.step * (s.range.length + y) ≤ s.step * (s.range.length + x) ↔
          s.range.length + y ≤ s.range.length + x :=
        mul_le_mul_iff_right₀ (lt_of_lt_of_le (by decide) h.step_pos)
      rw [h.first_of_neg hx hn hlate']
      omega
    · -- the start wraps, and another element follows the first
      push Not at hlate'
      obtain ⟨hfirst, hr⟩ := hlate'
      have hstep := h.shortfall_lt
      have htwo : s.step * 2 ≤ s.step * s.range.length :=
        mul_le_mul_of_nonneg_left (by omega) (Int.le_trans (by decide) h.step_pos)
      have hp : s.range.length + x = 0 := by omega
      rw [first_of_wrap hfirst hx hr, hp, mul_zero, add_zero]
      omega
  · push Not at hlate
    obtain ⟨hfirst, hr⟩ := hlate
    rw [h.same_empty ht (by omega), h.last_of_wrap hfirst hy hr, mul_comm (_ + x)]
    by_cases hlate' : x ≠ -s.range.length ∨ s.shortfall ≤ s.start
    · have hcompose := h.composeIndex_nonneg hx hn hlate'
      rw [composeIndex_of_neg hx] at hcompose
      rw [h.first_of_neg hx hn hlate']
      omega
    · push Not at hlate'
      rw [first_of_wrap hlate'.1 hx hr]
      omega

end cases

section compose

variable {size n : Nat} {old new : Slice} {s : Bounds}

theorem HasNegativeEnd.start_getD (h : HasNegativeEnd n new) : -n ≤ new.start.getD 0 := by
  cases hc : new.start with
  | none => simp
  | some x => exact h.start_ge x hc

theorem HasNegativeEnd.stop_getD (h : HasNegativeEnd n new) : -n ≤ new.stop.getD 0 := by
  cases hc : new.stop with
  | none => simp
  | some y => exact h.stop_ge y hc

theorem HasNegativeEnd.step_getD (h : HasNegativeEnd n new) : 0 < new.step.getD 1 := by
  cases hc : new.step with
  | none => exact one_pos
  | some step => exact h.step_pos step hc

theorem Slice.clip_start (x : Option Int) (n : Nat) : Slice.clip x 0 0 n n =
    if x.getD 0 < 0 then max (x.getD 0 + n) 0 else min (x.getD 0) n := by
  cases x with
  | none => simp [Slice.clip]
  | some x => rfl

theorem removenones_eq_bounds (hs : old.bounds size = s) (hstop : s.stop ≠ 0) (hstep : s.step ≠ 0) :
    removenones old size = s := by
  subst hs
  rw [removenones, Slice.bounds]
  rw [Slice.bounds] at hstop hstep
  congr 1
  · cases hc : old.stop with
    | none => rfl
    | some stop =>
      rw [hc] at hstop
      have h0 : stop ≠ 0 := hstop
      simp
  · cases hc : old.step with
    | none => rfl
    | some step =>
      rw [hc] at hstep
      have h0 : step ≠ 0 := hstep
      simp

/-- The composed slice selects the elements between the two composed indices. -/
theorem composed_positions_iff (h : s.InDimension size) (hs : old.bounds size = s) (hpos : s.stop ≠ 0)
    (hnew : HasNegativeEnd n new) :
    (∃ res, viewComposerInternal [size] [.slice old] [.slice new] = .ok [.slice res] ∧
        res.positions size = s.getSlice new) ↔
      Same s (new.step.getD 1)
        (Slice.clip (some (composeIndex s (new.start.getD 0))) 0 0 size size)
        (Slice.clip (some (min (composeIndex s (removenones new size).stop) s.stop)) size 0 size size)
        (Slice.clip new.start 0 0 s.range.length s.range.length)
        (Slice.clip new.stop s.range.length 0 s.range.length s.range.length) := by
  have hs0 : 0 < s.step := h.step_pos
  have ht := hnew.step_getD
  have hnewstep : (removenones new size).step = new.step.getD 1 := by
    cases hc : new.step with
    | none => simp [removenones, hc]
    | some step =>
      have h0 : step ≠ 0 := by
        have h1 := hnew.step_pos step hc
        omega
      simp [removenones, hc]
  have hcompose : viewComposerInternal [size] [.slice old] [.slice new] =
      .ok [.slice ⟨some (composeIndex s (new.start.getD 0)),
        some (min (composeIndex s (removenones new size).stop) s.stop), some (s.step * new.step.getD 1)⟩] := by
    rw [viewComposerInternal, if_neg (by simp), composeEntries, composeEntry,
      removenones_eq_bounds hs hpos hs0.ne', hnewstep, if_pos ⟨hs0.le, ht.le⟩]
    rfl
  have hget : s.getSlice new = .ok (steppedRange
      (s.start + s.step * Slice.clip new.start 0 0 s.range.length s.range.length)
      (s.start + s.step * Slice.clip new.stop s.range.length 0 s.range.length s.range.length)
      (s.step * new.step.getD 1)) := by
    rw [Bounds.getSlice, Slice.positions_eq ht, ← steppedRange_scale hs0 ht]
    rfl
  have hstride : 0 < s.step * new.step.getD 1 := Int.mul_pos hs0 ht
  rw [hget, Same]
  constructor
  · rintro ⟨res, hres, he⟩
    rw [hcompose] at hres
    cases hres
    rw [Slice.positions_eq (t := ⟨some _, some _, some _⟩) hstride] at he
    exact Except.ok.inj he
  · intro he
    refine ⟨_, hcompose, ?_⟩
    rw [Slice.positions_eq (t := ⟨some _, some _, some _⟩) hstride]
    exact congrArg Except.ok he

/-- Which positions and slices that count from the end are composed right. -/
theorem compose_negative_iff (h : s.InDimension size) (hs : old.bounds size = s) :
    (∀ pos : Int, -s.range.length ≤ pos → pos < 0 →
      (s.fromEnd pos = some (composeIndex (removenones old size) pos) ↔ s.step ∣ s.stop - s.start)) ∧
    ∀ new, HasNegativeEnd s.range.length new →
      ((∃ res, viewComposerInternal [size] [.slice old] [.slice new] = .ok [.slice res] ∧
          res.positions size = s.getSlice new) ↔ ComposedRight size s new) := by
  have hstart := h.start_nonneg
  have hstep : 0 < s.step := h.step_pos
  constructor
  · intro pos hn hneg
    have hlt := h.start_lt_stop hneg hn
    rw [removenones_eq_bounds hs (by omega) hstep.ne', composeIndex_of_neg hneg, ← h.shortfall_eq_zero_iff]
    have hlen : s.range.length = rangeLength s.start s.stop s.step := steppedRange_length
    rw [Bounds.fromEnd, Bounds.range, steppedRange_getElem?, ← Bounds.range, if_pos (by omega),
      Int.toNat_of_nonneg (by omega), Option.some_inj]
    omega
  · intro new hnew
    have hlt : s.start < s.stop := by
      rcases hnew.negative with hx | hy
      · exact h.start_lt_stop hx hnew.start_getD
      · exact h.start_lt_stop hy hnew.stop_getD
    have ht : 0 < new.step.getD 1 := hnew.step_getD
    have hsize := h.stop_le
    rw [composed_positions_iff h hs (by omega) hnew, Slice.clip_start new.start, ComposedRight]
    have hx := hnew.start_getD
    have hstop0 := hnew.negative
    generalize new.start.getD 0 = x at hx hstop0 ⊢
    have hfirst (hx0 : x < 0) : (if x < 0 then max (x + s.range.length) 0 else min x s.range.length : Int) =
        s.range.length + x := by
      rw [if_pos hx0]
      omega
    cases hstop : new.stop with
    | none =>
      -- the stop is that of the dimension
      rw [hstop] at hstop0
      have hx0 : x < 0 := by simpa using hstop0
      have hlen := h.length_le
      have hsame := h.same_of_negative_start ht hx0 hx (show 0 < (size : Int) by omega)
      have hmin : min (size : Int) s.range.length = s.range.length := by omega
      have hdim : (removenones new size).stop = size := by rw [removenones, hstop]
      rw [hmin] at hsame
      rw [hfirst hx0, hdim]
      exact hsame.trans (or_congr_right (or_iff_right (by omega)))
    | some y =>
      have hy := hnew.stop_ge y hstop
      rw [hstop, Option.getD_some] at hstop0
      rw [removenones_stop hstop]
      dsimp only [Slice.clip]
      by_cases hx0 : 0 ≤ x
      · have hy0 : y < 0 := by omega
        rw [if_neg (not_lt.mpr hx0), if_pos hx0, if_pos hy0, if_neg hy0.ne]
        have hq : max (y + s.range.length) 0 = (s.range.length + y : Int) := by omega
        rw [hq]
        exact h.same_of_negative_stop ht hx0 hy0 hy
      · have hneg : x < 0 := not_le.mp hx0
        rw [hfirst hneg, if_neg hx0]
        by_cases hy0 : y < 0
        · have hq : max (y + s.range.length) 0 = (s.range.length + y : Int) := by omega
          rw [if_pos hy0, if_pos hy0, if_neg hy0.ne, hq]
          exact h.same_of_negative_ends ht hneg hx hy0 hy
        · rw [if_neg hy0, if_neg hy0]
          by_cases hzero : y = 0
          · have hq : min y s.range.length = 0 := by omega
            rw [if_pos hzero, if_pos hzero, hq]
            exact h.same_of_zero_stop ht hneg hx
          · rw [if_neg hzero, if_neg hzero]
            exact h.same_of_negative_start ht hneg hx (by omega)

/-- The range has an element every 3 from 0 to 6, and its stop is 9. -/
theorem compose_negative_aligned :
    (⟨0, 9, 3⟩ : Bounds).fromEnd (-1) = some (composeIndex (removenones ⟨none, some 9, some 3⟩ 10) (-1)) ∧
      ∃ res, viewComposerInternal [10] [.slice ⟨none, some 9, some 3⟩] [.slice ⟨some (-2), none, none⟩] =
        .ok [.slice res] ∧ res.positions 10 = (⟨0, 9, 3⟩ : Bounds).getSlice ⟨some (-2), none, none⟩ := by
  have h := @compose_negative_iff 10 ⟨none, some 9, some 3⟩ ⟨0, 9, 3⟩ ⟨by decide, by decide, by decide, by decide⟩ rfl
  refine ⟨(h.1 (-1) (by decide) (by decide)).mpr (by decide), (h.2 ⟨some (-2), none, none⟩ ?_).mpr (.inl (by decide))⟩
  exact ⟨by decide, by decide, .inl (by decide), by decide⟩

/-- The last element of `range(0, 10, 3)` is 9, and the composed index is 7. -/
theorem compose_misaligned :
    ¬ ∀ (size : Nat) (old : Slice) (s : Bounds), s.InDimension size → old.bounds size = s →
      (∀ pos : Int, -s.range.length ≤ pos → pos < 0 →
        s.fromEnd pos = some (composeIndex (removenones old size) pos)) ∧
      ∀ new, HasNegativeEnd s.range.length new →
        ∃ res, viewComposerInternal [size] [.slice old] [.slice new] = .ok [.slice res] ∧
          res.positions size = s.getSlice new := by
  intro h
  have hlast := (h 10 ⟨none, none, some 3⟩ ⟨0, 10, 3⟩ ⟨by decide, by decide, by decide, by decide⟩ rfl).1 (-1)
    (by decide) (by decide)
  revert hlast
  decide

end compose

end Hecuba
