import Mathlib.Algebra.Order.Ring.Int
import Hecuba.PersistentViews
import Hecuba.Sessions

/-! Keys that count from the start. The composer does what numpy does on them, while the
serialized form of an object is the form of its axes. -/

namespace Hecuba

/-- An index, or a slice with ends, from the start of a dimension, and a positive step. -/
def PlainEntry : Entry → Prop
  | .int i => 0 ≤ i
  | .slice s => (∀ x ∈ s.start, 0 ≤ x) ∧ (∀ x ∈ s.stop, 0 < x) ∧ ∀ x ∈ s.step, 0 < x

theorem Slice.indices_plain {s : Slice} {n : Nat} {first stride : Int} {len : Nat}
    (hs : PlainEntry (.slice s)) (h : s.indices n = .ok (first, stride, len)) :
    stride = s.step.getD 1 ∧ 0 < stride ∧ (0 < len → first = s.start.getD 0) ∧
      ∀ k : Nat, k < len ↔ s.start.getD 0 + stride * k < n ∧
        ∀ x ∈ s.stop, s.start.getD 0 + stride * k < x := by
  obtain ⟨hstart, hstop, hstep⟩ := hs
  have hpos : 0 < s.step.getD 1 := by
    cases hc : s.step with
    | none => decide
    | some x => exact hstep x hc
  have hstart0 : 0 ≤ s.start.getD 0 := by
    cases hc : s.start with
    | none => decide
    | some x => exact hstart x hc
  have hfirst : Slice.clip s.start 0 0 n n = min (s.start.getD 0) n := by
    cases hc : s.start with
    | none =>
      rw [Slice.clip, Option.getD_none]
      omega
    | some x =>
      have hx := hstart x hc
      rw [Slice.clip, if_neg (by omega), Option.getD_some]
  have hlast (y : Int) : y < Slice.clip s.stop n 0 n n ↔ y < n ∧ ∀ x ∈ s.stop, y < x := by
    cases hc : s.stop with
    | none =>
      rw [Slice.clip]
      simp
    | some x =>
      have hx := hstop x hc
      rw [Slice.clip, if_neg (by omega), lt_min_iff]
      simp [and_comm]
  unfold Slice.indices at h
  dsimp only at h
  rw [if_neg hpos.ne', if_pos hpos] at h
  cases h
  refine ⟨rfl, hpos, ?_, fun k => ?_⟩
  · intro hlen
    split at hlen
    · rename_i hlt
      have hn := ((hlast _).mp hlt).1
      rw [hfirst] at hn ⊢
      omega
    · exact absurd hlen (Nat.lt_irrefl 0)
  · rw [← hlast]
    have hk0 : 0 ≤ s.step.getD 1 * (k : Int) := Int.mul_nonneg hpos.le (Int.natCast_nonneg k)
    have hclip := (@hlast (n : Int)).not.mpr fun hn => absurd hn.1 (lt_irrefl _)
    split
    · rename_i hlt
      have hn := ((hlast _).mp hlt).1
      have hfirst' : Slice.clip s.start 0 0 n n = s.start.getD 0 := by
        rw [hfirst] at hn ⊢
        omega
      rw [hfirst'] at hlt ⊢
      have hq : 0 ≤ (Slice.clip s.stop n 0 n n - s.start.getD 0 - 1) / s.step.getD 1 :=
        Int.ediv_nonneg (by omega) hpos.le
      have hle := @Int.le_ediv_iff_mul_le (k : Int) (Slice.clip s.stop n 0 n n - s.start.getD 0 - 1) _ hpos
      rw [mul_comm] at hle
      constructor
      · intro hlt'
        have h1 := hle.mp (by omega)
        omega
      · intro hlt'
        have h1 := hle.mpr (by omega)
        omega
    · rename_i hge
      rw [hfirst] at hge
      refine iff_of_false (Nat.not_lt_zero k) ?_
      omega

/-- The axis of an entry, which lies in its dimension. -/
def AxisOf (size : Nat) : Entry → Axis → Prop
  | .int i, .fixed j => j = i ∧ 0 ≤ i ∧ i < size
  | .slice s, .range start step n =>
    (0 ≤ (removenones s size).start ∧ 1 ≤ (removenones s size).stop ∧ (removenones s size).stop ≤ size) ∧
      (0 < step ∧ step = (removenones s size).step) ∧ (0 < n → start = (removenones s size).start) ∧
      ∀ k : Nat, k < n ↔ (removenones s size).start + step * k < (removenones s size).stop
  | _, _ => False

/-- The axes of the dimensions of a serialized view. -/
def Aligned : List Nat → List Entry → List Axis → Prop
  | [], [], [] => True
  | size :: shape, e :: view, x :: axes => AxisOf size e x ∧ Aligned shape view axes
  | _, _, _ => False

section compose

theorem PlainEntry.removenones {t : Slice} (ht : PlainEntry (.slice t)) (size : Nat) :
    removenones t size = ⟨t.start.getD 0, t.stop.getD size, t.step.getD 1⟩ := by
  obtain ⟨-, hstop, hstep⟩ := ht
  rw [Hecuba.removenones]
  congr 1
  · split
    · rename_i hc
      rw [hc, Option.getD_none]
    · rename_i hc
      exact absurd (hstop 0 hc) (lt_irrefl 0)
    · rename_i hc
      rw [hc, Option.getD_some]
  · split
    · rename_i hc
      rw [hc, Option.getD_none]
    · rename_i hc
      exact absurd (hstep 0 hc) (lt_irrefl 0)
    · rename_i hc
      rw [hc, Option.getD_some]

theorem composeIndex_of_nonneg {s : Bounds} {pos : Int} (h : 0 ≤ pos) :
    composeIndex s pos = s.start + pos * s.step := if_neg (not_lt.mpr h)

theorem removenones_some {start stop step maxstop : Int} (hstop : stop ≠ 0) (hstep : step ≠ 0) :
    removenones ⟨some start, some stop, some step⟩ maxstop = ⟨start, stop, step⟩ := by
  rw [removenones]
  congr 1
  · split
    · rename_i hc
      cases hc
    · rename_i hc
      exact absurd (Option.some.inj hc) hstop
    · rename_i hc
      exact (Option.some.inj hc).symm
  · split
    · rename_i hc
      cases hc
    · rename_i hc
      exact absurd (Option.some.inj hc) hstep
    · rename_i hc
      exact (Option.some.inj hc).symm

theorem axisOf_int {size n : Nat} {s : Slice} {start step i : Int} (h : AxisOf size (.slice s) (.range start step n))
    (hi : 0 ≤ i) (hn : i < n) :
    AxisOf size (.int (composeIndex (removenones s size) i)) (.fixed (start + step * i)) := by
  obtain ⟨⟨hstart, -, hstop⟩, ⟨hpos, hstep⟩, hfirst, hmem⟩ := h
  obtain ⟨k, rfl⟩ := Int.eq_ofNat_of_zero_le hi
  have hlt := (hmem k).mp (by omega)
  have hk : 0 ≤ step * (k : Int) := Int.mul_nonneg hpos.le hi
  rw [composeIndex_of_nonneg hi, hfirst (by omega), ← hstep, mul_comm step]
  rw [mul_comm] at hlt hk
  exact ⟨rfl, by omega, by omega⟩

theorem composeEntry_plain {size : Nat} {s t : Slice} {e : Entry} (ht : PlainEntry (.slice t))
    (h : composeEntry size (.slice s) (.slice t) = .ok e) :
    e = .slice ⟨some ((removenones s size).start + t.start.getD 0 * (removenones s size).step),
      some (min ((removenones s size).start + t.stop.getD size * (removenones s size).step)
        (removenones s size).stop), some ((removenones s size).step * t.step.getD 1)⟩ := by
  have hstart : 0 ≤ t.start.getD 0 := by
    cases hc : t.start with
    | none => decide
    | some x => exact ht.1 x hc
  have hstop : 0 ≤ t.stop.getD (size : Int) := by
    cases hc : t.stop with
    | none => exact Int.natCast_nonneg size
    | some x => exact (ht.2.1 x hc).le
  rw [composeEntry, ht.removenones] at h
  split at h
  · cases h
    rw [composeIndex_of_nonneg hstart, composeIndex_of_nonneg hstop]
  · cases h

theorem axisOf_slice {size n len : Nat} {s t : Slice} {start step first stride : Int} {e : Entry}
    (h : AxisOf size (.slice s) (.range start step n)) (ht : PlainEntry (.slice t))
    (hindices : t.indices n = .ok (first, stride, len)) (he : composeEntry size (.slice s) (.slice t) = .ok e) :
    AxisOf size e (.range (start + step * first) (step * stride) len) := by
  obtain ⟨⟨hstart, hstop1, hstop⟩, ⟨hpos, rfl⟩, hfirst, hmem⟩ := h
  obtain ⟨hstride, hstride0, hfirst', hlen⟩ := Slice.indices_plain ht hindices
  rw [composeEntry_plain ht he, ← hstride]
  generalize removenones s size = b at *
  have hstart' : 0 ≤ t.start.getD 0 := by
    cases hc : t.start with
    | none => decide
    | some x => exact ht.1 x hc
  have hnewstart : 0 ≤ t.start.getD 0 * b.step := Int.mul_nonneg hstart' hpos.le
  have hnewstop : t.stop.getD size ≤ t.stop.getD size * b.step ∧ 0 < t.stop.getD (size : Int) := by
    have hstop' : 0 < t.stop.getD (size : Int) := by
      cases hc : t.stop with
      | none => rw [Option.getD_none]; omega
      | some x => exact ht.2.1 x hc
    exact ⟨le_mul_of_one_le_right hstop'.le hpos, hstop'⟩
  have hne : min (b.start + t.stop.getD size * b.step) b.stop ≠ 0 := by omega
  have hnewstep : 0 < b.step * stride := Int.mul_pos hpos hstride0
  unfold AxisOf
  dsimp only
  rw [removenones_some hne hnewstep.ne']
  refine ⟨⟨by dsimp only; omega, by dsimp only; omega, min_le_of_right_le hstop⟩, ⟨hnewstep, rfl⟩, ?_, ?_⟩
  · intro hpos'
    have hn := ((hlen 0).mp hpos').1
    rw [hfirst (by omega), hfirst' hpos', mul_comm]
  · intro k
    dsimp only
    -- position `k` of the new slice is position `j` of the old one
    obtain ⟨j, hj⟩ := Int.eq_ofNat_of_zero_le
      (Int.add_nonneg hstart' (Int.mul_nonneg hstride0.le (Int.natCast_nonneg k)))
    have hpos_eq : b.start + t.start.getD 0 * b.step + b.step * stride * k = b.start + b.step * j := by
      rw [← hj]
      ring
    rw [hlen k, hj, hpos_eq, lt_min_iff, ← hmem j, Int.ofNat_lt, and_comm]
    refine and_congr_left fun hjn => ?_
    rw [add_lt_add_iff_left, mul_comm _ b.step, mul_lt_mul_iff_right₀ hpos]
    cases hc : t.stop with
    | none =>
      have hlt := (hmem j).mp hjn
      have hle : (j : Int) ≤ b.step * j := le_mul_of_one_le_left (Int.natCast_nonneg j) hpos
      simp only [Option.getD_none, Option.not_mem_none, false_implies, implies_true, true_iff]
      omega
    | some x => simp

/-- On plain keys, the composer gives the form of the axes that numpy gives. -/
theorem Aligned.compose {shape : List Nat} {view entries view' : List Entry} {axes axes' : List Axis}
    (h : Aligned shape view axes) (hplain : ∀ e ∈ entries, PlainEntry e)
    (hview : composeEntries shape view entries = .ok view') (haxes : numpyGetitem axes entries = .ok axes') :
    Aligned shape view' axes' := by
  induction shape generalizing view entries view' axes axes' with
  | nil =>
    match view, axes with
    | [], [] =>
      cases entries with
      | nil =>
        cases hview
        cases haxes
        trivial
      | cons => cases haxes
  | cons size shape ih =>
    match view, axes with
    | e :: view, x :: axes =>
      obtain ⟨hx, haligned⟩ := h
      cases entries with
      | nil =>
        cases hview
        cases haxes
        exact ⟨hx, haligned⟩
      | cons n entries =>
        match e, x with
        | .int i, .fixed j =>
          rw [composeEntries] at hview
          split at hview
          · cases hview
          · obtain ⟨rest, hrest, ⟨⟩⟩ := bind_ok_iff.mp hview
            rw [numpyGetitem] at haxes
            · obtain ⟨rest', hrest', ⟨⟩⟩ := bind_ok_iff.mp haxes
              exact ⟨hx, ih haligned hplain hrest hrest'⟩
            · exact List.cons_ne_nil _ _
        | .slice s, .range start step len =>
          obtain ⟨hn, hentries⟩ := List.forall_mem_cons.mp hplain
          rw [composeEntries] at hview
          obtain ⟨entry, hentry, hview⟩ := bind_ok_iff.mp hview
          obtain ⟨rest, hrest, ⟨⟩⟩ := bind_ok_iff.mp hview
          cases n with
          | int i =>
            rw [numpyGetitem] at haxes
            split at haxes
            · cases haxes
            · rename_i hin
              obtain ⟨rest', hrest', ⟨⟩⟩ := bind_ok_iff.mp haxes
              have hi : 0 ≤ i := hn
              rw [position, if_neg (not_lt.mpr hi)] at hin ⊢
              cases hentry
              exact ⟨axisOf_int hx hi (not_le.mp (not_or.mp hin).2), ih haligned hentries hrest hrest'⟩
          | slice t =>
            rw [numpyGetitem] at haxes
            obtain ⟨⟨first, stride, len'⟩, hindices, haxes⟩ := bind_ok_iff.mp haxes
            obtain ⟨rest', hrest', ⟨⟩⟩ := bind_ok_iff.mp haxes
            exact ⟨axisOf_slice hx hn hindices hentry, ih haligned hentries hrest hrest'⟩

theorem AxisOf.holds_iff {size n : Nat} {s : Slice} {start step : Int}
    (h : AxisOf size (.slice s) (.range start step n)) (x : Int) :
    (Entry.slice s).Holds size x ↔ ∃ k < n, x = start + step * k := by
  obtain ⟨-, ⟨hpos, hstep⟩, hfirst, hmem⟩ := h
  rw [Entry.Holds, ← hstep]
  constructor
  · rintro ⟨hge, hlt, k, hk⟩
    have hk0 : 0 ≤ k := by
      by_contra hneg
      have hlt0 := Int.mul_neg_of_pos_of_neg hpos (not_le.mp hneg)
      omega
    obtain ⟨k, rfl⟩ := Int.eq_ofNat_of_zero_le hk0
    have hkn := (hmem k).mpr (by omega)
    exact ⟨k, hkn, by rw [hfirst (by omega)]; omega⟩
  · rintro ⟨k, hk, rfl⟩
    have hlt := (hmem k).mp hk
    have hk0 : 0 ≤ step * (k : Int) := Int.mul_nonneg hpos.le (Int.natCast_nonneg k)
    rw [hfirst (by omega)]
    exact ⟨by omega, hlt, k, by omega⟩

theorem Aligned.cells {shape : List Nat} {view : List Entry} {axes : List Axis} {c : List Int}
    (h : Aligned shape view axes) : IsCell axes c ↔ Selects shape view c := by
  induction shape generalizing view axes c with
  | nil =>
    match view, axes with
    | [], [] =>
      cases c with
      | nil => exact iff_of_true ⟨[], List.Forall₂.nil, rfl⟩ trivial
      | cons => exact iff_of_false (by rintro ⟨xs, hxs, he⟩; cases he) id
  | cons size shape ih =>
    match view, axes with
    | e :: view, x :: axes =>
      obtain ⟨hx, haligned⟩ := h
      rw [selects_cons_iff]
      simp only [← ih haligned]
      match e, x with
      | .int i, .fixed j =>
        obtain ⟨rfl, hin⟩ := hx
        rw [isCell_fixed_iff]
        constructor
        · rintro ⟨rest, hrest, rfl⟩
          exact ⟨j, rest, ⟨rfl, hin⟩, hrest, rfl⟩
        · rintro ⟨_, rest, ⟨rfl, -⟩, hrest, rfl⟩
          exact ⟨rest, hrest, rfl⟩
      | .slice s, .range start step n =>
        rw [isCell_range_iff]
        simp only [hx.holds_iff]
        obtain ⟨⟨hstart, -, hstop⟩, ⟨hpos, -⟩, hfirst, hmem⟩ := hx
        constructor
        · rintro ⟨k, hk, rest, hrest, rfl⟩
          have hlt := (hmem k).mp hk
          have hk0 : 0 ≤ step * (k : Int) := Int.mul_nonneg hpos.le (Int.natCast_nonneg k)
          have he := hfirst (by omega)
          exact ⟨_, rest, ⟨⟨k, hk, rfl⟩, by omega, by omega⟩, hrest, rfl⟩
        · rintro ⟨_, rest, ⟨⟨k, hk, rfl⟩, -⟩, hrest, rfl⟩
          exact ⟨k, hk, rest, hrest, rfl⟩

theorem numpyGetitem_same {axes axes' : List Axis} {entries : List Entry} {c : List Int}
    (hplain : ∀ e ∈ entries, PlainEntry e) (h : numpyGetitem axes entries = .ok axes')
    (hsame : shapeOf axes = shapeOf axes') (hc : IsCell axes c) : IsCell axes' c := by
  induction axes generalizing axes' entries c with
  | nil =>
    cases entries with
    | nil =>
      cases h
      exact hc
    | cons => cases h
  | cons x axes ih =>
    cases entries with
    | nil =>
      cases h
      exact hc
    | cons e entries =>
      cases x with
      | fixed i =>
        rw [numpyGetitem] at h
        · obtain ⟨rest, hrest, ⟨⟩⟩ := bind_ok_iff.mp h
          obtain ⟨c', hc', rfl⟩ := isCell_fixed_iff.mp hc
          exact isCell_fixed_iff.mpr ⟨c', ih hplain hrest hsame hc', rfl⟩
        · exact List.cons_ne_nil _ _
      | range start step n =>
        obtain ⟨he, hentries⟩ := List.forall_mem_cons.mp hplain
        cases e with
        | int i =>
          have hlen := (numpyGetitem_spec h).2.1
          rw [hsame, countInts, List.countP_cons] at hlen
          simp at hlen
        | slice t =>
          rw [numpyGetitem] at h
          obtain ⟨⟨first, stride, len⟩, hindices, h⟩ := bind_ok_iff.mp h
          obtain ⟨rest, hrest, ⟨⟩⟩ := bind_ok_iff.mp h
          obtain ⟨rfl, hrestsame⟩ := List.cons.inj hsame
          obtain ⟨k, hk, c', hc', rfl⟩ := isCell_range_iff.mp hc
          obtain ⟨-, hstride, hfirst, hlen⟩ := Slice.indices_plain he hindices
          have hlast := ((hlen (n - 1)).mp (by omega)).1
          have hstart : 0 ≤ t.start.getD 0 := by
            cases hs : t.start with
            | none => decide
            | some x => exact he.1 x hs
          have hle : ((n - 1 : Nat) : Int) ≤ stride * ((n - 1 : Nat) : Int) :=
            le_mul_of_one_le_left (Int.natCast_nonneg _) hstride
          have hk' : first + stride * k = k := by
            rw [hfirst (by omega)]
            rcases Nat.eq_zero_or_pos k with rfl | hk0
            · rw [Nat.cast_zero, mul_zero]
              omega
            · have hone : stride ≤ 1 := by
                refine le_of_mul_le_mul_right ?_ (show (0 : Int) < ((n - 1 : Nat) : Int) by omega)
                omega
              rw [show stride = 1 by omega, one_mul]
              omega
          refine isCell_range_iff.mpr ⟨k, hk, c', ih hentries hrest hrestsame hc', ?_⟩
          rw [mul_assoc, add_assoc, ← mul_add, hk']

end compose

namespace PersistentArray

section meets

variable {a : PersistentArray} {o : StorageNumpy} {key : Key}

theorem aligned_view {view : List Entry} {axes : List Axis} (h : Aligned a.shape o.viewSerialization o.axes)
    (hplain : ∀ e ∈ key.entries, PlainEntry e) (hview : a.viewComposerNew o key = .ok view)
    (haxes : numpyGetitem o.axes key.entries = .ok axes) : Aligned a.shape view axes := by
  rw [viewComposerNew, viewComposerInternal] at hview
  split at hview
  · cases hview
  · exact h.compose hplain hview haxes

theorem plain_viewMeets (h : Aligned a.shape o.viewSerialization o.axes)
    (hplain : ∀ e ∈ key.entries, PlainEntry e) (full : Bool) : a.ViewMeets o key full := by
  intro view axes hview haxes _
  have hcells := aligned_view h hplain hview haxes
  refine ⟨fun _ c hc => hcells.cells.mp hc, fun _ _ _ c hc => ?_⟩
  exact h.cells.mp (numpyGetitem_cells haxes (hcells.cells.mpr hc))

theorem plain_wholeMeets (h : Aligned a.shape o.viewSerialization o.axes)
    (hplain : ∀ e ∈ key.entries, PlainEntry e) : a.WholeMeets o key := by
  intro view axes hview haxes _ _ hsame c hc
  exact (aligned_view h hplain hview haxes).cells.mp
    (numpyGetitem_same hplain haxes hsame (h.cells.mpr hc))

end meets

end PersistentArray

end Hecuba
