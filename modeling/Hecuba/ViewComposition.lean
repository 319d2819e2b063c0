import Hecuba.PlainKeys

/-! Chains of keys. Composing them one after the other and indexing the array once selects what
indexing the array with each of them in turn selects. -/

namespace Hecuba

/-- A key in range of its dimension, counted from the start. -/
def EntryFits (n : Nat) : Entry → Prop
  | .int i => 0 ≤ i ∧ i < n
  | .slice s => PlainEntry (.slice s)

def TupleFits : List Nat → List Entry → Prop
  | _, [] => True
  | [], _ :: _ => False
  | n :: shape, e :: entries => EntryFits n e ∧ TupleFits shape entries

/-- Each tuple fits the view that those before it have left. -/
def ChainFits : List Axis → List (List Entry) → Prop
  | _, [] => True
  | view, entries :: chain => TupleFits (shapeOf view) entries ∧
    ∀ view', numpyGetitem view entries = .ok view' → ChainFits view' chain

def Axis.isFixed : Axis → Bool
  | .fixed _ => true
  | .range .. => false

/-- Two views keep the same dimensions and show the same cells in the same order. -/
structure SameSelection (view view' : List Axis) : Prop where
  dropped : view.map Axis.isFixed = view'.map Axis.isFixed
  shape : shapeOf view = shapeOf view'
  cells : ∀ xs, InGrid (shapeOf view) xs → cellAt view xs = cellAt view' xs

/-- A slice of a dimension without positions. -/
def EmptySlice (s : Slice) : Prop :=
  (∀ x ∈ s.start, 0 ≤ x) ∧ (∀ x ∈ s.stop, x = 0) ∧ ∀ x ∈ s.step, 0 < x

/-- The entry of a composed view and the axis that numpy has for it. -/
def ViewOf (size : Nat) : Entry → Axis → Prop
  | .int i, .fixed j => j = i ∧ 0 ≤ i ∧ i < size
  | .slice s, .range start step n =>
    PlainEntry (.slice s) ∧ AxisOf size (.slice s) (.range start step n) ∨ size = 0 ∧ n = 0 ∧ EmptySlice s
  | _, _ => False

def ViewsOf : List Nat → List Entry → List Axis → Prop
  | [], [], [] => True
  | size :: shape, e :: view, x :: axes => ViewOf size e x ∧ ViewsOf shape view axes
  | _, _, _ => False

section slices

variable {size n : Nat} {s t : Slice} {start step : Int}

theorem PlainEntry.start_nonneg (ht : PlainEntry (.slice t)) : 0 ≤ t.start.getD 0 := by
  cases hc : t.start with
  | none => exact le_refl 0
  | some x => exact ht.1 x hc

theorem PlainEntry.stop_pos (ht : PlainEntry (.slice t)) (hsize : 1 ≤ size) : 1 ≤ t.stop.getD (size : Int) := by
  cases hc : t.stop with
  | none =>
    rw [Option.getD_none]
    omega
  | some x => exact ht.2.1 x hc

theorem PlainEntry.step_pos (ht : PlainEntry (.slice t)) : 0 < t.step.getD 1 := by
  cases hc : t.step with
  | none => exact one_pos
  | some x => exact ht.2.2 x hc

theorem EmptySlice.removenones (hs : EmptySlice s) : Hecuba.removenones s 0 = ⟨s.start.getD 0, 0, s.step.getD 1⟩ := by
  obtain ⟨-, hstop, hstep⟩ := hs
  rw [Hecuba.removenones]
  congr 1
  · split
    · rfl
    · rfl
    · rename_i hc
      exact hstop _ hc
  · split
    · rename_i hc
      rw [hc, Option.getD_none]
    · rename_i hc
      exact absurd (hstep 0 hc) (lt_irrefl 0)
    · rename_i hc
      rw [hc, Option.getD_some]

theorem Slice.indices_ok (hpos : 0 < t.step.getD 1) (n : Nat) :
    ∃ first stride len, t.indices n = .ok (first, stride, len) := by
  simp only [Slice.indices, hpos.ne', if_false, hpos, if_true]
  exact ⟨_, _, _, rfl⟩

theorem viewOf_int (h : ViewOf size (.slice s) (.range start step n)) {i : Int} (hi : 0 ≤ i) (hn : i < n) :
    ViewOf size (.int (composeIndex (removenones s size) i)) (.fixed (start + step * i)) := by
  rcases h with ⟨-, h⟩ | ⟨-, rfl, -⟩
  · exact axisOf_int h hi hn
  · omega

theorem viewOf_slice (h : AxisOf size (.slice s) (.range start step n)) (ht : PlainEntry (.slice t))
    {first stride : Int} {len : Nat} (hindices : t.indices n = .ok (first, stride, len)) :
    ∃ e, composeEntry size (.slice s) (.slice t) = .ok e ∧
      ViewOf size e (.range (start + step * first) (step * stride) len) := by
  obtain ⟨⟨hstart, hstop, hle⟩, ⟨hpos, hstep⟩, -, -⟩ := id h
  have htstart := ht.start_nonneg
  have htstop := ht.stop_pos (show 1 ≤ size by omega)
  have htstep := ht.step_pos
  rw [hstep] at hpos
  obtain ⟨e, he⟩ : ∃ e, composeEntry size (.slice s) (.slice t) = .ok e := by
    have htpos : 0 ≤ (removenones t size).step := by
      rw [ht.removenones]
      exact htstep.le
    rw [composeEntry, if_pos ⟨hpos.le, htpos⟩]
    exact ⟨_, rfl⟩
  have haxis := axisOf_slice h ht hindices he
  obtain rfl := composeEntry_plain ht he
  refine ⟨_, he, .inl ⟨⟨?_, ?_, ?_⟩, haxis⟩⟩
  · rintro _ ⟨⟩
    exact Int.add_nonneg hstart (Int.mul_nonneg htstart hpos.le)
  · rintro _ ⟨⟩
    have hone := Int.mul_pos (show 0 < t.stop.getD (size : Int) by omega) hpos
    omega
  · rintro _ ⟨⟩
    exact Int.mul_pos hpos htstep

theorem viewOf_empty (hs : EmptySlice s) (ht : PlainEntry (.slice t)) {first stride : Int} {len : Nat}
    (hindices : t.indices 0 = .ok (first, stride, len)) :
    ∃ e, composeEntry 0 (.slice s) (.slice t) = .ok e ∧
      ViewOf 0 e (.range (start + step * first) (step * stride) len) := by
  have hstart : 0 ≤ s.start.getD 0 := by
    cases hc : s.start with
    | none => exact le_refl 0
    | some x => exact hs.1 x hc
  have hpos : 0 < s.step.getD 1 := by
    cases hc : s.step with
    | none => exact one_pos
    | some x => exact hs.2.2 x hc
  have htstop : 0 ≤ t.stop.getD 0 := by
    cases hc : t.stop with
    | none => exact le_refl 0
    | some x => exact (ht.2.1 x hc).le
  have hlen : len = 0 := by
    by_contra hne
    have hlt := (((Slice.indices_plain ht hindices).2.2.2 0).mp (Nat.pos_of_ne_zero hne)).1
    have htstart := ht.start_nonneg
    simp only [Nat.cast_zero, mul_zero, add_zero] at hlt
    omega
  have hnewstart := Int.mul_nonneg ht.start_nonneg hpos.le
  have hnewstop := Int.mul_nonneg htstop hpos.le
  refine ⟨.slice ⟨some (s.start.getD 0 + t.start.getD 0 * s.step.getD 1), some 0, some (s.step.getD 1 * t.step.getD 1)⟩,
    ?_, .inr ⟨rfl, hlen, ?_, ?_, ?_⟩⟩
  · rw [composeEntry]
    simp only [Nat.cast_zero, hs.removenones]
    have htr : removenones t 0 = ⟨t.start.getD 0, t.stop.getD 0, t.step.getD 1⟩ := ht.removenones 0
    rw [htr, composeIndex_of_nonneg ht.start_nonneg, composeIndex_of_nonneg htstop, if_pos ⟨hpos.le, ht.step_pos.le⟩]
    have hmin : min (s.start.getD 0 + t.stop.getD 0 * s.step.getD 1) 0 = 0 := by omega
    rw [hmin]
  · rintro _ ⟨⟩
    exact Int.add_nonneg hstart hnewstart
  · rintro _ ⟨⟩
    rfl
  · rintro _ ⟨⟩
    exact Int.mul_pos hpos ht.step_pos

end slices

section chain

/-- Composing with a tuple that fits the view. -/
theorem ViewsOf.compose {shape : List Nat} {view entries : List Entry} {axes : List Axis}
    (h : ViewsOf shape view axes) (hfits : TupleFits (shapeOf axes) entries) :
    ∃ view' axes', composeEntries shape view entries = .ok view' ∧ numpyGetitem axes entries = .ok axes' ∧
      ViewsOf shape view' axes' := by
  induction shape generalizing view entries axes with
  | nil =>
    match view, axes with
    | [], [] =>
      cases entries with
      | nil => exact ⟨[], [], rfl, rfl, trivial⟩
      | cons => exact hfits.elim
  | cons size shape ih =>
    match view, axes with
    | e :: view, x :: axes =>
      obtain ⟨hx, hviews⟩ := h
      cases entries with
      | nil => exact ⟨e :: view, x :: axes, rfl, rfl, hx, hviews⟩
      | cons n entries =>
        match e, x with
        | .int i, .fixed j =>
          obtain ⟨view', axes', hview, haxes, hviews'⟩ := ih hviews hfits
          have hne : view ≠ [] := by
            rintro rfl
            match shape, axes with
            | [], [] => exact hfits.elim
          refine ⟨.int i :: view', .fixed j :: axes', ?_, ?_, hx, hviews'⟩
          · rw [composeEntries, if_neg hne, hview]
            rfl
          · rw [numpyGetitem, haxes]
            · rfl
            · exact List.cons_ne_nil _ _
        | .slice s, .range start step len =>
          obtain ⟨hn, hrest⟩ := hfits
          obtain ⟨view', axes', hview, haxes, hviews'⟩ := ih hviews hrest
          cases n with
          | int i =>
            obtain ⟨hi, hlt⟩ := hn
            refine ⟨.int (composeIndex (removenones s size) i) :: view', .fixed (start + step * i) :: axes',
              ?_, ?_, viewOf_int hx hi hlt, hviews'⟩
            · rw [composeEntries, composeEntry, hview]
              rfl
            · have hpos : position i len = i := if_neg (not_lt.mpr hi)
              rw [numpyGetitem, hpos, if_neg (by omega), haxes]
              rfl
          | slice t =>
            obtain ⟨first, stride, len', hindices⟩ := Slice.indices_ok (PlainEntry.step_pos hn) len
            obtain ⟨e, he, hview'⟩ : ∃ e, composeEntry size (.slice s) (.slice t) = .ok e ∧
                ViewOf size e (.range (start + step * first) (step * stride) len') := by
              rcases hx with ⟨-, hx⟩ | ⟨rfl, rfl, hs⟩
              · exact viewOf_slice hx hn hindices
              · exact viewOf_empty hs hn hindices
            refine ⟨e :: view', .range (start + step * first) (step * stride) len' :: axes', ?_, ?_, hview', hviews'⟩
            · rw [composeEntries, he, hview]
              rfl
            · rw [numpyGetitem, hindices, haxes]
              rfl

theorem ViewsOf.length_eq {shape : List Nat} {view : List Entry} {axes : List Axis} (h : ViewsOf shape view axes) :
    view.length = shape.length := by
  induction shape generalizing view axes with
  | nil =>
    match view, axes with
    | [], [] => rfl
  | cons size shape ih =>
    match view, axes with
    | e :: view, x :: axes => exact congrArg (· + 1) (ih h.2)

theorem ViewsOf.chain {shape : List Nat} {view : List Entry} {axes : List Axis} {chain : List (List Entry)}
    (h : ViewsOf shape view axes) (hfits : ChainFits axes chain) :
    ∃ view' axes', chain.foldlM (viewComposerInternal shape) view = .ok view' ∧
      chain.foldlM numpyGetitem axes = .ok axes' ∧ ViewsOf shape view' axes' := by
  induction chain generalizing view axes with
  | nil => exact ⟨view, axes, rfl, rfl, h⟩
  | cons entries chain ih =>
    obtain ⟨hentries, hchain⟩ := hfits
    obtain ⟨view₁, axes₁, hview₁, haxes₁, h₁⟩ := h.compose hentries
    obtain ⟨view', axes', hview', haxes', h'⟩ := ih h₁ (hchain axes₁ haxes₁)
    refine ⟨view', axes', ?_, ?_, h'⟩
    · rw [List.foldlM_cons, viewComposerInternal, if_neg (not_not.mpr h.length_eq), hview₁]
      exact hview'
    · rw [List.foldlM_cons, haxes₁]
      exact haxes'

theorem SameSelection.cons_fixed {view view' : List Axis} (h : SameSelection view view') (i : Int) :
    SameSelection (.fixed i :: view) (.fixed i :: view') where
  dropped := by simp [h.dropped]
  shape := h.shape
  cells xs hxs := congrArg (i :: ·) (h.cells xs hxs)

theorem SameSelection.cons_range {view view' : List Axis} (h : SameSelection view view') {start step start' step' : Int}
    {n : Nat} (hsame : 0 < n → start = start' ∧ step = step') :
    SameSelection (.range start step n :: view) (.range start' step' n :: view') where
  dropped := by simp [Axis.isFixed, h.dropped]
  shape := by rw [shapeOf, shapeOf, h.shape]
  cells xs hxs := by
    obtain ⟨x, xs, hx, hrest, rfl⟩ := List.forall₂_cons_right_iff.mp hxs
    obtain ⟨rfl, rfl⟩ := hsame (by omega)
    rw [cellAt, cellAt, h.cells xs hrest]

/-- Indexing a dimension of the array with the entry of a view gives the axis of the view. -/
theorem ViewOf.getitem {size n : Nat} {s : Slice} {start step : Int}
    (h : ViewOf size (.slice s) (.range start step n)) :
    ∃ first stride, s.indices size = .ok (first, stride, n) ∧ (0 < n → start = first ∧ step = stride) := by
  rcases h with ⟨hs, ⟨⟨-, -, hle⟩, ⟨-, hstep⟩, hfirst, hmem⟩⟩ | ⟨rfl, rfl, hs⟩
  · obtain ⟨first, stride, len, hindices⟩ := Slice.indices_ok hs.step_pos size
    obtain ⟨rfl, -, hfirst', hmem'⟩ := Slice.indices_plain hs hindices
    simp only [hs.removenones] at hle hstep hfirst hmem
    have hsame : ∀ k : Nat, k < len ↔ k < n := by
      intro k
      rw [hmem', hmem, hstep]
      cases hc : s.stop with
      | none => simp
      | some x =>
        rw [hc, Option.getD_some] at hle
        simp only [Option.mem_some_iff, forall_eq', Option.getD_some]
        omega
    obtain rfl : len = n := by
      have h1 := hsame len
      have h2 := hsame n
      omega
    exact ⟨first, _, hindices, fun hpos => ⟨by rw [hfirst hpos, hfirst' hpos], hstep⟩⟩
  · have hpos : 0 < s.step.getD 1 := by
      cases hc : s.step with
      | none => exact one_pos
      | some x => exact hs.2.2 x hc
    obtain ⟨first, stride, len, hindices⟩ := Slice.indices_ok hpos 0
    obtain rfl : len = 0 := Nat.le_zero.mp (Slice.indices_spec hindices).2
    exact ⟨first, stride, hindices, fun hlt => absurd hlt (Nat.lt_irrefl 0)⟩

theorem ViewsOf.selects {shape : List Nat} {view : List Entry} {axes : List Axis} (h : ViewsOf shape view axes) :
    ∃ selected, numpyGetitem (shape.map (.range 0 1)) view = .ok selected ∧ SameSelection axes selected := by
  induction shape generalizing view axes with
  | nil =>
    match view, axes with
    | [], [] => exact ⟨[], rfl, rfl, rfl, fun _ _ => rfl⟩
  | cons size shape ih =>
    match view, axes with
    | e :: view, x :: axes =>
      obtain ⟨hx, hviews⟩ := h
      obtain ⟨selected, hselected, hsame⟩ := ih hviews
      match e, x with
      | .int i, .fixed j =>
        obtain ⟨rfl, hi, hlt⟩ := hx
        refine ⟨.fixed j :: selected, ?_, hsame.cons_fixed j⟩
        have hpos : position j size = j := if_neg (not_lt.mpr hi)
        rw [List.map_cons, numpyGetitem, hpos, if_neg (by omega), hselected, one_mul, zero_add]
        rfl
      | .slice s, .range start step n =>
        obtain ⟨first, stride, hindices, hstart⟩ := hx.getitem
        refine ⟨.range (0 + 1 * first) (1 * stride) n :: selected, ?_, hsame.cons_range ?_⟩
        · rw [List.map_cons, numpyGetitem, hindices, hselected]
          rfl
        · rw [one_mul, one_mul, zero_add]
          exact hstart

theorem viewsOf_whole (shape : List Nat) :
    ViewsOf shape (shape.map fun _ => .slice ⟨none, none, none⟩) (shape.map (.range 0 1)) := by
  induction shape with
  | nil => trivial
  | cons size shape ih =>
    refine ⟨?_, ih⟩
    by_cases hsize : size = 0
    · subst hsize
      exact .inr ⟨rfl, rfl, by rintro _ ⟨⟩, by rintro _ ⟨⟩, by rintro _ ⟨⟩⟩
    · have hr : removenones ⟨none, none, none⟩ size = ⟨0, size, 1⟩ := rfl
      refine .inl ⟨⟨by rintro _ ⟨⟩, by rintro _ ⟨⟩, by rintro _ ⟨⟩⟩, ?_⟩
      rw [AxisOf, hr]
      refine ⟨⟨le_refl 0, ?_, le_refl _⟩, ⟨one_pos, rfl⟩, fun _ => rfl, fun k => ?_⟩
      · dsimp only
        omega
      · dsimp only
        omega

/-- A view composed over a chain of keys selects from the array what indexing key by key
selects, in the same order and with the same dimensions dropped. -/
theorem composed_view_selects (shape : List Nat) (chain : List (List Entry))
    (hfits : ChainFits (shape.map (.range 0 1)) chain) : ∃ view composed selected,
      chain.foldlM numpyGetitem (shape.map (.range 0 1)) = .ok view ∧
      chain.foldlM (viewComposerInternal shape) (shape.map fun _ => .slice ⟨none, none, none⟩) = .ok composed ∧
      numpyGetitem (shape.map (.range 0 1)) composed = .ok selected ∧ SameSelection view selected := by
  obtain ⟨composed, view, hcomposed, hview, hviews⟩ := (viewsOf_whole shape).chain hfits
  obtain ⟨selected, hselected, hsame⟩ := hviews.selects
  exact ⟨view, composed, selected, hview, hcomposed, hselected, hsame⟩

/-- Every third row from row 2 on and column 4, and then the rows of that from the second on. -/
theorem composed_view_selects_rows : ∃ view composed selected,
    [[Entry.slice ⟨some 2, none, some 3⟩, .int 4], [.slice ⟨some 1, some 90, none⟩]].foldlM numpyGetitem
        ([10, 6].map (.range 0 1)) = .ok view ∧
      [[Entry.slice ⟨some 2, none, some 3⟩, .int 4], [.slice ⟨some 1, some 90, none⟩]].foldlM
        (viewComposerInternal [10, 6]) ([10, 6].map fun _ => .slice ⟨none, none, none⟩) = .ok composed ∧
      numpyGetitem ([10, 6].map (.range 0 1)) composed = .ok selected ∧ SameSelection view selected := by
  refine composed_view_selects [10, 6] _ ⟨⟨⟨?_, ?_, ?_⟩, ⟨by decide, by decide⟩, trivial⟩, fun view' hview => ?_⟩
  · rintro _ ⟨⟩
    decide
  · rintro _ ⟨⟩
  · rintro _ ⟨⟩
    decide
  · cases hview
    refine ⟨⟨⟨?_, ?_, ?_⟩, trivial⟩, fun _ _ => trivial⟩
    · rintro _ ⟨⟩
      decide
    · rintro _ ⟨⟩
      decide
    · rintro _ ⟨⟩

end chain

end Hecuba
