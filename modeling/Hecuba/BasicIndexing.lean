import Hecuba.Fallible
import Hecuba.RowMajor

/-! Basic indexing of arrays, by integers and slices. A view keeps an axis for each
dimension of the array that owns the memory; an integer has fixed some of them. -/

namespace Hecuba

structure Slice where
  start : Option Int
  stop : Option Int
  step : Option Int
  deriving DecidableEq

inductive Entry where
  | int (i : Int)
  | slice (s : Slice)
  deriving DecidableEq

/-- `outOfBounds` is the error of `_check_value_in_shape`, with the data of its message. -/
inductive PyError where
  | indexError
  | outOfBounds (value : Int) (axis size : Nat)
  | valueError
  | typeError (msg : String)
  | notImplementedError (msg : String)
  | attributeError (name : String)
  | keyError (key : Nat)
  | runtimeError
  deriving DecidableEq

inductive Axis where
  | fixed (i : Int)
  | range (start step : Int) (len : Nat)
  deriving DecidableEq

namespace Slice

/-- A start or a stop, clipped to an axis of length `n`. -/
def clip (x : Option Int) (default lower upper : Int) (n : Nat) : Int :=
  match x with
  | none => default
  | some i => if i < 0 then max (i + n) lower else min i upper

/-- First position, step and number of positions. -/
def indices (s : Slice) (n : Nat) : Except PyError (Int × Int × Nat) :=
  let step := s.step.getD 1
  if step = 0 then .error .valueError
  else if 0 < step then
    let start := clip s.start 0 0 n n
    let stop := clip s.stop n 0 n n
    .ok (start, step, if start < stop then ((stop - start - 1) / step).toNat + 1 else 0)
  else
    let start := clip s.start (n - 1) (-1) (n - 1) n
    let stop := clip s.stop (-1) (-1) (n - 1) n
    .ok (start, step, if stop < start then ((start - stop - 1) / -step).toNat + 1 else 0)

end Slice

/-- A negative index counts from the end. -/
def position (i : Int) (n : Nat) : Int := if i < 0 then i + n else i

/-- Index each axis of a view that is not fixed. -/
def numpyGetitem : List Axis → List Entry → Except PyError (List Axis)
  | view, [] => .ok view
  | [], _ :: _ => .error .indexError
  | .fixed i :: view, entries => do
    let rest ← numpyGetitem view entries
    .ok (.fixed i :: rest)
  | .range start step n :: view, .int i :: entries =>
    if position i n < 0 ∨ n ≤ position i n then .error .indexError else do
      let rest ← numpyGetitem view entries
      .ok (.fixed (start + step * position i n) :: rest)
  | .range start step n :: view, .slice s :: entries => do
    let (first, stride, len) ← s.indices n
    let rest ← numpyGetitem view entries
    .ok (.range (start + step * first) (step * stride) len :: rest)

def shapeOf : List Axis → List Nat
  | [] => []
  | .fixed _ :: view => shapeOf view
  | .range _ _ n :: view => n :: shapeOf view

/-- The cell of the memory at a position of the view. -/
def cellAt : List Axis → List Nat → List Int
  | .fixed i :: view, xs => i :: cellAt view xs
  | .range start step _ :: view, x :: xs => (start + step * x) :: cellAt view xs
  | _, _ => []

def IsCell (view : List Axis) (c : List Int) : Prop :=
  ∃ xs, InGrid (shapeOf view) xs ∧ cellAt view xs = c

/-- No two positions of a view are the same cell. -/
def Strided (view : List Axis) : Prop := ∀ start step n, Axis.range start step n ∈ view → step ≠ 0

theorem Strided.tail {a : Axis} {view : List Axis} (h : Strided (a :: view)) : Strided view :=
  fun start step n hm => h start step n (List.mem_cons_of_mem _ hm)

theorem cellAt_injective {view : List Axis} (h : Strided view) {xs ys : List Nat}
    (hx : InGrid (shapeOf view) xs) (hy : InGrid (shapeOf view) ys)
    (he : cellAt view xs = cellAt view ys) : xs = ys := by
  induction view generalizing xs ys with
  | nil =>
    rw [List.forall₂_nil_right_iff.mp hx, List.forall₂_nil_right_iff.mp hy]
  | cons a view ih =>
    cases a with
    | fixed i => exact ih h.tail hx hy (List.cons.inj he).2
    | range start step n =>
      obtain ⟨x, xs, -, hxs, rfl⟩ := List.forall₂_cons_right_iff.mp hx
      obtain ⟨y, ys, -, hys, rfl⟩ := List.forall₂_cons_right_iff.mp hy
      obtain ⟨hhead, htail⟩ := List.cons.inj he
      have hstep : step ≠ 0 := h start step n List.mem_cons_self
      have hxy : (x : Int) = y := mul_left_cancel₀ hstep (by omega)
      rw [ih h.tail hxs hys htail, Int.ofNat_inj.mp hxy]

section spec

def PositiveStep : Entry → Prop
  | .int _ => True
  | .slice s => ∀ step ∈ s.step, 0 < step

def countInts (entries : List Entry) : Nat := entries.countP fun e => e matches .int _

theorem Slice.clip_le {x : Option Int} {d lower upper : Int} {n : Nat} (hd : d ≤ upper) (hl : lower ≤ upper)
    (hu : (n : Int) - 1 ≤ upper) : Slice.clip x d lower upper n ≤ upper := by
  unfold Slice.clip
  split
  · exact hd
  · split <;> omega

theorem Slice.le_clip {x : Option Int} {d lower upper : Int} {n : Nat} (hd : lower ≤ d) (hl : lower ≤ 0)
    (hu : lower ≤ upper) : lower ≤ Slice.clip x d lower upper n := by
  unfold Slice.clip
  split
  · exact hd
  · split <;> omega

theorem Slice.indices_spec {s : Slice} {n : Nat} {first stride : Int} {len : Nat}
    (h : s.indices n = .ok (first, stride, len)) : stride ≠ 0 ∧ len ≤ n := by
  unfold Slice.indices at h
  dsimp only at h
  split at h
  · cases h
  · rename_i hne
    have hdiv {x y : Int} (hx : 0 ≤ x) (hy : 0 < y) : x / y ≤ x := Int.ediv_le_self y hx
    split at h
    · rename_i hpos
      cases h
      refine ⟨hne, ?_⟩
      have h1 : (0 : Int) ≤ Slice.clip s.start 0 0 n n := Slice.le_clip (by omega) (by omega) (by omega)
      have h2 : Slice.clip s.stop n 0 n n ≤ n := Slice.clip_le (by omega) (by omega) (by omega)
      split
      · rename_i hlt
        have hq := @hdiv (Slice.clip s.stop n 0 n n - Slice.clip s.start 0 0 n n - 1) _ (by omega) hpos
        omega
      · omega
    · rename_i hneg
      cases h
      refine ⟨hne, ?_⟩
      have h1 : (-1 : Int) ≤ Slice.clip s.stop (-1) (-1) (n - 1) n :=
        Slice.le_clip (by omega) (by omega) (by omega)
      have h2 : Slice.clip s.start (n - 1) (-1) (n - 1) n ≤ (n : Int) - 1 :=
        Slice.clip_le (by omega) (by omega) (by omega)
      split
      · rename_i hlt
        have hq := @hdiv (Slice.clip s.start (n - 1) (-1) (n - 1) n -
          Slice.clip s.stop (-1) (-1) (n - 1) n - 1) (-s.step.getD 1) (by omega) (by omega)
        omega
      · omega

theorem numpyGetitem_spec {view view' : List Axis} {entries : List Entry}
    (h : numpyGetitem view entries = .ok view') :
    entries.length ≤ (shapeOf view).length ∧
      (shapeOf view).length = (shapeOf view').length + countInts entries ∧
      (Strided view → Strided view') ∧ (shapeOf view').prod ≤ (shapeOf view).prod := by
  induction view generalizing view' entries with
  | nil =>
    cases entries with
    | nil =>
      cases h
      exact ⟨Nat.le_refl _, rfl, id, Nat.le_refl _⟩
    | cons => cases h
  | cons a view ih =>
    cases entries with
    | nil =>
      cases h
      exact ⟨Nat.zero_le _, rfl, id, Nat.le_refl _⟩
    | cons e entries =>
      have hstrided {b : Axis} {rest : List Axis} (hb : ∀ start step n, b = .range start step n → step ≠ 0)
          (hrest : Strided rest) : Strided (b :: rest) := by
        intro start step n hm
        rcases List.mem_cons.mp hm with hb' | hm
        · exact hb start step n hb'.symm
        · exact hrest start step n hm
      cases a with
      | fixed i =>
        rw [numpyGetitem] at h
        · obtain ⟨rest, hrest, ⟨⟩⟩ := bind_ok_iff.mp h
          obtain ⟨h1, h2, h3, h4⟩ := ih hrest
          exact ⟨h1, h2, fun hs => hstrided (by rintro _ _ _ ⟨⟩) (h3 hs.tail), h4⟩
        · exact List.cons_ne_nil _ _
      | range start step n =>
        cases e with
        | int i =>
          rw [numpyGetitem] at h
          split at h
          · cases h
          · rename_i hin
            obtain ⟨rest, hrest, ⟨⟩⟩ := bind_ok_iff.mp h
            obtain ⟨h1, h2, h3, h4⟩ := ih hrest
            refine ⟨Nat.succ_le_succ h1, ?_, fun hs => hstrided (by rintro _ _ _ ⟨⟩) (h3 hs.tail), ?_⟩
            · rw [shapeOf, shapeOf, List.length_cons, h2, countInts, countInts, List.countP_cons]
              rfl
            · rw [shapeOf, shapeOf, List.prod_cons]
              exact h4.trans (Nat.le_mul_of_pos_left _ (by omega))
        | slice s =>
          rw [numpyGetitem] at h
          obtain ⟨⟨first, stride, len⟩, hindices, h⟩ := bind_ok_iff.mp h
          obtain ⟨rest, hrest, ⟨⟩⟩ := bind_ok_iff.mp h
          obtain ⟨hne, hlen⟩ := Slice.indices_spec hindices
          obtain ⟨h1, h2, h3, h4⟩ := ih hrest
          refine ⟨Nat.succ_le_succ h1, ?_, fun hs => hstrided ?_ (h3 hs.tail), ?_⟩
          · rw [shapeOf, shapeOf, List.length_cons, List.length_cons, h2, countInts, countInts,
              List.countP_cons]
            simp only [Bool.false_eq_true, if_false]
            omega
          · rintro _ _ _ ⟨⟩
            exact Int.mul_ne_zero (hs start step n List.mem_cons_self) hne
          · rw [shapeOf, shapeOf, List.prod_cons, List.prod_cons]
            exact Nat.mul_le_mul hlen h4

theorem shapeOf_int {view view' : List Axis} {i : Int} (h : numpyGetitem view [.int i] = .ok view') :
    ∃ n, shapeOf view = n :: shapeOf view' := by
  induction view generalizing view' with
  | nil => cases h
  | cons a view ih =>
    cases a with
    | fixed j =>
      rw [numpyGetitem] at h
      · obtain ⟨rest, hrest, ⟨⟩⟩ := bind_ok_iff.mp h
        obtain ⟨n, hn⟩ := ih hrest
        exact ⟨n, hn⟩
      · exact List.cons_ne_nil _ _
    | range start step n =>
      rw [numpyGetitem] at h
      split at h
      · cases h
      · cases view <;> cases h <;> exact ⟨n, rfl⟩

theorem Slice.indices_mem {s : Slice} {n : Nat} {first stride : Int} {len k : Nat}
    (h : s.indices n = .ok (first, stride, len)) (hk : k < len) :
    0 ≤ first + stride * k ∧ first + stride * k < n := by
  unfold Slice.indices at h
  dsimp only at h
  split at h
  · cases h
  · rename_i hne
    have hk0 : (0 : Int) ≤ k := Int.natCast_nonneg k
    split at h
    · rename_i hpos
      cases h
      have h1 : (0 : Int) ≤ Slice.clip s.start 0 0 n n := Slice.le_clip (by omega) (by omega) (by omega)
      have h2 : Slice.clip s.stop n 0 n n ≤ n := Slice.clip_le (by omega) (by omega) (by omega)
      split at hk
      · rename_i hlt
        have hq : 0 ≤ (Slice.clip s.stop n 0 n n - Slice.clip s.start 0 0 n n - 1) / s.step.getD 1 :=
          Int.ediv_nonneg (by omega) hpos.le
        have hle : (k : Int) * s.step.getD 1 ≤ Slice.clip s.stop n 0 n n - Slice.clip s.start 0 0 n n - 1 :=
          (Int.le_ediv_iff_mul_le hpos).mp (by omega)
        have hge : 0 ≤ s.step.getD 1 * (k : Int) := Int.mul_nonneg hpos.le hk0
        rw [mul_comm] at hle
        omega
      · omega
    · rename_i hneg
      cases h
      have h1 : (-1 : Int) ≤ Slice.clip s.stop (-1) (-1) (n - 1) n :=
        Slice.le_clip (by omega) (by omega) (by omega)
      have h2 : Slice.clip s.start (n - 1) (-1) (n - 1) n ≤ (n : Int) - 1 :=
        Slice.clip_le (by omega) (by omega) (by omega)
      split at hk
      · rename_i hlt
        have hq : 0 ≤ (Slice.clip s.start (n - 1) (-1) (n - 1) n -
            Slice.clip s.stop (-1) (-1) (n - 1) n - 1) / -s.step.getD 1 :=
          Int.ediv_nonneg (by omega) (by omega)
        have hle : (k : Int) * -s.step.getD 1 ≤
            Slice.clip s.start (n - 1) (-1) (n - 1) n - Slice.clip s.stop (-1) (-1) (n - 1) n - 1 :=
          (Int.le_ediv_iff_mul_le (by omega)).mp (by omega)
        have hge : s.step.getD 1 * (k : Int) ≤ 0 := Int.mul_nonpos_of_nonpos_of_nonneg (by omega) hk0
        rw [mul_neg, mul_comm] at hle
        omega
      · omega

theorem isCell_fixed_iff {i : Int} {view : List Axis} {c : List Int} :
    IsCell (.fixed i :: view) c ↔ ∃ rest, IsCell view rest ∧ c = i :: rest := by
  constructor
  · rintro ⟨xs, hxs, rfl⟩
    exact ⟨_, ⟨xs, hxs, rfl⟩, rfl⟩
  · rintro ⟨_, ⟨xs, hxs, rfl⟩, rfl⟩
    exact ⟨xs, hxs, rfl⟩

theorem isCell_range_iff {start step : Int} {n : Nat} {view : List Axis} {c : List Int} :
    IsCell (.range start step n :: view) c ↔
      ∃ k < n, ∃ rest, IsCell view rest ∧ c = (start + step * k) :: rest := by
  constructor
  · rintro ⟨xs, hxs, rfl⟩
    obtain ⟨k, ys, hk, hys, rfl⟩ := List.forall₂_cons_right_iff.mp hxs
    exact ⟨k, hk, _, ⟨ys, hys, rfl⟩, rfl⟩
  · rintro ⟨k, hk, _, ⟨xs, hxs, rfl⟩, rfl⟩
    exact ⟨k :: xs, List.Forall₂.cons hk hxs, rfl⟩

theorem numpyGetitem_cells {view view' : List Axis} {entries : List Entry} {c : List Int}
    (h : numpyGetitem view entries = .ok view') (hc : IsCell view' c) : IsCell view c := by
  induction view generalizing view' entries c with
  | nil =>
    cases entries with
    | nil =>
      cases h
      exact hc
    | cons => cases h
  | cons a view ih =>
    cases entries with
    | nil =>
      cases h
      exact hc
    | cons e entries =>
      cases a with
      | fixed i =>
        rw [numpyGetitem] at h
        · obtain ⟨rest, hrest, ⟨⟩⟩ := bind_ok_iff.mp h
          obtain ⟨c', hc', rfl⟩ := isCell_fixed_iff.mp hc
          exact isCell_fixed_iff.mpr ⟨c', ih hrest hc', rfl⟩
        · exact List.cons_ne_nil _ _
      | range start step n =>
        cases e with
        | int i =>
          rw [numpyGetitem] at h
          split at h
          · cases h
          · rename_i hin
            obtain ⟨rest, hrest, ⟨⟩⟩ := bind_ok_iff.mp h
            obtain ⟨c', hc', rfl⟩ := isCell_fixed_iff.mp hc
            obtain ⟨k, hk⟩ := Int.eq_ofNat_of_zero_le (not_lt.mp (not_or.mp hin).1)
            refine isCell_range_iff.mpr ⟨k, by omega, c', ih hrest hc', by rw [hk]⟩
        | slice s =>
          rw [numpyGetitem] at h
          obtain ⟨⟨first, stride, len⟩, hindices, h⟩ := bind_ok_iff.mp h
          obtain ⟨rest, hrest, ⟨⟩⟩ := bind_ok_iff.mp h
          obtain ⟨j, hj, c', hc', rfl⟩ := isCell_range_iff.mp hc
          obtain ⟨hge, hlt⟩ := Slice.indices_mem hindices hj
          obtain ⟨k, hk⟩ := Int.eq_ofNat_of_zero_le hge
          refine isCell_range_iff.mpr ⟨k, by omega, c', ih hrest hc', ?_⟩
          rw [← hk]
          congr 1
          ring

end spec

section windows

/-- A slice of step 1 whose ends, if it has any, are not negative. -/
abbrev Window := Option Nat × Option Nat

def Window.toEntry (w : Window) : Entry := .slice ⟨w.1.map Int.ofNat, w.2.map Int.ofNat, none⟩

def Window.first (w : Window) (n : Nat) : Nat := min (w.1.getD 0) n

def Window.length (w : Window) (n : Nat) : Nat := min (w.2.getD n) n - w.first n

def InWindow (w : Window) (x : Nat) : Prop := w.1.getD 0 ≤ x ∧ ∀ stop ∈ w.2, x < stop

def InWindows : List Window → List Nat → Prop
  | [], _ => True
  | _ :: _, [] => False
  | w :: ws, x :: xs => InWindow w x ∧ InWindows ws xs

def windowShape : List Window → List Nat → List Nat
  | [], shape => shape
  | _ :: _, [] => []
  | w :: ws, n :: shape => w.length n :: windowShape ws shape

theorem Window.indices (w : Window) (n : Nat) :
    (Slice.mk (w.1.map Int.ofNat) (w.2.map Int.ofNat) none).indices n =
      .ok ((w.first n : Int), 1, w.length n) := by
  obtain ⟨a, b⟩ := w
  have hclip (x : Option Nat) (d : Nat) : Slice.clip (x.map Int.ofNat) ((min d n : Nat) : Int) 0 n n =
      ((min (x.getD d) n : Nat) : Int) := by
    cases x with
    | none => rfl
    | some i =>
      rw [Option.map_some, Slice.clip, if_neg (by simp), Option.getD_some]
      show min (i : Int) n = _
      omega
  have ha := hclip a 0
  have hb := hclip b n
  rw [Nat.min_self] at hb
  rw [Nat.zero_min] at ha
  simp only [Slice.indices, Option.getD_none, if_neg (show (1 : Int) ≠ 0 by decide),
    if_pos (show (0 : Int) < 1 by decide), Nat.cast_zero] at ha ⊢
  rw [ha, hb]
  simp only [Window.length, Window.first]
  congr 3
  split <;> omega

theorem Window.mem_iff (w : Window) {n x : Nat} (hx : x < n) :
    InWindow w x ↔ ∃ k < w.length n, w.first n + k = x := by
  obtain ⟨a, b⟩ := w
  rw [InWindow, Window.length, Window.first]
  cases b with
  | none =>
    simp only [Option.getD_none, Option.not_mem_none, false_implies, implies_true, and_true]
    exact ⟨fun h => ⟨x - min (a.getD 0) n, by omega, by omega⟩, fun ⟨k, hk, he⟩ => by omega⟩
  | some b =>
    simp only [Option.getD_some, Option.mem_some_iff, forall_eq']
    exact ⟨fun h => ⟨x - min (a.getD 0) n, by omega, by omega⟩, fun ⟨k, hk, he⟩ => by omega⟩

theorem Window.first_add_lt (w : Window) {n k : Nat} (hk : k < w.length n) : w.first n + k < n := by
  rw [Window.length, Window.first] at hk
  rw [Window.first]
  omega

/-- The view that a tuple of windows selects. -/
theorem numpyGetitem_windows {view : List Axis} {ws : List Window} (h : ws.length ≤ (shapeOf view).length) :
    ∃ view', numpyGetitem view (ws.map Window.toEntry) = .ok view' ∧
      shapeOf view' = windowShape ws (shapeOf view) ∧
      ∀ c, IsCell view' c ↔ ∃ xs, InGrid (shapeOf view) xs ∧ InWindows ws xs ∧
        cellAt view xs = c := by
  induction view generalizing ws with
  | nil =>
    obtain rfl : ws = [] := List.length_eq_zero_iff.mp (Nat.le_zero.mp h)
    exact ⟨[], rfl, rfl, fun c => exists_congr fun xs => by rw [InWindows, true_and]⟩
  | cons a view ih =>
    cases ws with
    | nil => exact ⟨a :: view, rfl, rfl, fun c => exists_congr fun xs => by rw [InWindows, true_and]⟩
    | cons w ws =>
      cases a with
      | fixed i =>
        obtain ⟨view', hok, hshape, hcells⟩ := @ih (w :: ws) h
        refine ⟨.fixed i :: view', ?_, hshape, fun c => ?_⟩
        · rw [List.map_cons] at hok ⊢
          rw [numpyGetitem, hok]
          · rfl
          · exact List.cons_ne_nil _ _
        · constructor
          · rintro ⟨xs, hxs, rfl⟩
            obtain ⟨ys, hys, hw, he⟩ := (hcells _).mp ⟨xs, hxs, rfl⟩
            exact ⟨ys, hys, hw, congrArg (i :: ·) he⟩
          · rintro ⟨xs, hxs, hw, rfl⟩
            obtain ⟨ys, hys, he⟩ := (hcells _).mpr ⟨xs, hxs, hw, rfl⟩
            exact ⟨ys, hys, congrArg (i :: ·) he⟩
      | range start step n =>
        obtain ⟨view', hok, hshape, hcells⟩ := @ih ws (Nat.le_of_succ_le_succ h)
        refine ⟨.range (start + step * w.first n) (step * 1) (w.length n) :: view', ?_, ?_, fun c => ?_⟩
        · rw [List.map_cons, Window.toEntry, numpyGetitem, Window.indices, hok]
          rfl
        · rw [shapeOf, hshape, shapeOf, windowShape]
        · constructor
          · rintro ⟨xs, hxs, rfl⟩
            obtain ⟨k, xs, hk, hrest, rfl⟩ := List.forall₂_cons_right_iff.mp hxs
            obtain ⟨ys, hys, hw, he⟩ := (hcells _).mp ⟨xs, hrest, rfl⟩
            have hlt := w.first_add_lt hk
            refine ⟨(w.first n + k) :: ys, List.Forall₂.cons hlt hys,
              ⟨(w.mem_iff hlt).mpr ⟨k, hk, rfl⟩, hw⟩, ?_⟩
            rw [cellAt, cellAt, he, Nat.cast_add]
            congr 1
            ring
          · rintro ⟨xs, hxs, hw, rfl⟩
            obtain ⟨x, xs, hx, hrest, rfl⟩ := List.forall₂_cons_right_iff.mp hxs
            obtain ⟨k, hk, rfl⟩ := (w.mem_iff hx).mp hw.1
            obtain ⟨ys, hys, he⟩ := (hcells _).mpr ⟨xs, hrest, hw.2, rfl⟩
            refine ⟨k :: ys, List.Forall₂.cons hk hys, ?_⟩
            rw [cellAt, cellAt, he, Nat.cast_add]
            congr 1
            ring

end windows

end Hecuba
