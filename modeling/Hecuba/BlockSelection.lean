import Hecuba.NegativePositions

/-! The blocks that a composed view selects, against the grid of blocks of the array and the
cells that numpy shows through the view. -/

namespace Hecuba

/-- The views that the composer makes of an array. -/
inductive ComposedView (shape : List Nat) : List Entry → Prop where
  | whole : ComposedView shape (shape.map fun _ => .slice ⟨none, none, none⟩)
  | compose {view new view' : List Entry} (h : ComposedView shape view)
      (hcompose : viewComposerInternal shape view new = .ok view') : ComposedView shape view'

def InBlockGrid (rowElem : Nat) (shape : List Nat) (coord : List Int) : Prop :=
  List.Forall₂ (fun (c : Int) (size : Nat) => 0 ≤ c ∧ c < ((size + rowElem - 1) / rowElem : Nat)) coord shape

/-- The index that the bounds check lets through is past the grid when the last block is whole. -/
def EntryInGrid (rowElem size : Nat) : Entry → Prop
  | .int i => ¬ (i = size ∧ rowElem ∣ size)
  | .slice s => 0 ≤ s.start.getD 0

/-- The slice starts in a later block than the one before its stop. -/
def NoBlocks (rowElem size : Nat) : Entry → Prop
  | .int _ => False
  | .slice s => ((removenones s size).stop - 1) / rowElem < s.start.getD 0 / rowElem

/-- What composing keeps of the entries of a view. -/
def EntryComposed (size : Nat) : Entry → Prop
  | .int _ => True
  | .slice s => 0 < s.step.getD 1 ∧ (removenones s size).stop ≤ size

section views

variable {size : Nat} {shape : List Nat} {view new view' : List Entry}

theorem removenones_step_ne_zero (s : Slice) (size : Int) : (removenones s size).step ≠ 0 := by
  rw [removenones]
  dsimp only
  split
  · exact one_ne_zero
  · exact one_ne_zero
  · assumption

theorem removenones_step_pos {s : Slice} (h : 0 < s.step.getD 1) (size : Int) : 0 < (removenones s size).step := by
  cases hc : s.step with
  | none => simp [removenones, hc]
  | some step =>
    rw [hc, Option.getD_some] at h
    by_cases h0 : step = 0
    · omega
    · simpa [removenones, hc] using h

theorem EntryComposed.compose {old n e : Entry} (hold : EntryComposed size old)
    (h : composeEntry size old n = .ok e) : EntryComposed size e := by
  cases old with
  | int i =>
    cases h
    trivial
  | slice o =>
    cases n with
    | int i =>
      cases h
      trivial
    | slice n =>
      rw [composeEntry] at h
      split at h
      · rename_i hsteps
        cases h
        have hne := removenones_step_ne_zero n size
        refine ⟨Int.mul_pos (removenones_step_pos hold.1 size) (by omega), ?_⟩
        rw [removenones_stop rfl]
        split
        · exact le_refl _
        · exact le_trans (min_le_right _ _) hold.2
      · cases h

theorem composeEntries_composed (hold : List.Forall₂ EntryComposed shape view)
    (h : composeEntries shape view new = .ok view') : List.Forall₂ EntryComposed shape view' := by
  induction hold generalizing new view' with
  | nil =>
    cases new with
    | nil =>
      cases h
      exact List.Forall₂.nil
    | cons n new =>
      cases h
      exact List.Forall₂.nil
  | @cons size e shape view he hrest ih =>
    cases new with
    | nil =>
      cases h
      exact List.Forall₂.cons he hrest
    | cons n new =>
      cases e with
      | int i =>
        rw [composeEntries] at h
        split at h
        · cases h
        · obtain ⟨rest, hc, ⟨⟩⟩ := bind_ok_iff.mp h
          exact List.Forall₂.cons trivial (ih hc)
      | slice s =>
        rw [composeEntries] at h
        obtain ⟨entry, hentry, h⟩ := bind_ok_iff.mp h
        obtain ⟨rest, hc, ⟨⟩⟩ := bind_ok_iff.mp h
        exact List.Forall₂.cons (EntryComposed.compose he hentry) (ih hc)

theorem ComposedView.entries (h : ComposedView shape view) : List.Forall₂ EntryComposed shape view := by
  induction h with
  | whole =>
    rw [List.forall₂_map_right_iff, List.forall₂_same]
    intro size _
    exact ⟨one_pos, le_refl (size : Int)⟩
  | compose _ hcompose ih =>
    rw [viewComposerInternal] at hcompose
    split at hcompose
    · cases hcompose
    · exact composeEntries_composed ih hcompose

end views

section product

variable {α : Type} {P : Int → α → Prop} {ls : List (List Int)} {ds : List α}

theorem product_ne_nil (h : ∀ l ∈ ls, l ≠ []) : ∃ c, c ∈ product ls := by
  induction ls with
  | nil => exact ⟨[], by simp [product]⟩
  | cons l ls ih =>
    obtain ⟨c, hc⟩ := ih fun l hl => h l (List.mem_cons_of_mem _ hl)
    obtain ⟨x, hx⟩ := List.exists_mem_of_ne_nil l (h l List.mem_cons_self)
    exact ⟨x :: c, List.mem_flatMap.mpr ⟨x, hx, List.mem_map.mpr ⟨c, hc, rfl⟩⟩⟩

theorem product_forall_iff (hlen : ls.length = ds.length) (hne : ∀ l ∈ ls, l ≠ []) :
    (∀ c ∈ product ls, List.Forall₂ P c ds) ↔ List.Forall₂ (fun l d => ∀ x ∈ l, P x d) ls ds := by
  induction ls generalizing ds with
  | nil =>
    obtain rfl : ds = [] := List.length_eq_zero_iff.mp hlen.symm
    simp [product]
  | cons l ls ih =>
    obtain ⟨d, ds, rfl⟩ := List.exists_cons_of_length_eq_add_one hlen.symm
    have hne' : ∀ l ∈ ls, l ≠ [] := fun l hl => hne l (List.mem_cons_of_mem _ hl)
    rw [List.forall₂_cons, ← ih (by simpa using hlen) hne']
    have hmem (x : Int) (c : List Int) : x :: c ∈ product (l :: ls) ↔ x ∈ l ∧ c ∈ product ls := by
      rw [mem_product, List.forall₂_cons, ← mem_product]
    constructor
    · intro h
      obtain ⟨c, hc⟩ := product_ne_nil hne'
      obtain ⟨x, hx⟩ := List.exists_mem_of_ne_nil l (hne l List.mem_cons_self)
      refine ⟨fun y hy => ?_, fun c' hc' => ?_⟩
      · exact (List.forall₂_cons.mp (h _ ((hmem y c).mpr ⟨hy, hc⟩))).1
      · exact (List.forall₂_cons.mp (h _ ((hmem x c').mpr ⟨hx, hc'⟩))).2
    · rintro ⟨h1, h2⟩ c hc
      obtain ⟨x, c', hx, hc', rfl⟩ := List.forall₂_cons_right_iff.mp (mem_product.mp hc)
      exact List.Forall₂.cons (h1 x hx) (h2 c' (mem_product.mpr hc'))

theorem product_eq_nil {l : List Int} (h : l ∈ ls) (hl : l = []) : product ls = [] := by
  subst hl
  refine List.eq_nil_iff_forall_not_mem.mpr fun c hc => ?_
  obtain ⟨x, hx⟩ : ∃ x, x ∈ ([] : List Int) := by
    have hforall := mem_product.mp hc
    clear hc
    induction hforall with
    | nil => cases h
    | cons hx _ ih =>
      rcases List.mem_cons.mp h with rfl | h
      · exact ⟨_, hx⟩
      · exact ih h
  exact List.not_mem_nil hx

end product

section blocks

variable {rowElem size : Nat} {shape : List Nat} {view : List Entry} {blocks : List (List Int)}

/-- The first and the last block of an entry that passes the check. -/
def blockEnds (rowElem size : Nat) : Entry → Int × Int
  | .int i => (i / rowElem, i / rowElem)
  | .slice s => ((removenones s size).start / rowElem, ((removenones s size).stop - 1) / rowElem)

def blockList (ends : Int × Int) : List Int :=
  (List.range (ends.2 + 1 - ends.1).toNat).map fun k : Nat => ends.1 + k

theorem mem_blockList {ends : Int × Int} {x : Int} : x ∈ blockList ends ↔ ends.1 ≤ x ∧ x ≤ ends.2 := by
  rw [blockList, List.mem_map]
  constructor
  · rintro ⟨k, hk, rfl⟩
    have hlt := List.mem_range.mp hk
    omega
  · intro hx
    exact ⟨(x - ends.1).toNat, List.mem_range.mpr (by omega), by omega⟩

theorem blockList_eq_nil_iff {ends : Int × Int} : blockList ends = [] ↔ ends.2 < ends.1 := by
  rw [blockList, List.map_eq_nil_iff, List.range_eq_nil]
  omega

theorem blockRange_eq {axis : Nat} {e : Entry} {range : Int × Int}
    (h : blockRange rowElem size axis e = .ok range) : EntryPasses size e ∧ range = blockEnds rowElem size e := by
  refine ⟨blockRange_ok_iff.mp ⟨range, h⟩, ?_⟩
  cases e with
  | int i =>
    obtain ⟨_, -, ⟨⟩⟩ := bind_ok_iff.mp h
    rfl
  | slice s =>
    obtain ⟨_, -, ⟨⟩⟩ := bind_ok_iff.mp h
    rfl

theorem blockRanges_eq {axis : Nat} {ranges : List (Int × Int)} (hlen : List.Forall₂ EntryComposed shape view)
    (h : blockRanges rowElem axis shape view = .ok ranges) :
    List.Forall₂ EntryPasses shape view ∧ ranges = List.zipWith (blockEnds rowElem) shape view := by
  induction hlen generalizing axis ranges with
  | nil =>
    cases h
    exact ⟨List.Forall₂.nil, rfl⟩
  | cons he hrest ih =>
    obtain ⟨range, hrange, h⟩ := bind_ok_iff.mp h
    obtain ⟨rest, hr, ⟨⟩⟩ := bind_ok_iff.mp h
    obtain ⟨hpass, rfl⟩ := blockRange_eq hrange
    obtain ⟨hpasses, rfl⟩ := ih hr
    exact ⟨List.Forall₂.cons hpass hpasses, rfl⟩

theorem calculateBlockCoords_eq (hview : List.Forall₂ EntryComposed shape view)
    (h : calculateBlockCoords rowElem shape view = .ok blocks) :
    List.Forall₂ EntryPasses shape view ∧
      blocks = product ((List.zipWith (blockEnds rowElem) shape view).map blockList) := by
  obtain ⟨l, hl, ⟨⟩⟩ := bind_ok_iff.mp h
  obtain ⟨ranges, hr, ⟨⟩⟩ := bind_ok_iff.mp hl
  obtain ⟨hpasses, rfl⟩ := blockRanges_eq hview hr
  exact ⟨hpasses, rfl⟩

theorem noBlocks_iff {e : Entry} : blockList (blockEnds rowElem size e) = [] ↔ NoBlocks rowElem size e := by
  rw [blockList_eq_nil_iff]
  cases e with
  | int i => exact iff_of_false (lt_irrefl _) id
  | slice s => rfl

/-- The block of a position up to the size, which the bounds check lets through. -/
theorem block_lt_iff (hR : 1 ≤ rowElem) {x : Int} (h0 : 0 ≤ x) (hx : x ≤ size) :
    x / rowElem < ((size + rowElem - 1) / rowElem : Nat) ↔ ¬ (x = size ∧ rowElem ∣ size) := by
  obtain ⟨n, rfl⟩ := Int.eq_ofNat_of_zero_le h0
  have hblock : (n : Int) / rowElem < ((size + rowElem - 1) / rowElem : Nat) ↔ n / rowElem * rowElem < size := by
    rw [← lt_blocks_iff hR]
    exact_mod_cast Iff.rfl
  have hle := Nat.div_mul_le_self n rowElem
  rw [hblock]
  constructor
  · rintro hlt ⟨hn, hdvd⟩
    obtain rfl : n = size := by exact_mod_cast hn
    rw [Nat.div_mul_cancel hdvd] at hlt
    exact lt_irrefl _ hlt
  · intro hne
    by_contra hge
    have heq : n = size := by omega
    subst heq
    exact hne ⟨rfl, Dvd.intro_left (n / rowElem) (by omega)⟩

theorem blockList_inGrid_iff (hR : 1 ≤ rowElem) {e : Entry} (hpass : EntryPasses size e)
    (hcomposed : EntryComposed size e) (hsome : ¬ NoBlocks rowElem size e) :
    (∀ x ∈ blockList (blockEnds rowElem size e), 0 ≤ x ∧ x < ((size + rowElem - 1) / rowElem : Nat)) ↔
      EntryInGrid rowElem size e := by
  have hR' : (0 : Int) < rowElem := by omega
  simp only [mem_blockList]
  cases e with
  | int i =>
    rw [EntryInGrid, ← block_lt_iff hR hpass.1 hpass.2]
    constructor
    · intro h
      exact (h (i / rowElem) ⟨le_refl _, le_refl _⟩).2
    · intro h x hx
      have hnonneg := Int.ediv_nonneg hpass.1 hR'.le
      dsimp only [blockEnds] at hx
      omega
  | slice s =>
    obtain ⟨hstop, -⟩ := hpass
    have hle := hcomposed.2
    have hlast := @block_lt_iff rowElem size hR ((removenones s size).stop - 1) (by omega) (by omega)
    have hfirst : 0 ≤ s.start.getD 0 / (rowElem : Int) ↔ 0 ≤ s.start.getD 0 := Int.ediv_nonneg_iff_of_pos hR'
    have hends : blockEnds rowElem size (.slice s) =
      (s.start.getD 0 / rowElem, ((removenones s size).stop - 1) / rowElem) := rfl
    rw [NoBlocks, not_lt] at hsome
    rw [EntryInGrid, hends]
    dsimp only
    constructor
    · intro h
      exact hfirst.mp (h _ ⟨le_refl _, hsome⟩).1
    · intro h x hx
      have h1 := hfirst.mpr h
      have h2 := hlast.mpr (by omega)
      omega

end blocks

section selection

variable {rowElem size : Nat} {shape : List Nat} {view : List Entry} {blocks : List (List Int)}

/-- No block at all is selected, or each entry stays in the grid. -/
def SelectsInGrid (rowElem : Nat) (shape : List Nat) (view : List Entry) : Prop :=
  (∃ p ∈ shape.zip view, NoBlocks rowElem p.1 p.2) ∨ List.Forall₂ (EntryInGrid rowElem) shape view

theorem blockLists_inGrid_iff (hR : 1 ≤ rowElem) (hview : List.Forall₂ EntryComposed shape view)
    (hpasses : List.Forall₂ EntryPasses shape view) (hsome : ∀ p ∈ shape.zip view, ¬ NoBlocks rowElem p.1 p.2) :
    List.Forall₂ (fun (l : List Int) (size : Nat) => ∀ x ∈ l, 0 ≤ x ∧ x < ((size + rowElem - 1) / rowElem : Nat))
        ((List.zipWith (blockEnds rowElem) shape view).map blockList) shape ↔
      List.Forall₂ (EntryInGrid rowElem) shape view := by
  induction hview with
  | nil => simp
  | cons he _ ih =>
    obtain ⟨hpass, hpasses⟩ := List.forall₂_cons.mp hpasses
    rw [List.zip_cons_cons, List.forall_mem_cons] at hsome
    rw [List.zipWith_cons_cons, List.map_cons, List.forall₂_cons, List.forall₂_cons, ih hpasses hsome.2,
      blockList_inGrid_iff hR hpass he hsome.1]

theorem blocks_inGrid_iff (hR : 1 ≤ rowElem) (hview : List.Forall₂ EntryComposed shape view)
    (h : calculateBlockCoords rowElem shape view = .ok blocks) :
    (∀ coord ∈ blocks, InBlockGrid rowElem shape coord) ↔ SelectsInGrid rowElem shape view := by
  obtain ⟨hpasses, rfl⟩ := calculateBlockCoords_eq hview h
  have hlists (l : List Int) : l ∈ (List.zipWith (blockEnds rowElem) shape view).map blockList ↔
      ∃ p ∈ shape.zip view, blockList (blockEnds rowElem p.1 p.2) = l := by
    rw [← List.map_uncurry_zip_eq_zipWith, List.map_map, List.mem_map]
    rfl
  rw [SelectsInGrid]
  by_cases hno : ∃ p ∈ shape.zip view, NoBlocks rowElem p.1 p.2
  · refine iff_of_true ?_ (.inl hno)
    obtain ⟨p, hp, hnone⟩ := hno
    rw [product_eq_nil ((hlists _).mpr ⟨p, hp, rfl⟩) (noBlocks_iff.mpr hnone)]
    simp
  · rw [or_iff_right hno]
    have hsome : ∀ p ∈ shape.zip view, ¬ NoBlocks rowElem p.1 p.2 := fun p hp hp' => hno ⟨p, hp, hp'⟩
    rw [← blockLists_inGrid_iff hR hview hpasses hsome]
    refine product_forall_iff (by simp [hview.length_eq]) fun l hl => ?_
    obtain ⟨p, hp, rfl⟩ := (hlists l).mp hl
    exact noBlocks_iff.not.mpr (hsome p hp)

theorem slice_cell_bounds {size : Nat} {s : Slice} {first stride : Int} {len k : Nat}
    (hpass : EntryPasses size (.slice s)) (hcomposed : EntryComposed size (.slice s))
    (h : s.indices size = .ok (first, stride, len)) (hk : k < len) :
    s.start.getD 0 ≤ first + stride * k ∧ first + stride * k < (removenones s size).stop := by
  obtain ⟨hstep, hle⟩ := hcomposed
  obtain ⟨hge, hlt⟩ := Slice.indices_mem h hk
  rw [Slice.indices, if_neg hstep.ne', if_pos hstep] at h
  cases h
  have hk' := (@lt_rangeLength_iff _ (Slice.clip s.stop size 0 size size) _ hstep k).mp hk
  have hnonneg : 0 ≤ s.step.getD 1 * (k : Int) := Int.mul_nonneg hstep.le (Int.natCast_nonneg k)
  rw [Slice.clip_start] at hge hlt hk' ⊢
  constructor
  · by_cases hneg : s.start.getD 0 < 0
    · omega
    · rw [if_neg hneg] at hlt ⊢
      omega
  · cases hc : s.stop with
    | none =>
      simp only [removenones, hc]
      omega
    | some stop =>
      obtain ⟨hone, -⟩ := hpass
      rw [removenones_stop hc] at hone ⊢
      rw [hc, Slice.clip] at hk'
      by_cases h0 : stop = 0
      · rw [if_pos h0]
        omega
      · rw [if_neg h0] at hone ⊢
        rw [if_neg (show ¬ stop < 0 by omega)] at hk'
        omega

/-- The cells that numpy shows through a view, between the first and the last block of each entry. -/
theorem cells_in_blocks (hR : 1 ≤ rowElem) (hview : List.Forall₂ EntryComposed shape view)
    (hpasses : List.Forall₂ EntryPasses shape view) {axes : List Axis} {c : List Int}
    (h : numpyGetitem (shape.map (.range 0 1)) view = .ok axes) (hc : IsCell axes c) :
    List.Forall₂ (fun (x : Int) (ends : Int × Int) => ends.1 ≤ x / rowElem ∧ x / rowElem ≤ ends.2) c
      (List.zipWith (blockEnds rowElem) shape view) := by
  have hR' : (0 : Int) < rowElem := by omega
  induction hview generalizing axes c with
  | nil =>
    cases h
    obtain ⟨xs, hxs, rfl⟩ := hc
    exact List.Forall₂.nil
  | @cons size e shape view he _ ih =>
    obtain ⟨hpass, hrestpass⟩ := List.forall₂_cons.mp hpasses
    cases e with
    | int i =>
      rw [List.map_cons, numpyGetitem] at h
      split at h
      · cases h
      · obtain ⟨rest, hrest, ⟨⟩⟩ := bind_ok_iff.mp h
        obtain ⟨c', hc', rfl⟩ := isCell_fixed_iff.mp hc
        have hpos : position i size = i := if_neg (not_lt.mpr hpass.1)
        refine List.Forall₂.cons ?_ (ih hrestpass hrest hc')
        rw [hpos, zero_add, one_mul]
        exact ⟨le_refl _, le_refl _⟩
    | slice s =>
      rw [List.map_cons, numpyGetitem] at h
      obtain ⟨⟨first, stride, len⟩, hindices, h⟩ := bind_ok_iff.mp h
      obtain ⟨rest, hrest, ⟨⟩⟩ := bind_ok_iff.mp h
      obtain ⟨k, hk, c', hc', rfl⟩ := isCell_range_iff.mp hc
      obtain ⟨hge, hlt⟩ := slice_cell_bounds hpass he hindices hk
      refine List.Forall₂.cons ?_ (ih hrestpass hrest hc')
      rw [zero_add, one_mul, one_mul]
      exact ⟨Int.ediv_le_ediv hR' hge, Int.ediv_le_ediv hR' (Int.le_sub_one_of_lt hlt)⟩

/-- When the blocks that are returned for a view are in the grid and hold what it selects. -/
theorem block_selection_iff (hR : 1 ≤ rowElem) (hview : ComposedView shape view)
    (h : calculateBlockCoords rowElem shape view = .ok blocks) :
    ((∀ coord ∈ blocks, InBlockGrid rowElem shape coord) ∧
      ∀ axes c, numpyGetitem (shape.map (.range 0 1)) view = .ok axes → IsCell axes c →
        c.map (· / (rowElem : Int)) ∈ blocks) ↔ SelectsInGrid rowElem shape view := by
  rw [blocks_inGrid_iff hR hview.entries h]
  refine and_iff_left fun axes c haxes hc => ?_
  obtain ⟨hpasses, rfl⟩ := calculateBlockCoords_eq hview.entries h
  rw [mem_product, List.forall₂_map_left_iff, List.forall₂_map_right_iff]
  exact (cells_in_blocks hR hview.entries hpasses haxes hc).imp fun x ends hx => mem_blockList.mpr hx

/-- The last element of five, in blocks of two. -/
theorem block_selection_last :
    (∀ coord ∈ [[(2 : Int)]], InBlockGrid 2 [5] coord) ∧
      ∀ axes c, numpyGetitem [.range 0 1 5] [.int 4] = .ok axes → IsCell axes c → c.map (· / 2) ∈ [[(2 : Int)]] := by
  have hview : ComposedView [5] [.int 4] := @ComposedView.compose _ _ [.int 4] _ .whole rfl
  have hgrid : List.Forall₂ (EntryInGrid 2) [5] [.int 4] := List.Forall₂.cons (fun h => nomatch h.1) List.Forall₂.nil
  exact (@block_selection_iff 2 [5] [.int 4] [[2]] (by decide) hview rfl).mpr (.inr hgrid)

/-- An index equal to the shape passes the bounds check, and its block is past the grid. -/
theorem block_past_grid :
    ¬ ∀ (rowElem : Nat) (shape : List Nat) (view : List Entry) (blocks : List (List Int)), 1 ≤ rowElem →
      ComposedView shape view → calculateBlockCoords rowElem shape view = .ok blocks →
      (∀ coord ∈ blocks, InBlockGrid rowElem shape coord) ∧
        ∀ axes c, numpyGetitem (shape.map (.range 0 1)) view = .ok axes → IsCell axes c →
          c.map (· / (rowElem : Int)) ∈ blocks := by
  intro h
  have hview : ComposedView [4] [.int 4] := @ComposedView.compose _ _ [.int 4] _ .whole rfl
  have hgrid := (h 2 [4] [.int 4] [[2]] (by decide) hview rfl).1 [2] (by simp)
  obtain ⟨hlt, -⟩ := List.forall₂_cons.mp hgrid
  exact absurd hlt.2 (by decide)

end selection

end Hecuba
