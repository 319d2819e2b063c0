import Hecuba.MixedRadix
import Hecuba.BlockGeometry

/-! The blocks of an array under another order of its dimensions. A block stays the same
set of elements when each of the dimensions that are cut keeps its stride. -/

namespace Hecuba

/-- `order` rearranges lists, and brings entry `i` of `k` to place `place k i`. -/
structure Reorders (order : List Nat → List Nat) (place : Nat → Nat → Nat) : Prop where
  perm : ∀ l, (order l).Perm l
  map : ∀ (l : List Nat) (f : Nat → Nat), order (l.map f) = (order l).map f
  lt : ∀ {k i : Nat}, i < k → place k i < k
  onto : ∀ {k q : Nat}, q < k → ∃ i < k, place k i = q
  get : ∀ {l : List Nat} {i : Nat}, i < l.length → (order l).getD (place l.length i) 0 = l.getD i 0

/-- Each dimension longer than `r` keeps its stride, or is a multiple of `r` and takes the
stride of a dimension of the same length. -/
def StridesKept (order : List Nat → List Nat) (place : Nat → Nat → Nat) (dims : List Nat) (r : Nat) :
    Prop :=
  ∀ i < dims.length, r < dims.getD i 0 →
    stride (order dims) (place dims.length i) = stride dims i ∨
      (r ∣ dims.getD i 0 ∧ ∃ j < dims.length, dims.getD j 0 = dims.getD i 0 ∧
        stride dims j = stride (order dims) (place dims.length i))

section digits

variable {radices : List Nat} {q j : Nat}

theorem stride_succ (h : q < radices.length) :
    stride radices (q + 1) = stride radices q * radices.getD q 0 := by
  rw [stride, stride, List.prod_take_succ _ _ h, List.getD_eq_getElem _ _ h]

theorem stride_dvd (h : q ≤ j) : stride radices q ∣ stride radices j :=
  (List.take_prefix_take_left h).sublist.prod_dvd_prod

theorem stride_length : stride radices radices.length = radices.prod := by
  rw [stride, List.take_length]

theorem getD_pos (h : ∀ d ∈ radices, 0 < d) (hq : q < radices.length) : 0 < radices.getD q 0 := by
  rw [List.getD_eq_getElem _ _ hq]
  exact h _ (List.getElem_mem hq)

theorem digit_single (hpos : ∀ d ∈ radices, 0 < d) (hj : j < radices.length) (hq : q < radices.length)
    {t : Nat} (ht : t < radices.getD j 0) :
    t * stride radices j / stride radices q % radices.getD q 0 = if q = j then t else 0 := by
  have hw := stride_pos hpos q
  split
  · rename_i he
    subst he
    rw [Nat.mul_div_cancel _ hw, Nat.mod_eq_of_lt ht]
  · rename_i hne
    rcases Nat.lt_or_gt_of_ne hne with hlt | hlt
    · obtain ⟨m, hm⟩ := @stride_dvd radices _ _ (Nat.succ_le_of_lt hlt)
      rw [stride_succ hq] at hm
      rw [hm, show t * (stride radices q * radices.getD q 0 * m) =
        stride radices q * (radices.getD q 0 * (t * m)) by ring, Nat.mul_div_cancel_left _ hw,
        Nat.mul_mod_right]
    · have hle : stride radices (j + 1) ≤ stride radices q := stride_le hpos hlt
      rw [stride_succ hj] at hle
      have hlt' : t * stride radices j < stride radices q := by
        refine Nat.lt_of_lt_of_le ?_ hle
        rw [Nat.mul_comm]
        exact Nat.mul_lt_mul_of_pos_left ht (stride_pos hpos j)
      rw [Nat.div_eq_of_lt hlt', Nat.zero_mod]

theorem single_lt (hpos : ∀ d ∈ radices, 0 < d) (hj : j < radices.length) {t : Nat}
    (ht : t < radices.getD j 0) : t * stride radices j < radices.prod := by
  have hle : stride radices (j + 1) ≤ stride radices radices.length := stride_le hpos hj
  rw [stride_succ hj, stride_length] at hle
  refine Nat.lt_of_lt_of_le ?_ hle
  rw [Nat.mul_comm]
  exact Nat.mul_lt_mul_of_pos_left ht (stride_pos hpos j)

end digits

section blocks

variable {order : List Nat → List Nat} {place : Nat → Nat → Nat} {dims cc : List Nat} {r : Nat}

theorem getD_zipWith {f : Nat → Nat → Nat} {a b : List Nat} {i : Nat} (ha : i < a.length)
    (hb : i < b.length) : (List.zipWith f a b).getD i 0 = f (a.getD i 0) (b.getD i 0) := by
  rw [List.getD_eq_getElem _ _ (by rw [List.length_zipWith]; omega), List.getElem_zipWith,
    List.getD_eq_getElem _ _ ha, List.getD_eq_getElem _ _ hb]

theorem blockShape_getD (h : BlockIn dims r cc) {i : Nat} (hi : i < dims.length) :
    (blockShape dims r cc).getD i 0 = min r (dims.getD i 0 - cc.getD i 0 * r) := by
  have hl : cc.length = dims.length := h.length_eq
  exact getD_zipWith (by omega) hi

theorem blockShape_length (h : BlockIn dims r cc) : (blockShape dims r cc).length = dims.length := by
  have hl : cc.length = dims.length := h.length_eq
  rw [blockShape, List.length_zipWith]
  omega

theorem BlockIn.getD (h : BlockIn dims r cc) {i : Nat} (hi : i < dims.length) :
    cc.getD i 0 * r < dims.getD i 0 := by
  have hl : cc.length = dims.length := h.length_eq
  have hh := (inGrid_iff.mp h.start).2 i hi
  rwa [blockStart, List.getD_eq_getElem _ _ (by rw [List.length_map]; omega), List.getElem_map,
    ← List.getD_eq_getElem _ 0 (by omega : i < cc.length)] at hh

theorem Reorders.inBox_iff (ho : Reorders order place) {shape : List Nat}
    (hl : shape.length = dims.length) {n : Nat} :
    InBox (order dims) (order shape) n ↔ n < dims.prod ∧ ∀ i < dims.length,
      n / stride (order dims) (place dims.length i) % dims.getD i 0 < shape.getD i 0 := by
  rw [InBox, (ho.perm dims).prod_eq, (ho.perm dims).length_eq]
  refine and_congr_right fun _ => ⟨fun hall i hi => ?_, fun hall q hq => ?_⟩
  · have hh := hall _ (ho.lt hi)
    have hs := @Reorders.get _ _ ho shape i (by omega)
    rw [hl] at hs
    rwa [ho.get hi, hs] at hh
  · obtain ⟨i, hi, rfl⟩ := ho.onto hq
    have hs := @Reorders.get _ _ ho shape i (by omega)
    rw [hl] at hs
    rw [ho.get hi, hs]
    exact hall i hi

theorem blockShape_le (h : BlockIn dims r cc) :
    List.Forall₂ (· ≤ ·) (blockShape dims r cc) dims := by
  induction h with
  | nil => exact List.Forall₂.nil
  | cons _ _ ih => exact List.Forall₂.cons ((Nat.min_le_right _ _).trans (Nat.sub_le _ _)) ih

theorem Reorders.forall₂ (ho : Reorders order place) {R : Nat → Nat → Prop} {shape : List Nat}
    (h : List.Forall₂ R shape dims) : List.Forall₂ R (order shape) (order dims) := by
  have hl : shape.length = dims.length := h.length_eq
  refine List.forall₂_iff_get.mpr ⟨by rw [(ho.perm _).length_eq, (ho.perm _).length_eq, hl],
    fun q hq hq' => ?_⟩
  obtain ⟨i, hi, rfl⟩ := ho.onto (show q < dims.length by rwa [(ho.perm _).length_eq] at hq')
  have hs := @Reorders.get _ _ ho shape i (by omega)
  have hd := ho.get hi
  rw [hl] at hs
  rw [List.getD_eq_getElem _ _ hq, List.getD_eq_getElem _ _ (by omega)] at hs
  rw [List.getD_eq_getElem _ _ hq', List.getD_eq_getElem _ _ hi] at hd
  rw [List.get_eq_getElem, List.get_eq_getElem, hs, hd]
  exact (List.forall₂_iff_get.mp h).2 i (by omega) hi

theorem Reorders.inBox_iff_of_imp (ho : Reorders order place) (h : BlockIn dims r cc)
    (himp : ∀ n, InBox dims (blockShape dims r cc) n →
      InBox (order dims) (order (blockShape dims r cc)) n) (n : Nat) :
    InBox (order dims) (order (blockShape dims r cc)) n ↔ InBox dims (blockShape dims r cc) n := by
  have hcells {radices bounds : List Nat} (hle : List.Forall₂ (· ≤ ·) bounds radices) (n : Nat) :
      InBox radices bounds n ↔ n ∈ boxCells radices.reverse bounds.reverse := by
    rw [mem_boxCells, ← inBox_reverse_iff (List.rel_reverse hle), List.reverse_reverse,
      List.reverse_reverse]
  have hle := blockShape_le h
  have hle' := ho.forall₂ hle
  have heq := boxCells_eq_of_subset (List.rel_reverse hle) (List.rel_reverse hle')
    (by rw [List.prod_reverse, List.prod_reverse, (ho.perm _).prod_eq]) fun n hn => by
      rw [← hcells hle] at hn
      rw [← hcells hle']
      exact himp n hn
  rw [hcells hle, hcells hle', heq]

theorem Reorders.inBox_of_stridesKept (ho : Reorders order place) (h : BlockIn dims r cc)
    (hk : StridesKept order place dims r) {n : Nat} (hn : InBox dims (blockShape dims r cc) n) :
    InBox (order dims) (order (blockShape dims r cc)) n := by
  rw [ho.inBox_iff (blockShape_length h)]
  refine ⟨hn.1, fun i hi => ?_⟩
  have hc := h.getD hi
  rw [blockShape_getD h hi]
  by_cases hbig : r < dims.getD i 0
  · rcases hk i hi hbig with he | ⟨hdvd, j, hj, hdj, hw⟩
    · rw [he, ← blockShape_getD h hi]
      exact hn.2 i hi
    · -- all blocks are whole along dimensions that `r` divides
      have hlt := hn.2 j hj
      rw [blockShape_getD h hj, hdj, hw] at hlt
      obtain ⟨m, hm⟩ := hdvd
      have hfull : r ≤ dims.getD i 0 - cc.getD i 0 * r := by
        rw [hm, Nat.mul_comm r] at hc ⊢
        rw [← Nat.sub_mul]
        exact Nat.le_mul_of_pos_left _ (by have := Nat.lt_of_mul_lt_mul_right hc; omega)
      rw [Nat.min_eq_left hfull]
      exact Nat.lt_of_lt_of_le hlt (Nat.min_le_left _ _)
  · -- dimensions up to `r` are whole in their single block
    have hzero : cc.getD i 0 = 0 := by
      by_contra hne
      have hle : r ≤ cc.getD i 0 * r := Nat.le_mul_of_pos_left _ (by omega)
      omega
    rw [hzero, Nat.zero_mul, Nat.sub_zero, Nat.min_eq_right (by omega)]
    exact Nat.mod_lt _ (by omega)

theorem blockShape_one {dims cc : List Nat} (h : BlockIn dims 1 cc) :
    blockShape dims 1 cc = List.replicate dims.length 1 := by
  induction h with
  | nil => rfl
  | @cons c d cc dims hc _ ih =>
    rw [blockShape_cons, ih, List.length_cons, List.replicate_succ, Nat.min_eq_left (by omega)]

theorem Reorders.inBox_zero (ho : Reorders order place) (hr : 0 < r) (hpos : ∀ d ∈ dims, 0 < d)
    (h : BlockIn dims r cc) : InBox (order dims) (order (blockShape dims r cc)) 0 := by
  rw [ho.inBox_iff (blockShape_length h)]
  refine ⟨List.prod_pos_iff_forall_pos_nat.mpr hpos, fun i hi => ?_⟩
  have hc := h.getD hi
  rw [Nat.zero_div, Nat.zero_mod, blockShape_getD h hi]
  omega

/-- The block at the end of one dimension and at the beginning of the others. -/
theorem blockIn_axis (hpos : ∀ d ∈ dims, 0 < d) {i c : Nat}
    (hc : c * r < dims.getD i 0) : BlockIn dims r ((List.replicate dims.length 0).set i c) := by
  have hg : InGrid dims (((List.replicate dims.length 0).set i c).map (· * r)) := by
    rw [inGrid_iff]
    refine ⟨by simp, fun q hq => ?_⟩
    rw [List.getD_eq_getElem _ _ (by simpa using hq), List.getElem_map, List.getElem_set]
    split
    · rename_i he
      subst he
      exact hc
    · rw [List.getElem_replicate, Nat.zero_mul]
      exact getD_pos hpos hq
  exact List.forall₂_map_left_iff.mp hg

theorem blockShape_first : blockShape dims r (List.replicate dims.length 0) = dims.map (min r) := by
  induction dims with
  | nil => rfl
  | cons d dims ih =>
    rw [List.length_cons, List.replicate_succ, blockShape_cons, ih, Nat.zero_mul, Nat.sub_zero,
      List.map_cons]

theorem axis_getD {k i q : Nat} (hq : q < k) (c : Nat) :
    ((List.replicate k 0).set i c).getD q 0 = if i = q then c else 0 := by
  rw [List.getD_eq_getElem _ _ (by simpa using hq), List.getElem_set]
  simp

theorem Reorders.stridesKept (ho : Reorders order place) (hr : 2 ≤ r) (hpos : ∀ d ∈ dims, 0 < d)
    (hsame : ∀ cc, BlockIn dims r cc → ∀ n,
      InBox (order dims) (order (blockShape dims r cc)) n ↔ InBox dims (blockShape dims r cc) n) :
    StridesKept order place dims r := by
  intro i hi hbig
  have hdi := ho.get hi
  -- the first block has the same numbers under both orders
  have hfirst : BlockIn dims r (List.replicate dims.length 0) := by
    have hh := blockIn_axis (r := r) (i := i) (c := 0) hpos (by omega)
    rwa [List.set_replicate_self] at hh
  obtain ⟨j, hj, hdj, hw⟩ := @same_places _ hr (order dims) dims
    (fun d hd => hpos d ((ho.perm dims).mem_iff.mp hd)) hpos (ho.perm dims).prod_eq (fun n => by
      rw [← ho.map, ← blockShape_first]
      exact hsame _ hfirst n) (place dims.length i)
    (by rw [(ho.perm dims).length_eq]; exact ho.lt hi) (by rwa [hdi])
  rw [hdi] at hdj
  by_cases he : stride (order dims) (place dims.length i) = stride dims i
  · exact .inl he
  refine .inr ⟨?_, j, hj, hdj, hw⟩
  by_contra hdvd
  have hji : j ≠ i := fun hji => he (by rw [← hw, hji])
  -- otherwise the last block along this dimension is cut short under the other order
  set c := dims.getD i 0 / r with hcdef
  set t := dims.getD i 0 % r with htdef
  have hmod : c * r + t = dims.getD i 0 := Nat.div_add_mod' _ _
  have ht : 0 < t := Nat.pos_of_ne_zero fun h0 => hdvd (Nat.dvd_of_mod_eq_zero h0)
  have htr : t < r := Nat.mod_lt _ (by omega)
  have hlast : BlockIn dims r ((List.replicate dims.length 0).set i c) :=
    blockIn_axis hpos (by omega)
  have hin : InBox dims (blockShape dims r ((List.replicate dims.length 0).set i c))
      (t * stride dims j) := by
    refine ⟨single_lt hpos hj (by omega), fun q hq => ?_⟩
    rw [digit_single hpos hj hq (by omega), blockShape_getD hlast hq, axis_getD hq]
    have hq0 := getD_pos hpos hq
    split
    · rename_i hqj
      subst hqj
      rw [if_neg (Ne.symm hji)]
      omega
    · split
      · rename_i hiq
        subst hiq
        omega
      · omega
  rw [← hsame _ hlast, ho.inBox_iff (blockShape_length hlast)] at hin
  have hlt := hin.2 i hi
  rw [hw, Nat.mul_div_cancel _ (stride_pos (fun d hd => hpos d ((ho.perm dims).mem_iff.mp hd)) _),
    Nat.mod_eq_of_lt (by omega), blockShape_getD hlast hi, axis_getD hi, if_pos rfl] at hlt
  omega

/-- The blocks of an array are the same sets of elements under another order of its
dimensions exactly when they are single elements or the strides are kept. -/
theorem Reorders.same_blocks_iff (ho : Reorders order place) (hr : 0 < r)
    (hpos : ∀ d ∈ dims, 0 < d) :
    (∀ cc, BlockIn dims r cc → ∀ n, InBox (order dims) (order (blockShape dims r cc)) n ↔
      InBox dims (blockShape dims r cc) n) ↔ r = 1 ∨ StridesKept order place dims r := by
  constructor
  · intro hsame
    by_cases h1 : r = 1
    · exact .inl h1
    · exact .inr (ho.stridesKept (by omega) hpos hsame)
  · rintro (rfl | hk) cc h
    · refine ho.inBox_iff_of_imp h fun n hn => ?_
      rw [blockShape_one h] at hn
      rw [eq_zero_of_inBox_ones hpos hn]
      exact ho.inBox_zero hr hpos h
    · exact ho.inBox_iff_of_imp h fun n hn => ho.inBox_of_stridesKept h hk hn

end blocks

end Hecuba
