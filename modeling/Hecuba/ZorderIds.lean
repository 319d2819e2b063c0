import Hecuba.ZorderCurve

/-! When the ids of two blocks of one array differ. The code of a block sets bit
`(ndims * i + dim) % 32` for bit `i` of coordinate `dim`, so ids are distinct
exactly when the coordinates of the grid never use two bits with one target. -/

namespace Hecuba

theorem testBit_intShift (k j : Nat) :
    (intShift k).testBit j = true ↔ j = k % 32 ∨ (k % 32 = 31 ∧ 31 ≤ j ∧ j < 64) := by
  by_cases hk : k % 32 = 31
  · have he : intShift k = (2 ^ 33 - 1) <<< 31 := by simp [intShift, hk]
    rw [he, Nat.testBit_shiftLeft, Nat.testBit_two_pow_sub_one]
    simp only [ge_iff_le, Bool.and_eq_true, decide_eq_true_eq]
    omega
  · simp only [intShift, hk, if_false, Nat.testBit_two_pow, decide_eq_true_eq, false_and, or_false]
    exact eq_comm

theorem testBit_computeZorder (cc : List Nat) (j : Nat) :
    (computeZorder cc).testBit j = true ↔ ∃ i < 64 / cc.length, ∃ dim < cc.length,
      (cc.getD dim 0).testBit i = true ∧ (intShift (cc.length * i + dim)).testBit j = true := by
  simp only [computeZorder, testBit_foldl_foldl_or, Nat.zero_testBit, Bool.false_eq_true, false_or,
    List.mem_range]

theorem testBit_computeZorder_low (cc : List Nat) {j : Nat} (hj : j < 32) :
    (computeZorder cc).testBit j = true ↔ ∃ i < 64 / cc.length, ∃ dim < cc.length,
      (cc.getD dim 0).testBit i = true ∧ (cc.length * i + dim) % 32 = j := by
  rw [testBit_computeZorder]
  refine exists_congr fun i => and_congr_right fun _ => exists_congr fun dim =>
    and_congr_right fun _ => and_congr_right fun _ => ?_
  rw [testBit_intShift]
  omega

theorem testBit_getClusterID (cc : List Nat) (j : Nat) :
    (getClusterID cc).testBit j = (decide (j < 32) && (computeZorder cc).testBit (2 + j)) := by
  simp only [getClusterID, u32, clusterSize, Nat.testBit_mod_two_pow, Nat.testBit_shiftRight]

theorem testBit_getBlockID (cc : List Nat) (j : Nat) :
    (getBlockID cc).testBit j = (decide (j < 2) && (computeZorder cc).testBit j) := by
  have hm : ((2 ^ 64 - 1) >>> (64 - clusterSize) : Nat) = 2 ^ 2 - 1 := by decide
  rw [getBlockID, hm, u32, Nat.testBit_mod_two_pow, Nat.testBit_and, Nat.testBit_two_pow_sub_one]
  by_cases hj : j < 2
  · simp [hj, show j < 32 by omega]
  · simp [hj]

theorem zorder_low_of_ids_eq {cc cc' : List Nat} (hc : getClusterID cc = getClusterID cc')
    (hb : getBlockID cc = getBlockID cc') {j : Nat} (hj : j < 32) :
    (computeZorder cc).testBit j = (computeZorder cc').testBit j := by
  by_cases h2 : j < 2
  · have hh := congrArg (fun id => id.testBit j) hb
    simpa only [testBit_getBlockID, h2, decide_true, Bool.true_and] using hh
  · have he : 2 + (j - 2) = j := by omega
    have hh := congrArg (fun id => id.testBit (j - 2)) hc
    simpa only [testBit_getClusterID, show j - 2 < 32 by omega, decide_true, Bool.true_and, he] using hh

def UsedBit (blocks : List Nat) (dim i : Nat) : Prop :=
  dim < blocks.length ∧ 2 ^ i < blocks.getD dim 0

/-- Every used bit is one of the `64 / ndims` bits that are encoded, and no two of
them are shifted to the same place. -/
def ShiftsDistinct (blocks : List Nat) : Prop :=
  ∀ dim i, UsedBit blocks dim i → i < 64 / blocks.length ∧
    ∀ dim' i', UsedBit blocks dim' i' →
      (blocks.length * i + dim) % 32 = (blocks.length * i' + dim') % 32 → dim = dim' ∧ i = i'

theorem usedBit_of_testBit {blocks cc : List Nat} (h : InGrid blocks cc) {dim i : Nat}
    (hd : dim < cc.length) (hb : (cc.getD dim 0).testBit i = true) : UsedBit blocks dim i := by
  have hg := inGrid_iff.mp h
  have hle := Nat.ge_two_pow_of_testBit hb
  have hlt := hg.2 dim (by omega)
  exact ⟨by omega, by omega⟩

theorem testBit_transfer {blocks cc cc' : List Nat} (hs : ShiftsDistinct blocks) (h : InGrid blocks cc)
    (h' : InGrid blocks cc') (hc : getClusterID cc = getClusterID cc') (hb : getBlockID cc = getBlockID cc')
    {dim i : Nat} (hd : dim < cc.length) (hbit : (cc.getD dim 0).testBit i = true) :
    (cc'.getD dim 0).testBit i = true := by
  have hl := h.length_eq
  have hl' := h'.length_eq
  have hu := usedBit_of_testBit h hd hbit
  obtain ⟨hi, huniq⟩ := hs dim i hu
  let j := (cc.length * i + dim) % 32
  have hj : j < 32 := Nat.mod_lt _ (by decide)
  have hz : (computeZorder cc).testBit j = true :=
    (testBit_computeZorder_low cc hj).mpr ⟨i, by rwa [hl], dim, hd, hbit, rfl⟩
  rw [zorder_low_of_ids_eq hc hb hj] at hz
  obtain ⟨i', _, dim', hd', hbit', he⟩ := (testBit_computeZorder_low cc' hj).mp hz
  have hu' := usedBit_of_testBit h' hd' hbit'
  have hsame : (blocks.length * i + dim) % 32 = (blocks.length * i' + dim') % 32 := by
    rw [← hl', he, hl', ← hl]
  obtain ⟨rfl, rfl⟩ := huniq dim' i' hu' hsame
  exact hbit'

theorem ids_injective_of_shiftsDistinct {blocks cc cc' : List Nat} (hs : ShiftsDistinct blocks)
    (h : InGrid blocks cc) (h' : InGrid blocks cc') (hc : getClusterID cc = getClusterID cc')
    (hb : getBlockID cc = getBlockID cc') : cc = cc' := by
  have hl : cc.length = cc'.length := h.length_eq.trans h'.length_eq.symm
  apply List.ext_getElem hl
  intro dim hd hd'
  apply Nat.eq_of_testBit_eq
  intro i
  have h1 := testBit_transfer hs h h' hc hb (i := i) hd
  have h2 := testBit_transfer hs h' h hc.symm hb.symm (i := i) hd'
  simp only [List.getD_eq_getElem?_getD, List.getElem?_eq_getElem hd, List.getElem?_eq_getElem hd',
    Option.getD_some] at h1 h2
  exact Bool.eq_iff_iff.mpr ⟨h1, h2⟩

def axisCell (n dim c : Nat) : List Nat := (List.replicate n 0).set dim c

theorem axisCell_getD {n dim : Nat} (hd : dim < n) (c k : Nat) :
    (axisCell n dim c).getD k 0 = if k = dim then c else 0 := by
  by_cases hk : k = dim
  · simp [axisCell, hk, List.getD_eq_getElem?_getD, hd]
  · have hne : dim ≠ k := fun h => hk h.symm
    rw [axisCell, List.getD_eq_getElem?_getD, List.getElem?_set_ne hne, List.getElem?_replicate, if_neg hk]
    by_cases hn : k < n <;> simp [hn]

theorem axisCell_inGrid {blocks : List Nat} (hpos : ∀ b ∈ blocks, 0 < b) {dim c : Nat}
    (hd : dim < blocks.length) (hc : c < blocks.getD dim 0) :
    InGrid blocks (axisCell blocks.length dim c) := by
  rw [inGrid_iff]
  refine ⟨by simp [axisCell], fun i hi => ?_⟩
  rw [axisCell_getD hd]
  split
  · next he => rwa [he]
  · rw [List.getD_eq_getElem?_getD, List.getElem?_eq_getElem hi]
    exact hpos _ (List.getElem_mem hi)

theorem computeZorder_axisCell {n dim i : Nat} (hd : dim < n) :
    computeZorder (axisCell n dim (2 ^ i)) = if i < 64 / n then intShift (n * i + dim) else 0 := by
  apply Nat.eq_of_testBit_eq
  intro j
  rw [Bool.eq_iff_iff, testBit_computeZorder]
  have hl : (axisCell n dim (2 ^ i)).length = n := by simp [axisCell]
  simp only [hl, axisCell_getD hd]
  constructor
  · rintro ⟨i', hi', dim', _, hb, hm⟩
    by_cases he : dim' = dim
    · simp only [he, if_true, Nat.testBit_two_pow, decide_eq_true_eq] at hb
      rw [hb, if_pos hi', ← he]
      exact hm
    · simp [he] at hb
  · intro h
    by_cases hi : i < 64 / n
    · rw [if_pos hi] at h
      exact ⟨i, hi, dim, hd, by simp, h⟩
    · simp [hi] at h

theorem axisCell_ne {n dim dim' c c' : Nat} (hd : dim < n) (hd' : dim' < n) (hc : 0 < c)
    (h : ¬ (dim = dim' ∧ c = c')) : axisCell n dim c ≠ axisCell n dim' c' := by
  intro he
  have h1 := axisCell_getD hd c dim
  rw [he, axisCell_getD hd' c' dim, if_pos rfl] at h1
  by_cases hdd : dim = dim'
  · simp only [hdd, if_true] at h1
    exact h ⟨hdd, h1.symm⟩
  · simp only [hdd, if_false] at h1
    omega

theorem computeZorder_origin {n dim : Nat} (hd : dim < n) : computeZorder (axisCell n dim 0) = 0 := by
  apply Nat.eq_of_testBit_eq
  intro j
  rw [Nat.zero_testBit, Bool.eq_false_iff, Ne, testBit_computeZorder]
  rintro ⟨i, _, k, _, hb, _⟩
  rw [axisCell_getD hd] at hb
  split at hb <;> simp at hb

theorem shiftsDistinct_of_zorder_injective {blocks : List Nat} (hpos : ∀ b ∈ blocks, 0 < b)
    (hinj : ∀ cc cc', InGrid blocks cc → InGrid blocks cc' → computeZorder cc = computeZorder cc' →
      cc = cc') : ShiftsDistinct blocks := by
  -- a used bit past the encoded ones gives the code of the origin
  have hin : ∀ dim i, UsedBit blocks dim i → i < 64 / blocks.length := by
    intro dim i hu
    by_contra hi
    have hg := axisCell_inGrid hpos hu.1 hu.2
    have hz := axisCell_inGrid hpos hu.1 (Nat.zero_lt_of_lt hu.2)
    have he := computeZorder_axisCell (i := i) hu.1
    rw [if_neg hi, ← computeZorder_origin hu.1] at he
    exact axisCell_ne hu.1 hu.1 (Nat.two_pow_pos i) (fun h => (Nat.two_pow_pos i).ne' h.2)
      (hinj _ _ hg hz he)
  intro dim i hu
  refine ⟨hin dim i hu, ?_⟩
  intro dim' i' hu' hmod
  by_contra hne
  have hcell : axisCell blocks.length dim (2 ^ i) ≠ axisCell blocks.length dim' (2 ^ i') := by
    apply axisCell_ne hu.1 hu'.1 (Nat.two_pow_pos i)
    rintro ⟨hd, hp⟩
    exact hne ⟨hd, Nat.pow_right_injective (le_refl 2) hp⟩
  apply hcell
  apply hinj _ _ (axisCell_inGrid hpos hu.1 hu.2) (axisCell_inGrid hpos hu'.1 hu'.2)
  rw [computeZorder_axisCell hu.1, computeZorder_axisCell hu'.1, if_pos (hin dim i hu),
    if_pos (hin dim' i' hu')]
  simp only [intShift, hmod]

theorem blocksDim_pos {metas : ArrayMetadata} {r : Nat} (hr : 0 < r) (hdims : ∀ d ∈ metas.dims, 1 ≤ d) :
    ∀ b ∈ blocksDim metas r, 0 < b := by
  intro b hb
  obtain ⟨d, hd, rfl⟩ := List.mem_map.mp hb
  have := hdims d hd
  exact Nat.div_pos (by omega) hr

/-- Distinct blocks get distinct ids exactly when the grid uses no two bits that
the 32-bit shift sends to one place. -/
theorem zorder_ids_distinct_iff (metas : ArrayMetadata) (r : Nat) (hr : 0 < r)
    (hdims : ∀ d ∈ metas.dims, 1 ≤ d) :
    (∀ cc cc', InGrid (blocksDim metas r) cc → InGrid (blocksDim metas r) cc' → cc ≠ cc' →
      (getClusterID cc, getBlockID cc) ≠ (getClusterID cc', getBlockID cc')) ↔
    ShiftsDistinct (blocksDim metas r) := by
  constructor
  · intro hinj
    apply shiftsDistinct_of_zorder_injective (blocksDim_pos hr hdims)
    intro cc cc' h h' he
    by_contra hne
    exact hinj cc cc' h h' hne (by simp only [getClusterID, getBlockID, he])
  · intro hs cc cc' h h' hne he
    obtain ⟨hc, hb⟩ := Prod.mk.inj he
    exact hne (ids_injective_of_shiftsDistinct hs h h' hc hb)

/-- A tall array of 8-byte elements: 22 elements per block side, 65537 blocks. -/
def flatMetas : ArrayMetadata := ⟨8, [6600, 66], by decide, by decide⟩

theorem flat_shifts_distinct : ShiftsDistinct (blocksDim flatMetas 22) := by
  have hused : ∀ dim i, UsedBit (blocksDim flatMetas 22) dim i → dim < 2 ∧ i < 9 := by
    rintro dim i ⟨hdim, hlt⟩
    have hle : (blocksDim flatMetas 22).getD dim 0 ≤ 300 := by
      have hall : ∀ d ∈ blocksDim flatMetas 22, d ≤ 300 := by decide
      rw [List.getD_eq_getElem _ _ hdim]
      exact hall _ (List.getElem_mem hdim)
    refine ⟨hdim, ?_⟩
    by_contra hi
    have hpow : 2 ^ 9 ≤ 2 ^ i := Nat.pow_le_pow_right (by decide) (by omega)
    omega
  have hlen : (blocksDim flatMetas 22).length = 2 := rfl
  intro dim i h
  obtain ⟨hdim, hi⟩ := hused dim i h
  rw [hlen]
  refine ⟨by omega, fun dim' i' h' heq => ?_⟩
  obtain ⟨hdim', hi'⟩ := hused dim' i' h'
  omega

theorem zorder_ids_distinct_flat : InGrid (blocksDim flatMetas 22) [299, 2] ∧
    ∀ cc cc', InGrid (blocksDim flatMetas 22) cc → InGrid (blocksDim flatMetas 22) cc' → cc ≠ cc' →
      (getClusterID cc, getBlockID cc) ≠ (getClusterID cc', getBlockID cc') :=
  ⟨by decide, (zorder_ids_distinct_iff flatMetas 22 (by decide) (by decide)).mpr flat_shifts_distinct⟩

def tallMetas : ArrayMetadata := ⟨8, [22 * 65536 + 1, 1], by decide, by decide⟩

theorem tall_blocks_collide : ¬ ∀ cc cc', InGrid (blocksDim tallMetas 22) cc →
    InGrid (blocksDim tallMetas 22) cc' → cc ≠ cc' →
      (getClusterID cc, getBlockID cc) ≠ (getClusterID cc', getBlockID cc') := by
  intro h
  exact h [65536, 0] [1, 0] (by decide) (by decide) (by decide) (by decide)

end Hecuba
