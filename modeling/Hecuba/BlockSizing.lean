import Hecuba.FreshChunks
import Hecuba.GeneratorSteps
import Mathlib.Analysis.SpecialFunctions.Pow.NthRootLemmas
import Mathlib.Analysis.SpecialFunctions.Pow.Real

/-! How many elements make the side of a block. The generators, the merge and both stores
compute it again from the size of the element, and all of them divide by it. -/

namespace Hecuba

/-- `floor(pow(block_size / elem_size, 1.0 / ndims))`, with the exact root. -/
def fittingRow (elemSize ndims : Nat) : Nat :=
  let blockSize := 4096 - 4096 % elemSize
  u32 (Nat.nthRoot ndims (blockSize / elemSize))

def ZorderCurveGenerator.initRowElements (metas : ArrayMetadata) : Nat :=
  fittingRow metas.elemSize metas.dims.length

def FortranOrderGenerator.initRowElements (metas : ArrayMetadata) : Nat :=
  fittingRow metas.elemSize metas.dims.length

def ZorderCurveGenerator.mergeRowElements (metas : ArrayMetadata) : Nat :=
  fittingRow metas.elemSize metas.dims.length

def ArrayDataStore.getRowElements (metas : ArrayMetadata) : Nat :=
  fittingRow metas.elemSize metas.dims.length

/-- `Py_BuildValue("i", row_elements)` reads the word as a signed one. -/
def NumpyStorage.getRowElements (metas : ArrayMetadata) : Int :=
  int32 (fittingRow metas.elemSize metas.dims.length)

/-- What the blocks of side `r` have to be for the divisions and the unsigned differences. -/
structure SoundRow (metas : ArrayMetadata) (r : Nat) : Prop where
  row_pos : 1 ≤ r
  blocks : List.Forall₂ (fun b d => 1 ≤ b ∧ (b - 1) * r < d) (blocksDim metas r) metas.dims
  border : ∀ cc, InGrid (blocksDim metas r) cc → ∀ b ∈ boundDims metas r (scale r cc), 1 ≤ b ∧ b ≤ r

structure SizingSound (metas : ArrayMetadata) : Prop where
  elem_pos : metas.elemSize ≠ 0
  zorder : SoundRow metas (ZorderCurveGenerator.initRowElements metas)
  fortran : SoundRow metas (FortranOrderGenerator.initRowElements metas)
  merge : SoundRow metas (ZorderCurveGenerator.mergeRowElements metas)
  store : SoundRow metas (ArrayDataStore.getRowElements metas)
  python : 1 ≤ NumpyStorage.getRowElements metas

/-- The root of the model is the one of the source, on the reals. -/
theorem nthRoot_eq_floor {n : Nat} (hn : n ≠ 0) (a : Nat) : Nat.nthRoot n a = ⌊(a : ℝ) ^ (1 / (n : ℝ))⌋₊ := by
  have hexp : 0 < 1 / (n : ℝ) := by positivity
  refine eq_of_forall_le_iff fun c => ?_
  rw [Nat.le_nthRoot_iff hn, Nat.le_floor_iff (by positivity)]
  have hc : (c : ℝ) = ((c : ℝ) ^ n) ^ (1 / (n : ℝ)) := by
    rw [one_div, Real.pow_rpow_inv_natCast c.cast_nonneg hn]
  rw [hc, Real.rpow_le_rpow_iff (by positivity) (by positivity) hexp]
  exact_mod_cast Iff.rfl

section row

variable {e n : Nat}

theorem fitting_elements (he : 1 ≤ e) : (4096 - 4096 % e) / e = 4096 / e := by
  rw [← Nat.div_mul_self_eq_mod_sub_self, Nat.mul_div_cancel _ he]

theorem fittingRow_eq (he : 1 ≤ e) (hn : n ≠ 0) : fittingRow e n = Nat.nthRoot n (4096 / e) := by
  rw [fittingRow, fitting_elements he, u32_of_lt]
  rw [Nat.nthRoot_lt_iff hn]
  have hle : 4096 / e ≤ 4096 := Nat.div_le_self _ _
  have hpow : 2 ^ 32 ≤ (2 ^ 32) ^ n := Nat.le_self_pow hn _
  omega

theorem one_le_fittingRow_iff (he : 1 ≤ e) (hn : n ≠ 0) : 1 ≤ fittingRow e n ↔ e ≤ 4096 := by
  rw [fittingRow_eq he hn, Nat.le_nthRoot_iff hn, Nat.one_pow, Nat.le_div_iff_mul_le he, Nat.one_mul]

theorem fittingRow_pow_le (he : 1 ≤ e) (hn : n ≠ 0) : e * fittingRow e n ^ n ≤ 4096 := by
  rw [fittingRow_eq he hn]
  calc e * Nat.nthRoot n (4096 / e) ^ n
      ≤ e * (4096 / e) := Nat.mul_le_mul_left _ (Nat.pow_nthRoot_le (.inl hn))
    _ ≤ 4096 := Nat.mul_div_le _ _

theorem fittingRow_le (he : 1 ≤ e) (hn : n ≠ 0) : fittingRow e n ≤ 4096 := by
  have hpow := fittingRow_pow_le he hn
  have hself : fittingRow e n ≤ fittingRow e n ^ n := Nat.le_self_pow hn _
  exact hself.trans ((Nat.le_mul_of_pos_left _ he).trans hpow)

end row

variable {metas : ArrayMetadata} {r : Nat}

theorem smallBlocks_fittingRow (he : 1 ≤ metas.elemSize) (hne : metas.dims ≠ []) :
    SmallBlocks metas (fittingRow metas.elemSize metas.dims.length) :=
  fittingRow_pow_le he fun h => hne (List.eq_nil_of_length_eq_zero h)

theorem blocks_bounds (hr : 0 < r) (hdims : ∀ d ∈ metas.dims, 1 ≤ d) :
    List.Forall₂ (fun b d => 1 ≤ b ∧ (b - 1) * r < d) (blocksDim metas r) metas.dims := by
  unfold blocksDim
  rw [List.forall₂_map_left_iff, List.forall₂_same]
  intro d hd
  have hpos : 0 < (d + r - 1) / r := by
    rw [lt_blocks_iff hr, Nat.zero_mul]
    exact hdims d hd
  refine ⟨hpos, ?_⟩
  apply (lt_blocks_iff hr).mp
  omega

theorem border_bounds (hr : 0 < r) {cc : List Nat} (hcc : InGrid (blocksDim metas r) cc) :
    ∀ b ∈ boundDims metas r (scale r cc), 1 ≤ b ∧ b ≤ r := by
  have hin := (inGrid_blocksDim_iff hr).mp hcc
  rw [scale_eq hin metas.dims_lt, boundDims_eq hr hin]
  intro b hb
  obtain ⟨i, hi, rfl⟩ := List.getElem_of_mem hb
  have hbox := blockShape_boxIn hr hin
  have hrow := blockShape_le_row hin
  have hi' : i < metas.dims.length := hrow.length_eq ▸ hi
  exact ⟨(hbox.get hi hi').1, (hrow.get hi hi').trans (Nat.min_le_left _ _)⟩

theorem soundRow_iff (hdims : ∀ d ∈ metas.dims, 1 ≤ d) : SoundRow metas r ↔ 1 ≤ r :=
  ⟨SoundRow.row_pos, fun hr => ⟨hr, blocks_bounds hr hdims, fun _ hcc => border_bounds hr hcc⟩⟩

/-- The sizes are sound exactly where one element fits a block. -/
theorem sizing_sound_iff (metas : ArrayMetadata) (he : 1 ≤ metas.elemSize) (hne : metas.dims ≠ [])
    (hdims : ∀ d ∈ metas.dims, 1 ≤ d) : SizingSound metas ↔ metas.elemSize ≤ 4096 := by
  have hn : metas.dims.length ≠ 0 := fun h => hne (List.eq_nil_of_length_eq_zero h)
  have hrow := one_le_fittingRow_iff he hn
  constructor
  · intro h
    exact hrow.mp h.zorder.row_pos
  · intro hle
    have hpos := hrow.mpr hle
    have hsound : SoundRow metas (fittingRow metas.elemSize metas.dims.length) := (soundRow_iff hdims).mpr hpos
    refine ⟨by omega, hsound, hsound, hsound, hsound, ?_⟩
    have hmax := fittingRow_le he hn
    rw [NumpyStorage.getRowElements, int32, u32_of_lt (by omega), if_pos (by omega)]
    exact_mod_cast hpos

theorem sizing_sound_small : SizingSound smallMetas :=
  (sizing_sound_iff smallMetas (by decide) (by decide) (by decide)).mpr (by decide)

/-- One string of 4097 bytes. -/
def wideString : ArrayMetadata := ⟨4097, [1], by decide, by decide⟩

theorem wide_element_degenerates : ¬ (1 ≤ wideString.elemSize → wideString.dims ≠ [] →
    (∀ d ∈ wideString.dims, 1 ≤ d) → SizingSound wideString) := by
  intro h
  have hrow := (h (by decide) (by decide) (by decide)).zorder.row_pos
  exact absurd hrow (by decide)

end Hecuba
