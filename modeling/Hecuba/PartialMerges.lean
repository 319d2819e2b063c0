import Hecuba.Traversals
import Hecuba.ZorderRoundTrip

/-! Merging some of the partitions of an array. The bytes of their blocks become those of the
array, and no other byte of the destination changes. -/

namespace Hecuba

/-- Partitions picked from the traversal of an array, in any order and number, restore the
bytes of their blocks in a buffer of its size. The traversal counts the blocks up. -/
def MergesOnlyPicked (metas : ArrayMetadata) (r : Nat) (hr : 0 < r) : Prop :=
  ∀ (junk : Nat → Nat → UInt8) (content dest : Bytes),
    content.length = metas.elemSize * metas.dims.prod → dest.length = metas.elemSize * metas.dims.prod →
    ∃ parts, (ZorderCurveGenerator.mk metas (some content) r hr junk 0 false).collect = .ok parts ∧
      ∀ ks picked, List.Forall₂ (fun k part => parts[k]? = some part) ks picked →
        ∃ dest', mergePartitions metas r picked dest = .ok dest' ∧ dest'.length = dest.length ∧
          (∀ a, (∃ k ∈ ks, BlockByte metas r (getIndexes k (blocksDim metas r)) a) → dest'[a]? = content[a]?) ∧
          ∀ a, (¬ ∃ k ∈ ks, BlockByte metas r (getIndexes k (blocksDim metas r)) a) → dest'[a]? = dest[a]?

section picked

variable {metas : ArrayMetadata} {r : Nat} {content : Bytes}

theorem collect_blocks {g : ZorderCurveGenerator} (hg : g.metas = metas) (hgr : g.rowElements = r)
    (hgd : g.data = some content) (hgn : g.done = false) (hgc : g.blockCounter = 0) (hst : Storable metas r)
    (hlen : content.length = metas.elemSize * metas.dims.prod) (hblocks : (blocksDim metas r).prod < 2 ^ 63) :
    ∃ parts, g.collect = .ok parts ∧ ∀ k part, parts[k]? = some part →
      k < (blocksDim metas r).prod ∧ IsPartition metas r content (getIndexes k (blocksDim metas r)) part := by
  have hgb : g.blocks = blocksDim metas r := by rw [ZorderCurveGenerator.blocks, hg, hgr]
  have hn : g.nblocks = (blocksDim metas r).prod := by
    rw [ZorderCurveGenerator.nblocks_eq (hgb ▸ hblocks), hgb]
  have hbn : blocksDim metas r ≠ [] := by simpa [blocksDim] using hst.dims_ne
  have hstep : ∀ k < (blocksDim metas r).prod, ∃ part, g.partitionAt k = .ok part ∧
      IsPartition metas r content (getIndexes k (blocksDim metas r)) part := by
    intro k hk
    obtain ⟨part, hpart, hip⟩ :=
      @nextPartition_isPartition metas r content { g with blockCounter := k } hg hgr hgd hst hlen hblocks hk
    rw [getIndexes_eq hbn (blocksDim_lt hst.row_pos) hblocks hk]
    exact ⟨part, hpart, hip⟩
  obtain ⟨parts, hok, -⟩ := collect_isPartition g hg hgr hgd hgn hst hlen hblocks
  refine ⟨parts, hok, fun k part hk => ?_⟩
  rw [ZorderCurveGenerator.collect_eq_mapM (ZorderCurveGenerator.loopRun hgn hgc), mapM_ok_iff,
    List.forall₂_map_left_iff, List.forall₂_iff_get] at hok
  obtain ⟨hlength, hall⟩ := hok
  obtain ⟨hlt, hget⟩ := List.getElem?_eq_some_iff.mp hk
  rw [List.length_range, hn] at hlength
  have hk' : k < (blocksDim metas r).prod := by omega
  obtain ⟨part', hpart', hip⟩ := hstep k hk'
  have hkk := hall k (by rw [List.length_range]; omega) hlt
  rw [List.get_eq_getElem, List.getElem_range, id, hpart'] at hkk
  have heq : part' = part := (Except.ok.inj hkk).trans hget
  exact ⟨hk', heq ▸ hip⟩

theorem mergesOnlyPicked_of_bitsEncoded (hst : Storable metas r)
    (hbits : ∀ cc, InGrid (blocksDim metas r) cc → BitsEncoded cc) : MergesOnlyPicked metas r hst.row_pos := by
  intro junk content dest hlen hdest
  have hblocks := lt_of_le_of_lt (blocksDim_prod_le hst hbits) (show 2 ^ 32 < 2 ^ 63 by decide)
  have hbn : blocksDim metas r ≠ [] := by simpa [blocksDim] using hst.dims_ne
  obtain ⟨parts, hok, hparts⟩ := @collect_blocks metas r content
    ⟨metas, some content, r, hst.row_pos, junk, 0, false⟩ rfl rfl rfl rfl rfl hst hlen hblocks
  refine ⟨parts, hok, fun ks picked hpicked => ?_⟩
  have hsteps : List.Forall₂ (fun k part => Restores (mergeChunk metas r) content (metas.elemSize * metas.dims.prod)
      part (BlockByte metas r (getIndexes k (blocksDim metas r)))) ks picked := by
    refine hpicked.imp fun k part hk => ?_
    obtain ⟨hlt, hip⟩ := hparts k part hk
    have hgrid : InGrid (blocksDim metas r) (getIndexes k (blocksDim metas r)) := by
      rw [getIndexes_eq hbn (blocksDim_lt hst.row_pos) hblocks hlt]
      exact unRowMajor_inGrid hlt
    exact mergeChunk_restores hst ((inGrid_blocksDim_iff hst.row_pos).mp hgrid) (hbits _ hgrid) hip
  obtain ⟨dest', hmerge, hlen', hmoved, hframe⟩ := Restores.foldlM hsteps dest hdest
  exact ⟨dest', hmerge, hlen'.trans hdest.symm, hmoved, hframe⟩

end picked

/-- Arrays of at most 64 dimensions, or of one block. -/
theorem merges_only_picked {metas : ArrayMetadata} {r : Nat} (hr : 0 < r) (hne : metas.dims ≠ [])
    (he : 1 ≤ metas.elemSize) (hmorton : MortonBelow metas r)
    (hndims : metas.dims.length ≤ 64 ∨ ∀ b ∈ blocksDim metas r, b = 1)
    (hfits : metas.elemSize * metas.dims.prod < 2 ^ 64)
    (hrow : min r (metas.dims.getLastD 0) * metas.elemSize < 2 ^ 32) : MergesOnlyPicked metas r hr := by
  have hst : Storable metas r := ⟨hne, he, hr, hfits, hrow⟩
  refine mergesOnlyPicked_of_bitsEncoded hst fun cc hcc => ?_
  rcases hndims with hn | hone
  · exact bitsEncoded_of_mortonBelow hmorton hn hcc
  · exact bitsEncoded_of_single hone hcc

theorem merges_only_picked_small : MergesOnlyPicked smallMetas 2 (by decide) :=
  merges_only_picked (by decide) (by decide) (by decide) smallMetas_mortonBelow (.inl (by decide)) (by decide)
    (by decide)

theorem wideMetas_second_start :
    wideMetas.elemSize * rowMajor wideMetas.dims (blockStart 1 (getIndexes 1 (blocksDim wideMetas 1))) = 1 := by
  decide +kernel

/-- The second block is merged over the first one. -/
theorem wideMetas_not_mergesOnlyPicked : ¬ MergesOnlyPicked wideMetas 1 Nat.one_pos := by
  intro h
  obtain ⟨parts, hok, hmerge⟩ := h (fun _ _ => 0) [1, 2] [0, 0] (by decide) (by decide)
  rw [wideMetas_collect hok] at hmerge
  obtain ⟨dest', hdest', -, -, hframe⟩ := hmerge [1] [wideChunk 2] (List.Forall₂.cons rfl List.Forall₂.nil)
  have hover : mergePartitions wideMetas 1 [wideChunk 2] [0, 0] = .ok [2, 0] := by decide +kernel
  obtain rfl : dest' = [2, 0] := Except.ok.inj (hdest'.symm.trans hover)
  have hkept := hframe 0 ?_
  · simp at hkept
  · rintro ⟨k, hk, x, t, -, -, ha⟩
    rw [List.mem_singleton.mp hk, wideMetas_second_start] at ha
    omega

theorem hugeMetas_not_mergesOnlyPicked : ¬ MergesOnlyPicked hugeMetas 2 Nat.two_pos := by
  intro h
  have hbyte : BlockByte hugeMetas 2 (getIndexes 0 (blocksDim hugeMetas 2)) 0 :=
    ⟨[0], 0, by decide, by decide, by decide⟩
  have heq : ∀ content dest : Bytes, content.length = 2 ^ 31 * 2 → dest.length = 2 ^ 31 * 2 →
      dest[0]? = content[0]? := by
    intro content dest hc hd
    obtain ⟨parts, hok, hmerge⟩ := h (fun _ _ => 0) content dest hc hd
    obtain ⟨chunk, hlen, hcol⟩ := hugeMetas_collect (g := ⟨hugeMetas, some content, 2, Nat.two_pos,
      fun _ _ => 0, 0, false⟩) rfl rfl rfl rfl rfl
    obtain rfl : parts = [⟨0, 0, some chunk⟩] := (Except.ok.inj (hcol.symm.trans hok)).symm
    obtain ⟨dest', hdest', -, hmoved, -⟩ := hmerge [0] _ (List.Forall₂.cons rfl List.Forall₂.nil)
    rw [mergePartitions, List.foldlM_cons, hugeMetas_mergeChunk hlen] at hdest'
    rw [Except.ok.inj hdest']
    exact hmoved 0 ⟨0, List.mem_cons_self, hbyte⟩
  generalize hN : 2 ^ 31 * 2 = N at heq
  have hrep := heq (List.replicate N 0) (List.replicate N 1) List.length_replicate List.length_replicate
  have hpos : 0 < N := by omega
  simp [hpos] at hrep

/-- Some bytes of another block are changed beyond 64 dimensions, and none at all where the
bytes of a block row do not fit in 32 bits. -/
theorem merges_only_picked_fails :
    (MortonBelow wideMetas 1 ∧ (∀ d ∈ wideMetas.dims, 1 ≤ d) ∧ 1 ≤ wideMetas.elemSize ∧
      ¬ MergesOnlyPicked wideMetas 1 Nat.one_pos) ∧
    (MortonBelow hugeMetas 2 ∧ (∀ d ∈ hugeMetas.dims, 1 ≤ d) ∧ 1 ≤ hugeMetas.elemSize ∧
      ¬ MergesOnlyPicked hugeMetas 2 Nat.two_pos) :=
  ⟨⟨wideMetas_mortonBelow, by decide, by decide, wideMetas_not_mergesOnlyPicked⟩,
    ⟨hugeMetas_mortonBelow, by decide, by decide, hugeMetas_not_mergesOnlyPicked⟩⟩

end Hecuba
