import Hecuba.CopyResult
import Hecuba.FortranBlocks
import Hecuba.ZorderRoundTrip

/-! Storing an array of one or two dimensions in Fortran order and merging its blocks
back. In Fortran order it is the array with its dimensions reversed in C order, and its
blocks are copied as blocks of that array. -/

namespace Hecuba

/-- The array with its dimensions reversed. -/
def ArrayMetadata.transpose (metas : ArrayMetadata) : ArrayMetadata where
  elemSize := metas.elemSize
  dims := metas.dims.reverse
  elemSize_lt := metas.elemSize_lt
  dims_lt d hd := metas.dims_lt d (List.mem_reverse.mp hd)

@[simp] theorem ArrayMetadata.transpose_dims (metas : ArrayMetadata) :
    metas.transpose.dims = metas.dims.reverse := rfl

namespace FortranOrderGenerator

theorem exchangeLast_eq_reverse {l : List Nat} (h : l.length = 1 ∨ l.length = 2) :
    exchangeLast l = l.reverse := by
  match l, h with
  | [_], _ => rfl
  | [_, _], _ => rfl

section block

variable {metas : ArrayMetadata} {r : Nat} {cc : List Nat}

theorem blockIn_transpose (h : BlockIn metas.dims r cc) : BlockIn metas.transpose.dims r cc.reverse :=
  List.rel_reverse h

theorem blockShape_transpose (h : BlockIn metas.dims r cc) :
    blockShape metas.transpose.dims r cc.reverse = (blockShape metas.dims r cc).reverse :=
  (List.reverse_zipWith h.length_eq).symm

theorem blockStart_transpose : blockStart r cc.reverse = (blockStart r cc).reverse := List.map_reverse

theorem coordinates_ids_two {b b' c c' : Nat} (hb : b < 2 ^ 31) (hc : c < b) :
    coordinates [b, b'] (getClusterID [c, c']) (getBlockID [b, b'] [c, c']) = [c, c'] := by
  have hbits : bits b % 32 = bits b := by
    have hlog : Nat.log2 b < 31 := (Nat.log2_lt (by omega)).mpr hb
    rw [bits, Nat.mod_eq_of_lt (by omega)]
  have hlt : c < 2 ^ bits b := hc.trans Nat.lt_log2_self
  have hid : getBlockID [b, b'] [c, c'] = c := by
    show u32 (u32 (0 <<< (bits b % 32)) + c) = c
    have hfirst : u32 (0 <<< (bits b % 32)) = 0 := by
      rw [Nat.zero_shiftLeft]
      rfl
    rw [hfirst, Nat.zero_add, u32_of_lt (by omega)]
  rw [hid]
  show [c % 2 ^ (bits b % 32), _] = _
  rw [hbits, Nat.mod_eq_of_lt hlt]
  rfl

theorem coordinates_ids (hdims : metas.dims.length = 1 ∨ metas.dims.length = 2)
    (hblocks : ∀ b ∈ blocksDim metas r, b < 2 ^ 31) (h : InGrid (blocksDim metas r) cc) :
    coordinates (blocksDim metas r) (getClusterID cc) (getBlockID (blocksDim metas r) cc) = cc := by
  have hl : (blocksDim metas r).length = metas.dims.length := by rw [blocksDim, List.length_map]
  rw [← hl] at hdims
  have hcl := h.length_eq
  rcases hdims with h1 | h2
  · obtain ⟨b, hb⟩ := List.length_eq_one_iff.mp h1
    obtain ⟨c, rfl⟩ := List.length_eq_one_iff.mp (hcl.trans h1)
    rw [hb]
    rfl
  · obtain ⟨b, b', hb⟩ := List.length_eq_two.mp h2
    obtain ⟨c, c', rfl⟩ := List.length_eq_two.mp (hcl.trans h2)
    rw [hb] at hblocks h ⊢
    exact coordinates_ids_two (hblocks b (by simp)) (inGrid_cons.mp h).1

def IsPartition (metas : ArrayMetadata) (r : Nat) (content : Bytes) (cc : List Nat) (part : Partition) : Prop :=
  part.clusterId = getClusterID cc ∧ part.blockId = getBlockID (blocksDim metas r) cc ∧
    ∃ chunk, part.data = some chunk ∧ IsChunk metas.transpose r content cc.reverse chunk

theorem makeChunk_transpose {g : FortranOrderGenerator} {z : ZorderCurveGenerator} (hz : z.metas = g.metas.transpose)
    (hjunk : z.junk = g.junk) (hcounter : z.blockCounter = g.blockCounter)
    (hdims : g.metas.dims.length = 1 ∨ g.metas.dims.length = 2) (content : Bytes) (size : Nat) (shape : List Nat)
    (input : Nat) : g.makeChunk content size shape input = z.makeChunk content size shape input := by
  rw [makeChunk, ZorderCurveGenerator.makeChunk, malloc, ZorderCurveGenerator.malloc, hz, hjunk, hcounter,
    exchangeLast_eq_reverse hdims]
  rfl

theorem nextPartition_isPartition {g : FortranOrderGenerator} {content : Bytes} (hg : g.metas = metas)
    (hgr : g.rowElements = r) (hgd : g.data = some content)
    (hdims : metas.dims.length = 1 ∨ metas.dims.length = 2) (hst : Storable metas.transpose r)
    (hfits : metas.elemSize * metas.dims.prod < 2 ^ 63)
    (hlen : content.length = metas.elemSize * metas.dims.prod)
    (hk : g.blockCounter < (blocksDim metas r).prod) :
    ∃ part, g.nextPartition = .ok part ∧
      IsPartition metas r content (unRowMajor (blocksDim metas r) g.blockCounter) part := by
  have hne : metas.dims ≠ [] := fun hnil => hst.dims_ne (List.reverse_eq_nil_iff.mpr hnil)
  have h := (inGrid_blocksDim_iff hst.row_pos).mp (unRowMajor_inGrid hk)
  rw [nextPartition_eq hg hgr hgd hne hst.elem_pos hfits hk rfl]
  generalize unRowMajor (blocksDim metas r) g.blockCounter = cc at h ⊢
  obtain ⟨chunk, hok, hchunk⟩ := @makeChunk_isChunk metas.transpose r cc.reverse
    ⟨metas.transpose, g.data, r, hst.row_pos, g.junk, g.blockCounter, false⟩ content rfl hst
    (by rw [hlen, ArrayMetadata.transpose, List.prod_reverse]) (blockIn_transpose h)
  rw [blockShape_transpose h, List.prod_reverse, blockStart_transpose,
    ← exchangeLast_eq_reverse (by rwa [blockShape_length h]),
    ← makeChunk_transpose (g := g) (by rw [hg]) rfl rfl (by rwa [hg])] at hok
  refine ⟨⟨getClusterID cc, getBlockID (blocksDim metas r) cc, some chunk⟩, ?_, rfl, rfl, chunk, rfl, hchunk⟩
  rw [colMajor]
  exact (congrArg (· >>= _) hok).trans rfl

theorem mergeChunk_restores {content : Bytes} {part : Partition}
    (hdims : metas.dims.length = 1 ∨ metas.dims.length = 2) (hst : Storable metas.transpose r)
    (hfits : metas.elemSize * metas.dims.prod < 2 ^ 63) (hblocks : ∀ b ∈ blocksDim metas r, b < 2 ^ 31)
    (h : BlockIn metas.dims r cc) (hp : IsPartition metas r content cc part) :
    Restores (mergeChunk metas r) content (metas.elemSize * metas.dims.prod) part
      (BlockByte metas.transpose r cc.reverse) := by
  intro data hlen
  obtain ⟨hc, hb, chunk, hd, hchunk⟩ := hp
  have hprod : metas.transpose.dims.prod = metas.dims.prod := List.prod_reverse _
  obtain ⟨data', hok, hlen', hrest⟩ := copyBlockToArray_restores hst (by rw [hlen, hprod]; rfl)
    (blockIn_transpose h) hchunk
  refine ⟨data', ?_, by rw [hlen', hprod]; rfl, hrest⟩
  have hheader := hchunk.header
  rw [blockShape_transpose h, List.prod_reverse] at hok hheader
  rw [blockStart_transpose, ← exchangeLast_eq_reverse (by rwa [blockShape_length h])] at hok
  have hge : ¬ chunk.length < 8 := by have := hchunk.length_eq; omega
  have hcc := coordinates_ids hdims hblocks ((inGrid_blocksDim_iff hst.row_pos).mpr h)
  have hoff := @block_offset_eq metas r cc hst.elem_pos hfits h
  simp only [mergeChunk, hd, hc, hb, hcc, hge, if_false, hoff, hheader, exchangeLast_eq_reverse hdims]
  cases hbd : isBound (blocksDim metas r) cc with
  | true =>
    rw [if_pos rfl, scale_eq h metas.dims_lt, boundDims_eq hst.row_pos h]
    exact hok
  | false =>
    have hshape := blockShape_of_not_isBound hst.row_pos h metas.dims_lt hbd
    rw [hshape, exchangeLast_replicate] at hok
    have hsize := @blockSize_eq metas r cc hst.row_pos hst.elem_pos (by omega) h hbd
    rw [if_neg (by simp), if_neg (by
      rw [hsize]
      exact not_not.mpr rfl), hshape]
    exact hok

end block

theorem collect_isPartition {metas : ArrayMetadata} {r : Nat} {content : Bytes} (g : FortranOrderGenerator)
    (hg : g.metas = metas) (hgr : g.rowElements = r) (hgd : g.data = some content) (hgc : g.clusterCounter = 0)
    (hdims : metas.dims.length = 1 ∨ metas.dims.length = 2) (hst : Storable metas.transpose r)
    (hfits : metas.elemSize * metas.dims.prod < 2 ^ 63)
    (hlen : content.length = metas.elemSize * metas.dims.prod) :
    ∃ parts, g.collect = .ok parts ∧
      (∀ part ∈ parts, ∃ cc, InGrid (blocksDim metas r) cc ∧ IsPartition metas r content cc part) ∧
      ∀ k, g.blockCounter ≤ k → k < (blocksDim metas r).prod →
        ∃ part ∈ parts, IsPartition metas r content (unRowMajor (blocksDim metas r) k) part := by
  have hle := @blocksDim_prod_le_dims metas r hst.row_pos
  have hpe : metas.dims.prod ≤ metas.elemSize * metas.dims.prod := Nat.le_mul_of_pos_left _ hst.elem_pos
  have hgb : g.blocks = blocksDim metas r := by rw [blocks, hg, hgr]
  have hnb : g.nblocks = (blocksDim metas r).prod := by
    rw [nblocks, hgb, foldl_mul_u64 _ (by decide), Nat.one_mul, u64_of_lt (by omega)]
  induction hm : (blocksDim metas r).prod - g.blockCounter generalizing g with
  | zero =>
    refine ⟨[], ?_, by simp, fun k h1 h2 => by omega⟩
    rw [collect, if_pos]
    rw [isDone, hnb, Bool.or_eq_true, decide_eq_true_eq]
    exact .inl (by omega)
  | succ m ih =>
    have hk : g.blockCounter < (blocksDim metas r).prod := by omega
    have hcl : g.nclusters ≠ 0 := by
      have hpos := List.prod_pos_iff_forall_pos_nat.mp (Nat.lt_of_le_of_lt (Nat.zero_le _) hk)
      have hbn : blocksDim metas r ≠ [] := fun hnil => hst.dims_ne (by
        rw [ArrayMetadata.transpose_dims, List.map_eq_nil_iff.mp hnil, List.reverse_nil])
      rw [nclusters, hgb, List.getLastD_eq_getLast?, List.getLast?_eq_getLast_of_ne_nil hbn]
      exact Nat.ne_of_gt (hpos _ (List.getLast_mem hbn))
    obtain ⟨part, hpart, hip⟩ := nextPartition_isPartition hg hgr hgd hdims hst hfits hlen hk
    obtain ⟨parts, hparts, hall, hcover⟩ := ih g.getNextPartition.2 hg hgr hgd hgc hgb hnb
      (by simp only [getNextPartition]; omega)
    refine ⟨part :: parts, ?_, ?_, ?_⟩
    · have hnd : ¬ g.isDone = true := by
        rw [isDone, hnb, hgc, Bool.or_eq_true, decide_eq_true_eq, decide_eq_true_eq]
        omega
      rw [collect, if_neg hnd, hparts]
      simp only [getNextPartition, hpart]
      rfl
    · intro p hp
      rcases List.mem_cons.mp hp with rfl | hp
      · exact ⟨_, unRowMajor_inGrid hk, hip⟩
      · exact hall p hp
    · intro k h1 h2
      by_cases hkk : k = g.blockCounter
      · exact ⟨part, by simp, hkk ▸ hip⟩
      · obtain ⟨p, hp, hh⟩ := hcover k (by simp only [getNextPartition]; omega) h2
        exact ⟨p, by simp [hp], hh⟩

/-- Every array content, and every destination of its size, is restored by merging the
collected partitions in any order. -/
def RoundTrips (metas : ArrayMetadata) (r : Nat) (hr : 0 < r) : Prop :=
  ∀ (junk : Nat → Nat → UInt8) (content dest : Bytes),
    content.length = metas.elemSize * metas.dims.prod → dest.length = metas.elemSize * metas.dims.prod →
    ∃ parts, (FortranOrderGenerator.mk metas (some content) r hr junk 0 0).collect = .ok parts ∧
      ∀ order, order.Perm parts → mergePartitions metas r order dest = .ok content

theorem fortran_round_trip (metas : ArrayMetadata) (r : Nat) (hr : 0 < r)
    (hdims : metas.dims.length = 1 ∨ metas.dims.length = 2) (he : 1 ≤ metas.elemSize)
    (hblocks : ∀ b ∈ blocksDim metas r, b < 2 ^ 31) (hfits : metas.elemSize * metas.dims.prod < 2 ^ 63)
    (hrow : min r (metas.dims.headD 0) * metas.elemSize < 2 ^ 32) : RoundTrips metas r hr := by
  have hprod : metas.transpose.dims.prod = metas.dims.prod := List.prod_reverse _
  have hlast : metas.transpose.dims.getLastD 0 = metas.dims.headD 0 := by
    rw [ArrayMetadata.transpose_dims]
    cases metas.dims with
    | nil => rfl
    | cons d dims => rw [List.reverse_cons, List.getLastD_concat, List.headD_cons]
  have hst : Storable metas.transpose r := by
    refine ⟨fun hnil => ?_, he, hr, ?_, ?_⟩
    · rw [List.reverse_eq_nil_iff.mp hnil] at hdims
      simp at hdims
    · rw [hprod]
      exact hfits.trans (by decide)
    · rw [hlast]
      exact hrow
  intro junk content dest hlen hdest
  obtain ⟨parts, hok, hall, hcover⟩ := collect_isPartition
    (FortranOrderGenerator.mk metas (some content) r hr junk 0 0) rfl rfl rfl rfl hdims hst hfits hlen
  refine ⟨parts, hok, fun order hperm => ?_⟩
  refine foldlM_restores_all (fun part hp => ?_) (fun a ha => ?_) hlen hdest
  · obtain ⟨cc, hcc, hip⟩ := hall part (hperm.mem_iff.mp hp)
    exact ⟨_, mergeChunk_restores hdims hst hfits hblocks ((inGrid_blocksDim_iff hr).mp hcc) hip⟩
  · obtain ⟨cc, hin, hbyte⟩ := @exists_blockByte metas.transpose r hr he a (by rw [hprod]; exact ha)
    have hin' : BlockIn metas.dims r cc.reverse := by
      have hh := List.rel_reverse hin
      rwa [ArrayMetadata.transpose_dims, List.reverse_reverse] at hh
    have hgrid := (inGrid_blocksDim_iff hr).mpr hin'
    obtain ⟨part, hp, hip⟩ := hcover _ (Nat.zero_le _) (rowMajor_lt hgrid)
    rw [unRowMajor_rowMajor hgrid] at hip
    refine ⟨part, hperm.mem_iff.mpr hp, _, mergeChunk_restores hdims hst hfits hblocks hin' hip, ?_⟩
    rwa [List.reverse_reverse]

def oblongMetas : ArrayMetadata := ⟨6, [5, 3], by decide, by decide⟩

theorem fortran_round_trip_oblong : RoundTrips oblongMetas 2 (by decide) :=
  fortran_round_trip oblongMetas 2 (by decide) (.inr rfl) (by decide) (by decide) (by decide) (by decide)

/-- The bytes of a row are none in 32 bits, so nothing is merged. -/
theorem hugeMetas_copyBlock {data data' input : Bytes} {output inputEnd : Nat}
    (h : copyBlockToArray hugeMetas.dims [2] hugeMetas.elemSize data output input 8 inputEnd = .ok data') :
    data' = data := by
  have hrow : copyRow .toArray "Out of memory access copying an block into an array" input inputEnd output 8 0
      data = .ok data' := h
  have hfit := hrow
  unfold copyRow memcpy at hfit
  split at hfit
  · cases hfit
  · dsimp only at hfit
    split at hfit
    · rename_i hend hle
      have hend' : 8 ≤ inputEnd := by omega
      rw [@copyRow_zero .toArray _ input data inputEnd output 8 hend' hle.1 hle.2] at hrow
      exact (Except.ok.inj hrow).symm
    · cases hfit

theorem hugeMetas_mergeChunk {data data' : Bytes} {part : Partition}
    (h : mergeChunk hugeMetas 2 data part = .ok data') : data' = data := by
  have hblocks : blocksDim hugeMetas 2 = [1] := by decide
  have hcc : coordinates [1] part.clusterId part.blockId = [part.clusterId] := rfl
  unfold mergeChunk at h
  split at h
  · cases h
  · rw [hblocks, hcc] at h
    dsimp only at h
    split at h
    · cases h
    · split at h
      · rename_i hbound
        have hzero : part.clusterId = 0 := by
          have hlast : sub32 1 1 = 0 := by decide
          simpa only [isBound, List.zip_cons_cons, List.zip_nil_right, List.any_cons, List.any_nil,
            Bool.or_false, hlast, beq_iff_eq] using hbound
        rw [hzero] at h
        exact hugeMetas_copyBlock h
      · split at h
        · cases h
        · exact hugeMetas_copyBlock h

theorem fortran_round_trip_fails : (hugeMetas.dims.length = 1 ∧ (∀ d ∈ hugeMetas.dims, 1 ≤ d) ∧
    1 ≤ hugeMetas.elemSize ∧ ∀ b ∈ blocksDim hugeMetas 2, b < 2 ^ 31) ∧
    ¬ RoundTrips hugeMetas 2 (by decide) := by
  refine ⟨⟨rfl, by decide, by decide, by decide⟩, fun h => ?_⟩
  have heq : ∀ content dest : Bytes, content.length = 2 ^ 31 * 2 → dest.length = 2 ^ 31 * 2 →
      content = dest := by
    intro content dest hc hd
    obtain ⟨parts, -, hmerge⟩ := h (fun _ _ => 0) content dest hc hd
    have hm := hmerge parts (List.Perm.refl _)
    exact foldlM_invariant (P := fun data => data = dest) hm rfl fun part _ mid mid' hstep hmid =>
      (hugeMetas_mergeChunk hstep).trans hmid
  generalize hN : 2 ^ 31 * 2 = N at heq
  have hrep := heq (List.replicate N 0) (List.replicate N 1) List.length_replicate List.length_replicate
  have hpos : 0 < N := by omega
  have h0 := congrArg (fun l : Bytes => l[0]?) hrep
  simp [hpos] at h0

end FortranOrderGenerator

end Hecuba
