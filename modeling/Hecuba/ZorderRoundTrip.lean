import Hecuba.BlockGeometry
import Hecuba.MortonInverse

/-! Storing an array block by block and merging the blocks back, in any order,
restores it. Each merge writes the original bytes of its own block, so merges
need not be disjoint for their order to be irrelevant. -/

namespace Hecuba

/-- An array that exists in memory, whose block rows are counted in 32 bits. -/
structure Storable (metas : ArrayMetadata) (r : Nat) : Prop where
  dims_ne : metas.dims ≠ []
  elem_pos : 0 < metas.elemSize
  row_pos : 0 < r
  fits : metas.elemSize * metas.dims.prod < 2 ^ 64
  row_fits : min r (metas.dims.getLastD 0) * metas.elemSize < 2 ^ 32

/-- `chunk` holds block `cc` of the array `content` behind its size header. -/
structure IsChunk (metas : ArrayMetadata) (r : Nat) (content : Bytes) (cc : List Nat) (chunk : Bytes) : Prop where
  length_eq : chunk.length = 8 + metas.elemSize * (blockShape metas.dims r cc).prod
  header : ofLittleEndian (chunk.take 8) = metas.elemSize * (blockShape metas.dims r cc).prod
  cells : ∀ x, InGrid (blockShape metas.dims r cc) x → ∀ t < metas.elemSize,
    chunk[8 + (metas.elemSize * rowMajor (blockShape metas.dims r cc) x + t)]? =
      content[metas.elemSize * rowMajor metas.dims (blockStart r cc) +
        (metas.elemSize * rowMajor metas.dims x + t)]?

def IsPartition (metas : ArrayMetadata) (r : Nat) (content : Bytes) (cc : List Nat) (part : Partition) : Prop :=
  part.clusterId = getClusterID cc ∧ part.blockId = getBlockID cc ∧
    ∃ chunk, part.data = some chunk ∧ IsChunk metas r content cc chunk

section block

variable {metas : ArrayMetadata} {r : Nat} {cc : List Nat}

theorem block_byte_lt (h : BlockIn metas.dims r cc) {x : List Nat} (hx : InGrid (blockShape metas.dims r cc) x) :
    metas.elemSize * rowMajor metas.dims (blockStart r cc) + metas.elemSize * rowMajor metas.dims x +
      metas.elemSize ≤ metas.elemSize * metas.dims.prod := by
  have hs := rowMajor_lt (block_cell_inGrid h hx)
  have hlx : x.length = metas.dims.length :=
    hx.length_eq.trans (by simp [blockShape, (List.Forall₂.length_eq h)])
  rw [rowMajor_add h.start.length_eq hlx] at hs
  calc metas.elemSize * rowMajor metas.dims (blockStart r cc) + metas.elemSize * rowMajor metas.dims x +
        metas.elemSize
      = metas.elemSize * (rowMajor metas.dims (blockStart r cc) + rowMajor metas.dims x + 1) := by ring
    _ ≤ metas.elemSize * metas.dims.prod := Nat.mul_le_mul_left _ hs

theorem block_offset_eq (hst : Storable metas r) (h : BlockIn metas.dims r cc) :
    u64 (getIdFromIndexes metas.dims (scale r cc) * metas.elemSize) =
      metas.elemSize * rowMajor metas.dims (blockStart r cc) := by
  have hmem := hst.fits
  have hle : metas.dims.prod ≤ metas.elemSize * metas.dims.prod := Nat.le_mul_of_pos_left _ hst.elem_pos
  have hlt := Nat.mul_lt_mul_of_pos_left (rowMajor_lt h.start) hst.elem_pos
  rw [scale_eq h metas.dims_lt, getIdFromIndexes_eq hst.dims_ne h.start (by omega), Nat.mul_comm,
    u64_of_lt (by omega)]

theorem makeChunk_isChunk {g : ZorderCurveGenerator} {content : Bytes} (hg : g.metas = metas)
    (hst : Storable metas r) (hlen : content.length = metas.elemSize * metas.dims.prod) (h : BlockIn metas.dims r cc) :
    ∃ chunk, g.makeChunk content (metas.elemSize * (blockShape metas.dims r cc).prod)
        (blockShape metas.dims r cc) (metas.elemSize * rowMajor metas.dims (blockStart r cc)) = .ok chunk ∧
      IsChunk metas r content cc chunk := by
  let size := metas.elemSize * (blockShape metas.dims r cc).prod
  let blank := overwrite (g.malloc (size + 8)) 0 (toLittleEndian 8 size) 0 8
  have hbox := blockShape_boxIn hst.row_pos h
  have hsize : size < 2 ^ 64 := lt_of_le_of_lt (Nat.mul_le_mul_left _ hbox.prod_le) hst.fits
  have hml : (g.malloc (size + 8)).length = size + 8 := by simp [ZorderCurveGenerator.malloc]
  have hll : (toLittleEndian 8 size).length = 8 := toLittleEndian_length 8 size
  have hhead : memcpy (g.malloc (size + 8)) 0 (toLittleEndian 8 size) 0 8 = .ok blank := by
    rw [memcpy, if_pos ⟨by omega, by omega⟩]
  have hbl : blank.length = size + 8 := (overwrite_length (by omega) (by omega)).trans hml
  have hlast : (blockShape metas.dims r cc).getLastD 0 * metas.elemSize < 2 ^ 32 :=
    lt_of_le_of_lt (Nat.mul_le_mul_right _ (blockShape_getLastD_le h)) hst.row_fits
  have hfit : ∀ x, InGrid (blockShape metas.dims r cc) x →
      Direction.toBlock.dst (metas.elemSize * rowMajor metas.dims (blockStart r cc) +
        metas.elemSize * rowMajor metas.dims x)
        (8 + metas.elemSize * rowMajor (blockShape metas.dims r cc) x) + metas.elemSize ≤ blank.length ∧
      Direction.toBlock.src (metas.elemSize * rowMajor metas.dims (blockStart r cc) +
        metas.elemSize * rowMajor metas.dims x)
        (8 + metas.elemSize * rowMajor (blockShape metas.dims r cc) x) + metas.elemSize ≤ content.length := by
    intro x hx
    have h1 := cell_byte_le (e := metas.elemSize) hx
    have h2 := block_byte_lt h hx
    exact ⟨by simp only [Direction.dst]; omega, by simp only [Direction.src]; omega⟩
  obtain ⟨chunk, hok, ht⟩ := copyBox_transferred .toBlock
    "Out of memory access copying an array block" hst.elem_pos (blockShape metas.dims r cc)
    (metas.elemSize * rowMajor metas.dims (blockStart r cc)) 8 blank hst.dims_ne hbox hst.fits hlast
    (le_refl (8 + size)) hfit
  refine ⟨chunk, ?_, ?_, ?_, ?_⟩
  · rw [ZorderCurveGenerator.makeChunk, hhead, hg]
    exact hok
  · rw [ht.length_eq, hbl, Nat.add_comm]
  · have htake : chunk.take 8 = toLittleEndian 8 size := by
      apply List.ext_getElem?
      intro a
      by_cases ha : a < 8
      · rw [List.getElem?_take_of_lt ha, ht.frame a (fun k _ => by simp only [Direction.dst]; omega)]
        rw [overwrite_getElem? (by omega) (by omega), if_pos ⟨by omega, by omega⟩]
        congr 1
        omega
      · rw [List.getElem?_eq_none (by simp only [List.length_take]; omega),
          List.getElem?_eq_none (by omega)]
    rw [htake]
    exact ofLittleEndian_toLittleEndian hsize
  · intro x hx t hlt
    exact ht.moved (x, t) ⟨hx, hlt⟩

/-- The bytes of block `cc` in the array. -/
def BlockByte (metas : ArrayMetadata) (r : Nat) (cc : List Nat) (a : Nat) : Prop :=
  ∃ x t, InGrid (blockShape metas.dims r cc) x ∧ t < metas.elemSize ∧
    a = metas.elemSize * rowMajor metas.dims (blockStart r cc) + (metas.elemSize * rowMajor metas.dims x + t)

theorem exists_blockByte (hr : 0 < r) (he : 0 < metas.elemSize) {a : Nat}
    (ha : a < metas.elemSize * metas.dims.prod) : ∃ cc, BlockIn metas.dims r cc ∧ BlockByte metas r cc a := by
  have hcell : a / metas.elemSize < metas.dims.prod := Nat.div_lt_of_lt_mul ha
  have hX := unRowMajor_inGrid hcell
  obtain ⟨hin, hx⟩ := exists_block hr hX
  refine ⟨_, hin, _, _, hx, Nat.mod_lt a he, ?_⟩
  have hsum : rowMajor metas.dims (blockStart r ((unRowMajor metas.dims (a / metas.elemSize)).map (· / r))) +
      rowMajor metas.dims ((unRowMajor metas.dims (a / metas.elemSize)).map (· % r)) =
      a / metas.elemSize := by
    rw [← rowMajor_add hin.start.length_eq (by simpa using hX.length_eq), blockStart, coarse_add_inner,
      rowMajor_unRowMajor hcell]
  rw [← Nat.add_assoc, ← Nat.mul_add, hsum, Nat.div_add_mod]

theorem copyBlockToArray_restores {content data chunk : Bytes} (hst : Storable metas r)
    (hlen : data.length = metas.elemSize * metas.dims.prod) (h : BlockIn metas.dims r cc)
    (hchunk : IsChunk metas r content cc chunk) :
    ∃ data', copyBlockToArray metas.dims (blockShape metas.dims r cc) metas.elemSize data
        (metas.elemSize * rowMajor metas.dims (blockStart r cc)) chunk 8
        (8 + metas.elemSize * (blockShape metas.dims r cc).prod) = .ok data' ∧
      data'.length = metas.elemSize * metas.dims.prod ∧
      (∀ a : Nat, BlockByte metas r cc a → data'[a]? = content[a]?) ∧
      ∀ a : Nat, ¬ BlockByte metas r cc a → data'[a]? = data[a]? := by
  have hbox := blockShape_boxIn hst.row_pos h
  have hlast : (blockShape metas.dims r cc).getLastD 0 * metas.elemSize < 2 ^ 32 :=
    lt_of_le_of_lt (Nat.mul_le_mul_right _ (blockShape_getLastD_le h)) hst.row_fits
  have hfit : ∀ x, InGrid (blockShape metas.dims r cc) x →
      Direction.toArray.dst (metas.elemSize * rowMajor metas.dims (blockStart r cc) +
        metas.elemSize * rowMajor metas.dims x)
        (8 + metas.elemSize * rowMajor (blockShape metas.dims r cc) x) + metas.elemSize ≤ data.length ∧
      Direction.toArray.src (metas.elemSize * rowMajor metas.dims (blockStart r cc) +
        metas.elemSize * rowMajor metas.dims x)
        (8 + metas.elemSize * rowMajor (blockShape metas.dims r cc) x) + metas.elemSize ≤ chunk.length := by
    intro x hx
    have h1 := cell_byte_le (e := metas.elemSize) hx
    have h2 := block_byte_lt h hx
    have h3 := hchunk.length_eq
    exact ⟨by simp only [Direction.dst]; omega, by simp only [Direction.src]; omega⟩
  obtain ⟨data', hok, ht⟩ := copyBox_transferred .toArray
    "Out of memory access copying an block into an array" hst.elem_pos (blockShape metas.dims r cc)
    (metas.elemSize * rowMajor metas.dims (blockStart r cc)) 8 data hst.dims_ne hbox hst.fits hlast
    (le_refl (8 + metas.elemSize * (blockShape metas.dims r cc).prod)) hfit
  refine ⟨data', hok, ht.length_eq.trans hlen, ?_, fun a ha => ?_⟩
  · rintro a ⟨x, t, hx, hlt, rfl⟩
    exact (ht.moved (x, t) ⟨hx, hlt⟩).trans (hchunk.cells x hx t hlt)
  · exact ht.frame a fun k hk heq => ha ⟨k.1, k.2, hk.1, hk.2, heq.symm⟩

theorem mergeChunk_restores {content : Bytes} {part : Partition} (hst : Storable metas r)
    (h : BlockIn metas.dims r cc) (hbits : BitsEncoded cc) (hp : IsPartition metas r content cc part) :
    Restores (mergeChunk metas r) content (metas.elemSize * metas.dims.prod) part (BlockByte metas r cc) := by
  intro data hlen
  obtain ⟨hc, hb, chunk, hd, hchunk⟩ := hp
  obtain ⟨data', hok, hrest⟩ := copyBlockToArray_restores hst hlen h hchunk
  refine ⟨data', ?_, hrest⟩
  have hlc : metas.dims.length = cc.length := (List.Forall₂.length_eq h).symm
  have hpos : 0 < cc.length := by rw [← hlc]; exact List.length_pos_of_ne_nil hst.dims_ne
  have hge : ¬ chunk.length < 8 := by have := hchunk.length_eq; omega
  have hz : zorderInverse (u32 (part.clusterId <<< clusterSize) ||| part.blockId) metas.dims.length = cc := by
    rw [hc, hb, hlc, zorderInverse_ids hpos hbits]
  simp only [mergeChunk, hd, hz, hge, if_false, block_offset_eq hst h, hchunk.header]
  cases hbd : isBound (blocksDim metas r) cc with
  | true =>
    rw [if_pos rfl, scale_eq h metas.dims_lt, boundDims_eq hst.row_pos h]
    exact hok
  | false =>
    rw [if_neg (by simp), if_neg (by simpa using (blockSize_eq hst.row_pos hst.elem_pos hst.fits h hbd).symm),
      ← blockShape_of_not_isBound hst.row_pos h metas.dims_lt hbd]
    exact hok

end block

section traversal

variable {metas : ArrayMetadata} {r : Nat} {content : Bytes}

theorem nextPartition_isPartition {g : ZorderCurveGenerator} (hg : g.metas = metas)
    (hgr : g.rowElements = r) (hgd : g.data = some content)
    (hst : Storable metas r) (hlen : content.length = metas.elemSize * metas.dims.prod)
    (hblocks : (blocksDim metas r).prod < 2 ^ 63) (hk : g.blockCounter < (blocksDim metas r).prod) :
    ∃ part, g.nextPartition = .ok part ∧
      IsPartition metas r content (unRowMajor (blocksDim metas r) g.blockCounter) part := by
  have hbn : blocksDim metas r ≠ [] := by simpa [blocksDim] using hst.dims_ne
  have hidx := getIndexes_eq hbn (blocksDim_lt hst.row_pos) hblocks hk
  have hgb : g.blocks = blocksDim metas r := by rw [ZorderCurveGenerator.blocks, hg, hgr]
  have h := (inGrid_blocksDim_iff hst.row_pos).mp (unRowMajor_inGrid hk)
  generalize unRowMajor (blocksDim metas r) g.blockCounter = cc at hidx h ⊢
  obtain ⟨chunk, hok, hchunk⟩ := makeChunk_isChunk hg hst hlen h
  refine ⟨⟨getClusterID cc, getBlockID cc, some chunk⟩, ?_, rfl, rfl, chunk, rfl, hchunk⟩
  have hoff := block_offset_eq hst h
  simp only [ZorderCurveGenerator.nextPartition, hgd, hgb, hg, hgr, hidx, hoff]
  cases hbd : isBound (blocksDim metas r) cc with
  | true =>
    rw [if_pos rfl, scale_eq h metas.dims_lt, boundDims_eq hst.row_pos h, boundSize_eq hst.row_pos hst.fits h, hok]
    rfl
  | false =>
    rw [if_neg (by simp), ← blockShape_of_not_isBound hst.row_pos h metas.dims_lt hbd,
      blockSize_eq hst.row_pos hst.elem_pos hst.fits h hbd, hok]
    rfl

theorem collect_isPartition (g : ZorderCurveGenerator) (hg : g.metas = metas)
    (hgr : g.rowElements = r) (hgd : g.data = some content) (hgn : g.done = false)
    (hst : Storable metas r) (hlen : content.length = metas.elemSize * metas.dims.prod)
    (hblocks : (blocksDim metas r).prod < 2 ^ 63) :
    ∃ parts, g.collect = .ok parts ∧
      (∀ part ∈ parts, ∃ cc, InGrid (blocksDim metas r) cc ∧ IsPartition metas r content cc part) ∧
      ∀ k, g.blockCounter ≤ k → k < (blocksDim metas r).prod →
        ∃ part ∈ parts, IsPartition metas r content (unRowMajor (blocksDim metas r) k) part := by
  have hnb : g.nblocks = (blocksDim metas r).prod := by
    rw [ZorderCurveGenerator.nblocks, ZorderCurveGenerator.blocks, hg, hgr, foldl_mul_u64 _ (by decide),
      Nat.one_mul, u64_of_lt (by omega)]
  induction hm : (blocksDim metas r).prod - g.blockCounter generalizing g with
  | zero =>
    refine ⟨[], ?_, by simp, fun k h1 h2 => by omega⟩
    rw [ZorderCurveGenerator.collect, if_pos]
    simp only [ZorderCurveGenerator.isDone, hnb, Bool.or_eq_true, decide_eq_true_eq]
    exact Or.inr (by omega)
  | succ m ih =>
    have hk : g.blockCounter < (blocksDim metas r).prod := by omega
    obtain ⟨part, hpart, hip⟩ := nextPartition_isPartition hg hgr hgd hst hlen hblocks hk
    obtain ⟨parts, hparts, hall, hcover⟩ := ih g.getNextPartition.2 hg hgr hgd hgn hnb
      (by simp only [ZorderCurveGenerator.getNextPartition]; omega)
    refine ⟨part :: parts, ?_, ?_, ?_⟩
    · have hnd : ¬ g.isDone = true := by
        simp only [ZorderCurveGenerator.isDone, hgn, hnb, Bool.false_or, decide_eq_true_eq]
        omega
      rw [ZorderCurveGenerator.collect, if_neg hnd, hparts]
      simp only [ZorderCurveGenerator.getNextPartition, hpart]
      rfl
    · intro p hp
      rcases List.mem_cons.mp hp with rfl | hp
      · exact ⟨_, unRowMajor_inGrid hk, hip⟩
      · exact hall p hp
    · intro k h1 h2
      by_cases hkk : k = g.blockCounter
      · exact ⟨part, by simp, hkk ▸ hip⟩
      · obtain ⟨p, hp, hh⟩ := hcover k (by simp only [ZorderCurveGenerator.getNextPartition]; omega) h2
        exact ⟨p, by simp [hp], hh⟩

/-- The ids of the blocks are numbers below `2 ^ 32` that can be decoded, so there
are at most that many blocks. -/
theorem blocksDim_prod_le (hst : Storable metas r)
    (hbits : ∀ cc, InGrid (blocksDim metas r) cc → BitsEncoded cc) : (blocksDim metas r).prod ≤ 2 ^ 32 := by
  let zorderId := fun cc => u32 (getClusterID cc <<< clusterSize) ||| getBlockID cc
  have hlt : ∀ cc, zorderId cc < 2 ^ 32 := by
    intro cc
    apply Nat.lt_pow_two_of_testBit
    intro j hj
    rw [Bool.eq_false_iff, Ne, testBit_zorderId]
    omega
  have hinv : ∀ k < (blocksDim metas r).prod, zorderInverse (zorderId (unRowMajor (blocksDim metas r) k))
      metas.dims.length = unRowMajor (blocksDim metas r) k := by
    intro k hk
    have hg := unRowMajor_inGrid hk
    have hl : (unRowMajor (blocksDim metas r) k).length = metas.dims.length := by
      rw [hg.length_eq, blocksDim, List.length_map]
    have hpos := List.length_pos_of_ne_nil hst.dims_ne
    rw [← hl]
    exact zorderInverse_ids (by omega) (hbits _ hg)
  have hcard := Finset.card_le_card_of_injOn (s := Finset.range (blocksDim metas r).prod)
    (t := Finset.range (2 ^ 32)) (fun k => zorderId (unRowMajor (blocksDim metas r) k))
    (fun k _ => Finset.mem_coe.mpr (Finset.mem_range.mpr (hlt _))) ?_
  · simpa only [Finset.card_range] using hcard
  · intro k hk k' hk' he
    rw [Finset.mem_coe, Finset.mem_range] at hk hk'
    have hcc : unRowMajor (blocksDim metas r) k = unRowMajor (blocksDim metas r) k' := by
      rw [← hinv k hk, ← hinv k' hk']
      exact congrArg (zorderInverse · metas.dims.length) he
    rw [← rowMajor_unRowMajor hk, hcc, rowMajor_unRowMajor hk']

end traversal

/-- Every array content, and every destination of its size, is restored by
merging the collected partitions in any order. -/
def RoundTrips (metas : ArrayMetadata) (r : Nat) (hr : 0 < r) : Prop :=
  ∀ (junk : Nat → Nat → UInt8) (content dest : Bytes),
    content.length = metas.elemSize * metas.dims.prod → dest.length = metas.elemSize * metas.dims.prod →
    ∃ parts, (ZorderCurveGenerator.mk metas (some content) r hr junk 0 false).collect = .ok parts ∧
      ∀ order, order.Perm parts → mergePartitions metas r order dest = .ok content

def MortonBelow (metas : ArrayMetadata) (r : Nat) : Prop :=
  ∀ cc, InGrid (blocksDim metas r) cc → mortonIndex cc < 2 ^ 31

theorem bitsEncoded_of_single {metas : ArrayMetadata} {r : Nat} (h1 : ∀ b ∈ blocksDim metas r, b = 1)
    {cc : List Nat} (h : InGrid (blocksDim metas r) cc) : BitsEncoded cc := by
  intro dim hd i hb
  have hu := usedBit_of_testBit h hd hb
  have hone := h1 _ (List.getElem_mem hu.1)
  have hlt := hu.2
  rw [List.getD_eq_getElem?_getD, List.getElem?_eq_getElem hu.1, Option.getD_some, hone] at hlt
  exact absurd hlt (Nat.not_lt.mpr (Nat.one_le_two_pow))

/-- Blocks whose coordinates can be read from their ids are merged back. -/
theorem roundTrips_of_bitsEncoded {metas : ArrayMetadata} {r : Nat} (hst : Storable metas r)
    (hbits : ∀ cc, InGrid (blocksDim metas r) cc → BitsEncoded cc) : RoundTrips metas r hst.row_pos := by
  intro junk content dest hlen hdest
  have hle := blocksDim_prod_le hst hbits
  obtain ⟨parts, hok, hall, hcover⟩ := collect_isPartition
    (ZorderCurveGenerator.mk metas (some content) r hst.row_pos junk 0 false) rfl rfl rfl rfl hst hlen
    (lt_of_le_of_lt hle (by decide))
  refine ⟨parts, hok, ?_⟩
  intro order hperm
  refine foldlM_restores_all (fun part hp => ?_) (fun a ha => ?_) hlen hdest
  · obtain ⟨cc, hcc, hip⟩ := hall part (hperm.mem_iff.mp hp)
    exact ⟨_, mergeChunk_restores hst ((inGrid_blocksDim_iff hst.row_pos).mp hcc) (hbits cc hcc) hip⟩
  · obtain ⟨cc, hin, hbyte⟩ := exists_blockByte hst.row_pos hst.elem_pos ha
    have hgrid := (inGrid_blocksDim_iff hst.row_pos).mpr hin
    obtain ⟨part, hp, hip⟩ := hcover _ (Nat.zero_le _) (rowMajor_lt hgrid)
    rw [unRowMajor_rowMajor hgrid] at hip
    exact ⟨part, hperm.mem_iff.mpr hp, _, mergeChunk_restores hst hin (hbits cc hgrid) hip, hbyte⟩

theorem bitsEncoded_of_mortonBelow {metas : ArrayMetadata} {r : Nat} (hmorton : MortonBelow metas r)
    (hndims : metas.dims.length ≤ 64) {cc : List Nat} (hcc : InGrid (blocksDim metas r) cc) : BitsEncoded cc := by
  refine bitsEncoded_of_mortonIndex (hmorton cc hcc) ?_
  rw [hcc.length_eq, blocksDim, List.length_map]
  exact hndims

theorem zorder_round_trip (metas : ArrayMetadata) (r : Nat) (hr : 0 < r) (hne : metas.dims ≠ [])
    (he : 1 ≤ metas.elemSize) (hmorton : MortonBelow metas r)
    (hndims : metas.dims.length ≤ 64 ∨ ∀ b ∈ blocksDim metas r, b = 1)
    (hfits : metas.elemSize * metas.dims.prod < 2 ^ 64)
    (hrow : min r (metas.dims.getLastD 0) * metas.elemSize < 2 ^ 32) : RoundTrips metas r hr := by
  have hst : Storable metas r := ⟨hne, he, hr, hfits, hrow⟩
  have hbits : ∀ cc, InGrid (blocksDim metas r) cc → BitsEncoded cc := by
    intro cc hcc
    rcases hndims with hn | hone
    · exact bitsEncoded_of_mortonBelow hmorton hn hcc
    · exact bitsEncoded_of_single hone hcc
  exact roundTrips_of_bitsEncoded hst hbits

def smallMetas : ArrayMetadata := ⟨2, [3, 2], by decide, by decide⟩

theorem smallMetas_mortonBelow : MortonBelow smallMetas 2 := by
  intro cc h
  have hb : blocksDim smallMetas 2 = [2, 1] := by decide
  rw [hb] at h
  obtain ⟨a, cc, rfl⟩ := inGrid_exists_cons h
  obtain ⟨ha, h⟩ := inGrid_cons.mp h
  obtain ⟨b, cc, rfl⟩ := inGrid_exists_cons h
  obtain ⟨hb, h⟩ := inGrid_cons.mp h
  cases h
  obtain rfl : b = 0 := by omega
  rcases (show a = 0 ∨ a = 1 by omega) with rfl | rfl <;> decide

theorem zorder_round_trip_small : RoundTrips smallMetas 2 (by decide) :=
  zorder_round_trip smallMetas 2 (by decide) (by decide) (by decide) smallMetas_mortonBelow
    (Or.inl (by decide)) (by decide) (by decide)

/-- Sixty-five dimensions: no bit of a coordinate is encoded. -/
def wideMetas : ArrayMetadata := ⟨1, 2 :: List.replicate 64 1, by decide, by decide⟩

theorem inGrid_replicate_one {n : Nat} {cc : List Nat} (h : InGrid (List.replicate n 1) cc) :
    cc = List.replicate n 0 := by
  induction n generalizing cc with
  | zero => cases h; rfl
  | succ n ih =>
    rw [List.replicate_succ] at h
    obtain ⟨c, cc, rfl⟩ := inGrid_exists_cons h
    obtain ⟨hc, hrest⟩ := inGrid_cons.mp h
    rw [ih hrest, List.replicate_succ, Nat.lt_one_iff.mp hc]

theorem wideMetas_mortonBelow : MortonBelow wideMetas 1 := by
  intro cc h
  have hb : blocksDim wideMetas 1 = 2 :: List.replicate 64 1 := by decide
  rw [hb] at h
  obtain ⟨a, cc, rfl⟩ := inGrid_exists_cons h
  obtain ⟨ha, h⟩ := inGrid_cons.mp h
  rw [inGrid_replicate_one h]
  rcases (show a = 0 ∨ a = 1 by omega) with rfl | rfl <;> decide +kernel

/-- Both blocks have the same ids. -/
def wideChunk (b : UInt8) : Partition := ⟨0, 0, some [1, 0, 0, 0, 0, 0, 0, 0, b]⟩

theorem wideMetas_collect {parts : List Partition}
    (hok : (ZorderCurveGenerator.mk wideMetas (some [1, 2]) 1 Nat.one_pos (fun _ _ => 0) 0 false).collect = .ok parts) :
    parts = [wideChunk 1, wideChunk 2] := by
  rw [ZorderCurveGenerator.collect, if_neg (by decide +kernel), ZorderCurveGenerator.collect,
    if_neg (by decide +kernel), ZorderCurveGenerator.collect, if_pos (by decide +kernel)] at hok
  exact (Except.ok.inj (hok.symm.trans (by decide +kernel))).trans rfl

theorem wideMetas_not_roundTrips : ¬ RoundTrips wideMetas 1 (by decide) := by
  intro h
  obtain ⟨parts, hok, hmerge⟩ := h (fun _ _ => 0) [1, 2] [0, 0] (by decide) (by decide)
  have hm := hmerge parts (List.Perm.refl _)
  rw [wideMetas_collect hok] at hm
  exact absurd hm (by decide +kernel)

/-- Two elements of `2 ^ 31` bytes in one block: the bytes of its row are `2 ^ 32`. -/
def hugeMetas : ArrayMetadata := ⟨2 ^ 31, [2], by decide, by decide⟩

theorem hugeMetas_mortonBelow : MortonBelow hugeMetas 2 := by
  intro cc h
  have hb : blocksDim hugeMetas 2 = List.replicate 1 1 := by decide
  rw [hb] at h
  rw [inGrid_replicate_one h]
  decide

theorem copyRow_zero (dir : Direction) (msg : String) {src dst : Bytes} {blkEnd arr blk : Nat}
    (hend : blk ≤ blkEnd) (hd : dir.dst arr blk ≤ dst.length) (hs : dir.src arr blk ≤ src.length) :
    copyRow dir msg src blkEnd arr blk 0 dst = .ok dst := by
  obtain ⟨dst', hok, ht⟩ := copyRow_transferred dir msg (n := 0) hend hd hs
  rw [hok]
  refine congrArg Except.ok (List.ext_getElem? fun a => ?_)
  exact ht.frame a (fun i hi => absurd hi (Nat.not_lt_zero i))

theorem hugeMetas_copyBox (dir : Direction) (msg : String) {src dst : Bytes} {blkEnd : Nat}
    (hend : 8 ≤ blkEnd) (hd : dir.dst 0 8 ≤ dst.length) (hs : dir.src 0 8 ≤ src.length) :
    copyBox dir msg hugeMetas.elemSize src blkEnd hugeMetas.dims [2] 0 8 dst = .ok dst :=
  copyRow_zero dir msg hend hd hs

theorem hugeMetas_makeChunk {g : ZorderCurveGenerator} (hg : g.metas = hugeMetas) (content : Bytes)
    (size : Nat) : ∃ chunk, 8 ≤ chunk.length ∧ g.makeChunk content size [2] 0 = .ok chunk := by
  let blank := overwrite (g.malloc (size + 8)) 0 (toLittleEndian 8 size) 0 8
  have hml : (g.malloc (size + 8)).length = size + 8 := by
    rw [ZorderCurveGenerator.malloc, List.length_map, List.length_range]
  have hll : (toLittleEndian 8 size).length = 8 := toLittleEndian_length 8 size
  have hbl : blank.length = size + 8 := by rw [overwrite_length (by omega) (by omega), hml]
  have hhead : memcpy (g.malloc (size + 8)) 0 (toLittleEndian 8 size) 0 8 = .ok blank := by
    rw [memcpy, if_pos ⟨by omega, by omega⟩]
  refine ⟨blank, by omega, ?_⟩
  rw [ZorderCurveGenerator.makeChunk, hhead, hg]
  exact hugeMetas_copyBox .toBlock _ (by omega) (show 8 ≤ blank.length by omega) (Nat.zero_le _)

theorem hugeMetas_nextPartition {g : ZorderCurveGenerator} {content : Bytes} (hg : g.metas = hugeMetas)
    (hgr : g.rowElements = 2) (hgd : g.data = some content) (hgc : g.blockCounter = 0) :
    ∃ chunk, 8 ≤ chunk.length ∧ g.nextPartition = .ok ⟨0, 0, some chunk⟩ := by
  have hblocks : blocksDim hugeMetas 2 = [1] := by decide
  have hidx : getIndexes 0 [1] = [0] := by decide
  have hoff : u64 (getIdFromIndexes hugeMetas.dims (scale 2 [0]) * hugeMetas.elemSize) = 0 := by decide
  have hshape : boundDims hugeMetas 2 (scale 2 [0]) = [2] := by decide
  have hbound : isBound [1] [0] = true := by decide
  have hids : getClusterID [0] = 0 ∧ getBlockID [0] = 0 := by decide
  obtain ⟨chunk, hlen, hchunk⟩ := hugeMetas_makeChunk hg content
    ([2].foldl (fun size d => u64 (size * d)) hugeMetas.elemSize)
  refine ⟨chunk, hlen, ?_⟩
  simp only [ZorderCurveGenerator.nextPartition, ZorderCurveGenerator.blocks, hg, hgr, hgd, hgc, hblocks, hidx,
    hids, hbound, if_true, hshape, hoff, hchunk]
  rfl

theorem hugeMetas_collect {g : ZorderCurveGenerator} {content : Bytes} (hg : g.metas = hugeMetas)
    (hgr : g.rowElements = 2) (hgd : g.data = some content) (hgc : g.blockCounter = 0) (hgn : g.done = false) :
    ∃ chunk, 8 ≤ chunk.length ∧ g.collect = .ok [⟨0, 0, some chunk⟩] := by
  obtain ⟨chunk, hlen, hnext⟩ := hugeMetas_nextPartition hg hgr hgd hgc
  have hblocks : blocksDim hugeMetas 2 = [1] := by decide
  have hone : [1].foldl (fun n b => u64 (n * b)) 1 = 1 := by decide
  have hn : g.nblocks = 1 := by
    rw [ZorderCurveGenerator.nblocks, ZorderCurveGenerator.blocks, hg, hgr, hblocks, hone]
  have hn' : g.getNextPartition.2.nblocks = 1 := hn
  have hfirst : ¬ g.isDone = true := by simp [ZorderCurveGenerator.isDone, hn, hgn, hgc]
  have hlast : g.getNextPartition.2.isDone = true := by
    rw [ZorderCurveGenerator.isDone, hn']
    simp [ZorderCurveGenerator.getNextPartition]
  refine ⟨chunk, hlen, ?_⟩
  rw [ZorderCurveGenerator.collect, if_neg hfirst, ZorderCurveGenerator.collect, if_pos hlast]
  simp only [ZorderCurveGenerator.getNextPartition, hnext]
  rfl

theorem hugeMetas_mergeChunk {dest chunk : Bytes} (hlen : 8 ≤ chunk.length) :
    mergeChunk hugeMetas 2 dest ⟨0, 0, some chunk⟩ = .ok dest := by
  have hz : zorderInverse (u32 (0 <<< clusterSize) ||| 0) hugeMetas.dims.length = [0] := by decide
  have hoff : u64 (getIdFromIndexes hugeMetas.dims (scale 2 [0]) * hugeMetas.elemSize) = 0 := by decide
  have hshape : boundDims hugeMetas 2 (scale 2 [0]) = [2] := by decide
  have hbound : isBound (blocksDim hugeMetas 2) [0] = true := by decide
  simp only [mergeChunk, hz, hoff, hshape, hbound, if_true, show ¬ chunk.length < 8 by omega, if_false]
  exact hugeMetas_copyBox .toArray _ (by omega) (Nat.zero_le _) (by simpa [Direction.src] using hlen)

theorem hugeMetas_not_roundTrips : ¬ RoundTrips hugeMetas 2 (by decide) := by
  intro h
  have heq : ∀ content dest : Bytes, content.length = 2 ^ 31 * 2 → dest.length = 2 ^ 31 * 2 →
      content = dest := by
    intro content dest hc hd
    obtain ⟨parts, hok, hmerge⟩ := h (fun _ _ => 0) content dest hc hd
    obtain ⟨chunk, hlen, hcol⟩ := hugeMetas_collect (g := ⟨hugeMetas, some content, 2, by decide,
      fun _ _ => 0, 0, false⟩) rfl rfl rfl rfl rfl
    obtain rfl : parts = [⟨0, 0, some chunk⟩] := (Except.ok.inj (hcol.symm.trans hok)).symm
    have hm := hmerge _ (List.Perm.refl _)
    rw [mergePartitions, List.foldlM_cons, hugeMetas_mergeChunk hlen] at hm
    exact (Except.ok.inj hm).symm
  generalize hN : 2 ^ 31 * 2 = N at heq
  have hrep := heq (List.replicate N 0) (List.replicate N 1) List.length_replicate List.length_replicate
  have hpos : 0 < N := by omega
  have h0 := congrArg (fun l : Bytes => l[0]?) hrep
  simp [hpos] at h0

/-- The round trip fails beyond 64 dimensions, and where the bytes of a block row
do not fit in 32 bits. -/
theorem zorder_round_trip_fails :
    (MortonBelow wideMetas 1 ∧ (∀ d ∈ wideMetas.dims, 1 ≤ d) ∧ 1 ≤ wideMetas.elemSize ∧
      ¬ RoundTrips wideMetas 1 (by decide)) ∧
    (MortonBelow hugeMetas 2 ∧ (∀ d ∈ hugeMetas.dims, 1 ≤ d) ∧ 1 ≤ hugeMetas.elemSize ∧
      ¬ RoundTrips hugeMetas 2 (by decide)) :=
  ⟨⟨wideMetas_mortonBelow, by decide, by decide, wideMetas_not_roundTrips⟩,
    ⟨hugeMetas_mortonBelow, by decide, by decide, hugeMetas_not_roundTrips⟩⟩

end Hecuba
