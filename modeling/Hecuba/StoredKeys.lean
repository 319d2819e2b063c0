import Hecuba.ArrayDataStore

/-! Whether the keys asked for by the reader of a whole array are those written by the
store. The Z-order and the Fortran generators walk the same ids with and without data. -/

namespace Hecuba

theorem ZorderCurveGenerator.nextPartition_key {g : ZorderCurveGenerator} {part : Partition}
    (h : g.nextPartition = .ok part) :
    part.key = (getClusterID (getIndexes g.blockCounter g.blocks),
      getBlockID (getIndexes g.blockCounter g.blocks)) := by
  unfold ZorderCurveGenerator.nextPartition at h
  split at h
  · cases h
    rfl
  · dsimp only at h
    split at h <;>
    · obtain ⟨chunk, -, hok⟩ := bind_ok_iff.mp h
      cases hok
      rfl

theorem ZorderCurveGenerator.collect_keys {g : ZorderCurveGenerator} {parts : List Partition}
    (h : g.collect = .ok parts) (junk : Nat → Nat → UInt8) :
    ∃ asked, ({ g with data := none, junk := junk } : ZorderCurveGenerator).collect = .ok asked ∧
      asked.map Partition.key = parts.map Partition.key := by
  induction g using ZorderCurveGenerator.collect.induct generalizing parts with
  | case1 g hdone =>
    rw [ZorderCurveGenerator.collect, if_pos hdone] at h
    cases h
    refine ⟨[], ?_, rfl⟩
    rw [ZorderCurveGenerator.collect]
    exact if_pos hdone
  | case2 g hdone ih =>
    rw [ZorderCurveGenerator.collect, if_neg hdone] at h
    obtain ⟨part, hpart, hrest⟩ := bind_ok_iff.mp h
    obtain ⟨rest, hcollect, hok⟩ := bind_ok_iff.mp hrest
    cases hok
    obtain ⟨asked, hasked, hkeys⟩ := ih hcollect
    let cc := getIndexes g.blockCounter g.blocks
    refine ⟨⟨getClusterID cc, getBlockID cc, none⟩ :: asked, ?_, ?_⟩
    · rw [ZorderCurveGenerator.collect]
      exact (if_neg hdone).trans (bind_ok_iff.mpr ⟨_, rfl, bind_ok_iff.mpr ⟨asked, hasked, rfl⟩⟩)
    · rw [List.map_cons, List.map_cons, hkeys, nextPartition_key hpart]
      rfl

theorem FortranOrderGenerator.nextPartition_key {g : FortranOrderGenerator} {part : Partition}
    (h : g.nextPartition = .ok part) :
    part.key = (getClusterID (getIndexes g.blockCounter g.blocks),
      getBlockID g.blocks (getIndexes g.blockCounter g.blocks)) := by
  unfold FortranOrderGenerator.nextPartition at h
  dsimp only at h
  split at h
  · cases h
    rfl
  · split at h <;>
    · obtain ⟨chunk, -, hok⟩ := bind_ok_iff.mp h
      cases hok
      rfl

theorem FortranOrderGenerator.collect_keys {g : FortranOrderGenerator} {parts : List Partition}
    (h : g.collect = .ok parts) (junk : Nat → Nat → UInt8) :
    ∃ asked, ({ g with data := none, junk := junk } : FortranOrderGenerator).collect = .ok asked ∧
      asked.map Partition.key = parts.map Partition.key := by
  induction g using FortranOrderGenerator.collect.induct generalizing parts with
  | case1 g hdone =>
    rw [FortranOrderGenerator.collect, if_pos hdone] at h
    cases h
    refine ⟨[], ?_, rfl⟩
    rw [FortranOrderGenerator.collect]
    exact if_pos hdone
  | case2 g hdone ih =>
    rw [FortranOrderGenerator.collect, if_neg hdone] at h
    obtain ⟨part, hpart, hrest⟩ := bind_ok_iff.mp h
    obtain ⟨rest, hcollect, hok⟩ := bind_ok_iff.mp hrest
    cases hok
    obtain ⟨asked, hasked, hkeys⟩ := ih hcollect
    let cc := getIndexes g.blockCounter g.blocks
    refine ⟨⟨getClusterID cc, getBlockID g.blocks cc, none⟩ :: asked, ?_, ?_⟩
    · rw [FortranOrderGenerator.collect]
      exact (if_neg hdone).trans (bind_ok_iff.mpr ⟨_, rfl, bind_ok_iff.mpr ⟨asked, hasked, rfl⟩⟩)
    · rw [List.map_cons, List.map_cons, hkeys, nextPartition_key hpart]
      rfl

/-- Reading and storing ask for the same keys, whenever the store of an array of the size
that its metadata gives succeeds. -/
def BlockKeysAgree (metas : ArrayMetadata) (partitionType : ArrayPartitionType) (r : Nat) (hr : 0 < r) : Prop :=
  ∀ junk data parts, data.length = metas.elemSize * metas.dims.prod →
    storeNumpyIntoCas metas partitionType r hr junk data = .ok parts →
    ∃ asked, requestedPartitions metas partitionType r hr = .ok asked ∧
      ∀ key, key ∈ asked.map Partition.key ↔ key ∈ parts.map Partition.key

/-- The same for the columns, whenever the store passes its assertion. -/
def ColumnKeysAgree (metas : ArrayMetadata) (r : Nat) : Prop :=
  ∀ keys, storeNumpyIntoCasAsArrow metas r = .ok keys →
    ∃ cols, allColumns metas = .ok cols ∧ ∀ key, key ∈ readNumpyFromCasArrow r cols ↔ key ∈ keys

theorem SpaceFillingGenerator.totalSize_eq {metas : ArrayMetadata} (h : metas.elemSize * metas.dims.prod < 2 ^ 64) :
    totalSize metas = metas.elemSize * metas.dims.prod := by
  have he : metas.elemSize < 2 ^ 64 := metas.elemSize_lt.trans (by decide)
  rw [totalSize, foldl_mul_u64 _ he, u64_of_lt h]

theorem SpaceFillingGenerator.collect_data {metas : ArrayMetadata} {data : Bytes} (junk : Nat → UInt8)
    (hfits : metas.elemSize * metas.dims.prod < 2 ^ 63) (hlen : data.length = metas.elemSize * metas.dims.prod) :
    ∃ chunk, (SpaceFillingGenerator.mk metas (some data) junk false).collect = .ok [⟨0, 0, some chunk⟩] := by
  have hsize := @totalSize_eq metas (by omega)
  let g := SpaceFillingGenerator.mk metas (some data) junk false
  have hml : (g.malloc (u64 (8 + totalSize metas))).length = 8 + data.length := by
    rw [malloc, List.length_map, List.length_range, u64_of_lt (by omega), hsize, hlen]
  have hll := toLittleEndian_length 8 (totalSize metas)
  let header := overwrite (g.malloc (u64 (8 + totalSize metas))) 0 (toLittleEndian 8 (totalSize metas)) 0 8
  have hhead : memcpy (g.malloc (u64 (8 + totalSize metas))) 0 (toLittleEndian 8 (totalSize metas)) 0 8 =
      .ok header := by
    rw [memcpy, if_pos ⟨by omega, by omega⟩]
  have hbl : header.length = 8 + data.length := by rw [overwrite_length (by omega) (by omega), hml]
  have hbody : memcpy header 8 data 0 (totalSize metas) = .ok (overwrite header 8 data 0 (totalSize metas)) := by
    rw [memcpy, if_pos ⟨by omega, by omega⟩]
  refine ⟨overwrite header 8 data 0 (totalSize metas), ?_⟩
  rw [collect, if_neg Bool.false_ne_true]
  refine bind_ok_iff.mpr ⟨⟨0, 0, some (overwrite header 8 data 0 (totalSize metas))⟩, ?_, ?_⟩
  · exact bind_ok_iff.mpr ⟨header, hhead, bind_ok_iff.mpr ⟨_, hbody, rfl⟩⟩
  · refine bind_ok_iff.mpr ⟨[], ?_, rfl⟩
    rw [collect]
    exact if_pos rfl

theorem SpaceFillingGenerator.collect_none (metas : ArrayMetadata) (junk : Nat → UInt8) :
    (SpaceFillingGenerator.mk metas none junk false).collect = .ok [⟨clusterEndFlag, 0, none⟩] := by
  rw [collect, if_neg Bool.false_ne_true]
  refine bind_ok_iff.mpr ⟨_, rfl, bind_ok_iff.mpr ⟨[], ?_, rfl⟩⟩
  rw [collect]
  exact if_pos rfl

theorem blockKeysAgree_iff {metas : ArrayMetadata} {partitionType : ArrayPartitionType} {r : Nat} {hr : 0 < r}
    (hfits : metas.elemSize * metas.dims.prod < 2 ^ 63) :
    BlockKeysAgree metas partitionType r hr ↔
      partitionType = .zorderAlgorithm ∨ partitionType = .fortranorder := by
  -- the base generator writes the key (0, 0) and asks for the end flag
  have hbase : ∀ generator, (∀ junk data,
      makePartitionsGenerator metas generator r hr junk data = .spaceFilling ⟨metas, data, junk 0, false⟩) →
      ¬ BlockKeysAgree metas generator r hr := by
    intro generator hgen h
    obtain ⟨chunk, hchunk⟩ := @SpaceFillingGenerator.collect_data metas
      (List.replicate (metas.elemSize * metas.dims.prod) 0) (fun _ => 0) hfits List.length_replicate
    obtain ⟨asked, hasked, hkeys⟩ := h (fun _ _ => 0) (List.replicate (metas.elemSize * metas.dims.prod) 0)
      [⟨0, 0, some chunk⟩] List.length_replicate (by rw [storeNumpyIntoCas, hgen]; exact hchunk)
    have hnone := SpaceFillingGenerator.collect_none metas (fun _ => 0)
    rw [requestedPartitions, hgen] at hasked
    cases hnone.symm.trans hasked
    exact absurd ((hkeys (0, 0)).mpr List.mem_cons_self) (by decide)
  cases partitionType with
  | zorderAlgorithm =>
    refine iff_of_true (fun junk data parts _ hparts => ?_) (.inl rfl)
    obtain ⟨asked, hasked, hkeys⟩ := ZorderCurveGenerator.collect_keys hparts fun _ _ => 0
    exact ⟨asked, hasked, fun key => by rw [hkeys]⟩
  | fortranorder =>
    refine iff_of_true (fun junk data parts _ hparts => ?_) (.inr rfl)
    obtain ⟨asked, hasked, hkeys⟩ := FortranOrderGenerator.collect_keys hparts fun _ _ => 0
    exact ⟨asked, hasked, fun key => by rw [hkeys]⟩
  | noPartitions => exact iff_of_false (hbase .noPartitions fun _ _ => rfl) (by decide)
  | columnar => exact iff_of_false (hbase .columnar fun _ _ => rfl) (by decide)

/-- The counter of clusters, incremented at the multiples of `r`, is the quotient. -/
theorem clusterId_succ (r n : Nat) :
    (if 0 < n ∧ n % r = 0 then u32 (u32 ((n - 1) / r) + 1) else u32 ((n - 1) / r)) = u32 (n / r) := by
  by_cases hn : n = 0
  · simp [hn]
  · have hsucc : n / r = (n - 1) / r + if r ∣ n then 1 else 0 := by
      have hs := @Nat.succ_div (n - 1) r
      rwa [Nat.sub_add_cancel (Nat.one_le_iff_ne_zero.mpr hn)] at hs
    by_cases hmod : n % r = 0
    · rw [if_pos ⟨Nat.pos_of_ne_zero hn, hmod⟩, hsucc, if_pos (Nat.dvd_of_mod_eq_zero hmod)]
      exact Nat.mod_add_mod _ _ _
    · rw [if_neg (fun h => hmod h.2), hsucc, if_neg (fun h => hmod (Nat.mod_eq_zero_of_dvd h)), Nat.add_zero]

/-- The clusters of the columns, counted up as the columns are written. -/
theorem arrow_columns (r n : Nat) :
    (List.range n).foldl (fun (clusterId, keys) i =>
      let clusterId := if 0 < i ∧ i % r = 0 then u32 (clusterId + 1) else clusterId
      (clusterId, keys ++ [(clusterId, i)])) (0, []) =
    (u32 ((n - 1) / r), (List.range n).map fun i => (u32 (i / r), i)) := by
  induction n with
  | zero => simp [u32]
  | succ n ih =>
    rw [List.range_succ, List.foldl_append, ih, List.foldl_cons, List.foldl_nil, List.map_append,
      Nat.add_sub_cancel]
    simp only [clusterId_succ, List.map_cons, List.map_nil]

theorem columnKeysAgree_iff {metas : ArrayMetadata} {r : Nat} :
    ColumnKeysAgree metas r ↔ ∀ rows columns, metas.dims = [rows, columns] → rows = columns := by
  constructor
  · intro h rows columns hdims
    obtain ⟨cols, hcols, hkeys⟩ := h _ (by rw [storeNumpyIntoCasAsArrow, hdims])
    rw [allColumns, hdims, if_neg (show ¬ [rows, columns].length < 2 by simp)] at hcols
    cases hcols
    rw [arrow_columns r columns] at hkeys
    have hmem : ∀ i, i < rows ↔ i < columns := by
      intro i
      have hkey := hkeys (u32 (i / r), i)
      simpa [readNumpyFromCasArrow] using hkey
    have hle := hmem rows
    have hge := hmem columns
    omega
  · intro h keys hkeys
    match hdims : metas.dims with
    | [rows, columns] =>
      rw [storeNumpyIntoCasAsArrow, hdims] at hkeys
      cases hkeys
      refine ⟨List.range rows, ?_, fun key => ?_⟩
      · rw [allColumns, hdims, if_neg (show ¬ [rows, columns].length < 2 by simp)]
        rfl
      · rw [arrow_columns r columns, h rows columns hdims, readNumpyFromCasArrow]
    | [] | [_] | _ :: _ :: _ :: _ =>
      rw [storeNumpyIntoCasAsArrow, hdims] at hkeys
      cases hkeys

/-- When a whole array is read under the keys under which it is written, by blocks and by
columns. -/
theorem keys_agree_iff {metas : ArrayMetadata} {partitionType : ArrayPartitionType} {r : Nat} {hr : 0 < r}
    (hfits : metas.elemSize * metas.dims.prod < 2 ^ 63) :
    (BlockKeysAgree metas partitionType r hr ↔
        partitionType = .zorderAlgorithm ∨ partitionType = .fortranorder) ∧
      (ColumnKeysAgree metas r ↔ ∀ rows columns, metas.dims = [rows, columns] → rows = columns) :=
  ⟨blockKeysAgree_iff hfits, columnKeysAgree_iff⟩

theorem floatSize_lt : 4 < 2 ^ 32 := by decide

theorem squareFloats_dims_lt : ∀ d ∈ [3, 3], d < 2 ^ 32 := by decide

def squareFloats : ArrayMetadata := ⟨4, [3, 3], floatSize_lt, squareFloats_dims_lt⟩

theorem keys_agree_square :
    BlockKeysAgree squareFloats .zorderAlgorithm 32 (by decide) ∧ ColumnKeysAgree squareFloats 32 := by
  have hfits : squareFloats.elemSize * squareFloats.dims.prod < 2 ^ 63 := by decide
  obtain ⟨hblocks, hcolumns⟩ := @keys_agree_iff squareFloats .zorderAlgorithm 32 (by decide) hfits
  refine ⟨hblocks.mpr (.inl rfl), hcolumns.mpr ?_⟩
  rintro rows columns hdims
  obtain ⟨rfl, rfl⟩ : 3 = rows ∧ 3 = columns := by simpa [squareFloats] using hdims
  rfl

theorem oblongFloats_dims_lt : ∀ d ∈ [2, 3], d < 2 ^ 32 := by decide

/-- Two rows of three floats. -/
def oblongFloats : ArrayMetadata := ⟨4, [2, 3], floatSize_lt, oblongFloats_dims_lt⟩

/-- Neither the one partition of the array nor its third column is asked for. -/
theorem stored_and_never_read : ¬ BlockKeysAgree oblongFloats .noPartitions 32 (by decide) ∧
    ¬ ColumnKeysAgree oblongFloats 32 :=
  ⟨fun h => absurd ((blockKeysAgree_iff (by decide)).mp h) (by decide),
    fun h => absurd (columnKeysAgree_iff.mp h 2 3 rfl) (by decide)⟩

end Hecuba
