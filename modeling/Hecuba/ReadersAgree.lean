import Hecuba.ArrayReaders
import Hecuba.StoredKeys

/-! When the two readers of whole arrays agree, at any point of a session. The reader by
clusters never loads a block: its keys name no block, and the rows have no second column. -/

namespace Hecuba

namespace ArrayDataStore

section stored

variable (a : ZorderArray)

theorem storable : Storable a.metas a.rowElements where
  dims_ne := a.dims_ne
  elem_pos := a.elem_pos
  row_pos := a.row_pos
  fits := a.fits.trans (by decide)
  row_fits := by
    have hle := (Nat.mul_le_mul_right a.metas.elemSize
      (Nat.min_le_left a.rowElements (a.metas.dims.getLastD 0))).trans a.block_fits
    omega

/-- The ids of the block with a number. -/
def blockKey (blocks : List Nat) (k : Nat) : Nat × Nat :=
  (getClusterID (getIndexes k blocks), getBlockID (getIndexes k blocks))

theorem collect_blockKeys {g : ZorderCurveGenerator} {parts : List Partition} (h : g.collect = .ok parts)
    (hd : g.done = false) : parts.map Partition.key =
      (List.range' g.blockCounter (g.nblocks - g.blockCounter)).map (blockKey g.blocks) := by
  induction g using ZorderCurveGenerator.collect.induct generalizing parts with
  | case1 g hdone =>
    have hle : g.nblocks ≤ g.blockCounter := by
      rwa [ZorderCurveGenerator.isDone, hd, Bool.false_or, decide_eq_true_eq] at hdone
    rw [ZorderCurveGenerator.collect, if_pos hdone] at h
    cases h
    rw [Nat.sub_eq_zero_of_le hle]
    rfl
  | case2 g hdone ih =>
    have hlt : g.blockCounter < g.nblocks := by
      rw [ZorderCurveGenerator.isDone, hd, Bool.false_or, decide_eq_true_eq] at hdone
      omega
    rw [ZorderCurveGenerator.collect, if_neg hdone] at h
    obtain ⟨part, hpart, hrest⟩ := bind_ok_iff.mp h
    obtain ⟨rest, hcollect, hok⟩ := bind_ok_iff.mp hrest
    cases hok
    have hsub : g.nblocks - g.blockCounter = (g.nblocks - (g.blockCounter + 1)) + 1 := by omega
    rw [hsub, List.range'_succ, List.map_cons, List.map_cons, ZorderCurveGenerator.nextPartition_key hpart]
    exact congrArg _ (ih hcollect hd)

theorem blockKeys_nodup : ((List.range (blocksDim a.metas a.rowElements).prod).map
    (blockKey (blocksDim a.metas a.rowElements))).Nodup := by
  have hbits : ∀ cc, InGrid (blocksDim a.metas a.rowElements) cc → BitsEncoded cc :=
    fun cc hcc => bitsEncoded_of_mortonBelow a.morton a.ndims_le hcc
  have hprod := blocksDim_prod_le (storable a) hbits
  have hne : blocksDim a.metas a.rowElements ≠ [] := by
    rw [blocksDim, Ne, List.map_eq_nil_iff]
    exact a.dims_ne
  refine List.Nodup.map_on (fun k hk k' hk' heq => ?_) List.nodup_range
  rw [List.mem_range] at hk hk'
  rw [blockKey, blockKey, getIndexes_eq hne (blocksDim_lt a.row_pos) (by omega) hk,
    getIndexes_eq hne (blocksDim_lt a.row_pos) (by omega) hk', Prod.mk.injEq] at heq
  have hread : ∀ k < (blocksDim a.metas a.rowElements).prod,
      zorderInverse (u32 (getClusterID (unRowMajor (blocksDim a.metas a.rowElements) k) <<< clusterSize) |||
        getBlockID (unRowMajor (blocksDim a.metas a.rowElements) k))
        (blocksDim a.metas a.rowElements).length = unRowMajor (blocksDim a.metas a.rowElements) k := by
    intro k hk
    have hin := unRowMajor_inGrid hk
    have hpos := List.length_pos_of_ne_nil hne
    rw [← hin.length_eq]
    exact zorderInverse_ids (by rwa [hin.length_eq]) (hbits _ hin)
  have hcc : unRowMajor (blocksDim a.metas a.rowElements) k = unRowMajor (blocksDim a.metas a.rowElements) k' := by
    rw [← hread k hk, ← hread k' hk', heq.1, heq.2]
  rw [← rowMajor_unRowMajor hk, hcc, rowMajor_unRowMajor hk']

/-- The partitions that a store of `content` writes, as far as the readers tell. -/
structure ContentParts (content : a.Buffer) (parts : List Partition) : Prop where
  nodup : (parts.map Partition.key).Nodup
  keys : parts.map Partition.key = (List.range (blocksDim a.metas a.rowElements).prod).map
    (blockKey (blocksDim a.metas a.rowElements))
  data : ∀ part ∈ parts, part.data ≠ none
  merged : ∀ save : a.Buffer, mergePartitions a.metas a.rowElements parts save.1 = .ok content.1

theorem exists_stored (content : a.Buffer) (junk : Nat → Nat → UInt8) :
    ∃ parts, storeNumpyIntoCas a.metas .zorderAlgorithm a.rowElements a.row_pos junk content.1 = .ok parts ∧
      ContentParts a content parts := by
  have hbits : ∀ cc, InGrid (blocksDim a.metas a.rowElements) cc → BitsEncoded cc :=
    fun cc hcc => bitsEncoded_of_mortonBelow a.morton a.ndims_le hcc
  have hprod := blocksDim_prod_le (storable a) hbits
  let g := ZorderCurveGenerator.mk a.metas (some content.1) a.rowElements a.row_pos junk 0 false
  obtain ⟨parts, hparts, hall, -⟩ := collect_isPartition g rfl rfl rfl rfl (storable a) content.2
    (Nat.lt_of_le_of_lt hprod (by decide))
  have hn : g.nblocks = (blocksDim a.metas a.rowElements).prod := by
    rw [ZorderCurveGenerator.nblocks, ZorderCurveGenerator.blocks, foldl_mul_u64 _ (by decide), Nat.one_mul,
      u64_of_lt (Nat.lt_of_le_of_lt hprod (by decide))]
  have hkeys := collect_blockKeys hparts rfl
  rw [hn, Nat.sub_zero, ← List.range_eq_range'] at hkeys
  refine ⟨parts, hparts, ⟨?_, hkeys, fun part hpart => ?_, fun save => ?_⟩⟩
  · rw [hkeys]
    exact blockKeys_nodup a
  · obtain ⟨cc, -, -, -, chunk, hdata, -⟩ := hall part hpart
    rw [hdata]
    exact Option.some_ne_none chunk
  · obtain ⟨parts', hparts', hmerge⟩ := roundTrips_of_bitsEncoded (storable a) hbits junk content.1 save.1
      content.2 save.2
    cases hparts.symm.trans hparts'
    exact hmerge parts (List.Perm.refl _)

theorem exists_requested : ∃ asked,
    requestedPartitions a.metas .zorderAlgorithm a.rowElements a.row_pos = .ok asked ∧
      asked.map Partition.key = (List.range (blocksDim a.metas a.rowElements).prod).map
        (blockKey (blocksDim a.metas a.rowElements)) := by
  obtain ⟨parts, hparts, hcontent⟩ := exists_stored a ⟨List.replicate a.size 0, List.length_replicate⟩ fun _ _ => 0
  obtain ⟨asked, hasked, hkeys⟩ := ZorderCurveGenerator.collect_keys hparts fun _ _ => 0
  exact ⟨asked, hasked, hkeys.trans hcontent.keys⟩

/-- The rows are those of the partitions. -/
structure HoldsParts (rows : ArrayRows) (parts : List Partition) : Prop where
  held : ∀ part ∈ parts, rows part.key = part.data
  only : ∀ key, key ∉ parts.map Partition.key → rows key = none

theorem storeRows_other {parts : List Partition} {key : Nat × Nat} (h : key ∉ parts.map Partition.key)
    (rows : ArrayRows) : storeRows rows parts key = rows key := by
  induction parts generalizing rows with
  | nil => rfl
  | cons part parts ih =>
    rw [List.map_cons, List.mem_cons, not_or] at h
    exact (ih h.2 _).trans (Function.update_of_ne h.1 _ _)

theorem storeRows_mem {parts : List Partition} (hnodup : (parts.map Partition.key).Nodup) {part : Partition}
    (h : part ∈ parts) (rows : ArrayRows) : storeRows rows parts part.key = part.data := by
  induction parts generalizing rows with
  | nil => cases h
  | cons first parts ih =>
    rw [List.map_cons, List.nodup_cons] at hnodup
    rcases List.mem_cons.mp h with rfl | hmem
    · exact (storeRows_other hnodup.1 _).trans (Function.update_self ..)
    · exact ih hnodup.2 hmem _

theorem storeRows_holds {rows : ArrayRows} {parts : List Partition} (hnodup : (parts.map Partition.key).Nodup)
    (h : ∀ key, key ∉ parts.map Partition.key → rows key = none) : HoldsParts (storeRows rows parts) parts where
  held _ hpart := storeRows_mem hnodup hpart rows
  only key hkey := (storeRows_other hkey rows).trans (h key hkey)

end stored

section readers

variable {a : ZorderArray} {rows : ArrayRows}

/-- The blocks that the reader by coordinates makes of the rows under a key. -/
def readBlock (rows : ArrayRows) (key : Nat × Nat) : Except Thrown (List Partition) :=
  (getCrow rows key.1 key.2).mapM fun row => do
    let chunk ← getElement row 0
    .ok (⟨key.1, key.2, some chunk⟩ : Partition)

theorem readBlock_eq (rows : ArrayRows) (key : Nat × Nat) :
    readBlock rows key = .ok ((rows key).toList.map fun chunk => ⟨key.1, key.2, some chunk⟩) := by
  rw [readBlock, getCrow]
  cases rows (key.1, key.2) <;> rfl

theorem readByCoords_eq (sid : StorageId) (save : Bytes) :
    readNumpyFromCasByCoords a sid rows save =
      (let found := ((List.range (blocksDim a.metas a.rowElements).prod).map
          (blockKey (blocksDim a.metas a.rowElements))).flatMap fun key =>
            (rows key).toList.map fun chunk => (⟨key.1, key.2, some chunk⟩ : Partition)
      if found.isEmpty then .error (.moduleException ("no npy found on sys for uuid " ++ sid))
      else mergeInto a found save) := by
  obtain ⟨asked, hasked, hkeys⟩ := exists_requested a
  have hfound : asked.mapM (fun part => readBlock rows part.key) =
      .ok (asked.map fun part => (rows part.key).toList.map fun chunk =>
        (⟨part.key.1, part.key.2, some chunk⟩ : Partition)) := by
    rw [mapM_ok_iff, List.forall₂_map_right_iff]
    exact List.forall₂_same.mpr fun part _ => readBlock_eq rows part.key
  rw [readNumpyFromCasByCoords, hasked]
  refine (congrArg (· >>= _) hfound).trans ?_
  rw [← hkeys, List.flatMap_map]
  rfl

theorem readByCoords_none (sid : StorageId) (save : Bytes) (h : ∀ key, rows key = none) :
    readNumpyFromCasByCoords a sid rows save =
      .error (.moduleException ("no npy found on sys for uuid " ++ sid)) := by
  rw [readByCoords_eq]
  simp [h]

theorem readByCoords_content {content : a.Buffer} {parts : List Partition} (sid : StorageId)
    (save : a.Buffer) (hcontent : ContentParts a content parts) (h : HoldsParts rows parts)
    (hne : ∃ key, rows key ≠ none) : readNumpyFromCasByCoords a sid rows save.1 = .ok content.1 := by
  have hfound : (parts.map Partition.key).flatMap (fun key =>
      (rows key).toList.map fun chunk => (⟨key.1, key.2, some chunk⟩ : Partition)) = parts := by
    rw [List.flatMap_map]
    calc parts.flatMap (fun part => (rows part.key).toList.map fun chunk =>
          (⟨part.key.1, part.key.2, some chunk⟩ : Partition))
        = parts.flatMap fun part => [part] := by
          refine List.flatMap_congr fun part hpart => ?_
          obtain ⟨chunk, hchunk⟩ := Option.ne_none_iff_exists'.mp (hcontent.data part hpart)
          rw [h.held part hpart, hchunk]
          cases part
          cases hchunk
          rfl
      _ = parts := List.flatMap_singleton' parts
  have hparts : parts.isEmpty = false := by
    obtain ⟨key, hkey⟩ := hne
    rw [Bool.eq_false_iff, Ne, List.isEmpty_iff]
    rintro rfl
    exact hkey (h.only key (by simp))
  rw [readByCoords_eq, ← hcontent.keys, hfound]
  dsimp only
  rw [hparts, if_neg Bool.false_ne_true, mergeInto, hcontent.merged save]

/-- No request for a cluster of the list has the id of a stored block of it in the bytes of
its key that are not written. -/
def NoBlockHit (rows : ArrayRows) (garbage : Nat → Nat) (ids : List Nat) (loaded : Finset Nat) : Prop :=
  ∀ clusterId ∈ ids, clusterId ∉ loaded → rows (clusterId, garbage clusterId) = none

/-- Every cluster of the list is asked for once, and was never asked for before. -/
def AllNew (ids : List Nat) (loaded : Finset Nat) : Prop :=
  ids.Nodup ∧ ∀ clusterId ∈ ids, clusterId ∉ loaded

instance (ids : List Nat) (loaded : Finset Nat) : Decidable (AllNew ids loaded) :=
  inferInstanceAs (Decidable (_ ∧ _))

theorem readClusters_none {garbage : Nat → Nat} {ids : List Nat} {loaded : Finset Nat} {cached : Bool}
    {parts : List Partition} (h : NoBlockHit rows garbage ids loaded) :
    (readClusters rows garbage ids loaded cached parts).1 = .ok (cached || !decide (AllNew ids loaded), parts) := by
  induction ids generalizing loaded cached parts with
  | nil => simp [readClusters, AllNew]
  | cons clusterId ids ih =>
    have htail : ∀ loaded', loaded ⊆ loaded' → NoBlockHit rows garbage ids loaded' :=
      fun loaded' hsub id hid hnew => h id (List.mem_cons_of_mem _ hid) fun hmem => hnew (hsub hmem)
    rw [readClusters]
    by_cases hmem : clusterId ∈ loaded
    · have hold : ¬ AllNew (clusterId :: ids) loaded := fun hnew => hnew.2 clusterId List.mem_cons_self hmem
      rw [if_pos hmem, ih (htail loaded (Finset.Subset.refl _))]
      simp [hold]
    · have hrow := h clusterId List.mem_cons_self hmem
      have hiff : AllNew (clusterId :: ids) loaded ↔ AllNew ids (insert clusterId loaded) := by
        simp only [AllNew, List.nodup_cons, List.forall_mem_cons, Finset.mem_insert, not_or]
        constructor
        · rintro ⟨⟨hnot, hnodup⟩, -, hall⟩
          exact ⟨hnodup, fun id hid => ⟨fun heq => hnot (heq ▸ hid), hall id hid⟩⟩
        · rintro ⟨hnodup, hall⟩
          exact ⟨⟨fun hid => (hall clusterId hid).1 rfl, hnodup⟩, hmem, fun id hid => (hall id hid).2⟩
      rw [if_neg hmem, getCrow, hrow]
      refine (ih (htail _ (Finset.subset_insert _ _))).trans ?_
      rw [List.reverse_nil, List.append_nil, decide_eq_decide.mpr hiff]

theorem readClusters_hit {garbage : Nat → Nat} {ids : List Nat} {loaded : Finset Nat} {cached : Bool}
    {parts : List Partition} (h : ¬ NoBlockHit rows garbage ids loaded) :
    (readClusters rows garbage ids loaded cached parts).1 = .error .outOfRange := by
  induction ids generalizing loaded cached parts with
  | nil => exact absurd (fun _ hid => by cases hid) h
  | cons clusterId ids ih =>
    rw [readClusters]
    by_cases hmem : clusterId ∈ loaded
    · rw [if_pos hmem]
      refine ih fun hnone => h fun id hid hnew => ?_
      rcases List.mem_cons.mp hid with rfl | hid
      · exact absurd hmem hnew
      · exact hnone id hid hnew
    · rw [if_neg hmem, getCrow]
      cases hrow : rows (clusterId, garbage clusterId) with
      | some payload => rfl
      | none =>
        refine ih fun hnone => h fun id hid hnew => ?_
        by_cases heq : id = clusterId
        · rw [heq, hrow]
        · have hid := (List.mem_cons.mp hid).resolve_left heq
          exact hnone id hid fun hin => (Finset.mem_insert.mp hin).elim heq hnew

theorem readNumpy_none {garbage : Nat → Nat} {loaded : Finset Nat} {save : Bytes}
    (h : NoBlockHit rows garbage (clusterIds a) loaded) :
    (readNumpyFromCas a rows garbage loaded save).1 =
      if AllNew (clusterIds a) loaded then .error (.moduleException "no npy found on sys") else .ok save := by
  have hread := @readClusters_none rows garbage (clusterIds a) loaded false [] h
  rw [readNumpyFromCas]
  generalize readClusters rows garbage (clusterIds a) loaded false [] = result at hread
  obtain ⟨outcome, loaded'⟩ := result
  cases hread
  by_cases hnew : AllNew (clusterIds a) loaded
  · simp [hnew]
  · have hmerge : mergeInto a [] save = .ok save := rfl
    simp [hnew, hmerge]

theorem readNumpy_hit {garbage : Nat → Nat} {loaded : Finset Nat} {save : Bytes}
    (h : ¬ NoBlockHit rows garbage (clusterIds a) loaded) :
    (readNumpyFromCas a rows garbage loaded save).1 = .error .outOfRange := by
  have hread := @readClusters_hit rows garbage (clusterIds a) loaded false [] h
  rw [readNumpyFromCas]
  generalize readClusters rows garbage (clusterIds a) loaded false [] = result at hread
  obtain ⟨outcome, loaded'⟩ := result
  cases hread
  rfl

end readers

/-- The rows of an array are those of the content of its last store. -/
def RowsOf (a : ZorderArray) (rows : ArrayRows) : Option Bytes → Prop
  | none => ∀ key, rows key = none
  | some content => ∃ (bytes : a.Buffer) (parts : List Partition),
      bytes.1 = content ∧ ContentParts a bytes parts ∧ HoldsParts rows parts

variable {arrays : StorageId → ZorderArray}

/-- A store names the same blocks as the store before it. -/
theorem rowsOf_store {a : ZorderArray} {rows : ArrayRows} {last : Option Bytes} {data : a.Buffer}
    {parts : List Partition} (h : RowsOf a rows last) (hparts : ContentParts a data parts) :
    RowsOf a (storeRows rows parts) (some data.1) := by
  refine ⟨data, parts, rfl, hparts, storeRows_holds hparts.nodup fun key hkey => ?_⟩
  cases last with
  | none => exact h key
  | some content =>
    obtain ⟨bytes, old, -, hold, hheld⟩ := h
    rw [hparts.keys, ← hold.keys] at hkey
    exact hheld.only key hkey

theorem rowsOf_run (calls : List (StoreCall arrays)) (sid : StorageId) :
    RowsOf (arrays sid) ((runCalls calls).rows sid) (lastStored calls sid) := by
  induction calls using List.reverseRecOn with
  | nil => exact fun _ => rfl
  | append_singleton calls call ih =>
    rw [runCalls, lastStored, List.foldl_append, List.foldl_append]
    change RowsOf _ ((StoreCall.step (runCalls calls) call).rows sid) (StoreCall.stored sid (lastStored calls sid) call)
    cases call with
    | storeNumpy sid' data junk =>
      obtain ⟨parts, hparts, hcontent⟩ := exists_stored (arrays sid') data junk
      rw [StoreCall.step, hparts, StoreCall.stored]
      dsimp only
      by_cases heq : sid' = sid
      · subst heq
        rw [if_pos rfl, Function.update_self]
        exact rowsOf_store ih hcontent
      · rw [if_neg heq, Function.update_of_ne (Ne.symm heq)]
        exact ih
    | readNumpy sid' save garbage => exact ih
    | readNumpyByCoords sid' save => exact ih

/-- The array has no row and all of its clusters are asked for; or it has rows, `save`
already holds its content, some cluster is passed over, and no request finds a row. -/
def ReadersMeet (a : ZorderArray) (rows : ArrayRows) (last : Option Bytes) (garbage : Nat → Nat)
    (loaded : Finset Nat) (save : Bytes) : Prop :=
  ((∀ key, rows key = none) ∧ AllNew (clusterIds a) loaded) ∨
    ((∃ key, rows key ≠ none) ∧ last = some save ∧ ¬ AllNew (clusterIds a) loaded ∧
      NoBlockHit rows garbage (clusterIds a) loaded)

theorem sameOutcome_iff {a : ZorderArray} {rows : ArrayRows} {last : Option Bytes} (hrows : RowsOf a rows last)
    (sid : StorageId) (garbage : Nat → Nat) (loaded : Finset Nat) (save : a.Buffer) :
    SameOutcome (readNumpyFromCas a rows garbage loaded save.1).1 (readNumpyFromCasByCoords a sid rows save.1) ↔
      ReadersMeet a rows last garbage loaded save.1 := by
  by_cases hnone : ∀ key, rows key = none
  · have hexists : ¬ ∃ key, rows key ≠ none := fun ⟨key, hkey⟩ => hkey (hnone key)
    rw [readByCoords_none sid save.1 hnone, readNumpy_none fun _ _ _ => hnone _, ReadersMeet]
    by_cases hnew : AllNew (clusterIds a) loaded
    · simp [hnew, hnone, SameOutcome]
    · simp [hnew, hexists, SameOutcome]
  · have hexists : ∃ key, rows key ≠ none := not_forall.mp hnone
    cases last with
    | none => exact absurd hrows hnone
    | some content =>
      obtain ⟨bytes, parts, rfl, hcontent, hheld⟩ := hrows
      rw [readByCoords_content sid save hcontent hheld hexists, ReadersMeet]
      by_cases hhit : NoBlockHit rows garbage (clusterIds a) loaded
      · rw [readNumpy_none hhit]
        by_cases hnew : AllNew (clusterIds a) loaded
        · rw [if_pos hnew]
          refine iff_of_false (fun h => h) ?_
          rintro (⟨hrow, -⟩ | ⟨-, -, hold, -⟩)
          · exact hnone hrow
          · exact hold hnew
        · simp [hnew, hhit, hexists, SameOutcome, eq_comm]
      · rw [readNumpy_hit hhit]
        refine iff_of_false (fun h => h) ?_
        rintro (⟨hrow, -⟩ | ⟨-, -, -, hmiss⟩)
        · exact hnone hrow
        · exact hhit hmiss

/-- At every point of every session, when the two readers of an array end alike. -/
theorem readers_agree_iff (arrays : StorageId → ZorderArray) (calls : List (StoreCall arrays)) (sid : StorageId)
    (save : (arrays sid).Buffer) (garbage : Nat → Nat) :
    SameOutcome
        (readNumpyFromCas (arrays sid) ((runCalls calls).rows sid) garbage (runCalls calls).loaded save.1).1
        (readNumpyFromCasByCoords (arrays sid) sid ((runCalls calls).rows sid) save.1) ↔
      ReadersMeet (arrays sid) ((runCalls calls).rows sid) (lastStored calls sid) garbage
        (runCalls calls).loaded save.1 :=
  sameOutcome_iff (rowsOf_run calls sid) sid garbage _ save

/-- A read that finds no row leaves all of its clusters in the set. -/
theorem readClusters_loaded {rows : ArrayRows} {garbage : Nat → Nat} {ids : List Nat} {loaded : Finset Nat}
    {cached : Bool} {parts : List Partition} (h : ∀ key, rows key = none) :
    (readClusters rows garbage ids loaded cached parts).2 = ids.toFinset ∪ loaded := by
  induction ids generalizing loaded cached parts with
  | nil => exact (Finset.empty_union loaded).symm
  | cons first ids ih =>
    rw [readClusters, List.toFinset_cons, Finset.insert_union]
    by_cases hfirst : first ∈ loaded
    · rw [if_pos hfirst, ih, Finset.insert_eq_of_mem (Finset.mem_union_right _ hfirst)]
    · rw [if_neg hfirst, getCrow, h]
      exact ih.trans (Finset.union_insert _ _ _)

theorem readNumpy_loaded {a : ZorderArray} {rows : ArrayRows} {garbage : Nat → Nat} {loaded : Finset Nat}
    {save : Bytes} (h : ∀ key, rows key = none) :
    (readNumpyFromCas a rows garbage loaded save).2 = (clusterIds a).toFinset ∪ loaded := by
  have hloaded := @readClusters_loaded rows garbage (clusterIds a) loaded false [] h
  rw [readNumpyFromCas]
  generalize readClusters rows garbage (clusterIds a) loaded false [] = result at hloaded
  obtain ⟨outcome, loaded'⟩ := result
  cases outcome with
  | error e => exact hloaded
  | ok read =>
    dsimp only
    split <;> exact hloaded

theorem squareFloats_dims_lt : ∀ d ∈ [2, 2], d < 2 ^ 32 := by decide

/-- Two by two floats, in one block. -/
def squareFloats : ZorderArray where
  metas := ⟨4, [2, 2], floatSize_lt, squareFloats_dims_lt⟩
  rowElements := 32
  row_pos := by decide
  block_fits := by decide
  elem_pos := by decide
  dims_ne := by decide
  ndims_le := by decide
  fits := by decide
  morton := by
    intro cc h
    have hblocks : blocksDim ⟨4, [2, 2], floatSize_lt, squareFloats_dims_lt⟩ 32 = List.replicate 2 1 := by decide
    rw [hblocks] at h
    rw [inGrid_replicate_one h]
    decide

def squares : StorageId → ZorderArray := fun _ => squareFloats

def filled (b : UInt8) (sid : StorageId) : (squares sid).Buffer := ⟨List.replicate 16 b, List.length_replicate⟩

theorem squareFloats_clusterIds : clusterIds squareFloats = [0] := by
  rw [clusterIds, ZorderCurveGenerator.clusterIds, if_neg (by decide), ZorderCurveGenerator.clusterIds,
    if_pos (by decide)]
  decide

theorem squareFloats_rows {rows : ArrayRows} {content : Bytes} (h : RowsOf squareFloats rows (some content)) :
    ∃ key, rows key ≠ none := by
  obtain ⟨bytes, parts, -, hcontent, hheld⟩ := h
  have hlen : parts.length = 1 := by
    have hkeys := congrArg List.length hcontent.keys
    rw [List.length_map, List.length_map, List.length_range] at hkeys
    exact hkeys.trans (by decide)
  obtain ⟨part, rfl⟩ := List.length_eq_one_iff.mp hlen
  refine ⟨part.key, ?_⟩
  rw [hheld.held part List.mem_cons_self]
  exact hcontent.data part List.mem_cons_self

def storedOnce : List (StoreCall squares) := [.storeNumpy "x" (filled 1 "x") fun _ _ => 0]

def readOnce : List (StoreCall squares) := [.readNumpy "x" (filled 0 "x") fun _ => 1]

/-- A stored array is not read by clusters. An array that was never stored is, after a first
read of it has thrown. -/
theorem readers_differ :
    ¬ SameOutcome
        (readNumpyFromCas (squares "x") ((runCalls storedOnce).rows "x") (fun _ => 1)
          (runCalls storedOnce).loaded (filled 0 "x").1).1
        (readNumpyFromCasByCoords (squares "x") "x" ((runCalls storedOnce).rows "x") (filled 0 "x").1) ∧
      ¬ SameOutcome
        (readNumpyFromCas (squares "x") ((runCalls readOnce).rows "x") (fun _ => 1)
          (runCalls readOnce).loaded (filled 0 "x").1).1
        (readNumpyFromCasByCoords (squares "x") "x" ((runCalls readOnce).rows "x") (filled 0 "x").1) := by
  constructor
  · rw [sameOutcome_iff (rowsOf_run storedOnce "x")]
    have hrows : ∃ key, (runCalls storedOnce).rows "x" key ≠ none := squareFloats_rows (rowsOf_run storedOnce "x")
    have hloaded : (runCalls storedOnce).loaded = ∅ := by
      obtain ⟨parts, hparts, -⟩ := exists_stored (squares "x") (filled 1 "x") fun _ _ => 0
      rw [runCalls, storedOnce, List.foldl_cons, List.foldl_nil, StoreCall.step, hparts]
      rfl
    rintro (⟨hnone, -⟩ | ⟨-, -, hold, -⟩)
    · obtain ⟨key, hkey⟩ := hrows
      exact hkey (hnone key)
    · refine hold ?_
      rw [hloaded, squares, squareFloats_clusterIds]
      decide
  · rw [sameOutcome_iff (rowsOf_run readOnce "x")]
    have hnone : ∀ key, (runCalls readOnce).rows "x" key = none := rowsOf_run readOnce "x"
    have hloaded : (runCalls readOnce).loaded = (clusterIds squareFloats).toFinset ∪ ∅ :=
      @readNumpy_loaded squareFloats (fun _ => none) (fun _ => 1) ∅ (filled 0 "x").1 fun _ => rfl
    rintro (⟨-, hnew⟩ | ⟨⟨key, hkey⟩, -⟩)
    · rw [hloaded, squares, squareFloats_clusterIds] at hnew
      revert hnew
      decide
    · exact hkey (hnone key)

end ArrayDataStore

end Hecuba
