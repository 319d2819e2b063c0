import Hecuba.StoredKeys

/-! Arrays by columns: what `store_numpy_into_cas_as_arrow` writes for each column, and what
`read_numpy_from_cas_arrow` makes of it. -/

namespace Hecuba

/-- The Arrow library, which is not part of the repository: a file with one record batch of
one column, and the batches of a file, each by its length and the bytes of its values. -/
structure ArrowLibrary where
  writeRecordBatch : List Bytes → Bytes
  recordBatches : Bytes → Except Fault (List (Nat × Bytes))

def ArrowLibrary.KeepsBatches (arrow : ArrowLibrary) : Prop :=
  ∀ elements, arrow.recordBatches (arrow.writeRecordBatch elements) = .ok [(elements.length, elements.flatten)]

/-- The metadata that the columnar calls read. -/
structure ColumnarMetadata extends ArrayMetadata where
  strides : List Nat
  strides_lt : ∀ s ∈ strides, s < 2 ^ 32

structure BufferRow where
  clusterId : Nat
  colId : Nat
  rowId : Nat
  sizeElem : Nat
  payload : Bytes
  deriving DecidableEq, Repr

def BufferRow.key (row : BufferRow) : Nat × Nat := (row.clusterId, row.colId)

def appendColumn (data : Bytes) (elemSize numRows src : Nat) : Except Fault (List Bytes × Nat) :=
  (List.range numRows).foldlM (fun (elements, src) _ =>
    if src + elemSize ≤ data.length then .ok (elements ++ [(data.drop src).take elemSize], src + elemSize)
    else .error .outOfBounds) ([], src)

def arrowPayload (file : Bytes) : Bytes := toLittleEndian 8 file.length ++ file

namespace ColumnarMetadata

variable (arrow : ArrowLibrary) (metas : ColumnarMetadata)

def storeColumn (r numRows : Nat) (data : Bytes) (state : Nat × Nat × List BufferRow) (i : Nat) :
    Except Fault (Nat × Nat × List BufferRow) := do
  let (src, clusterId, rows) := state
  let (elements, src) ← appendColumn data metas.elemSize numRows src
  let clusterId := if 0 < i ∧ i % r = 0 then u32 (clusterId + 1) else clusterId
  return (src, clusterId, rows ++ [⟨clusterId, i, 0, metas.elemSize, arrowPayload (arrow.writeRecordBatch elements)⟩])

/-- The rows that are put in the buffer table; `r` stands for what `get_row_elements` returns. -/
def storeNumpyIntoCasAsArrow (r : Nat) (data : Bytes) : Except Fault (List BufferRow) :=
  match metas.dims with
  | [numRows, numColumns] => do
    return (← (List.range numColumns).foldlM (metas.storeColumn arrow r numRows data) (0, 0, [])).2.2
  | _ => .error .outOfBounds

/-- What the arrow table holds under a key once the rows of the buffer have been moved to it:
the file that the row carries. -/
def transferred (rows : List BufferRow) (key : Nat × Nat) : Option Bytes :=
  (rows.find? fun row => row.key = key).map fun row => row.payload.drop 8

def copyBatches (rowSize col : Nat) (batches : List (Nat × Bytes)) (save : Bytes) : Except Fault Bytes :=
  batches.foldlM (fun save (length, bytes) =>
    memcpy save (u64 (col * rowSize)) bytes 0 (length * metas.elemSize)) save

def readColumn (r : Nat) (table : Nat × Nat → Option Bytes) (save : Bytes) (col : Nat) : Except Fault Bytes :=
  match metas.strides with
  | _ :: rowSize :: _ =>
    match table (u32 (col / r), col) with
    | none => .ok save
    | some file => do
      metas.copyBatches rowSize col (← arrow.recordBatches file) save
  | _ => .error .outOfBounds

def readNumpyFromCasArrow (r : Nat) (table : Nat × Nat → Option Bytes) (cols : List Nat) (save : Bytes) :
    Except Fault Bytes :=
  cols.foldlM (metas.readColumn arrow r table) save

end ColumnarMetadata

/-- An array of two dimensions with its columns one after the other. -/
structure ColumnMajor extends ColumnarMetadata where
  numRows : Nat
  numColumns : Nat
  dims_eq : dims = [numRows, numColumns]
  strides_eq : ∃ s, strides = [s, numRows * elemSize]
  elemSize_pos : 0 < elemSize

namespace ColumnMajor

variable {arrow : ArrowLibrary} {metas : ColumnMajor} {r : Nat} {data : Bytes}

def columnBytes (metas : ColumnMajor) : Nat := metas.numRows * metas.elemSize

def column (metas : ColumnMajor) (data : Bytes) (i : Nat) : Bytes :=
  (data.drop (i * metas.columnBytes)).take metas.columnBytes

def InColumn (metas : ColumnMajor) (col a : Nat) : Prop :=
  col * metas.columnBytes ≤ a ∧ a < col * metas.columnBytes + metas.columnBytes

theorem appendColumn_ok {elemSize numRows src : Nat} (hfits : src + numRows * elemSize ≤ data.length) :
    ∃ elements, appendColumn data elemSize numRows src = .ok (elements, src + numRows * elemSize) ∧
      elements.length = numRows ∧ elements.flatten = (data.drop src).take (numRows * elemSize) := by
  induction numRows with
  | zero => exact ⟨[], by simp [appendColumn, pure, Except.pure], rfl, by simp⟩
  | succ n ih =>
    have hn : (n + 1) * elemSize = n * elemSize + elemSize := Nat.succ_mul n elemSize
    obtain ⟨elements, hok, hlen, hflat⟩ := ih (by omega)
    refine ⟨elements ++ [(data.drop (src + n * elemSize)).take elemSize], ?_, by simp [hlen], ?_⟩
    · rw [hn, ← Nat.add_assoc]
      exact foldlM_range_succ hok (if_pos (by omega))
    · rw [List.flatten_append, hflat, hn, List.take_add, List.drop_drop]
      simp

def bufferRow (arrow : ArrowLibrary) (metas : ColumnMajor) (r : Nat) (elements : List Bytes) (i : Nat) : BufferRow :=
  ⟨u32 (i / r), i, 0, metas.elemSize, arrowPayload (arrow.writeRecordBatch elements)⟩

def IsColumns (metas : ColumnMajor) (data : Bytes) (batches : List (List Bytes)) : Prop :=
  ∀ i elements, batches[i]? = some elements →
    elements.length = metas.numRows ∧ elements.flatten = metas.column data i

/-- The rows written for the first `n` columns. -/
theorem storeColumns (arrow : ArrowLibrary) (metas : ColumnMajor) (r : Nat) {n : Nat}
    (hfits : n * metas.columnBytes ≤ data.length) :
    ∃ batches, (List.range n).foldlM (metas.storeColumn arrow r metas.numRows data) (0, 0, []) =
        .ok (n * metas.columnBytes, u32 ((n - 1) / r),
          batches.mapIdx fun i elements => bufferRow arrow metas r elements i) ∧
      batches.length = n ∧ metas.IsColumns data batches := by
  induction n with
  | zero => exact ⟨[], by simp [u32, pure, Except.pure], rfl, by simp [IsColumns]⟩
  | succ n ih =>
    have hn : (n + 1) * metas.columnBytes = n * metas.columnBytes + metas.columnBytes := Nat.succ_mul _ _
    obtain ⟨batches, hok, hlen, hbatches⟩ := ih (by omega)
    obtain ⟨elements, happend, hcount, hflat⟩ : ∃ elements, appendColumn data metas.elemSize metas.numRows
        (n * metas.columnBytes) = .ok (elements, (n + 1) * metas.columnBytes) ∧ elements.length = metas.numRows ∧
          elements.flatten = metas.column data n := by
      rw [hn] at hfits ⊢
      exact appendColumn_ok hfits
    refine ⟨batches ++ [elements], foldlM_range_succ hok ?_, by simp [hlen], fun i chosen hi => ?_⟩
    · rw [ColumnarMetadata.storeColumn, Nat.add_sub_cancel, List.mapIdx_append, ← clusterId_succ r n]
      refine bind_ok_iff.mpr ⟨_, happend, ?_⟩
      simp [bufferRow, clusterId_succ, hlen, pure, Except.pure]
    · rcases Nat.lt_or_ge i n with hlt | hge
      · rw [List.getElem?_append_left (by omega)] at hi
        exact hbatches i chosen hi
      · obtain rfl : i = n := by
          have hlt := (List.getElem?_eq_some_iff.mp hi).1
          simp only [List.length_append, List.length_singleton] at hlt
          omega
        rw [List.getElem?_append_right (by omega), hlen, Nat.sub_self] at hi
        cases hi
        exact ⟨hcount, hflat⟩

theorem stored_rows (arrow : ArrowLibrary) (metas : ColumnMajor) (r : Nat)
    (hdata : data.length = metas.numColumns * metas.columnBytes) :
    ∃ batches, metas.storeNumpyIntoCasAsArrow arrow r data =
        .ok (batches.mapIdx fun i elements => bufferRow arrow metas r elements i) ∧
      batches.length = metas.numColumns ∧ metas.IsColumns data batches := by
  obtain ⟨batches, hok, hlen, hbatches⟩ := metas.storeColumns arrow r (Nat.le_of_eq hdata.symm)
  refine ⟨batches, ?_, hlen, hbatches⟩
  rw [ColumnarMetadata.storeNumpyIntoCasAsArrow, metas.dims_eq]
  exact bind_ok_iff.mpr ⟨_, hok, rfl⟩

theorem bufferRow_keys (batches : List (List Bytes)) :
    (batches.mapIdx fun i elements => bufferRow arrow metas r elements i).map BufferRow.key =
      (List.range batches.length).map fun i => (u32 (i / r), i) := by
  refine List.ext_getElem (by simp) fun i hi hi' => ?_
  simp [bufferRow, BufferRow.key]

theorem stored_keys {rows : List BufferRow} (h : metas.storeNumpyIntoCasAsArrow arrow r data = .ok rows)
    (hdata : data.length = metas.numColumns * metas.columnBytes) :
    Hecuba.storeNumpyIntoCasAsArrow metas.toArrayMetadata r = .ok (rows.map BufferRow.key) := by
  obtain ⟨batches, hok, hlen, -⟩ := metas.stored_rows arrow r hdata
  obtain rfl := Except.ok.inj (hok.symm.trans h)
  rw [Hecuba.storeNumpyIntoCasAsArrow, metas.dims_eq, bufferRow_keys, hlen]
  exact congrArg (fun state => Except.ok state.2) (arrow_columns r metas.numColumns)

theorem transferred_column {batches : List (List Bytes)} {i : Nat} {elements : List Bytes}
    (hi : batches[i]? = some elements) :
    ColumnarMetadata.transferred (batches.mapIdx fun i elements => bufferRow arrow metas r elements i)
      (u32 (i / r), i) = some (arrow.writeRecordBatch elements) := by
  have hfind : (batches.mapIdx fun i elements => bufferRow arrow metas r elements i).find?
      (fun row => row.key = (u32 (i / r), i)) = some (bufferRow arrow metas r elements i) := by
    rw [List.find?_eq_some_iff_getElem]
    obtain ⟨hlt, hget⟩ := List.getElem?_eq_some_iff.mp hi
    refine ⟨by simp [bufferRow, BufferRow.key], i, by simpa using hlt, by simp [hget], fun j hj => ?_⟩
    simp [bufferRow, BufferRow.key]
    omega
  rw [ColumnarMetadata.transferred, hfind]
  simp [bufferRow, arrowPayload, toLittleEndian_length]

theorem column_offset (metas : ColumnMajor) {col : Nat} (hcol : col < metas.numColumns) :
    u64 (col * metas.columnBytes) = col * metas.columnBytes := by
  have hcolumns : metas.numColumns < 2 ^ 32 := metas.dims_lt _ (by simp [metas.dims_eq])
  obtain ⟨s, hstrides⟩ := metas.strides_eq
  have hbytes : metas.columnBytes < 2 ^ 32 := metas.strides_lt _ (by simp [hstrides, columnBytes])
  refine u64_of_lt ?_
  calc col * metas.columnBytes ≤ 2 ^ 32 * metas.columnBytes := Nat.mul_le_mul_right _ (by omega)
    _ < 2 ^ 32 * 2 ^ 32 := Nat.mul_lt_mul_of_pos_left hbytes (by decide)
    _ = 2 ^ 64 := by norm_num

theorem column_end_le (metas : ColumnMajor) {col : Nat} (hcol : col < metas.numColumns) :
    col * metas.columnBytes + metas.columnBytes ≤ metas.numColumns * metas.columnBytes := by
  calc col * metas.columnBytes + metas.columnBytes = (col + 1) * metas.columnBytes := (Nat.succ_mul _ _).symm
    _ ≤ metas.numColumns * metas.columnBytes := Nat.mul_le_mul_right _ hcol

/-- A column that is read becomes that of the array, and nothing else changes. -/
theorem readColumn_restores (harrow : arrow.KeepsBatches) {table : Nat × Nat → Option Bytes} {N col : Nat}
    {elements : List Bytes} (hdata : data.length = metas.numColumns * metas.columnBytes)
    (hN : metas.numColumns * metas.columnBytes ≤ N) (hcol : col < metas.numColumns)
    (hcount : elements.length = metas.numRows) (hflat : elements.flatten = metas.column data col)
    (htable : table (u32 (col / r), col) = some (arrow.writeRecordBatch elements)) :
    Restores (metas.readColumn arrow r table) data N col (metas.InColumn col) := by
  intro save hsave
  obtain ⟨s, hstrides⟩ := metas.strides_eq
  have hrow : metas.numRows * metas.elemSize = metas.columnBytes := rfl
  have hend := metas.column_end_le hcol
  have hlen : (metas.column data col).length = metas.columnBytes := by
    rw [column, List.length_take, List.length_drop]
    omega
  have hd : col * metas.columnBytes + metas.columnBytes ≤ save.length := by omega
  have hs : 0 + metas.columnBytes ≤ (metas.column data col).length := by omega
  refine ⟨overwrite save (col * metas.columnBytes) (metas.column data col) 0 metas.columnBytes, ?_,
    (overwrite_length hd hs).trans hsave, fun a ha => ?_, fun a ha => ?_⟩
  · rw [ColumnarMetadata.readColumn, hstrides]
    simp only [htable]
    refine bind_ok_iff.mpr ⟨_, harrow elements, ?_⟩
    rw [ColumnarMetadata.copyBatches, List.foldlM_cons]
    refine bind_ok_iff.mpr ⟨_, ?_, rfl⟩
    simp only [hcount, hflat, hrow, metas.column_offset hcol]
    exact if_pos ⟨hd, hs⟩
  · have hin : col * metas.columnBytes ≤ a ∧ a < col * metas.columnBytes + metas.columnBytes := ha
    rw [overwrite_getElem? hd hs, if_pos hin, column, Nat.zero_add, List.getElem?_take_of_lt (by omega),
      List.getElem?_drop, Nat.add_sub_cancel' hin.1]
  · have hout : ¬(col * metas.columnBytes ≤ a ∧ a < col * metas.columnBytes + metas.columnBytes) := ha
    rw [overwrite_getElem? hd hs, if_neg hout]

/-- The columns of an array stored by columns come back, from the keys that were written and
with no change to the rest of the destination. -/
theorem columns_round_trip (harrow : arrow.KeepsBatches) (metas : ColumnMajor) (r : Nat) (data save : Bytes)
    (cols : List Nat) (hdata : data.length = metas.numColumns * metas.columnBytes)
    (hsave : metas.numColumns * metas.columnBytes ≤ save.length) (hcols : ∀ col ∈ cols, col < metas.numColumns) :
    ∃ rows, metas.storeNumpyIntoCasAsArrow arrow r data = .ok rows ∧
      (∀ key ∈ Hecuba.readNumpyFromCasArrow r cols, key ∈ rows.map BufferRow.key) ∧
      ∃ out, metas.readNumpyFromCasArrow arrow r (ColumnarMetadata.transferred rows) cols save = .ok out ∧
        out.length = save.length ∧ (∀ col ∈ cols, ∀ a, metas.InColumn col a → out[a]? = data[a]?) ∧
        ∀ a, (∀ col ∈ cols, ¬ metas.InColumn col a) → out[a]? = save[a]? := by
  obtain ⟨batches, hok, hlen, hbatches⟩ := metas.stored_rows arrow r hdata
  refine ⟨_, hok, fun key hkey => ?_, ?_⟩
  · obtain ⟨col, hcol, rfl⟩ := List.mem_map.mp hkey
    rw [bufferRow_keys, hlen]
    exact List.mem_map_of_mem (List.mem_range.mpr (hcols col hcol))
  · have hsteps : List.Forall₂ (fun col col' => Restores
        (metas.readColumn arrow r (ColumnarMetadata.transferred
          (batches.mapIdx fun i elements => bufferRow arrow metas r elements i)))
        data save.length col' (metas.InColumn col)) cols cols := by
      refine List.forall₂_same.mpr fun col hcol => ?_
      have hlt := hcols col hcol
      have hget := List.getElem?_eq_getElem (show col < batches.length by omega)
      obtain ⟨hcount, hflat⟩ := hbatches col _ hget
      exact readColumn_restores harrow hdata hsave hlt hcount hflat (transferred_column hget)
    obtain ⟨out, hout, hlength, hmoved, hframe⟩ := Restores.foldlM hsteps save rfl
    refine ⟨out, hout, hlength, fun col hcol a ha => hmoved a ⟨col, hcol, ha⟩, fun a ha => hframe a ?_⟩
    rintro ⟨col, hcol, hin⟩
    exact ha col hcol hin

end ColumnMajor

def unaryLibrary : ArrowLibrary where
  writeRecordBatch elements := List.replicate elements.length 1 ++ 0 :: elements.flatten
  recordBatches file := .ok [((file.takeWhile (· == 1)).length, (file.dropWhile (· == 1)).drop 1)]

theorem unaryLibrary_keepsBatches : unaryLibrary.KeepsBatches := by
  intro elements
  have htake (n : Nat) (rest : Bytes) : (List.replicate n 1 ++ 0 :: rest).takeWhile (· == (1 : UInt8)) =
      List.replicate n 1 := by
    induction n with
    | zero => rfl
    | succ n ih => simp [List.replicate_succ]
  have hdrop (n : Nat) (rest : Bytes) : (List.replicate n 1 ++ 0 :: rest).dropWhile (· == (1 : UInt8)) =
      0 :: rest := by
    induction n with
    | zero => rfl
    | succ n ih => simp [List.replicate_succ]
  simp [unaryLibrary, htake, hdrop]

theorem byteSize_lt : 1 < 2 ^ 32 := by decide

def threeColumns : ColumnMajor where
  elemSize := 1
  dims := [2, 3]
  elemSize_lt := byteSize_lt
  dims_lt := by decide
  strides := [1, 2]
  strides_lt := by decide
  numRows := 2
  numColumns := 3
  dims_eq := rfl
  strides_eq := ⟨1, rfl⟩
  elemSize_pos := by decide

theorem columns_round_trip_three :
    ∃ rows, threeColumns.storeNumpyIntoCasAsArrow unaryLibrary 2 [1, 2, 3, 4, 5, 6] = .ok rows ∧
      (∀ key ∈ readNumpyFromCasArrow 2 [2, 0, 2], key ∈ rows.map BufferRow.key) ∧
      ∃ out, threeColumns.readNumpyFromCasArrow unaryLibrary 2 (ColumnarMetadata.transferred rows) [2, 0, 2]
          (List.replicate 6 0) = .ok out ∧ out.length = 6 ∧
        (∀ col ∈ [2, 0, 2], ∀ a, threeColumns.InColumn col a → out[a]? = [1, 2, 3, 4, 5, 6][a]?) ∧
        ∀ a, (∀ col ∈ [2, 0, 2], ¬ threeColumns.InColumn col a) → out[a]? = (List.replicate 6 0)[a]? :=
  ColumnMajor.columns_round_trip unaryLibrary_keepsBatches threeColumns 2 _ (List.replicate 6 0) [2, 0, 2] rfl
    (by decide) (by decide)

end Hecuba
