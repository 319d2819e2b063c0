import Hecuba.CassBinding

/-! A row bound to a statement and read again from the columns of a result: the same values, but
for what a date keeps of a time and a boolean of its byte. -/

namespace Hecuba

/-- The values of the fields of a tuple, from number `i` on. -/
def fieldsFrom (heap : Heap) (row : TupleRowData) : List ColumnMeta → Nat → Except Fault (List (Option Bytes))
  | [], _ => .ok []
  | m :: metadata, i => do return (← elementAt heap row m i) :: (← fieldsFrom heap row metadata (i + 1))

inductive ColumnValue where
  | scalar (value : Bytes)
  | tuple (fields : List (Option Bytes))
  deriving DecidableEq

/-- What the cells of a column denote. -/
inductive CellsHold (heap : Heap) (m : ColumnMeta) : List Cell → ColumnValue → Prop
  | scalar {cells : List Cell} {value : Bytes} (ht : m.type ≠ .tuple) (h : readValue heap m.type cells = .ok value) :
      CellsHold heap m cells (.scalar value)
  | tuple {address : Nat} {inner : TupleRowData} {fields : List (Option Bytes)} (ht : m.type = .tuple)
      (hrow : derefRow heap address = .ok inner) (hm : inner.metadatas = m.pointer)
      (hf : fieldsFrom heap inner m.pointer 0 = .ok fields) : CellsHold heap m (pointerCells address) (.tuple fields)

inductive ColumnHolds (heap : Heap) (row : TupleRowData) (m : ColumnMeta) (i : Nat) : Option ColumnValue → Prop
  | null (hn : row.isNull i = true) : ColumnHolds heap row m i none
  | value {cells : List Cell} {v : ColumnValue} (hn : row.isNull i = false)
      (hload : load row.data m.position m.size = .ok cells) (hv : CellsHold heap m cells v) :
      ColumnHolds heap row m i (some v)

def ColumnsHold (heap : Heap) (row : TupleRowData) : List ColumnMeta → Nat → List (Option ColumnValue) → Prop
  | [], _, [] => True
  | m :: metadata, i, value :: values =>
    ColumnHolds heap row m i value ∧ ColumnsHold heap row metadata (i + 1) values
  | _, _, _ => False

/-- A row of a table and its values. -/
structure RowHolds (heap : Heap) (s : Schema) (row : TupleRowData) (values : List (Option ColumnValue)) : Prop where
  metadatas : row.metadatas = s.columns
  columns : ColumnsHold heap row s.columns 0 values

namespace CassValueType

/-- The types that a column outside of a tuple can have. -/
def isBindable (type : CassValueType) : Bool :=
  type.isPlain || type = .blob || type = .date || type = .time || type = .timestamp

/-- Blobs and booleans are not bound as such inside of a tuple. -/
def isField (type : CassValueType) : Bool := type.isBindable && type ≠ .blob && type ≠ .boolean

end CassValueType

/-- The columns of a tuple as TableMetadata lays them out. -/
structure TupleOf (pointer : List ColumnMeta) : Prop where
  nonempty : pointer ≠ []
  laidOut : LaidOut 0 pointer
  bounded : pointer.length < 2 ^ 16
  narrow : sizeSum pointer < 2 ^ 16
  fields : ∀ m ∈ pointer, m.type.isField = true

/-- What the driver is given for a value of a column. -/
def given (D : DriverDates) (type : CassValueType) (value : Bytes) : CassValue :=
  match type with
  | .varchar | .text | .ascii => .string value
  | .blob => .bytes (value.drop 8)
  | .boolean => .bool (value != [0])
  | .double => .number .double (byteCells value)
  | .float => .number .float (byteCells value)
  | .int => .number .int32 (byteCells value)
  | .uuid => uuid2cassuuid value
  | .smallInt => .number .int16 (byteCells value)
  | .tinyInt => .number .int8 (byteCells value)
  | .date => .uint32 (D.fromEpoch value)
  | _ => .number .int64 (byteCells value)

def givenField (D : DriverDates) (m : ColumnMeta) : Option Bytes → CassValue
  | none => .null
  | some value => given D m.type value

def givenColumn (D : DriverDates) (m : ColumnMeta) : Option ColumnValue → CassValue
  | none => .null
  | some (.scalar value) => given D m.type value
  | some (.tuple fields) => .tuple (List.zipWith (givenField D) m.pointer fields)

/-- What is read of a value. -/
def settledBytes (D : DriverDates) (type : CassValueType) (value : Bytes) : Bytes :=
  match type with
  | .date => D.toEpoch (D.fromEpoch value)
  | .boolean => [if value = [0] then 0 else 1]
  | _ => value

def settledFields (D : DriverDates) (pointer : List ColumnMeta) (fields : List (Option Bytes)) : List (Option Bytes) :=
  List.zipWith (fun f => Option.map (settledBytes D f.type)) pointer fields

def settled (D : DriverDates) (m : ColumnMeta) : ColumnValue → ColumnValue
  | .scalar value => .scalar (settledBytes D m.type value)
  | .tuple fields => .tuple (settledFields D m.pointer fields)

/-- The bytes that a value of a column of `size` bytes can be. -/
def WellFormed (type : CassValueType) (size : Nat) (value : Bytes) : Prop :=
  match type with
  | .varchar | .text | .ascii => ∀ b ∈ value, b ≠ 0
  | .uuid => value.length = 16
  | .blob => ∃ content : Bytes, content.length < 2 ^ 64 ∧ value = toLittleEndian 8 content.length ++ content
  | _ => value.length = size

section words

theorem toLittleEndian_ofLittleEndian (bytes : Bytes) : toLittleEndian bytes.length (ofLittleEndian bytes) = bytes := by
  induction bytes with
  | nil => rfl
  | cons b bytes ih =>
    have hb := b.toNat_lt
    have hdiv : (b.toNat + 256 * ofLittleEndian bytes) / 256 = ofLittleEndian bytes := by omega
    simp [ofLittleEndian, toLittleEndian, hdiv, ih]

theorem ofLittleEndian_lt (bytes : Bytes) : ofLittleEndian bytes < 256 ^ bytes.length := by
  induction bytes with
  | nil => exact Nat.one_pos
  | cons b bytes ih =>
    have hb := b.toNat_lt
    rw [ofLittleEndian, List.length_cons, Nat.pow_succ]
    omega

theorem loadWord_eq {cells : List Cell} {pos n : Nat} (h : loadWord cells pos = .ok n) :
    ∃ bytes, loadBytes cells pos 8 = .ok bytes ∧ n = ofLittleEndian bytes := by
  obtain ⟨bytes, hb, h⟩ := bind_eq_ok h
  refine ⟨bytes, hb, (Except.ok.inj h).symm.trans ?_⟩
  clear hb h
  induction bytes with
  | nil => rfl
  | cons b bytes ih => simpa [ofLittleEndian] using ih

/-- Turning the bytes round twice. -/
theorem recode_recode {order : List Nat} (hlen : order.length = 8) (hback : ∀ k < 8, order.getD (order.getD k 0) 0 = k)
    (hin : ∀ k < 8, order.getD k 0 < 8) {bytes : Bytes} (h : bytes.length = 8) :
    recode order (recode order bytes) = bytes := by
  have hget (l : Bytes) {k : Nat} (hk : k < 8) : (recode order l).getD k 0 = l.getD (order.getD k 0) 0 := by
    have hk' : k < order.length := hlen ▸ hk
    simp [recode, hk']
  have hl : (recode order (recode order bytes)).length = 8 := by simp [recode, hlen]
  refine List.ext_getElem (by rw [hl, h]) fun k hk hk' => ?_
  have hk8 : k < 8 := by rwa [hl] at hk
  have htwice := hget (recode order bytes) hk8
  rw [hget bytes (hin k hk8), hback k hk8] at htwice
  rwa [List.getD_eq_getElem _ _ hk, List.getD_eq_getElem _ _ hk'] at htwice

theorem cassuuid_round_trip {uuid : Bytes} (h : uuid.length = 16) :
    ∃ t c, uuid2cassuuid uuid = .uuid t c ∧ cassuuid2uuid t c = uuid := by
  refine ⟨_, _, rfl, ?_⟩
  rw [cassuuid2uuid, recode_recode (by decide) (by decide) (by decide) (by simp [h]),
    recode_recode (by decide) (by decide) (by decide) (by simp [h]), List.take_append_drop]

end words

section values

variable {heap heap' : Heap} {type : CassValueType} {cells : List Cell} {value : Bytes} {size : Nat}

theorem derefBlock_mono (hp : heap <+: heap') {a : Nat} (h : derefBlock heap a = .ok cells) :
    derefBlock heap' a = .ok cells :=
  derefBlock_of (getElem?_extends hp (derefBlock_eq h))

theorem readValue_mono (hp : heap <+: heap') (h : readValue heap type cells = .ok value) :
    readValue heap' type cells = .ok value := by
  have behind {α : Type} {f : List Cell → Except Fault α} {v : α}
      (h : (do f (← derefBlock heap (← addressOf cells))) = .ok v) :
      (do f (← derefBlock heap' (← addressOf cells))) = .ok v := by
    obtain ⟨a, ha, h⟩ := bind_eq_ok h
    obtain ⟨d, hd, h⟩ := bind_eq_ok h
    rw [ha, ok_bind, derefBlock_mono hp hd]
    exact h
  cases type
  case text | varchar | ascii | uuid | blob | udt => exact behind h
  all_goals exact h

theorem text_of_readValue (ht : type.isText = true) (h : readValue heap type cells = .ok value) :
    (do let d ← derefBlock heap (← addressOf cells); loadBytes d 0 (← strlen d)) = .ok value := by
  cases type <;> first | exact h | cases ht

/-- The count that a blob begins with, and the bytes behind it. -/
theorem blob_of_readValue (h : readValue heap .blob cells = .ok value) :
    ∃ a d n, addressOf cells = .ok a ∧ derefBlock heap a = .ok d ∧ loadWord d 0 = .ok n ∧
      loadBytes d 8 n = .ok (value.drop 8) ∧ WellFormed .blob 8 value := by
  obtain ⟨a, ha, h⟩ := bind_eq_ok h
  obtain ⟨d, hd, h⟩ := bind_eq_ok h
  obtain ⟨n, hn, h⟩ := bind_eq_ok h
  obtain ⟨hlen, rest, rfl⟩ := loadBytes_spec h
  obtain ⟨word, hword, rfl⟩ := loadWord_eq hn
  have hsplit : byteCells value ++ rest = byteCells (value.take 8) ++ (byteCells (value.drop 8) ++ rest) := by
    rw [← List.append_assoc, byteCells, byteCells, byteCells, ← List.map_append, List.take_append_drop]
  have htake : (value.take 8).length = 8 := by
    rw [List.length_take]
    omega
  rw [hsplit, loadBytes_zero htake] at hword
  obtain rfl := Except.ok.inj hword
  have hdrop : (value.drop 8).length = ofLittleEndian (value.take 8) := by
    rw [List.length_drop]
    omega
  refine ⟨a, _, _, ha, hd, hn, ?_, value.drop 8, ?_, ?_⟩
  · rw [loadBytes, load, if_pos (by simp only [List.length_append, byteCells_length]; omega), ok_bind, hsplit,
      List.drop_left' (by rw [byteCells_length, htake]), List.take_left' (by rw [byteCells_length, hdrop]),
      toBytes_byteCells]
  · have hlt := ofLittleEndian_lt (value.take 8)
    rwa [htake, ← hdrop] at hlt
  · have hle := toLittleEndian_ofLittleEndian (value.take 8)
    rw [htake] at hle
    rw [hdrop, hle, List.take_append_drop]

theorem wellFormed_of_readValue (ht : type.isBindable = true) (hlen : cells.length = size)
    (h : readValue heap type cells = .ok value) : WellFormed type size value := by
  have inline (h : toBytes cells = .ok value) : value.length = size := by
    rw [← hlen, eq_byteCells h, byteCells_length]
  have text (ht : type.isText = true) : ∀ b ∈ value, b ≠ 0 := by
    have hp := plain_of_readValue (by simp [CassValueType.isPlain, ht]) h
    cases hp with
    | inline hi => exact absurd ht (by rw [not_text_of_inline hi]; decide)
    | text _ hne _ => exact hne
    | uuid hu => cases hu; cases ht
  cases type
  case text | varchar | ascii => exact text rfl
  case uuid =>
    obtain ⟨a, -, h⟩ := bind_eq_ok h
    obtain ⟨d, -, h⟩ := bind_eq_ok h
    exact (loadBytes_spec h).1
  case blob =>
    obtain ⟨-, -, -, -, -, -, -, hv⟩ := blob_of_readValue h
    exact hv
  case bigint | boolean | double | float | int | timestamp | varint | date | time | smallInt | tinyInt =>
    exact inline h
  all_goals cases ht

end values

section bound

variable {D : DriverDates} {heap : Heap} {row : TupleRowData} {i : Nat} {m : ColumnMeta} {cells : List Cell}
  {value : Bytes}

theorem CassValueType.isBindable_of_isField {type : CassValueType} (h : type.isField = true) :
    type.isBindable = true ∧ type ≠ .blob ∧ type ≠ .boolean := by
  simpa [isField, and_assoc] using h

theorem bindTupleField_eq (ht : m.type.isField = true) :
    bindTupleField D heap m row i = bindColumn D heap m row i := by
  obtain ⟨position, size, type, pointer⟩ := m
  cases type <;> first | rfl | cases ht

theorem bindColumn_null (h : row.getElement i = none) : bindColumn D heap m row i = .ok .null := by
  rw [bindColumn, h]

theorem bindColumn_scalar (hget : row.getElement i = some m.position)
    (hload : load row.data m.position m.size = .ok cells) (hsize : computeSizeOf m.type = .ok m.size)
    (ht : m.type.isBindable = true) (hv : readValue heap m.type cells = .ok value) :
    bindColumn D heap m row i = .ok (given D m.type value) := by
  obtain ⟨position, size, type, pointer⟩ := m
  simp only at hget hload hsize ht hv
  have number {kind : NumberKind} {n : Nat} (hn : n = size) (hb : toBytes cells = .ok value) :
      loadNumber kind n row position = .ok (.number kind (byteCells value)) := by
    rw [loadNumber, hn, hload, eq_byteCells hb]
    rfl
  have inline {n : Nat} (hn : n = size) (hb : toBytes cells = .ok value) :
      loadBytes row.data position n = .ok value := by
    rw [loadBytes, hn, hload, ok_bind, hb]
  have pointer (hn : 8 = size) : loadPointer row.data position = addressOf cells := by
    rw [loadPointer, hn, hload, ok_bind]
  have text (hn : 8 = size) (htext : type.isText = true) : loadText heap row position = .ok value := by
    rw [loadText, pointer hn]
    exact text_of_readValue htext hv
  cases type
  case text | varchar | ascii =>
    cases hsize
    simp only [bindColumn, hget, text rfl rfl]
    rfl
  case bigint | varint | time | timestamp | double | float | int | smallInt | tinyInt =>
    cases hsize
    simp only [bindColumn, hget, number rfl hv]
    rfl
  case date =>
    cases hsize
    simp only [bindColumn, hget, inline rfl hv]
    rfl
  case boolean =>
    cases hsize
    simp only [bindColumn, hget, inline rfl hv]
    rfl
  case uuid =>
    cases hsize
    simp only [bindColumn, hget, loadUuid, pointer rfl]
    obtain ⟨a, ha, hv⟩ := bind_eq_ok hv
    obtain ⟨d, hd, hv⟩ := bind_eq_ok hv
    simp only [ha, ok_bind, hd, hv]
    rfl
  case blob =>
    cases hsize
    obtain ⟨a, d, n, ha, hd, hn, hb, -⟩ := blob_of_readValue hv
    simp only [bindColumn, hget, loadBlob, pointer rfl, ha, ok_bind, hd, hn, hb]
    rfl
  all_goals cases ht

end bound

section read

variable {D : DriverDates} {junk : Nat → UInt8} {m : ColumnMeta} {value : Bytes}

theorem readValue_permanent (heap : Heap) (bytes : Bytes) :
    derefBlock (permanent heap bytes).1 heap.length = .ok (byteCells bytes) :=
  derefBlock_of (by simp [permanent])

theorem text_permanent (heap : Heap) {type : CassValueType} (ht : type.isText = true) (hv : ∀ b ∈ value, b ≠ 0) :
    readValue (permanent heap (cString value)).1 type (pointerCells heap.length) = .ok value :=
  Plain.readValue (@Plain.text _ _ _ heap.length [] ht hv (by simp [permanent]))

theorem blob_permanent (heap : Heap) {content : Bytes} (hlt : content.length < 2 ^ 64) :
    readValue (permanent heap (toLittleEndian 8 content.length ++ content)).1 .blob (pointerCells heap.length) =
      .ok (toLittleEndian 8 content.length ++ content) := by
  have hword : loadWord (byteCells (toLittleEndian 8 content.length ++ content)) 0 = .ok content.length := by
    have happ : byteCells (toLittleEndian 8 content.length ++ content) =
        byteCells (toLittleEndian 8 content.length) ++ byteCells content := List.map_append
    rw [loadWord, happ, loadBytes_zero (toLittleEndian_length 8 content.length), ok_bind]
    refine congrArg Except.ok (Eq.trans ?_ (ofLittleEndian_toLittleEndian (k := 8) (hlt.trans_eq (by decide))))
    generalize toLittleEndian 8 content.length = word
    induction word with
    | nil => rfl
    | cons b word ih => simp [ofLittleEndian, ih]
  have hlen : (toLittleEndian 8 content.length ++ content).length = 8 + content.length := by
    rw [List.length_append, toLittleEndian_length]
  have hwhole := loadBytes_zero hlen []
  rw [List.append_nil] at hwhole
  show (do
    let d ← derefBlock _ (← addressOf (pointerCells heap.length))
    loadBytes d 0 (8 + (← loadWord d 0))) = _
  rw [addressOf_pointerCells, ok_bind, readValue_permanent, ok_bind, hword, ok_bind, hwhole]

theorem cassToC_scalar (ht : m.type.isBindable = true) (hsize : computeSizeOf m.type = .ok m.size)
    (hv : WellFormed m.type m.size value) (col : Nat) (heap : Heap) :
    ∃ heap' cells, TupleRowFactory.cassToC D junk m (given D m.type value) col heap = .ok (heap', some cells) ∧
      heap <+: heap' ∧ cells.length = m.size ∧
      readValue heap' m.type cells = .ok (settledBytes D m.type value) := by
  obtain ⟨position, size, type, pointer⟩ := m
  simp only at ht hsize hv ⊢
  have inline {cells : List Cell} {bytes : Bytes} (hc : cells = byteCells bytes) : toBytes cells = .ok bytes := by
    rw [hc, toBytes_byteCells]
  cases type
  case text | varchar | ascii =>
    cases hsize
    exact ⟨_, _, rfl, List.prefix_append _ _, rfl, text_permanent heap rfl hv⟩
  case blob =>
    cases hsize
    obtain ⟨content, hlt, rfl⟩ := hv
    have hdrop : (toLittleEndian 8 content.length ++ content).drop 8 = content :=
      List.drop_left' (toLittleEndian_length 8 content.length)
    refine ⟨_, _, ?_, List.prefix_append _ _, rfl, blob_permanent heap hlt⟩
    simp only [given, hdrop]
    rfl
  case uuid =>
    cases hsize
    obtain ⟨t, c, hgiven, hback⟩ := cassuuid_round_trip hv
    refine ⟨(permanent heap value).1, pointerCells heap.length, ?_, List.prefix_append _ _, rfl,
      Plain.readValue (@Plain.uuid _ _ _ heap.length [] rfl hv (by simp [permanent, settledBytes]))⟩
    rw [given, hgiven, ← hback]
    rfl
  case boolean =>
    cases hsize
    refine ⟨_, _, rfl, List.prefix_refl _, rfl, inline ?_⟩
    by_cases hz : value = [0] <;> simp [settledBytes, hz, byteCells]
  case date =>
    cases hsize
    exact ⟨_, _, rfl, List.prefix_refl _, by simp [D.toEpoch_length], inline rfl⟩
  case bigint | varint | time | timestamp | double | float | int | smallInt | tinyInt =>
    cases hsize
    exact ⟨_, _, rfl, List.prefix_refl _, by rw [byteCells_length]; exact hv, inline rfl⟩
  all_goals cases ht

end read

section fill

variable {D : DriverDates} {junk : Nat → UInt8} {heap heap' : Heap} {m : ColumnMeta} {row row' : TupleRowData}

theorem elementAt_mono (hp : heap <+: heap') {i : Nat} {v : Option Bytes} (h : elementAt heap row m i = .ok v) :
    elementAt heap' row m i = .ok v := by
  rw [elementAt] at h ⊢
  cases hget : row.getElement i with
  | none => rwa [hget] at h
  | some pos =>
    rw [hget] at h
    obtain ⟨cells, hload, h⟩ := bind_eq_ok h
    obtain ⟨value, hv, h⟩ := bind_eq_ok h
    simp only [hload, ok_bind, readValue_mono hp hv]
    exact h

theorem fieldsFrom_mono (hp : heap <+: heap') {metadata : List ColumnMeta} {i : Nat} {fields : List (Option Bytes)}
    (h : fieldsFrom heap row metadata i = .ok fields) : fieldsFrom heap' row metadata i = .ok fields := by
  induction metadata generalizing i fields with
  | nil => exact h
  | cons m metadata ih =>
    obtain ⟨v, hv, h⟩ := bind_eq_ok h
    obtain ⟨vs, hvs, h⟩ := bind_eq_ok h
    rw [fieldsFrom, elementAt_mono hp hv, ok_bind, ih hvs]
    exact h

theorem derefRow_mono (hp : heap <+: heap') {a : Nat} (h : derefRow heap a = .ok row) : derefRow heap' a = .ok row := by
  unfold derefRow at h
  split at h
  · rename_i ha
    cases h
    rw [derefRow, getElem?_extends hp ha]
  · cases h

theorem CellsHold.mono (hp : heap <+: heap') {cells : List Cell} {v : ColumnValue} (h : CellsHold heap m cells v) :
    CellsHold heap' m cells v := by
  cases h with
  | scalar ht h => exact .scalar ht (readValue_mono hp h)
  | tuple ht hrow hm hf => exact .tuple ht (derefRow_mono hp hrow) hm (fieldsFrom_mono hp hf)

/-- A column of a result that is read as `target`. -/
def ReadsAs (D : DriverDates) (junk : Nat → UInt8) (m : ColumnMeta) (value : CassValue) (target : Option ColumnValue) :
    Prop :=
  ∀ col heap, ∃ heap' cells, TupleRowFactory.cassToC D junk m value col heap = .ok (heap', cells) ∧
    heap <+: heap' ∧ (target = none → cells = none) ∧
    ∀ v, target = some v → ∃ c, cells = some c ∧ c.length = m.size ∧ CellsHold heap' m c v

def ReadsAll (D : DriverDates) (junk : Nat → UInt8) :
    List ColumnMeta → List CassValue → List (Option ColumnValue) → Prop
  | [], [], [] => True
  | m :: metadata, value :: values, target :: targets =>
    ReadsAs D junk m value target ∧ ReadsAll D junk metadata values targets
  | _, _, _ => False

theorem isNull_setNull {i j : Nat} (hj : j / 32 < row.nullValues.length) :
    (row.setNull i).isNull j = (row.isNull j || decide (j = i)) := by
  have h := isNull_foldl_setNull (l := [i]) hj
  simpa using h

theorem load_inner {before cells rest : List Cell} (hdata : row.data = before ++ (cells ++ rest))
    (hpos : m.position = before.length) (hlen : cells.length = m.size) :
    load row.data m.position m.size = .ok cells := by
  rw [load, if_pos (by rw [hdata]; simp only [List.length_append]; omega), hdata, hpos, List.drop_left, ← hlen,
    List.take_left]

/-- The loop over the columns of a result: what is behind `before` gets the columns one after
the other. -/
theorem fillColumns_spec {metadata : List ColumnMeta} {values : List CassValue} {targets : List (Option ColumnValue)}
    (h : ReadsAll D junk metadata values targets) {i : Nat} {before rest : List Cell}
    (hpos : Consecutive before.length metadata) (hdata : row.data = before ++ rest) (hrest : rest.length = sizeSum metadata)
    (hwords : ∀ j < i + metadata.length, j / 32 < row.nullValues.length)
    (hnull : ∀ j, i ≤ j → j < i + metadata.length → row.isNull j = false) (heap : Heap) :
    ∃ heap' row' rest', fillColumns D junk metadata values i heap row = .ok (heap', row') ∧ heap <+: heap' ∧
      row'.metadatas = row.metadatas ∧ row'.data = before ++ rest' ∧ rest'.length = rest.length ∧
      (∀ j < i, row'.isNull j = row.isNull j) ∧ ColumnsHold heap' row' metadata i targets := by
  induction metadata generalizing values targets i before rest row heap with
  | nil =>
    match values, targets, h with
    | [], [], _ => exact ⟨heap, row, rest, rfl, List.prefix_refl _, rfl, hdata, rfl, fun _ _ => rfl, trivial⟩
  | cons m metadata ih =>
    match values, targets, h with
    | value :: values, target :: targets, ⟨hone, hall⟩ =>
      obtain ⟨heap₁, cells, hread, hp₁, hnone, hsome⟩ := hone i heap
      rw [sizeSum_cons] at hrest
      simp only [List.length_cons] at hwords hnull
      have hi : i / 32 < row.nullValues.length := hwords i (by omega)
      -- the row after this column, and what its cells hold
      obtain ⟨row₁, mid, hrow₁, hmeta, hlen, hdata₁, hkeep⟩ : ∃ row₁ mid,
          fillColumns D junk (m :: metadata) (value :: values) i heap row =
            fillColumns D junk metadata values (i + 1) heap₁ row₁ ∧
          row₁.metadatas = row.metadatas ∧ row₁.nullValues.length = row.nullValues.length ∧
          row₁.data = (before ++ mid) ++ rest.drop m.size ∧ mid.length = m.size ∧
          (∀ j, j / 32 < row.nullValues.length → j ≠ i → row₁.isNull j = row.isNull j) ∧
          ((target = none ∧ row₁.isNull i = true) ∨
            ∃ v, target = some v ∧ row₁.isNull i = false ∧ CellsHold heap₁ m mid v) := by
        cases target with
        | none =>
          refine ⟨row.setNull i, rest.take m.size, ?_, (setNull_shape row i).2, (setNull_shape row i).1, ?_, ?_,
            fun j hj hne => ?_, .inl ⟨rfl, ?_⟩⟩
          · rw [fillColumns, hread, hnone rfl]
            rfl
          · rw [List.append_assoc, List.take_append_drop, ← hdata]
            unfold TupleRowData.setNull
            split <;> rfl
          · rw [List.length_take]
            omega
          · rw [isNull_setNull hj, decide_eq_false hne, Bool.or_false]
          · simp [isNull_setNull hi]
        | some v =>
          obtain ⟨c, rfl, hc, hv⟩ := hsome v rfl
          have hstore : store row.data m.position c = .ok ((before ++ c) ++ rest.drop m.size) := by
            rw [store, if_pos (by rw [hdata, hpos.1]; simp only [List.length_append]; omega), hdata, hpos.1,
              List.take_left, ← List.drop_drop, List.drop_left, hc]
          refine ⟨{ row with data := (before ++ c) ++ rest.drop m.size }, c, ?_, rfl, rfl, rfl, hc,
            fun j _ _ => rfl, .inr ⟨v, rfl, hnull i le_rfl (by omega), hv⟩⟩
          rw [fillColumns, hread, ok_bind]
          simp only [hstore, ok_bind, pure_eq_ok]
      obtain ⟨hmid, hsame, hthis⟩ := hkeep
      obtain ⟨heap', row', rest', hfill, hp', hmeta', hdata', hlen', hkeep', hvalues⟩ := ih hall
        (i := i + 1) (by rw [List.length_append, hmid]; exact hpos.2) hdata₁ (by rw [List.length_drop]; omega)
        (fun j hj => by rw [hlen]; exact hwords j (by omega))
        (fun j hle hlt => by rw [hsame j (hwords j (by omega)) (by omega)]; exact hnull j (by omega) (by omega)) heap₁
      refine ⟨heap', row', mid ++ rest', hrow₁.trans hfill, hp₁.trans hp', hmeta'.trans hmeta, ?_, ?_,
        fun j hj => ?_, ?_, hvalues⟩
      · rw [hdata', List.append_assoc]
      · rw [List.length_append, hmid, hlen', List.length_drop]
        omega
      · rw [hkeep' j (by omega), hsame j (hwords j (by omega)) (by omega)]
      · have hnull' := hkeep' i (by omega)
        rcases hthis with ⟨rfl, hn⟩ | ⟨v, rfl, hn, hv⟩
        · exact .null (hnull'.trans hn)
        · exact .value (hnull'.trans hn) (load_inner (by rw [hdata', List.append_assoc]) hpos.1 hmid) (hv.mono hp')

end fill

section columns

variable {D : DriverDates} {junk : Nat → UInt8} {heap : Heap} {row : TupleRowData} {m : ColumnMeta}
  {metadata : List ColumnMeta} {i : Nat}

theorem readsAs_null (ht : m.type.isBindable = true) : ReadsAs D junk m .null none := by
  intro col heap
  refine ⟨heap, none, ?_, List.prefix_refl _, fun _ => rfl, nofun⟩
  obtain ⟨position, size, type, pointer⟩ := m
  cases type <;> first | rfl | cases ht

theorem CassValueType.not_tuple_of_isBindable {type : CassValueType} (h : type.isBindable = true) : type ≠ .tuple := by
  rintro rfl
  cases h

/-- A column with a value that is not a tuple. -/
theorem scalar_bound {cells : List Cell} {value : Bytes} (hm : row.metadatas[i]? = some m)
    (hsize : computeSizeOf m.type = .ok m.size) (ht : m.type.isBindable = true) (hn : row.isNull i = false)
    (hload : load row.data m.position m.size = .ok cells) (hv : readValue heap m.type cells = .ok value) :
    bindColumn D heap m row i = .ok (given D m.type value) ∧
      ReadsAs D junk m (given D m.type value) (some (.scalar (settledBytes D m.type value))) := by
  have hget : row.getElement i = some m.position := by simp [TupleRowData.getElement, hn, hm]
  have hform := wellFormed_of_readValue ht (load_spec hload).2.2 hv
  refine ⟨bindColumn_scalar hget hload hsize ht hv, fun col heap => ?_⟩
  obtain ⟨heap', cells', hread, hp, hlen, hv'⟩ := @cassToC_scalar D junk m value ht hsize hform col heap
  refine ⟨heap', some cells', hread, hp, fun hnull => absurd hnull (Option.some_ne_none _), fun v h => ⟨cells', rfl, hlen, ?_⟩⟩
  cases h
  exact .scalar (CassValueType.not_tuple_of_isBindable ht) hv'

theorem fields_bound (hc : ColumnsFrom row i metadata) (ht : ∀ m ∈ metadata, m.type.isField = true)
    {fields : List (Option Bytes)} (h : fieldsFrom heap row metadata i = .ok fields) :
    bindTupleFrom D heap metadata row i = .ok (List.zipWith (givenField D) metadata fields) ∧
      ReadsAll D junk metadata (List.zipWith (givenField D) metadata fields)
        ((settledFields D metadata fields).map (Option.map .scalar)) := by
  induction metadata generalizing i fields with
  | nil =>
    cases h
    exact ⟨rfl, trivial⟩
  | cons m metadata ih =>
    obtain ⟨v, hv, h⟩ := bind_eq_ok h
    obtain ⟨vs, hvs, h⟩ := bind_eq_ok h
    cases h
    have htype := ht m List.mem_cons_self
    have hbindable := (CassValueType.isBindable_of_isField htype).1
    obtain ⟨hbind, hread⟩ := ih hc.tail (fun c hc => ht c (List.mem_cons_of_mem _ hc)) hvs
    have hone : bindTupleField D heap m row i = .ok (givenField D m v) ∧
        ReadsAs D junk m (givenField D m v) ((v.map (settledBytes D m.type)).map .scalar) := by
      rw [bindTupleField_eq htype]
      rw [elementAt_eq hc.head] at hv
      split at hv
      · rename_i hn
        cases hv
        exact ⟨bindColumn_null (by rw [TupleRowData.getElement, if_pos hn]), readsAs_null hbindable⟩
      · rename_i hn
        obtain ⟨cells, hload, hv⟩ := bind_eq_ok hv
        obtain ⟨value, hread, hv⟩ := bind_eq_ok hv
        cases hv
        exact scalar_bound hc.head (hc.sizes m List.mem_cons_self) hbindable (by simpa using hn) hload hread
    refine ⟨?_, hone.2, hread⟩
    rw [bindTupleFrom, hone.1, ok_bind, hbind]
    rfl

theorem fieldsFrom_of_hold (hc : ColumnsFrom row i metadata) (ht : ∀ m ∈ metadata, m.type ≠ .tuple)
    {fields : List (Option Bytes)} (h : ColumnsHold heap row metadata i (fields.map (Option.map .scalar))) :
    fieldsFrom heap row metadata i = .ok fields := by
  induction metadata generalizing i fields with
  | nil =>
    match fields, h with
    | [], _ => rfl
  | cons m metadata ih =>
    match fields, h with
    | v :: fields, ⟨hone, hall⟩ =>
      have hv : elementAt heap row m i = .ok v := by
        rw [elementAt_eq hc.head]
        cases v with
        | none =>
          cases hone with
          | null hn => rw [if_pos hn]
        | some value =>
          cases hone with
          | value hn hload hv =>
            cases hv with
            | scalar _ hread =>
              rw [if_neg (by rw [hn]; decide), hload, ok_bind, hread]
              rfl
      rw [fieldsFrom, hv, ok_bind, ih hc.tail (fun c hc => ht c (List.mem_cons_of_mem _ hc)) hall]
      rfl

theorem columnsFrom_zero (hm : row.metadatas = metadata) (h : LaidOut 0 metadata) : ColumnsFrom row 0 metadata :=
  ⟨fun k c hk => by rwa [hm, Nat.zero_add], sizes_of_laidOut h⟩

/-- A row made of the columns of a result. -/
theorem freshRow_filled (hl : LaidOut 0 metadata) (hnarrow : sizeSum metadata < 2 ^ 16) {values : List CassValue}
    {targets : List (Option ColumnValue)} (h : ReadsAll D junk metadata values targets) (heap : Heap) :
    ∃ heap' row', fillColumns D junk metadata values 0 heap (freshRow junk metadata) = .ok (heap', row') ∧
      heap <+: heap' ∧ row'.metadatas = metadata ∧ ColumnsHold heap' row' metadata 0 targets := by
  have hdata : (freshRow junk metadata).data = [] ++ (freshRow junk metadata).data := rfl
  have hpos : Consecutive ([] : List Cell).length metadata := consecutive_of_laidOut hl (by simpa using hnarrow)
  obtain ⟨heap', row', rest', hfill, hp, hmeta, -, -, -, hhold⟩ := fillColumns_spec h (i := 0) hpos hdata
    (by simp [freshRow, makeTuple, totalBytes_of_laidOut hl hnarrow])
    (fun j hj => by
      rw [freshRow, makeTuple, List.length_replicate]
      exact div_lt_wordsFor (by omega))
    (fun j _ hj => isNull_makeTuple _ (by omega)) heap
  exact ⟨heap', row', hfill, hp, hmeta, hhold⟩

theorem tuple_bound (ht : m.type = .tuple) (hof : TupleOf m.pointer) (hsize : computeSizeOf m.type = .ok m.size)
    {address : Nat} {inner : TupleRowData} {fields : List (Option Bytes)} (hm : row.metadatas[i]? = some m)
    (hn : row.isNull i = false) (hload : load row.data m.position m.size = .ok (pointerCells address))
    (hrow : derefRow heap address = .ok inner) (hmeta : inner.metadatas = m.pointer)
    (hf : fieldsFrom heap inner m.pointer 0 = .ok fields) :
    bindColumn D heap m row i = .ok (givenColumn D m (some (.tuple fields))) ∧
      ReadsAs D junk m (givenColumn D m (some (.tuple fields))) (some (settled D m (.tuple fields))) := by
  have hget : row.getElement i = some m.position := by simp [TupleRowData.getElement, hn, hm]
  have hfield : ∀ f ∈ m.pointer, f.type ≠ .tuple := fun f hf =>
    CassValueType.not_tuple_of_isBindable (CassValueType.isBindable_of_isField (hof.fields f hf)).1
  obtain ⟨hbind, hread⟩ := @fields_bound D junk heap inner m.pointer 0 (columnsFrom_zero hmeta hof.laidOut) hof.fields _ hf
  obtain ⟨position, size, type, pointer⟩ := m
  simp only at ht hof hsize hload hmeta hf hget hbind hread hfield
  subst ht
  cases hsize
  have hne : pointer.isEmpty = false := by simpa using hof.nonempty
  constructor
  · have hcheck : checkTuple pointer inner = .ok () := by
      have hu : u16 pointer.length = pointer.length := Nat.mod_eq_of_lt hof.bounded
      rw [checkTuple, TupleRowData.nElem, hmeta, hu, if_pos rfl]
    have hpointer : checkPointer pointer = .ok () := by simp [checkPointer, hne]
    simp only [bindColumn, hget, loadPointer, hload, ok_bind, addressOf_pointerCells, hrow, hpointer, hcheck, hbind]
    rfl
  · intro col heap
    obtain ⟨heap', row', hfill, hp, hmeta', hhold⟩ := freshRow_filled hof.laidOut hof.narrow hread heap
    have hlen : (List.zipWith (givenField D) pointer fields).length ≤ pointer.length := by
      rw [List.length_zipWith]
      exact Nat.min_le_left _ _
    have hext : heap' <+: heap' ++ [.tupleRow row'] := List.prefix_append _ _
    refine ⟨heap' ++ [.tupleRow row'], some (pointerCells heap'.length), ?_, hp.trans hext, fun hnull => absurd hnull (Option.some_ne_none _),
      fun v hv => ⟨_, rfl, rfl, ?_⟩⟩
    · simp only [givenColumn, TupleRowFactory.cassToC, hne, if_pos hlen, hfill, ok_bind]
      rfl
    · cases hv
      exact .tuple rfl (by simp [derefRow]) hmeta' (fieldsFrom_mono hext
        (fieldsFrom_of_hold (columnsFrom_zero hmeta' hof.laidOut) hfield hhold))

/-- The columns of a table that rows are bound to. -/
def BindableColumn (m : ColumnMeta) : Prop := m.type.isBindable = true ∨ m.type = .tuple ∧ TupleOf m.pointer

theorem columns_bound (hc : ColumnsFrom row i metadata) (ht : ∀ m ∈ metadata, BindableColumn m)
    {values : List (Option ColumnValue)} (h : ColumnsHold heap row metadata i values)
    (htuple : ∀ x ∈ metadata.zip values, x.1.type = .tuple → x.2 ≠ none) :
    bindColumns D heap metadata row i = .ok (List.zipWith (givenColumn D) metadata values) ∧
      ReadsAll D junk metadata (List.zipWith (givenColumn D) metadata values)
        (List.zipWith (fun m => Option.map (settled D m)) metadata values) := by
  induction metadata generalizing i values with
  | nil =>
    match values, h with
    | [], _ => exact ⟨rfl, trivial⟩
  | cons m metadata ih =>
    match values, h with
    | value :: values, ⟨hone, hall⟩ =>
      obtain ⟨hbind, hread⟩ := ih hc.tail (fun c hc => ht c (List.mem_cons_of_mem _ hc)) hall
        fun x hx => htuple x (List.mem_cons_of_mem _ hx)
      have hsize := hc.sizes m List.mem_cons_self
      have hcolumn : bindColumn D heap m row i = .ok (givenColumn D m value) ∧
          ReadsAs D junk m (givenColumn D m value) (value.map (settled D m)) := by
        cases hone with
        | null hn =>
          have hbindable := (ht m List.mem_cons_self).resolve_right fun h =>
            htuple (m, none) List.mem_cons_self h.1 rfl
          exact ⟨bindColumn_null (by rw [TupleRowData.getElement, if_pos hn]), readsAs_null hbindable⟩
        | value hn hload hv =>
          cases hv with
          | scalar hne hread =>
            have hbindable := (ht m List.mem_cons_self).resolve_right fun h => hne h.1
            exact scalar_bound hc.head hsize hbindable hn hload hread
          | tuple heq hrow hmeta hf =>
            have hof := (ht m List.mem_cons_self).resolve_left fun h =>
              CassValueType.not_tuple_of_isBindable h heq
            exact tuple_bound heq hof.2 hsize hc.head hn hload hrow hmeta hf
      refine ⟨?_, hcolumn.2, hread⟩
      rw [bindColumns, hcolumn.1, ok_bind, hbind]
      rfl

end columns

/-- Days since 1970 in the middle of the words, and the seconds at their midnights. -/
def unixDates : DriverDates where
  fromEpoch time := twosComplement 4 ((ofTwosComplement time).tdiv 86400 + 2 ^ 31)
  toEpoch date := twosComplement 8 ((ofLittleEndian date - 2 ^ 31) * 86400)
  toEpoch_length _ := twosComplement_length 8 _

def visits : Schema where
  columns := [⟨0, 8, .text, []⟩, ⟨8, 4, .int, []⟩, ⟨12, 8, .tuple, [⟨0, 4, .int, []⟩]⟩, ⟨20, 8, .date, []⟩]
  laidOut := ⟨rfl, rfl, rfl, rfl, rfl, rfl, rfl, rfl, trivial⟩
  bounded := by decide

def visitHeap : Heap :=
  [.block (byteCells (cString [104, 105])), .tupleRow ⟨[⟨0, 4, .int, []⟩], byteCells [7, 0, 0, 0], [0]⟩]

def visit : TupleRowData where
  metadatas := visits.columns
  data := pointerCells 0 ++ byteCells [0, 0, 0, 0] ++ pointerCells 1 ++ byteCells [133, 81, 1, 0, 0, 0, 0, 0]
  nullValues := [2]

theorem visit_holds : RowHolds visitHeap visits visit
    [some (.scalar [104, 105]), none, some (.tuple [some [7, 0, 0, 0]]), some (.scalar [133, 81, 1, 0, 0, 0, 0, 0])] :=
  ⟨rfl, .value rfl rfl (.scalar (by decide) rfl), .null rfl, .value rfl rfl (.tuple rfl rfl rfl rfl),
    .value rfl rfl (.scalar (by decide) rfl), trivial⟩

end Hecuba
