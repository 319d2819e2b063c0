import Hecuba.TupleRowFactory
import Hecuba.PythonSpec

/-! The buffers with the attributes of a key or of a value. A program has them in the order of
its ObjSpec, and Cassandra gets them at the positions of the columns in the table. -/

namespace Hecuba

namespace ObjSpec

def basicTypes : List (Str × CassValueType) :=
  [("counter", CassValueType.counter), ("text", .text), ("boolean", .boolean), ("decimal", .decimal),
    ("double", .double), ("int", .int), ("bigint", .bigint), ("blob", .blob), ("float", .float),
    ("timestamp", .timestamp), ("time", .time), ("date", .date)].map fun e => (e.1.toList, e.2)

def isBasicType (type : Str) : Bool := (basicTypes.lookup type).isSome

def getCassandraType (type : Str) : CassValueType := (basicTypes.lookup type).getD .uuid

end ObjSpec

structure ObjSpec where
  partitionKeys : List (Str × Str)
  clusteringKeys : List (Str × Str)
  cols : List (Str × Str)

inductive CassColumnType where
  | partitionKey
  | clusteringKey
  | regular
  deriving DecidableEq, Repr

structure NamedColumn where
  name : Str
  colType : CassColumnType
  layout : ColumnMeta

structure NamedColumns where
  columns : List NamedColumn
  laidOut : LaidOut 0 (columns.map NamedColumn.layout)
  bounded : columns.length < 2 ^ 16

def NamedColumns.sizes (t : NamedColumns) : List Nat := t.columns.map fun c => c.layout.size

def NamedColumns.sizesOf (t : NamedColumns) (colType : CassColumnType) : List Nat :=
  (t.columns.filter fun c => c.colType = colType).map fun c => c.layout.size

def lowerName (name : Str) : Str := name.map Char.toLower

def NamedColumns.getSingle (t : NamedColumns) (name : Str) : Except Fault ColumnMeta :=
  match t.columns.find? fun c => c.name = lowerName name with
  | some c => .ok c.layout
  | none => .error (.moduleException ("Unknown attribute name [" ++ String.ofList name ++ "]"))

/-- The first argument of the copies: `ISKEY`, or `KEYS` and `COLUMNS`. -/
inductive BufferKind where
  | keys
  | columns
  deriving DecidableEq, Repr

def ObjSpec.attributes (spec : ObjSpec) : BufferKind → List (Str × Str)
  | .keys => spec.partitionKeys ++ spec.clusteringKeys
  | .columns => spec.cols

def NamedColumns.bufferSize (t : NamedColumns) : BufferKind → Nat
  | .keys => u16 (t.sizesOf .partitionKey).sum + u16 (t.sizesOf .clusteringKey).sum
  | .columns => u32 t.sizes.sum

/-- Of an IStorage object only its storage id is here: a pointer at its beginning. -/
def getStorageID (heap : Heap) (object : Nat) : Except Fault Nat := do
  loadPointer (← derefBlock heap object) 0

def convertIStorageToUUID (heap : Heap) (dst : List Cell) (pos : Nat) (valueType : Str) (src : List Cell)
    (offset srcSize : Nat) : Except Fault (Heap × List Cell) :=
  if ObjSpec.isBasicType valueType = false then do
    let result ← getStorageID heap (← loadPointer src offset)
    let sid ← load (← derefBlock heap result) 0 16
    return (heap ++ [.block sid], ← store dst pos (← load (pointerCells heap.length) 0 srcSize))
  else if valueType = "text".toList then do
    let result ← derefBlock heap (← loadPointer src offset)
    let tmp ← load result 0 ((← strlen result) + 1)
    return (heap ++ [.block tmp], ← store dst pos (← load (pointerCells heap.length) 0 srcSize))
  else do
    return (heap, ← store dst pos (← load src offset srcSize))

def deepCopyAttributes (t : NamedColumns) (src : List Cell) :
    List (Str × Str) → Heap → List Cell → Nat → Except Fault (Heap × List Cell)
  | [], heap, dst, _ => .ok (heap, dst)
  | (columnName, valueType) :: rest, heap, dst, offset => do
    let c ← t.getSingle columnName
    let (heap, dst) ← convertIStorageToUUID heap dst c.position valueType src offset c.size
    deepCopyAttributes t src rest heap dst (offset + c.size)

/-- `junk` is what `malloc` leaves in the new block. -/
def deepCopyAttributeBuffer (heap : Heap) (junk : Nat → UInt8) (attributes : List (Str × Str)) (t : NamedColumns)
    (src : List Cell) (srcSize numAttrs : Nat) : Except Fault (Heap × List Cell) :=
  if numAttrs ≤ attributes.length then
    deepCopyAttributes t src (attributes.take numAttrs) heap (byteCells ((List.range srcSize).map junk)) 0
  else .error .outOfBounds

def extractFromQueryResult (heap : Heap) (valueType : Str) (valueSize : Nat) (queryResult : List Cell) (pos : Nat)
    (valuetmp : List Cell) (offset : Nat) : Except Fault (Heap × List Cell) :=
  if ObjSpec.isBasicType valueType = false then do
    let tmp ← load (← derefBlock heap (← loadPointer queryResult pos)) 0 16
    return (heap ++ [.block tmp], ← store valuetmp offset (pointerCells heap.length))
  else if valueType = "text".toList then do
    let str ← derefBlock heap (← loadPointer queryResult pos)
    let tmp ← load str 0 ((← strlen str) + 1)
    return (heap ++ [.block tmp], ← store valuetmp offset (pointerCells heap.length))
  else do
    return (heap, ← store valuetmp offset (← load queryResult pos valueSize))

structure Extraction where
  heap : Heap
  valuetmp : List Cell
  offset : Nat
  attrSize : Nat

def extractAttributes (t : NamedColumns) (queryResult : List Cell) :
    List (Str × Str) → Extraction → Except Fault Extraction
  | [], e => .ok e
  | (attrName, attrType) :: rest, e => do
    let c ← t.getSingle attrName
    let (heap, valuetmp) ← extractFromQueryResult e.heap attrType c.size queryResult c.position e.valuetmp e.offset
    extractAttributes t queryResult rest ⟨heap, valuetmp, e.offset + c.size, c.size⟩

/-- What is written to `valuetoreturn`: the value itself, if there is only one, and else the
address of the values. -/
def extractMultiValuesFromQueryResult (heap : Heap) (junk : Nat → UInt8) (attributes : List (Str × Str))
    (t : NamedColumns) (kind : BufferKind) (queryResult : List Cell) : Except Fault (Heap × List Cell) :=
  if t.columns.length ≤ attributes.length then do
    let attrSize := t.bufferSize kind
    let e ← extractAttributes t queryResult (attributes.take t.columns.length)
      ⟨heap, byteCells ((List.range attrSize).map junk), 0, attrSize⟩
    if t.columns.length = 1 then return (e.heap, ← load e.valuetmp 0 e.attrSize)
    else return (e.heap ++ [.block e.valuetmp], pointerCells e.heap.length)
  else .error .outOfBounds

inductive AttributeValue where
  | basic (bytes : Bytes)
  | text (chars : Bytes)
  | object (storageId : Bytes)

namespace AttributeValue

/-- The values of a type: a basic one fills its slot, a text has no NUL, and a storage id has 16 bytes. -/
def OfType (type : Str) : AttributeValue → Prop
  | .basic bytes => ObjSpec.isBasicType type = true ∧ type ≠ "text".toList ∧
    computeSizeOf (ObjSpec.getCassandraType type) = .ok bytes.length
  | .text chars => type = "text".toList ∧ ∀ b ∈ chars, b ≠ 0
  | .object storageId => ObjSpec.isBasicType type = false ∧ storageId.length = 16

end AttributeValue

def BlockAt (heap : Heap) (address : Nat) (cells : List Cell) : Prop :=
  ∃ rest, heap[address]? = some (.block (cells ++ rest))

def ObjectAt (heap : Heap) (address : Nat) (storageId : Bytes) : Prop :=
  ∃ sid, BlockAt heap address (pointerCells sid) ∧ BlockAt heap sid (byteCells storageId)

/-- The cells of an attribute; `idAt` says where the storage id of an object is found. -/
def SlotWith (heap : Heap) (idAt : Nat → Bytes → Prop) : AttributeValue → List Cell → Prop
  | .basic bytes, cells => cells = byteCells bytes
  | .text chars, cells => ∃ address, cells = pointerCells address ∧ BlockAt heap address (byteCells (cString chars))
  | .object storageId, cells => ∃ address, cells = pointerCells address ∧ idAt address storageId

def UserSlot (heap : Heap) : AttributeValue → List Cell → Prop := SlotWith heap (ObjectAt heap)

def TableSlot (heap : Heap) : AttributeValue → List Cell → Prop :=
  SlotWith heap fun address storageId => BlockAt heap address (byteCells storageId)

end Hecuba
