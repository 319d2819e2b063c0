import Hecuba.RowRoundTrip

/-! Rows on their way to the driver and back: what `bind` gives a statement for each column, and
the row that `make_tuple` builds from the columns of a result. -/

namespace Hecuba

inductive NumberKind where
  | int8 | int16 | int32 | int64 | float | double
  deriving DecidableEq

/-- What a setter of the driver is given for a column, and a getter gives back. A number is the
memory that it is read from, a UUID the two words of a CassUuid. -/
inductive CassValue where
  | null
  | string (text : Bytes)
  | number (kind : NumberKind) (cells : List Cell)
  | bytes (content : Bytes)
  | bool (b : Bool)
  | uint32 (word : Bytes)
  | uuid (timeAndVersion clockSeqAndNode : Bytes)
  | tuple (items : List CassValue)

/-- `cass_date_from_epoch`, and `cass_date_time_to_epoch` at midnight. -/
structure DriverDates where
  fromEpoch : Bytes → Bytes
  toEpoch : Bytes → Bytes
  toEpoch_length : ∀ date, (toEpoch date).length = 8

def recode (source : List Nat) (bytes : Bytes) : Bytes := source.map fun k => bytes.getD k 0

/-- time_low, time_mid and time_hi with the version, each of them turned round. -/
def timeOrder : List Nat := [3, 2, 1, 0, 5, 4, 7, 6]

def clockOrder : List Nat := (List.range 8).map fun ix => 7 - ix

def uuid2cassuuid (uuid : Bytes) : CassValue :=
  .uuid (recode timeOrder (uuid.take 8)) (recode clockOrder (uuid.drop 8))

def cassuuid2uuid (timeAndVersion clockSeqAndNode : Bytes) : Bytes :=
  recode timeOrder timeAndVersion ++ recode clockOrder clockSeqAndNode

def loadText (heap : Heap) (row : TupleRowData) (pos : Nat) : Except Fault Bytes := do
  let d ← derefBlock heap (← loadPointer row.data pos)
  loadBytes d 0 (← strlen d)

def loadUuid (heap : Heap) (row : TupleRowData) (pos : Nat) : Except Fault CassValue := do
  return uuid2cassuuid (← loadBytes (← derefBlock heap (← loadPointer row.data pos)) 0 16)

/-- The bytes behind the count that a blob begins with. -/
def loadBlob (heap : Heap) (row : TupleRowData) (pos : Nat) : Except Fault Bytes := do
  let byteArray ← derefBlock heap (← loadPointer row.data pos)
  let numBytes ← loadWord byteArray 0
  loadBytes byteArray 8 numBytes

def loadNumber (kind : NumberKind) (n : Nat) (row : TupleRowData) (pos : Nat) : Except Fault CassValue := do
  return .number kind (← load row.data pos n)

def checkTuple (pointer : List ColumnMeta) (row : TupleRowData) : Except Fault Unit :=
  if pointer.length = row.nElem then .ok ()
  else .error (.moduleException ("Tuple bind: Found " ++ toString row.nElem ++ ", expected " ++
    toString pointer.length))

section bind

variable (D : DriverDates) (heap : Heap)

mutual

def bindTupleFrom : List ColumnMeta → TupleRowData → Nat → Except Fault (List CassValue)
  | [], _, _ => .ok []
  | m :: metadata, row, i => do
    let value ← bindTupleField m row i
    return value :: (← bindTupleFrom metadata row (i + 1))
  termination_by structural metadata => metadata

def bindTupleField : ColumnMeta → TupleRowData → Nat → Except Fault CassValue
  | ⟨_, _, type, pointer⟩, row, i =>
    match row.getElement i with
    | none => .ok .null
    | some pos =>
      match type with
      | .varchar | .text | .ascii => do return .string (← loadText heap row pos)
      -- of a blob it is the pointer that is bound
      | .varint | .bigint | .blob | .counter | .time | .timestamp => loadNumber .int64 8 row pos
      -- an enumeration of four bytes, widened
      | .boolean => do return .number .int64 ((← load row.data pos 4) ++ byteCells [0, 0, 0, 0])
      | .double => loadNumber .double 8 row pos
      | .float => loadNumber .float 4 row pos
      | .int => loadNumber .int32 4 row pos
      | .uuid => loadUuid heap row pos
      | .smallInt => loadNumber .int16 2 row pos
      | .tinyInt => loadNumber .int8 1 row pos
      | .tuple => do
        let inner ← derefRow heap (← loadPointer row.data pos)
        checkPointer pointer
        checkTuple pointer inner
        return .tuple (← bindTupleFrom pointer inner 0)
      | .date => do return .uint32 (D.fromEpoch (← loadBytes row.data pos 8))
      | .decimal | .timeuuid | .inet | .list | .map | .set | .udt | .custom | .unknown =>
        .error notSupported
  termination_by structural m => m

end

/-- What a prepared statement is given for column `i`. User types are in MetadataRecord. -/
def bindColumn (m : ColumnMeta) (row : TupleRowData) (i : Nat) : Except Fault CassValue :=
  match row.getElement i with
  | none => .ok .null
  | some pos =>
    match m.type with
    | .varchar | .text | .ascii => do return .string (← loadText heap row pos)
    | .varint | .bigint | .counter | .time | .timestamp => loadNumber .int64 8 row pos
    | .blob => do return .bytes (← loadBlob heap row pos)
    | .boolean => do return .bool ((← loadBytes row.data pos 1) != [0])
    | .double => loadNumber .double 8 row pos
    | .float => loadNumber .float 4 row pos
    | .int => loadNumber .int32 4 row pos
    | .uuid => loadUuid heap row pos
    | .smallInt => loadNumber .int16 2 row pos
    | .tinyInt => loadNumber .int8 1 row pos
    | .tuple => do
      let inner ← derefRow heap (← loadPointer row.data pos)
      checkPointer m.pointer
      checkTuple m.pointer inner
      return .tuple (← bindTupleFrom D heap m.pointer inner 0)
    | .date => do return .uint32 (D.fromEpoch (← loadBytes row.data pos 8))
    | .decimal | .timeuuid | .inet | .list | .map | .set | .udt | .custom | .unknown => .error notSupported

def bindColumns : List ColumnMeta → TupleRowData → Nat → Except Fault (List CassValue)
  | [], _, _ => .ok []
  | m :: metadata, row, i => do
    let value ← bindColumn D heap m row i
    return value :: (← bindColumns metadata row (i + 1))

def TupleRowFactory.bind (metadata : List ColumnMeta) (row : TupleRowData) (offset : Nat) (statement : List (Option CassValue)) :
    Except Fault (List (Option CassValue)) := do
  if metadata.length ≠ row.nElem then
    throw (.moduleException ("Statement bind: Found " ++ toString row.nElem ++ ", expected " ++
      toString metadata.length))
  let values ← bindColumns D heap metadata row 0
  return statement.take offset ++ values.map some ++ statement.drop (offset + values.length)

end bind

def invalidType (parse : String) (col : Nat) : Fault :=
  .moduleException ("Invalid value type. TupleRowFactory: Cassandra to C parse " ++ parse ++ toString col)

namespace CassValue

def text : CassValue → Option Bytes
  | string t => some t
  | _ => none

def numberOf (kind : NumberKind) : CassValue → Option (List Cell)
  | number k cells => if k = kind then some cells else none
  | _ => none

def content : CassValue → Option Bytes
  | bytes c => some c
  | _ => none

def truth : CassValue → Option Bool
  | bool b => some b
  | _ => none

def word : CassValue → Option Bytes
  | uint32 w => some w
  | _ => none

def uuidWords : CassValue → Option (Bytes × Bytes)
  | uuid t c => some (t, c)
  | _ => none

end CassValue

/-- The cells that a getter leaves in the row; nothing is written for a null. -/
def readAs {α : Type} (parse : String) (col : Nat) (value : CassValue) (got : Option α)
    (write : α → Heap × List Cell) (heap : Heap) : Except Fault (Heap × Option (List Cell)) :=
  match value, got with
  | .null, _ => .ok (heap, none)
  | _, some a => .ok ((write a).1, some (write a).2)
  | _, none => .error (invalidType parse col)

/-- A copy in memory of its own, and the pointer to it. -/
def permanent (heap : Heap) (bytes : Bytes) : Heap × List Cell :=
  (heap ++ [.block (byteCells bytes)], pointerCells heap.length)

section read

variable (D : DriverDates) (junk : Nat → UInt8)

def freshRow (metadata : List ColumnMeta) : TupleRowData :=
  makeTuple metadata (byteCells ((List.range (totalBytes metadata)).map junk))

mutual

def fillColumns : List ColumnMeta → List CassValue → Nat → Heap → TupleRowData →
    Except Fault (Heap × TupleRowData)
  | m :: metadata, value :: values, i, heap, row => do
    let (heap, cells) ← TupleRowFactory.cassToC m value i heap
    let row ← match cells with
      | none => pure (row.setNull i)
      | some cells => do pure { row with data := (← store row.data m.position cells) }
    fillColumns metadata values (i + 1) heap row
  | _, _, _, heap, row => .ok (heap, row)
  termination_by structural metadata => metadata

/-- `cass_to_c` but for user types. -/
def TupleRowFactory.cassToC : ColumnMeta → CassValue → Nat → Heap → Except Fault (Heap × Option (List Cell))
  | ⟨_, _, type, pointer⟩, value, col, heap =>
    match type with
    | .text | .varchar | .ascii =>
      readAs "text unsuccessful, column" col value value.text (fun t => permanent heap (cString t)) heap
    | .varint | .bigint =>
      readAs "bigint/varint unsuccessful, column:" col value (value.numberOf .int64) (heap, ·) heap
    | .blob =>
      readAs "bytes unsuccessful, column:" col value value.content
        (fun c => permanent heap (toLittleEndian 8 c.length ++ c)) heap
    | .boolean =>
      readAs "bool unsuccessful, column:" col value value.truth
        (fun b => (heap, byteCells [if b then 1 else 0])) heap
    | .counter =>
      readAs "counter as uint32 unsuccessful, column:" col value value.word (fun w => (heap, byteCells w)) heap
    | .double => readAs "double unsuccessful, column:" col value (value.numberOf .double) (heap, ·) heap
    | .float => readAs "float unsuccessful, column:" col value (value.numberOf .float) (heap, ·) heap
    | .int => readAs "int32 unsuccessful, column:" col value (value.numberOf .int32) (heap, ·) heap
    | .uuid =>
      readAs "UUID unsuccessful, column:" col value value.uuidWords
        (fun u => permanent heap (cassuuid2uuid u.1 u.2)) heap
    | .smallInt => readAs "int16 unsuccessful, column:" col value (value.numberOf .int16) (heap, ·) heap
    | .tinyInt => readAs "int16 unsuccessful, column:" col value (value.numberOf .int8) (heap, ·) heap
    | .tuple =>
      if pointer.isEmpty then
        .error (.moduleException "TupleRowFactory: Cassandra to C parse tuple unsuccessful, tuple is empty")
      else
        match value with
        | .tuple items =>
          if items.length ≤ pointer.length then do
            let (heap, row) ← fillColumns pointer items 0 heap (freshRow junk pointer)
            return (heap ++ [.tupleRow row], some (pointerCells heap.length))
          else .error .outOfBounds
        | _ => .error (.moduleException
            "TupleRowFactory: Cassandra to C parse tuple unsuccessful, data type is not tuple")
    | .date =>
      readAs "uint32 unsuccessful, column:" col value value.word (fun w => (heap, byteCells (D.toEpoch w))) heap
    | .time | .timestamp =>
      readAs "int64 unsuccessful, column:" col value (value.numberOf .int64) (heap, ·) heap
    | .decimal | .timeuuid | .inet | .list | .map | .set | .udt | .custom | .unknown => .error notSupported
  termination_by structural m => m

end

/-- `make_tuple` of a row of a result. -/
def TupleRowFactory.makeTuple (metadata : List ColumnMeta) (row : List CassValue) (heap : Heap) :
    Except Fault (Heap × TupleRowData) :=
  fillColumns D junk metadata row 0 heap (freshRow junk metadata)

end read

end Hecuba
