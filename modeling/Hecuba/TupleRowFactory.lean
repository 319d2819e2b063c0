import Hecuba.RowMemory
import Hecuba.MachineWord

/-! The rows of a table as C++ holds them, and their encoding for a stream: columns at
the positions that TableMetadata gives them, one null bit a column, and texts, UUIDs,
blobs and tuples behind pointers. -/

namespace Hecuba

def u16 (n : Nat) : Nat := n % 2 ^ 16

inductive CassValueType where
  | ascii | bigint | blob | boolean | counter | decimal | double | float | int | text
  | timestamp | uuid | varchar | varint | timeuuid | inet | date | time | smallInt | tinyInt
  | list | map | set | tuple | udt | custom | unknown
  deriving DecidableEq, Repr

/-- `pointer` holds the columns of a tuple; it is empty where the source leaves it null. -/
structure ColumnMeta where
  position : Nat
  size : Nat
  type : CassValueType
  pointer : List ColumnMeta

def computeSizeOf : CassValueType → Except Fault Nat
  | .text | .varchar | .ascii | .varint | .bigint | .blob | .double | .timestamp | .uuid
  | .date | .time | .tuple | .udt | .custom => .ok 8
  | .counter | .float | .int => .ok 4
  | .smallInt => .ok 2
  | .boolean | .tinyInt => .ok 1
  | .decimal | .timeuuid | .inet | .list | .map | .set => .ok 0
  | .unknown => .error (.moduleException "Can't parse data: Unknown data type or user defined type")

/-- The positions of consecutive columns: 16-bit sums of the sizes before. -/
def columnsMeta (position : Nat) :
    List (CassValueType × List ColumnMeta) → Except Fault (List ColumnMeta)
  | [] => .ok []
  | (type, pointer) :: rest => do
    let size ← computeSizeOf type
    return ⟨position, size, type, pointer⟩ :: (← columnsMeta (u16 (position + size)) rest)

def totalBytes (metadata : List ColumnMeta) : Nat :=
  match metadata.getLast? with
  | none => 0
  | some last => u16 (last.position + last.size)

/-- The number of 32-bit words with a bit for each of `n` columns. -/
def wordsFor (n : Nat) : Nat := (n + 31) / 32

def nullAt (words : List (BitVec 32)) (i : Nat) : Bool := (words.getD (i / 32) 0).getLsbD (i % 32)

/-- A row: its columns, the cells that it owns and its null vector. -/
structure TupleRowData where
  metadatas : List ColumnMeta
  data : List Cell
  nullValues : List (BitVec 32)

namespace TupleRowData

def nElem (row : TupleRowData) : Nat := u16 row.metadatas.length

def setNull (row : TupleRowData) (i : Nat) : TupleRowData :=
  if row.nullValues.isEmpty then row
  else { row with nullValues := row.nullValues.modify (i / 32) (· ||| 1#32 <<< (i % 32)) }

def isNull (row : TupleRowData) (i : Nat) : Bool := row.nullValues.isEmpty || nullAt row.nullValues i

/-- Where in its cells a row holds a column that is not null. -/
def getElement (row : TupleRowData) (i : Nat) : Option Nat :=
  if row.isNull i then none else row.metadatas[i]?.map ColumnMeta.position

end TupleRowData

def makeTuple (metadata : List ColumnMeta) (data : List Cell) : TupleRowData :=
  ⟨metadata, data, List.replicate (wordsFor metadata.length) 0⟩

inductive Object where
  | block (cells : List Cell)
  | tupleRow (row : TupleRowData)

/-- What has been allocated so far; an address is a place in the list. -/
abbrev Heap := List Object

def derefBlock (heap : Heap) (address : Nat) : Except Fault (List Cell) :=
  match heap[address]? with
  | some (.block cells) => .ok cells
  | _ => .error .outOfBounds

def derefRow (heap : Heap) (address : Nat) : Except Fault TupleRowData :=
  match heap[address]? with
  | some (.tupleRow row) => .ok row
  | _ => .error .outOfBounds

def notSupported : Fault := .moduleException "Default behaviour not supported"

/-- The check that begins `get_content_sizes`. -/
def checkSizes (metadata : List ColumnMeta) (row : TupleRowData) : Except Fault Unit :=
  if metadata.length = row.nElem then .ok ()
  else .error (.moduleException (" get_content_size: Found " ++ toString row.nElem ++
    ", expected " ++ toString metadata.length))

/-- `TupleRowFactory(pointer)`, which reads its columns. -/
def checkPointer (pointer : List ColumnMeta) : Except Fault Unit :=
  if pointer.isEmpty then .error .outOfBounds else .ok ()

mutual

def contentSizesFrom (heap : Heap) : List ColumnMeta → TupleRowData → Nat → Except Fault (List Nat)
  | [], _, _ => .ok []
  | m :: metadata, row, i => do
    let size ← contentSizeOf heap m row i
    return size :: (← contentSizesFrom heap metadata row (i + 1))
  termination_by structural metadata => metadata

def contentSizeOf (heap : Heap) : ColumnMeta → TupleRowData → Nat → Except Fault Nat
  | ⟨_, _, type, pointer⟩, row, i =>
    match row.getElement i with
    | none => .ok 0
    | some pos =>
      match type with
      | .varchar | .text | .ascii => do
        return u32 ((← strlen (← derefBlock heap (← loadPointer row.data pos))) + 1)
      | .varint | .bigint | .double | .counter => .ok 8
      | .blob | .udt => do
        return u32 ((← loadWord (← derefBlock heap (← loadPointer row.data pos)) 0) + 8)
      | .boolean | .tinyInt => .ok 1
      | .float | .int => .ok 4
      | .uuid => .ok 16
      | .smallInt => .ok 2
      | .tuple => do
        let inner ← derefRow heap (← loadPointer row.data pos)
        checkPointer pointer
        checkSizes pointer inner
        return u32 (← contentSizesFrom heap pointer inner 0).sum
      | .date | .time | .timestamp => do
        let _ ← load row.data pos 8
        return 8
      | .decimal | .timeuuid | .inet | .list | .map | .set | .custom | .unknown =>
        .error notSupported
  termination_by structural m => m

end

def getContentSizes (heap : Heap) (metadata : List ColumnMeta) (row : TupleRowData) :
    Except Fault (List Nat) := do
  checkSizes metadata row
  contentSizesFrom heap metadata row 0

def getContentSize (heap : Heap) (metadata : List ColumnMeta) (row : TupleRowData) :
    Except Fault Nat := do
  return (← getContentSizes heap metadata row).sum

/-- `memcpy` of `n` bytes from what `get_element_addr` returns. -/
def copyElement (heap : Heap) (type : CassValueType) (row : TupleRowData) (pos n : Nat) :
    Except Fault (List Cell) :=
  match type with
  | .varchar | .text | .ascii | .date | .time | .timestamp | .udt | .uuid | .tuple | .blob => do
    load (← derefBlock heap (← loadPointer row.data pos)) 0 n
  | .varint | .bigint | .boolean | .counter | .double | .float | .int | .smallInt | .tinyInt =>
    load row.data pos n
  | .decimal | .timeuuid | .inet | .list | .map | .set | .custom | .unknown => .error notSupported

/-- The null vector as `std::copy` writes it: the low byte of each word, one after the
other. The rest of the room for the words keeps what was there. -/
def nullHeader (words : List (BitVec 32)) (n : Nat) (junk : Nat → UInt8) : Bytes :=
  (List.range (4 * wordsFor n)).map fun j =>
    match words[j]? with
    | some word => ⟨word.setWidth 8⟩
    | none => junk j

mutual

def encodeColumns (heap : Heap) (junk : Nat → UInt8) :
    List ColumnMeta → TupleRowData → Nat → List Nat → Except Fault (List (List Cell))
  | [], _, _, _ => .ok []
  | m :: metadata, row, i, sizes => do
    let chunk ← encodeColumn heap junk m row i (sizes.headD 0)
    return chunk :: (← encodeColumns heap junk metadata row (i + 1) sizes.tail)
  termination_by structural metadata => metadata

def encodeColumn (heap : Heap) (junk : Nat → UInt8) :
    ColumnMeta → TupleRowData → Nat → Nat → Except Fault (List Cell)
  | ⟨_, _, type, pointer⟩, row, i, n =>
    match row.getElement i with
    | none => .ok []
    | some pos =>
      if type = .tuple then do
        let inner ← derefRow heap (← loadPointer row.data pos)
        checkPointer pointer
        let sizes ← getContentSizes heap pointer inner
        let chunks ← encodeColumns heap junk pointer inner 0 sizes
        load (byteCells (nullHeader inner.nullValues inner.nElem junk) ++ chunks.flatten) 0 n
      else copyElement heap type row pos n
  termination_by structural m => m

end

/-- What `encode` writes for each column. -/
def encodeChunks (heap : Heap) (metadata : List ColumnMeta) (row : TupleRowData)
    (junk : Nat → UInt8) : Except Fault (List (List Cell)) := do
  if row.nElem ≠ u16 metadata.length then
    throw (.moduleException ("ERROR: Using a TupleRow with " ++ toString row.nElem ++
      " but expecting " ++ toString (u16 metadata.length)))
  let sizes ← getContentSizes heap metadata row
  encodeColumns heap junk metadata row 0 sizes

def encode (heap : Heap) (metadata : List ColumnMeta) (row : TupleRowData) (junk : Nat → UInt8) :
    Except Fault (List Cell) := do
  let chunks ← encodeChunks heap metadata row junk
  return byteCells (nullHeader row.nullValues row.nElem junk) ++ chunks.flatten

/-- The words are rebuilt from the bytes one by one, as signed characters. -/
def decodeNulls (n : Nat) (buff : List Cell) : Except Fault (List (BitVec 32)) := do
  return (← loadBytes buff 0 (4 * wordsFor n)).map fun b => b.toBitVec.signExtend 32

/-- The buffer of the row, with the columns written from its start. -/
def rowBuffer (metadata : List ColumnMeta) (junk : Nat → UInt8) (packed : List Cell) :
    Except Fault (List Cell) :=
  if packed.length ≤ totalBytes metadata then
    .ok (packed ++ byteCells ((List.range' packed.length (totalBytes metadata - packed.length)).map junk))
  else .error .outOfBounds

/-- A column copied to memory of its own: the heap, the pointer to it and its size. -/
def allocate (heap : Heap) (buff : List Cell) (size : Nat) : Except Fault (Heap × List Cell × Nat) := do
  return (heap ++ [.block (← load buff 0 size)], pointerCells heap.length, size)

mutual

def decodeColumns (junk : Nat → UInt8) : List ColumnMeta → List (BitVec 32) → Nat → Heap →
    List Cell → Except Fault (Heap × List Cell × List Nat)
  | [], _, _, heap, _ => .ok (heap, [], [])
  | m :: metadata, words, i, heap, buff => do
    let (heap, cells, size) ←
      if nullAt words i then pure (heap, [], 0) else decodeColumn junk m heap buff
    let (heap, packed, sizes) ← decodeColumns junk metadata words (i + 1) heap (buff.drop size)
    return (heap, cells ++ packed, size :: sizes)
  termination_by structural metadata => metadata

def decodeColumn (junk : Nat → UInt8) : ColumnMeta → Heap → List Cell →
    Except Fault (Heap × List Cell × Nat)
  | ⟨_, size, type, pointer⟩, heap, buff =>
    match type with
    | .varchar | .text | .ascii => do allocate heap buff ((← strlen buff) + 1)
    | .date | .time | .timestamp => allocate heap buff 8
    | .uuid => allocate heap buff 16
    | .tuple => do
      checkPointer pointer
      let size ← getContentSize heap pointer (makeTuple pointer buff)
      let words ← decodeNulls pointer.length buff
      let (heap, packed, _) ←
        decodeColumns junk pointer words 0 heap (buff.drop (4 * wordsFor pointer.length))
      let payload ← rowBuffer pointer junk packed
      return (heap ++ [.block payload], pointerCells heap.length, size)
    | .udt | .blob => do
      allocate heap buff (u64 (8 + (← loadWord (← derefBlock heap (← loadPointer buff 0)) 0)))
    | .varint | .bigint | .boolean | .counter | .double | .float | .int | .smallInt | .tinyInt =>
      do return (heap, ← load buff 0 size, size)
    | .decimal | .timeuuid | .inet | .list | .map | .set | .custom | .unknown =>
      .error notSupported
  termination_by structural m => m

end

/-- A row read from a buffer. `sizes` records the bytes that each column took from it. -/
structure Decoded where
  heap : Heap
  row : TupleRowData
  sizes : List Nat

def decode (heap : Heap) (metadata : List ColumnMeta) (junk : Nat → UInt8) (buff : List Cell) :
    Except Fault Decoded := do
  let words ← decodeNulls (u16 metadata.length) buff
  let (heap, packed, sizes) ←
    decodeColumns junk metadata words 0 heap (buff.drop (4 * wordsFor (u16 metadata.length)))
  let data ← rowBuffer metadata junk packed
  return ⟨heap, ⟨metadata, data, words⟩, sizes⟩

def LaidOut (position : Nat) : List ColumnMeta → Prop
  | [] => True
  | m :: metadata => m.position = position ∧ computeSizeOf m.type = .ok m.size ∧
    LaidOut (u16 (position + m.size)) metadata

/-- The columns of a table. The loops of TableMetadata count them in 16 bits, and end for
no more than that. -/
structure Schema where
  columns : List ColumnMeta
  laidOut : LaidOut 0 columns
  bounded : columns.length < 2 ^ 16

theorem bind_eq_ok {α β : Type} {x : Except Fault α} {f : α → Except Fault β} {b : β}
    (h : (x >>= f) = .ok b) : ∃ a, x = .ok a ∧ f a = .ok b := by
  cases x with
  | error e => cases h
  | ok a => exact ⟨a, rfl, h⟩

@[simp] theorem ok_bind {α β : Type} (a : α) (f : α → Except Fault β) : (.ok a >>= f) = f a := rfl

@[simp] theorem pure_eq_ok {α : Type} (a : α) : (pure a : Except Fault α) = .ok a := rfl

theorem columnsMeta_laidOut {types : List (CassValueType × List ColumnMeta)}
    {metadata : List ColumnMeta} {position : Nat} (h : columnsMeta position types = .ok metadata) :
    LaidOut position metadata := by
  induction types generalizing position metadata with
  | nil =>
    cases h
    trivial
  | cons t types ih =>
    obtain ⟨size, hs, h⟩ := bind_eq_ok h
    obtain ⟨rest, hr, h⟩ := bind_eq_ok h
    cases h
    exact ⟨rfl, hs, ih hr⟩

end Hecuba
