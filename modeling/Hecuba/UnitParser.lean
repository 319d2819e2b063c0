import Hecuba.ColumnCodec

/-! The parsers between Python objects and the payload of a row: one for each column type,
and the one for tuples, which calls the others for its components. -/

namespace Hecuba

/-- One code point of a Python string. A lone surrogate has no UTF-8. -/
inductive CodePoint where
  | scalar (c : Char)
  | surrogate (n : Fin 0x800)
  deriving DecidableEq

def CodePoint.toChar? : CodePoint → Option Char
  | .scalar c => some c
  | .surrogate _ => none

/-- The fields of a `datetime.time`, with the offset that its time zone gives, if any. -/
structure ClockTime where
  hour : Fin 24
  minute : Fin 60
  second : Fin 60
  microsecond : Fin 1000000
  utcoffset : Option Int
  deriving DecidableEq

/-- A Python object. An object that is not `exact` is of a subclass of the type named. -/
inductive PyValue where
  | none
  | bool (b : Bool)
  | int (n : Int) (exact : Bool)
  | str (text : List CodePoint) (exact : Bool)
  | bytearray (bytes : Bytes) (exact : Bool)
  | time (t : ClockTime) (exact : Bool)
  | tuple (elements : List PyValue) (exact : Bool)
  | other (str : List CodePoint)

/-- The integer of an object that passes `PyLong_Check`: a Boolean is one. -/
def PyValue.asLong? : PyValue → Option Int
  | .bool b => some (if b then 1 else 0)
  | .int n _ => some n
  | _ => Option.none

def asUTF8 (text : List CodePoint) : Option Bytes := do
  return (← text.mapM CodePoint.toChar?).flatMap String.utf8EncodeChar

/-- `PyUnicode_FromString`, from the bytes before the terminator. -/
def fromUTF8 (bytes : Bytes) : Option (List CodePoint) := do
  return (← bytes.toByteArray.utf8Decode?).toList.map CodePoint.scalar

/-- What ends a parser early: a C++ exception, a null object with a Python error, or a fault. -/
inductive ParserFault where
  | typeErrorException (msg : String)
  | logicError
  | nullObject
  | fault (f : Fault)
  deriving DecidableEq

def access {α : Type} (x : Except Fault α) : Except ParserFault α := x.mapError ParserFault.fault

/-- The cells of memory that nothing has been written to yet. -/
def uninitialised (junk : Nat → Nat → UInt8) (heap : Heap) (n : Nat) : List Cell :=
  byteCells ((List.range n).map (junk heap.length))

structure Parsed where
  code : Int
  heap : Heap
  payload : List Cell

/-- `error_parsing`. Its message has the text of the object only where that text is null. -/
def errorParsing {α : Type} (obj : PyValue) : Except ParserFault α :=
  let repr := match obj with
    | .str text _ | .other text => asUTF8 text
    | _ => some []
  if repr.isSome then
    .error (.typeErrorException "Parse from python to c, found sth that can't be represented nor parsed with type str")
  else .error .logicError

inductive IntFormat where
  | shortInt | int | longLong

def IntFormat.size : IntFormat → Nat
  | .shortInt => 2
  | .int => 4
  | .longLong => 8

/-- `PyArg_Parse`: whether the C type has the integer, and the destination with it written. -/
def pyArgParse (format : IntFormat) (n : Int) (dst : List Cell) : Except Fault (Bool × List Cell) :=
  if FitsSigned format.size n then do
    return (true, ← store dst 0 (byteCells (twosComplement format.size n)))
  else .ok (false, dst)

section toC

variable (junk : Nat → Nat → UInt8) (heap : Heap)

namespace BoolParser

def pyToC (obj : PyValue) (payload : List Cell) : Except ParserFault Parsed :=
  match obj with
  | .none => .ok ⟨-1, heap, payload⟩
  | .bool b => do return ⟨0, heap, ← access (store payload 0 (byteCells [if b then 1 else 0]))⟩
  | obj => errorParsing obj

def cToPy (payload : List Cell) : Except ParserFault PyValue := do
  return .bool ((← access (loadBytes payload 0 1)) ≠ [0])

end BoolParser

/-- The parsers with a variable of `size` bytes that `PyArg_Parse` writes a short to. -/
def shortToC (size : Nat) (obj : PyValue) (payload : List Cell) : Except ParserFault Parsed :=
  match obj with
  | .none => .ok ⟨-1, heap, payload⟩
  | obj =>
    match obj.asLong? with
    | some n => do
      let (parsed, temp) ← access (pyArgParse .shortInt n (uninitialised junk heap size))
      if parsed then return ⟨0, heap, ← access (load temp 0 size >>= store payload 0)⟩
      else errorParsing obj
    | Option.none => errorParsing obj

def intToPy (size : Nat) (payload : List Cell) : Except ParserFault PyValue := do
  return .int (ofTwosComplement (← access (loadBytes payload 0 size))) true

namespace Int8Parser

def pyToC : PyValue → List Cell → Except ParserFault Parsed := shortToC junk heap 1

def cToPy : List Cell → Except ParserFault PyValue := intToPy 1

end Int8Parser

namespace Int16Parser

def pyToC : PyValue → List Cell → Except ParserFault Parsed := shortToC junk heap 2

def cToPy : List Cell → Except ParserFault PyValue := intToPy 2

end Int16Parser

namespace Int32Parser

def pyToC (obj : PyValue) (payload : List Cell) : Except ParserFault Parsed :=
  match obj with
  | .none => .ok ⟨-1, heap, payload⟩
  | obj =>
    match obj.asLong? with
    | some n => do
      let (parsed, payload) ← access (pyArgParse .int n payload)
      if parsed then return ⟨0, heap, payload⟩ else errorParsing obj
    | Option.none => errorParsing obj

def cToPy : List Cell → Except ParserFault PyValue := intToPy 4

end Int32Parser

namespace Int64Parser

def pyToC (obj : PyValue) (payload : List Cell) : Except ParserFault Parsed :=
  match obj with
  | .none => .ok ⟨-1, heap, payload⟩
  | obj =>
    match obj.asLong? with
    | some n => do
      let (parsed, t) ← access (pyArgParse .longLong n (uninitialised junk heap 8))
      -- the source compares the result, which is 0 or 1, with less than zero
      if (if parsed then 1 else 0 : Int) < 0 then errorParsing obj
      else return ⟨0, heap, ← access (store payload 0 t)⟩
    | Option.none => errorParsing obj

def cToPy : List Cell → Except ParserFault PyValue := intToPy 8

end Int64Parser

/-- A text or a blob as it is read: the C string that the payload points to. -/
def stringToPy (payload : List Cell) : Except ParserFault PyValue := do
  let d ← access (loadPointer payload 0 >>= derefBlock heap)
  let bytes ← access (do loadBytes d 0 (← strlen d))
  match fromUTF8 bytes with
  | some text => return .str text true
  | Option.none => .error .nullObject

namespace TextParser

def pyToC (obj : PyValue) (payload : List Cell) : Except ParserFault Parsed :=
  match obj with
  | .none => .ok ⟨-1, heap, payload⟩
  | .str text exact =>
    match asUTF8 text with
    | Option.none => errorParsing (.str text exact)
    | some bytes => do
      let permanent := uninitialised junk heap (bytes.length + 1)
      let permanent ← access (store permanent 0 (byteCells bytes))
      let permanent ← access (store permanent bytes.length [.byte 0])
      return ⟨0, heap ++ [.block permanent], ← access (store payload 0 (pointerCells heap.length))⟩
  | obj => errorParsing obj

def cToPy : List Cell → Except ParserFault PyValue := stringToPy heap

end TextParser

namespace BytesParser

def pyToC (obj : PyValue) (payload : List Cell) : Except ParserFault Parsed :=
  match obj with
  | .none => .ok ⟨-1, heap, payload⟩
  | .bytearray bytes _ => do
    let permanent := uninitialised junk heap (bytes.length + 8)
    let intSize := u64 bytes.length
    let permanent ← access (store permanent 0 (byteCells (toLittleEndian 8 intSize)))
    let permanent ← access (store permanent 8 (byteCells (bytes.take intSize)))
    return ⟨0, heap ++ [.block permanent], ← access (store payload 0 (pointerCells heap.length))⟩
  | obj => errorParsing obj

def cToPy : List Cell → Except ParserFault PyValue := stringToPy heap

end BytesParser

/-- An argument of type `int` with its check. -/
def timeField (bound : Nat) (n : Int) : Option (Fin bound) :=
  let n := n.bmod (2 ^ 32)
  if h : 0 ≤ n ∧ n < bound then some ⟨n.toNat, by omega⟩ else Option.none

def pyTimeFromTime (hour minute second microsecond : Int) : Option ClockTime := do
  return ⟨← timeField 24 hour, ← timeField 60 minute, ← timeField 60 second, ← timeField 1000000 microsecond, Option.none⟩

namespace TimeParser

def pyToC (obj : PyValue) (payload : List Cell) : Except ParserFault Parsed :=
  match obj with
  | .none => .ok ⟨-1, heap, payload⟩
  | .time t true => do
    let date : Int := t.hour * 3600000000000 + t.minute * 60000000000 + t.second * 1000000000 + t.microsecond * 1000
    return ⟨0, heap, ← access (store payload 0 (byteCells (twosComplement 8 date)))⟩
  | obj => errorParsing obj

def cToPy (payload : List Cell) : Except ParserFault PyValue := do
  let msec := (ofTwosComplement (← access (loadBytes payload 0 8))).tdiv 1000
  let hour := msec.tdiv 3600000000
  let msec := msec - 3600000000 * hour
  let min := msec.tdiv 60000000
  let msec := msec - 60000000 * min
  let sec := msec.tdiv 1000000
  let msec := msec - 1000000 * sec
  match pyTimeFromTime hour min sec msec with
  | some t => return .time t true
  | Option.none => .error .nullObject

end TimeParser

end toC

inductive ScalarType where
  | tinyInt | smallInt | int | bigint | boolean | text | blob | time
  deriving DecidableEq, Repr

namespace ScalarType

def cassType : ScalarType → CassValueType
  | .tinyInt => .tinyInt
  | .smallInt => .smallInt
  | .int => .int
  | .bigint => .bigint
  | .boolean => .boolean
  | .text => .text
  | .blob => .blob
  | .time => .time

def size : ScalarType → Nat
  | .tinyInt | .boolean => 1
  | .smallInt => 2
  | .int => 4
  | .bigint | .text | .blob | .time => 8

theorem computeSizeOf_cassType (type : ScalarType) : computeSizeOf type.cassType = .ok type.size := by
  cases type <;> rfl

def pyToC (junk : Nat → Nat → UInt8) (heap : Heap) :
    ScalarType → PyValue → List Cell → Except ParserFault Parsed
  | .tinyInt => Int8Parser.pyToC junk heap
  | .smallInt => Int16Parser.pyToC junk heap
  | .int => Int32Parser.pyToC heap
  | .bigint => Int64Parser.pyToC junk heap
  | .boolean => BoolParser.pyToC heap
  | .text => TextParser.pyToC junk heap
  | .blob => BytesParser.pyToC junk heap
  | .time => TimeParser.pyToC heap

def cToPy (heap : Heap) : ScalarType → List Cell → Except ParserFault PyValue
  | .tinyInt => Int8Parser.cToPy
  | .smallInt => Int16Parser.cToPy
  | .int => Int32Parser.cToPy
  | .bigint => Int64Parser.cToPy
  | .boolean => BoolParser.cToPy
  | .text => TextParser.cToPy heap
  | .blob => BytesParser.cToPy heap
  | .time => TimeParser.cToPy

end ScalarType

structure Component where
  type : ScalarType
  position : Nat

def Component.meta (c : Component) : ColumnMeta := ⟨c.position, c.type.size, c.type.cassType, []⟩

/-- The components of a tuple where TableMetadata places them, with an offset of 16 bits. -/
def componentsFrom (offset : Nat) : List ScalarType → List Component
  | [] => []
  | type :: types => ⟨type, offset⟩ :: componentsFrom (u16 (offset + type.size)) types

theorem columnsMeta_components (types : List ScalarType) (offset : Nat) :
    columnsMeta offset (types.map fun type => (type.cassType, [])) =
      .ok ((componentsFrom offset types).map Component.meta) := by
  induction types generalizing offset with
  | nil => rfl
  | cons type types ih =>
    rw [List.map_cons, columnsMeta, type.computeSizeOf_cassType, ok_bind, ih, ok_bind]
    rfl

namespace TupleParser

/-- The loop of `py_to_c`, over the components and the elements from the one of index `i`. -/
def elementsToC (junk : Nat → Nat → UInt8) :
    List Component → List PyValue → Nat → Heap → TupleRowData → Except ParserFault (Heap × TupleRowData)
  | _ :: components, .none :: elements, i, heap, row => elementsToC junk components elements (i + 1) heap (row.setNull i)
  | c :: components, element :: elements, i, heap, row => do
    let destiny ← access (load row.data c.position c.type.size)
    let parsed ← c.type.pyToC junk heap element destiny
    let data ← access (store row.data c.position parsed.payload)
    elementsToC junk components elements (i + 1) parsed.heap { row with data }
  | _, _, _, heap, row => .ok (heap, row)

def totalMalloc (types : List ScalarType) : Nat := types.foldl (fun total type => u32 (total + type.size)) 0

def newRow (junk : Nat → Nat → UInt8) (types : List ScalarType) (heap : Heap) : TupleRowData :=
  makeTuple ((componentsFrom 0 types).map Component.meta) (uninitialised junk heap (totalMalloc types))

def pyToC (junk : Nat → Nat → UInt8) (types : List ScalarType) (heap : Heap) (obj : PyValue) (payload : List Cell) :
    Except ParserFault Parsed :=
  match obj with
  | .none => .error (.fault (.moduleException "Error parsing PyObject from py to c, expected a non-none object"))
  | .tuple elements _ => do
    if elements.length ≠ types.length then
      .error (.fault (.moduleException
        "Error parsing PyObject from py to c, expected size of Py_tuple being the same as Column_meta"))
    -- the row takes its address once it has its components; its payload has been allocated before theirs
    let (heap, row) ← elementsToC (fun k => junk (k + 1)) (componentsFrom 0 types) elements 0 heap (newRow junk types heap)
    return ⟨0, heap ++ [.tupleRow row], ← access (store payload 0 (pointerCells heap.length))⟩
  | _ => .error (.fault (.moduleException "Error parsing PyObject from py to c, expected a tuple object"))

def elementToPy (heap : Heap) (row : TupleRowData) (c : Component) (i : Nat) : Except ParserFault PyValue :=
  match row.getElement i with
  | Option.none => .ok .none
  | some position => do c.type.cToPy heap (← access (load row.data position c.type.size))

def elementsToPy (heap : Heap) (row : TupleRowData) : List Component → Nat → Except ParserFault (List PyValue)
  | [], _ => .ok []
  | c :: components, i => do
    return (← elementToPy heap row c i) :: (← elementsToPy heap row components (i + 1))

def cToPy (types : List ScalarType) (heap : Heap) (payload : List Cell) : Except ParserFault PyValue := do
  let row ← access (loadPointer payload 0 >>= derefRow heap)
  return .tuple (← elementsToPy heap row (componentsFrom 0 types) 0) true

end TupleParser

inductive ColumnType where
  | scalar (type : ScalarType)
  | tuple (types : List ScalarType)

namespace ColumnType

def size : ColumnType → Nat
  | .scalar type => type.size
  | .tuple _ => 8

def pyToC (junk : Nat → Nat → UInt8) (heap : Heap) : ColumnType → PyValue → List Cell → Except ParserFault Parsed
  | .scalar type => type.pyToC junk heap
  | .tuple types => TupleParser.pyToC junk types heap

def cToPy (heap : Heap) : ColumnType → List Cell → Except ParserFault PyValue
  | .scalar type => type.cToPy heap
  | .tuple types => TupleParser.cToPy types heap

end ColumnType

end Hecuba
