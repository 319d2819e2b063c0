import Hecuba.AttributeBuffers

/-! Copies of a Writer, and the calls that write through one: what each of them sends to the
WriterThread, with the statement that is bound from it there. -/

namespace Hecuba

def stoi (text : Str) : Option Int :=
  let text := text.dropWhile fun c => c = ' ' || ('\t' ≤ c && c ≤ '\r')
  let (negative, text) := match text with
    | '-' :: rest => (true, rest)
    | '+' :: rest => (false, rest)
    | rest => (false, rest)
  match text.takeWhile Char.isDigit with
  | [] => none
  | digits =>
    let n : Int := digits.foldl (fun n c => 10 * n + (c.toNat - '0'.toNat)) 0
    let n := if negative then -n else n
    if FitsSigned 4 n then some n else none

inductive WriterFault where
  | moduleException (msg : String)
  | outOfRange
  | wildPointer
  deriving DecidableEq

/-- The entries of a configuration that the writers read. -/
structure WriterConfig where
  writerBuffer : Option Str
  writerPar : Option Str
  timestampedWrites : Option Str

namespace WriterThread

def checkOption (name : String) (valid : Int → Bool) (msg : String) : Option Str → Option WriterFault
  | none => none
  | some text =>
    let malformed (what : String) := some (.moduleException (what ++ " Malformed value in config for " ++ name))
    match stoi text with
    | none => malformed "stoi"
    | some n => if valid n then none else malformed msg

def failure : Option WriterConfig → Option WriterFault
  | none => some .wildPointer
  | some config =>
    match checkOption "writer_buffer" (fun n => 0 ≤ n) "Writer buffer value must be >= 0" config.writerBuffer with
    | some e => some e
    | none => checkOption "writer_par" (fun n => 0 < n) "Writer parallelism value must be > 0" config.writerPar

end WriterThread

structure WriterTable where
  nKeys : Nat
  values : List Str
  lower : ∀ name ∈ values, lowerName name = name
  insert : Str
  partialInsert : Str

namespace WriterTable

def getSingleValue (t : WriterTable) (valueName : Str) : Except WriterFault Str :=
  match t.values.find? fun name => name = lowerName valueName with
  | some name => .ok name
  | none => .error (.moduleException ("Unknown attribute name [" ++ String.ofList valueName ++ "]"))

def getPartialInsertQuery (t : WriterTable) (attrName : Str) : Str :=
  t.partialInsert ++ ",".toList ++ attrName ++ ")VALUES (?".toList ++ (List.replicate t.nKeys ",?".toList).flatten ++
    ");".toList

end WriterTable

structure WriterStream where
  topicName : Str
  producer : Nat
  topic : Nat

/-- A Writer for keys of type `K` and values of type `V`. A prepared query is its text, and the two
factories are those of the table. The hash map of lazy writes has whole rows, by column. -/
structure Writer (K V : Type) where
  session : Nat
  tableMetadata : WriterTable
  preparedQuery : Str
  preparedPartialQueries : List (Str × Str)
  lazyWriteEnabled : Bool
  dirtyBlocks : List (K × (Str → V))
  maxCalls : Nat
  disableTimestamps : Bool
  stream : Option WriterStream
  /-- Where the pointer to the configuration leads, if anywhere. -/
  myconfig : Option WriterConfig
  prepared : preparedQuery = tableMetadata.insert
  parked : lazyWriteEnabled = false → dirtyBlocks = []

structure BoundStatement (K V : Type) where
  session : Nat
  query : Str
  keys : K
  values : List V
  timestamped : Bool

structure DirtyOrder (K V : Type) where
  hash : K → Nat
  walk : List (K × (Str → V)) → List (K × (Str → V))
  walk_perm : ∀ l, (walk l).Perm l

inductive WriteCall (K V : Type) where
  | row (keys : K) (values : Str → V)
  | column (keys : K) (value : V) (valueName : Str)

structure Reply (K V : Type) where
  bound : List (Except WriterFault (BoundStatement K V))
  raised : Option WriterFault

namespace Writer

variable {K V : Type}

/-- The constructor. `myLocalConfig` is the configuration of the first Writer, and `maxCalls` is
left as it was in memory. -/
def new (table : WriterTable) (session maxCalls : Nat) (config myLocalConfig : WriterConfig) : Writer K V where
  session := session
  tableMetadata := table
  preparedQuery := table.insert
  preparedPartialQueries := table.values.map fun name => (name, table.getPartialInsertQuery name)
  lazyWriteEnabled := false
  dirtyBlocks := []
  maxCalls := maxCalls
  disableTimestamps := match config.timestampedWrites with
    | none => false
    | some text => lowerName text = "false".toList || lowerName text = "no".toList
  stream := none
  myconfig := some myLocalConfig
  prepared := rfl
  parked _ := rfl

/-- `operator=`. It leaves the prepared queries of the single columns and the pointer to the
configuration as they are. -/
def assign (dst src : Writer K V) : Writer K V where
  session := src.session
  tableMetadata := src.tableMetadata
  preparedQuery := src.tableMetadata.insert
  preparedPartialQueries := dst.preparedPartialQueries
  lazyWriteEnabled := src.lazyWriteEnabled
  dirtyBlocks := []
  maxCalls := src.maxCalls
  disableTimestamps := src.disableTimestamps
  stream := src.stream
  myconfig := dst.myconfig
  prepared := rfl
  parked _ := rfl

/-- A Writer before its copy constructor assigns to it; the pointer is not initialised. -/
def blank (table : WriterTable) (myconfig : Option WriterConfig) : Writer K V where
  session := 0
  tableMetadata := table
  preparedQuery := table.insert
  preparedPartialQueries := []
  lazyWriteEnabled := false
  dirtyBlocks := []
  maxCalls := 0
  disableTimestamps := false
  stream := none
  myconfig := myconfig
  prepared := rfl
  parked _ := rfl

def copy (src : Writer K V) (myconfig : Option WriterConfig) : Writer K V :=
  (blank src.tableMetadata myconfig).assign src

def enableLazyWrite (w : Writer K V) : Writer K V := { w with lazyWriteEnabled := true, parked := fun h => by cases h }

def bindCassStatement (w : Writer K V) (keys : K) (values : List (Str × V)) :
    Except WriterFault (BoundStatement K V) :=
  if values.length < w.tableMetadata.values.length then
    if 1 < values.length then .error (.moduleException "async_query_execute: only supports 1 or all attributes write")
    else
      match values.head?.bind fun e => w.preparedPartialQueries.lookup e.1 with
      | none => .error .outOfRange
      | some query => .ok ⟨w.session, query, keys, values.map Prod.snd, !w.disableTimestamps⟩
  else .ok ⟨w.session, w.preparedQuery, keys, values.map Prod.snd, !w.disableTimestamps⟩

def queueAsyncQueries (w : Writer K V) (started : Bool) (rows : List (K × List (Str × V))) : Bool × Reply K V :=
  if rows.isEmpty then (started, ⟨[], none⟩)
  else
    match if started then none else WriterThread.failure w.myconfig with
    | some e => (started, ⟨[], some e⟩)
    | none => (true, ⟨rows.map fun e => w.bindCassStatement e.1 e.2, none⟩)

def wholeRow (w : Writer K V) (values : Str → V) : List (Str × V) := w.tableMetadata.values.map fun name => (name, values name)

def cleared (w : Writer K V) : Writer K V := { w with dirtyBlocks := [], parked := fun _ => rfl }

def eager (w : Writer K V) : Writer K V := { w with lazyWriteEnabled := false, dirtyBlocks := [], parked := fun _ => rfl }

variable (order : DirtyOrder K V)

def flushDirtyBlocks (w : Writer K V) (started : Bool) : Writer K V × Bool × Reply K V :=
  if w.lazyWriteEnabled then
    let (started, reply) := w.queueAsyncQueries started ((order.walk w.dirtyBlocks).map fun e => (e.1, w.wholeRow e.2))
    if reply.raised.isSome then (w, started, reply) else (w.cleared, started, reply)
  else (w, started, ⟨[], none⟩)

def disableLazyWrite (w : Writer K V) (started : Bool) : Writer K V × Bool × Reply K V :=
  let (w, started, reply) := w.flushDirtyBlocks order started
  if reply.raised.isSome then (w, started, reply) else (w.eager, started, reply)

/-- A row into the hash map, where the keys of one hash are one key. -/
def park (w : Writer K V) (h : w.lazyWriteEnabled = true) (keys : K) (values : Str → V) : Writer K V where
  __ := w
  dirtyBlocks :=
    if w.dirtyBlocks.any fun e => order.hash e.1 = order.hash keys then
      w.dirtyBlocks.map fun e => if order.hash e.1 = order.hash keys then (e.1, values) else e
    else w.dirtyBlocks ++ [(keys, values)]
  parked := fun hoff => by
    have hon := h.symm.trans hoff
    cases hon

def writeToCassandra (w : Writer K V) (started : Bool) : WriteCall K V → Writer K V × Bool × Reply K V
  | .row keys values =>
    if h : w.lazyWriteEnabled = true then
      let w := w.park order h keys values
      if w.maxCalls < w.dirtyBlocks.length then w.flushDirtyBlocks order started else (w, started, ⟨[], none⟩)
    else (w, w.queueAsyncQueries started [(keys, w.wholeRow values)])
  | .column keys value valueName =>
    let (w, started, flushed) := w.disableLazyWrite order started
    if flushed.raised.isSome then (w, started, flushed)
    else
      match w.tableMetadata.getSingleValue valueName with
      | .error e => (w, started, ⟨flushed.bound, some e⟩)
      | .ok name =>
        let (started, reply) := w.queueAsyncQueries started [(keys, [(name, value)])]
        (w, started, ⟨flushed.bound ++ reply.bound, reply.raised⟩)

/-- The replies to a sequence of calls. A call that raises leaves the Writer to the next. -/
def run (w : Writer K V) (started : Bool) : List (WriteCall K V) → List (Reply K V)
  | [] => []
  | call :: calls =>
    let (w, started, reply) := w.writeToCassandra order started call
    reply :: w.run started calls

end Writer

end Hecuba
