import Hecuba.CacheTransparency
import Hecuba.WriterCopies

/-! The arrays that a process has open: the cache that the constructor of each gives it, and the
stores and reads that go through it. -/

namespace Hecuba

abbrev TableId := Str × Str

/-- The columns of the tables, with whether each is of the partition key; there are none where
there is no table. -/
structure Cassandra where
  columns : TableId → List (Str × Bool)
  /-- What the driver says of a query that cannot be prepared. -/
  invalidQuery : String

def emptyName (names : List Str) (first later : String) : Option WriterFault :=
  match names.findIdx? List.isEmpty with
  | none => none
  | some 0 => some (.moduleException first)
  | some (i + 1) => some (.moduleException (later ++ toString (i + 1)))

/-- The arguments of the constructor, with the environment and the tables at that time. -/
structure Opening where
  table : Str
  keyspace : Str
  snSingleTable : Option Str
  cacheSize : Option Str
  hecubaArrow : Option Str
  cassandra : Cassandra

namespace Opening

def id (o : Opening) : TableId := (lowerName o.keyspace, lowerName o.table)

def arrowEnabled (o : Opening) : Bool :=
  match o.hecubaArrow with
  | none => false
  | some text => !(lowerName text = "no".toList || lowerName text = "false".toList)

/-- The end of the name. In a shorter name `find` begins behind the end. -/
def columnar (o : Opening) : Bool := 6 ≤ o.table.length && o.table.drop (o.table.length - 6) = "_arrow".toList

def tableBuffer (o : Opening) : Str := o.table.take (o.table.length - 6) ++ "_buffer".toList

def tableMetadata (o : Opening) (table keyspace : Str) (keysNames columnsNames : List Str) :
    Except WriterFault TableId :=
  let id := (lowerName keyspace, lowerName table)
  let metadatas := o.cassandra.columns id
  if keysNames.isEmpty then .error (.moduleException "TableMetadata: No keys received")
  else if metadatas.isEmpty then
    .error (.moduleException ("The table " ++ String.ofList table ++
      " has no metadatas, check the table name and make sure it exists"))
  else
    match emptyName keysNames "Empty key name given on position 0" "Empty key name given on position: " with
    | some e => .error e
    | none =>
      if keysNames.any fun key => metadatas.lookup key = some true then
        match emptyName columnsNames "Empty column name given on position 0" "Empty column name given onposition: " with
        | some e => .error e
        | none => .ok id
      else .error (.moduleException ("No partition key detected among the keys: " ++
        String.ofList (",".toList.intercalate keysNames)))

end Opening

/-- A CacheTable, without what it takes from Cassandra. -/
structure ArrayCache (K V : Type) where
  table : TableId
  myCache : Option (KVCache K V)

def Opening.cacheTable (K V : Type) [DecidableEq K] (o : Opening) (keysNames columnsNames : List Str) (id : TableId) :
    Except WriterFault (ArrayCache K V) :=
  match WriterThread.checkOption "cache_size" (fun n => 0 ≤ n) "Cache size value must be >= 0" o.cacheSize with
  | some e => .error e
  | none =>
    if (keysNames ++ columnsNames).all fun name => ((o.cassandra.columns id).lookup name).isSome then
      let cacheSize := ((o.cacheSize.bind stoi).getD 0).toNat
      .ok ⟨id, if h : 0 < cacheSize then some (KVCache.new cacheSize h) else none⟩
    else
      .error (.moduleException (o.cassandra.invalidQuery ++ ". CacheTable: Select row query preparation failed SELECT " ++
        String.ofList (",".toList.intercalate columnsNames) ++ " FROM " ++ String.ofList id.1 ++ "." ++ String.ofList id.2 ++
        " WHERE " ++ String.ofList ("AND ".toList.intercalate (keysNames.map fun key => key ++ "=? ".toList)) ++ ";"))

structure Statics where
  metadata : Option TableId
  cache : Option Nat

/-- An array, by what it was opened on: the two parts of `TN`. Its caches are pointers. -/
structure ArrayDataStore where
  opened : TableId
  cache : Option Nat
  readCache : Option Nat

structure ArrayProcess (S K V : Type) where
  caches : List (ArrayCache K V)
  arrays : Statics
  istorage : Statics
  stores : List ArrayDataStore
  content : TableId → S

inductive ArrayCall (K V : Type) where
  | construct (o : Opening)
  | store (store : Nat) (rows : List (K × V))
  | read (store : Nat) (keys : List K)

/-- A `put_crow` or `get_crow` for an array: what the array was opened on, the table of the cache,
if the pointer to it is not null, and the rows that are put or got. -/
structure ArrayAccess (V : Type) where
  opened : TableId
  table : Option TableId
  rows : List V

variable {S K V : Type} [DecidableEq K]

/-- The static variables. One that is there is not made again, with whatever arguments. -/
def Statics.get (s : Statics) (caches : List (ArrayCache K V)) (metadata : Except WriterFault TableId)
    (cache : TableId → Except WriterFault (ArrayCache K V)) : Statics × List (ArrayCache K V) × Except WriterFault Nat :=
  match s.metadata.elim metadata .ok with
  | .error e => (s, caches, .error e)
  | .ok id =>
    match s.cache with
    | some pointer => (⟨some id, some pointer⟩, caches, .ok pointer)
    | none =>
      match cache id with
      | .error e => (⟨some id, none⟩, caches, .error e)
      | .ok c => (⟨some id, some caches.length⟩, caches ++ [c], .ok caches.length)

namespace ArrayProcess

def keysNames : List Str := ["storage_id".toList, "cluster_id".toList, "block_id".toList]

def columnsNames : List Str := ["payload".toList]

def keysArrowNames : List Str := ["storage_id".toList, "cluster_id".toList, "col_id".toList]

def columnsBufferNames : List Str := ["row_id".toList, "size_elem".toList, "payload".toList]

def columnsArrowNames : List Str := ["arrow_addr".toList, "arrow_size".toList]

def metadataColumns : List Str := ["base_numpy".toList, "class_name".toList, "name".toList, "numpy_meta".toList]

def start (content : TableId → S) : ArrayProcess S K V := ⟨[], ⟨none, none⟩, ⟨none, none⟩, [], content⟩

def newCache (p : ArrayProcess S K V) (o : Opening) (table : Str) (keysNames columnsNames : List Str) :
    ArrayProcess S K V × Except WriterFault Nat :=
  match o.tableMetadata table o.keyspace keysNames columnsNames >>= o.cacheTable K V keysNames columnsNames with
  | .error e => (p, .error e)
  | .ok c => ({ p with caches := p.caches ++ [c] }, .ok p.caches.length)

def getStaticcache (p : ArrayProcess S K V) (o : Opening) : ArrayProcess S K V × Except WriterFault Nat :=
  let (arrays, caches, pointer) := p.arrays.get p.caches (o.tableMetadata o.table o.keyspace keysNames columnsNames)
    (o.cacheTable K V keysNames columnsNames)
  ({ p with arrays := arrays, caches := caches }, pointer)

def getStaticMetadataCache (p : ArrayProcess S K V) (o : Opening) : ArrayProcess S K V × Except WriterFault Nat :=
  let (istorage, caches, pointer) := p.istorage.get p.caches
    (o.tableMetadata "istorage".toList "hecuba".toList ["storage_id".toList] metadataColumns)
    (o.cacheTable K V ["storage_id".toList] metadataColumns)
  ({ p with istorage := istorage, caches := caches }, pointer)

def plainCaches (p : ArrayProcess S K V) (o : Opening) : ArrayProcess S K V × Except WriterFault (Nat × Nat) :=
  match o.snSingleTable with
  | none => (p, .error .outOfRange)
  | some single =>
    let (p, pointer) := if single ≠ "false".toList then p.getStaticcache o else p.newCache o o.table keysNames columnsNames
    (p, pointer.map fun pointer => (pointer, pointer))

def columnarCaches (p : ArrayProcess S K V) (o : Opening) : ArrayProcess S K V × Except WriterFault (Nat × Nat) :=
  match p.newCache o o.tableBuffer keysArrowNames columnsBufferNames with
  | (p, .error e) => (p, .error e)
  | (p, .ok write) =>
    let (p, pointer) := p.newCache o o.table keysArrowNames columnsArrowNames
    (p, pointer.map fun read => (write, read))

def finish (o : Opening) :
    ArrayProcess S K V × Except WriterFault (Nat × Nat) → ArrayProcess S K V × Except WriterFault ArrayDataStore
  | (p, .error e) => (p, .error e)
  | (p, .ok (cache, readCache)) =>
    let (p, pointer) := p.getStaticMetadataCache o
    (p, pointer.map fun _ => ⟨o.id, some cache, some readCache⟩)

/-- The constructor. It leaves null pointers in a columnar array where arrow is not enabled. -/
def construct (p : ArrayProcess S K V) (o : Opening) : ArrayProcess S K V × Except WriterFault ArrayDataStore :=
  if o.columnar then
    if o.arrowEnabled then finish o (p.columnarCaches o) else (p, .ok ⟨o.id, none, none⟩)
  else finish o (p.plainCaches o)

def tableOf (p : ArrayProcess S K V) (pointer : Option Nat) : Option TableId :=
  pointer.bind fun i => p.caches[i]?.map ArrayCache.table

/-- Calls on the CacheTable that a pointer leads to. Where a row goes does not depend on when
it is written, so a write counts as done when its call returns. -/
def onCache {A : Type} (p : ArrayProcess S K V) (pointer : Option Nat) (calls : CachedRows S K V → A × CachedRows S K V) :
    ArrayProcess S K V × Option A :=
  match pointer.bind fun i => p.caches[i]?.map fun c => (i, c) with
  | none => (p, none)
  | some (i, c) =>
    let (result, t) := calls ⟨p.content c.table, c.myCache⟩
    ({ p with
        caches := p.caches.set i { c with myCache := t.cache }
        content := Function.update p.content c.table t.content },
      some result)

variable (D : Database S K V)

def putCrows : List (K × V) → CachedRows S K V → Unit × CachedRows S K V
  | [], t => ((), t)
  | (keys, values) :: rows, t => putCrows rows (t.put D keys values)

def getCrows : List K → CachedRows S K V → List (List V) × CachedRows S K V
  | [], t => ([], t)
  | keys :: rest, t =>
    let (rows, t) := t.get D keys
    let (results, t) := getCrows rest t
    (rows :: results, t)

def step (p : ArrayProcess S K V) : ArrayCall K V → ArrayProcess S K V × List (ArrayAccess V)
  | .construct o =>
    match p.construct o with
    | (p, .ok store) => ({ p with stores := p.stores ++ [store] }, [])
    | (p, .error _) => (p, [])
  | .store i rows =>
    match p.stores[i]? with
    | none => (p, [])
    | some store =>
      ((p.onCache store.cache (putCrows D rows)).1, rows.map fun row => ⟨store.opened, p.tableOf store.cache, [row.2]⟩)
  | .read i keys =>
    match p.stores[i]? with
    | none => (p, [])
    | some store =>
      let (after, results) := p.onCache store.readCache (getCrows D keys)
      (after, (results.getD (keys.map fun _ => [])).map fun rows => ⟨store.opened, p.tableOf store.readCache, rows⟩)

def after (p : ArrayProcess S K V) (calls : List (ArrayCall K V)) : ArrayProcess S K V :=
  calls.foldl (fun p call => (p.step D call).1) p

def accesses (p : ArrayProcess S K V) : List (ArrayCall K V) → List (ArrayAccess V)
  | [] => []
  | call :: calls => (p.step D call).2 ++ (p.step D call).1.accesses calls

end ArrayProcess

def openings (calls : List (ArrayCall K V)) : List Opening :=
  calls.filterMap fun call => match call with
    | .construct o => some o
    | _ => none

end Hecuba
