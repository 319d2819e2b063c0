import Hecuba.Programs
import Hecuba.StorageDict
import Mathlib.Data.List.Dedup

/-! A persistent StorageDict whose values are sets. Each element of a set is a row, its key followed
by the element, that the dictionary writes through its cache. The lengths and the iterations of the
sets are queries, which see the rows that have been applied. -/

namespace Hecuba

/-- The numbers of key columns and of columns of an element. -/
structure SetSchema where
  primaryKeys : Nat
  setTypes : Nat

abbrev SetRow (α : Type) := List (PyObject α)

/-- The rows of the table, those still to be applied and those in the cache. -/
structure SetTable (α : Type) where
  db : List (SetRow α)
  pending : List (SetRow α)
  cache : List (SetRow α)

/-- What happens beside the client: a write is applied, or the cache drops a row. -/
inductive SetMove where
  | apply (i : Nat)
  | evict (i : Nat)

/-- `schedule` has what happens before each request to come. -/
structure SetWorld (α : Type) where
  table : SetTable α
  schedule : List (List SetMove)

abbrev SetProgram (α β : Type) := Program (SetWorld α) DictError β

variable {α β : Type} [DecidableEq α]

namespace SetTable

def move (t : SetTable α) : SetMove → SetTable α
  | .apply i =>
    match t.pending[i]? with
    | some row => { t with db := t.db.insert row, pending := t.pending.eraseIdx i }
    | none => t
  | .evict i => { t with cache := t.cache.eraseIdx i }

def flush (t : SetTable α) : SetTable α :=
  { t with db := t.pending.foldl (fun db row => db.insert row) t.db, pending := [] }

end SetTable

def request (f : SetTable α → Except DictError β × SetTable α) : SetProgram α β := fun w =>
  let result := f ((w.schedule.headD []).foldl SetTable.move w.table)
  (result.1, ⟨result.2, w.schedule.tail⟩)

namespace SetSchema

variable (s : SetSchema)

def wrongSize (method : String) : DictError :=
  .exception (method ++ ", keys error: PythonParser: Got less python elements than columns configured")

def putRow (row : SetRow α) : SetProgram α Unit := request fun t =>
  if row.length = s.primaryKeys + s.setTypes then
    (.ok (), { t with pending := t.pending ++ [row], cache := row :: t.cache.erase row })
  else (.error (wrongSize "Put_row"), t)

/-- A row that is not in the cache is read when everything has been written. -/
def getRow (row : SetRow α) : SetProgram α Unit := request fun t =>
  if row.length = s.primaryKeys + s.setTypes then
    if row ∈ t.cache then (.ok (), { t with cache := row :: t.cache.erase row })
    else if row ∈ t.flush.db then (.ok (), { t.flush with cache := row :: t.cache })
    else (.error .keyError, t.flush)
  else (.error (wrongSize "Get row"), t)

def deleteRow (row : SetRow α) : SetProgram α Unit := request fun t =>
  if row.length = s.primaryKeys + s.setTypes then
    (.ok (), { t.flush with db := t.flush.db.erase row, cache := t.cache.erase row })
  else (.error (wrongSize "Delete_row"), t)

def flush : SetProgram α Unit := request fun t => (.ok (), t.flush)

/-- `_join_keys_query`, which pairs the names of the key columns with the keys. -/
def joinKeysQuery (keys row : SetRow α) : Bool :=
  row.take (min s.primaryKeys keys.length) == keys.take (min s.primaryKeys keys.length)

def select (keys : SetRow α) : SetProgram α (List (SetRow α)) := request fun t =>
  (.ok (t.db.filter (s.joinKeysQuery keys)), t)

def count (keys : SetRow α) : SetProgram α Nat := request fun t => (.ok (t.db.filter (s.joinKeysQuery keys)).length, t)

def scan : SetProgram α (List (SetRow α)) := request fun t => (.ok t.db, t)

/-- `_make_key` of a list. -/
def makeKey (key : SetRow α) : SetProgram α (SetRow α) :=
  if key.length = s.primaryKeys ∨ key.length = s.primaryKeys + s.setTypes then pure key
  else .throw (.exception "wrong primary key <class 'list'>")

def setitem (keys : SetRow α) : SetProgram α Unit := do
  let k ← s.makeKey keys
  s.putRow k

def hasKey (keys : SetRow α) : SetProgram α Bool :=
  Program.tryCatch (do
    let k ← s.makeKey keys
    s.getRow k
    pure true) fun _ => pure false

/-- The columns of a row that come after its key, as the iterations give them. -/
def valueOf (row : SetRow α) : PyObject α :=
  match s.setTypes, row.drop s.primaryKeys with
  | 1, x :: _ => x
  | _, items => .tuple items

def keyOf (row : SetRow α) : PyObject α :=
  match s.primaryKeys, row.take s.primaryKeys with
  | 1, x :: _ => x
  | _, items => .tuple items

end SetSchema

namespace EmbeddedSet

variable (s : SetSchema) (keys : SetRow α)

def add (value : PyObject α) : SetProgram α Unit := s.setitem (keys ++ deletedKey value)

def contains (value : PyObject α) : SetProgram α Bool := s.hasKey (keys ++ deletedKey value)

def remove (value : PyObject α) : SetProgram α Unit := do
  if ← contains s keys value then s.deleteRow (keys ++ deletedKey value) else Program.throw .keyError

def discard (value : PyObject α) : SetProgram α Unit :=
  Program.tryCatch (do
    if ← contains s keys value then s.deleteRow (keys ++ deletedKey value) else pure ())
  fun e => if e = .keyError then pure () else Program.throw e

def len : SetProgram α Nat := s.count keys

def iter : SetProgram α (List (PyObject α)) := do
  let rows ← s.select keys
  pure (rows.map s.valueOf)

def clear : SetProgram α Unit := do
  let values ← iter s keys
  Program.forEach (remove s keys) values

def clearIfAny : SetProgram α Unit := do
  let n ← len s keys
  if n ≠ 0 then clear s keys else pure ()

/-- `__init__` with the set that is assigned. -/
def assign (values : List (PyObject α)) : SetProgram α Unit := do
  clearIfAny s keys
  Program.forEach (add s keys) values

end EmbeddedSet

/-- The other side of a method: a set of Python, or a set of the same dictionary. -/
inductive SetOperand (α : Type) where
  | pySet (values : List (PyObject α))
  | embedded (key : PyObject α)

namespace SetOperand

variable (s : SetSchema)

def iter : SetOperand α → SetProgram α (List (PyObject α))
  | .pySet values => pure values
  | .embedded key => EmbeddedSet.iter s (deletedKey key)

def len : SetOperand α → SetProgram α Nat
  | .pySet values => pure values.length
  | .embedded key => EmbeddedSet.len s (deletedKey key)

def contains (value : PyObject α) : SetOperand α → SetProgram α Bool
  | .pySet values => pure (values.elem value)
  | .embedded key => EmbeddedSet.contains s (deletedKey key) value

end SetOperand

namespace EmbeddedSet

variable (s : SetSchema) (keys : SetRow α) (others : List (SetOperand α))

/-- The loops of `union`, with the set that they fill. -/
def unionFrom : List (SetOperand α) → List (PyObject α) → SetProgram α (List (PyObject α))
  | [], result => pure result
  | other :: others, result => do
    let values ← other.iter s
    unionFrom others (values.foldl (fun result value => result.insert value) result)

def union : SetProgram α (List (PyObject α)) := do
  let values ← iter s keys
  unionFrom s others (values.foldl (fun result value => result.insert value) [])

def intersection : SetProgram α (List (PyObject α)) := do
  let values ← iter s keys
  Program.filter (fun value => Program.all (fun other => other.contains s value) others) values

def difference : SetProgram α (List (PyObject α)) := do
  let values ← iter s keys
  Program.filter (fun value => do
    let inAnyOther ← Program.any (fun other => other.contains s value) others
    pure !inAnyOther) values

def update : SetProgram α Unit :=
  Program.forEach (fun other => do
    let values ← other.iter s
    Program.forEach (add s keys) values) others

def issubset (other : SetOperand α) : SetProgram α Bool := do
  let n ← len s keys
  let m ← other.len s
  if m < n then pure false
  else do
    let values ← iter s keys
    Program.all (fun value => other.contains s value) values

def issuperset (other : SetOperand α) : SetProgram α Bool := do
  let n ← len s keys
  let m ← other.len s
  if n < m then pure false
  else do
    let values ← other.iter s
    Program.all (fun value => contains s keys value) values

end EmbeddedSet

namespace SetSchema

variable (s : SetSchema)

/-- `d[key].add(value)` for the `defaultdict` that `items` fills. -/
def groupAdd (key value : PyObject α) : List (PyObject α × List (PyObject α)) → List (PyObject α × List (PyObject α))
  | [] => [(key, [value])]
  | (k, values) :: rest => if k = key then (k, values.insert value) :: rest else (k, values) :: groupAdd key value rest

def items : SetProgram α (List (PyObject α × List (PyObject α))) := do
  flush
  let rows ← scan
  pure (rows.foldl (fun d row => groupAdd (s.keyOf row) (s.valueOf row) d) [])

def keys : SetProgram α (List (PyObject α)) := do
  flush
  let rows ← scan
  pure (rows.map s.keyOf).dedup

end SetSchema

end Hecuba
