import Hecuba.LambdaMeaning

/-! The filter of a StorageDict with index: the parsed comparisons, the points and the text that
they are kept in, the constructor of the iterator, and the condition that the iterator would send. -/

namespace Hecuba

namespace LambdaFilter

variable {F : Type}

structure Expression (F : Type) where
  column : Str
  op : Str
  value : Item F
  accepted : comparators.contains op = true ∨ op = "in".toList

/-- A StorageDict with `_indexed_on`. Cassandra makes its index on some columns of the table, each of
them once; the names are words. -/
structure IndexedDict extends NumericDict where
  ksp : Str
  table : Str
  indexedOn : List Str
  indexed : indexedOn ≠ []
  distinct : indexedOn.Nodup
  columns_of : ∀ col ∈ indexedOn, col ∈ columns ++ primaryKeys
  words : ∀ col ∈ columns ++ primaryKeys, ' ' ∉ col

structure IndexedFilter (F : Type) (d : IndexedDict) where
  expressions : List (Expression F)
  known : ∀ e ∈ expressions, e.column ∈ d.columns ++ d.primaryKeys ∨ -1 < firstIndex "random".toList e.column

/-- The points have a value for each indexed column, if it has a bound. No precision is 1.0. -/
structure QbeastMeta (F : Type) where
  memFilter : Str
  fromPoint : List (Option (Item F))
  toPoint : List (Option (Item F))
  precision : Option (Item F)

/-- What the driver of Cassandra takes for a double in a point and for the precision, which are
stored with the iterator. Nothing in a point is sent as an empty value. -/
structure QbeastDriver (F : Type) where
  packsDouble : Item F → Bool
  packsFloat : Item F → Bool
  refusal : Str
  numbers_str : ∀ s, packsDouble (.str s) = false
  numbers_sequence : ∀ mutable items, packsDouble (.sequence mutable items) = false

section text

variable (py : FilterPython F)

def plainText : Item F → Str
  | .scalar (.str s) => s
  | .scalar v => scalarText py v
  | .sequence mutable items => py.formatSequence mutable items

def boundText : Option (Item F) → Str
  | none => "None".toList
  | some v => plainText py v

def argument (e : Expression F) : Str := e.column ++ ' ' :: e.op ++ ' ' :: plainText py e.value ++ " AND ".toList

end text

structure QbeastScan (F : Type) where
  nonIndexArguments : Str
  fromP : List (Option (Item F))
  toP : List (Option (Item F))
  precision : Option (Item F)

def scanExpression (py : FilterPython F) (d : IndexedDict) (s : QbeastScan F) (e : Expression F) :
    Except PyException (QbeastScan F) :=
  if d.indexedOn.contains e.column then
    let index := d.indexedOn.idxOf e.column
    if e.op = ['>'] then .ok { s with fromP := s.fromP.set index (some e.value) }
    else if e.op = ['<'] then .ok { s with toP := s.toP.set index (some e.value) }
    else if e.op = "in".toList then .error ⟨"Exception", "Cannot use <in> on a QbeastIterator".toList⟩
    else .ok { s with nonIndexArguments := s.nonIndexArguments ++ argument py e }
  else if -1 < firstIndex "random".toList e.column then .ok { s with precision := some e.value }
  else .ok { s with nonIndexArguments := s.nonIndexArguments ++ argument py e }

def dropLast (n : Nat) (s : Str) : Str := s.take (s.length - n)

section constructor

structure IStorageRow (Id : Type) where
  name : Option Str
  storageId : Id
  tokens : List (Int × Int)

/-- What is outside of a new object: the configuration, the hash of a name, hecuba.istorage and the ring. -/
structure IStorageWorld (Id : Type) where
  executionName : Str
  storageIdFromName : Str → Id
  getIstorageAttrs : Id → List (IStorageRow Id)
  ring : List (Int × Int)

structure IStorage (Id : Type) where
  ksp : Option Str
  table : Option Str
  storageId : Option Id
  tokens : List (Int × Int)
  isPersistent : Bool

variable {Id : Type} (world : IStorageWorld Id)

def extractKsTab (name : Str) : Str × Str :=
  match name.splitOn '.' with
  | [ksp, table] => (ksp.map Char.toLower, table.map Char.toLower)
  | _ => (world.executionName.map Char.toLower, name.map Char.toLower)

def orRing (tokens : List (Int × Int)) : List (Int × Int) := if tokens = [] then world.ring else tokens

def given (name : Option Str) : Option Str := name.filter (· ≠ [])

def IStorage.makePersistent (self : IStorage Id) (name : Option Str) : Except PyException (IStorage Id) :=
  if self.isPersistent then
    .error ⟨"AlreadyPersistentError", "This Object is already persistent [Before:".toList ++ self.ksp.getD "None".toList ++
      '.' :: self.table.getD "None".toList ++ "][After:".toList ++ name.getD "None".toList ++ [']']⟩
  else
    match given name with
    | none => .error ⟨"TypeError", "unsupported operand type(s) for +: 'NoneType' and 'str'".toList⟩
    | some name =>
      let (ksp, table) := extractKsTab world name
      let storageId := self.storageId.getD (world.storageIdFromName (ksp ++ '.' :: table))
      let found := (world.getIstorageAttrs storageId).head?.elim world.ring IStorageRow.tokens
      .ok ⟨some ksp, some table, some storageId, if self.tokens = [] then found else self.tokens, true⟩

/-- What hecuba.istorage says of a name, else of a storage_id. -/
def IStorage.lookup (name : Option Str) (storageId : Option Id) : IStorage Id × Option Str :=
  let unnamed : IStorage Id := ⟨none, none, storageId, [], false⟩
  match given name, storageId with
  | some name, _ =>
    let (ksp, table) := extractKsTab world name
    match (world.getIstorageAttrs (world.storageIdFromName (ksp ++ '.' :: table))).head? with
    | some metas => ({ unnamed with storageId := some metas.storageId, tokens := orRing world metas.tokens }, metas.name)
    | none => (unnamed, some (ksp ++ '.' :: table))
  | none, some id =>
    match (world.getIstorageAttrs id).head? with
    | some metas => ({ unnamed with tokens := orRing world metas.tokens }, metas.name)
    | none => (unnamed, none)
  | none, none => (unnamed, none)

def IStorage.init (name : Option Str) (storageId : Option Id) : Except PyException (IStorage Id) :=
  let (self, givenName) := IStorage.lookup world name storageId
  match given givenName with
  | some name => self.makePersistent world (some name)
  | none => .ok self

structure QbeastIterator (F Id : Type) extends IStorage Id where
  qbeastMeta : QbeastMeta F

def storeMeta (driver : QbeastDriver F) (qbeastMeta : QbeastMeta F) : Except PyException Unit :=
  if (qbeastMeta.fromPoint ++ qbeastMeta.toPoint).all (fun v => v.all driver.packsDouble) &&
      qbeastMeta.precision.all driver.packsFloat then .ok ()
  else .error ⟨"TypeError", driver.refusal⟩

def QbeastIterator.makePersistent (driver : QbeastDriver F) (self : QbeastIterator F Id) (name : Option Str) :
    Except PyException (QbeastIterator F Id) := do
  let storage ← self.toIStorage.makePersistent world name
  storeMeta driver self.qbeastMeta
  .ok { self with toIStorage := storage }

/-- `QbeastIterator.__init__`: the constructor of IStorage, and once more make_persistent. -/
def QbeastIterator.init (driver : QbeastDriver F) (name : Option Str) (storageId : Option Id) (qbeastMeta : QbeastMeta F) :
    Except PyException (QbeastIterator F Id) := do
  let storage ← IStorage.init world name storageId
  match storage.ksp with
  | none => .error ⟨"TypeError", "unsupported operand type(s) for +: 'NoneType' and 'str'".toList⟩
  | some _ =>
    if (given name).isSome || storageId.isSome then
      (QbeastIterator.mk storage qbeastMeta).makePersistent world driver name
    else .ok ⟨storage, qbeastMeta⟩

def hfilterIndexed (py : FilterPython F) (driver : QbeastDriver F) (d : IndexedDict) (parsedLambda : List (Expression F)) :
    Except PyException (QbeastIterator F Id) := do
  let bounds := List.replicate d.indexedOn.length none
  let s ← parsedLambda.foldlM (scanExpression py d) ⟨[], bounds, bounds, none⟩
  let name := d.ksp ++ '.' :: d.table
  QbeastIterator.init world driver (some name) none ⟨dropLast 5 s.nonIndexArguments, s.fromP, s.toP, s.precision⟩

end constructor

def boundsText (py : FilterPython F) (col : Str) (fromP toP : Option (Item F)) : Str :=
  col ++ " > ".toList ++ boundText py fromP ++ " AND ".toList ++ col ++ " < ".toList ++ boundText py toP ++ " AND ".toList

def iterConditions (py : FilterPython F) (d : IndexedDict) (qbeastMeta : QbeastMeta F) : Str :=
  dropLast 5 ((d.indexedOn.zip (qbeastMeta.fromPoint.zip qbeastMeta.toPoint)).flatMap fun e =>
    boundsText py e.1 e.2.1 e.2.2) ++ qbeastMeta.memFilter

end LambdaFilter

end Hecuba
