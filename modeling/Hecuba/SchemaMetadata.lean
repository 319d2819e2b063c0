import Hecuba.TypeSpecParser

/-! The schema of a StorageDict, as it is written to `hecuba.istorage` and as a dict that is
instantiated again finds it there. -/

namespace Hecuba

open Hecuba.Parser

def Parser.Dtype.text : Dtype → Str
  | .simple => "simple".toList
  | .tuple => "tuple".toList
  | .set => "set".toList

/-- The dict of a column in `_columns`; one without inner columns has no `columns`. -/
structure ColumnDict where
  name : Str
  type : Str
  columns : Option (List Inner)
  deriving DecidableEq, Repr

inductive RawColumn where
  | pair (name type : Str)
  | dict (d : ColumnDict)

def Parser.Column.raw : Column → RawColumn
  | .plain name type => .pair name type
  | .nested name type columns => .dict ⟨name, type.text, some columns⟩

def RawColumn.toDict : RawColumn → ColumnDict
  | .pair name type => ⟨name, type, none⟩
  | .dict d => d

def keyError : PyException := ⟨"KeyError", "'columns'".toList⟩

def namedtuple (py : Interpreter) (names : List Str) : Except PyException Unit :=
  if names.Nodup ∧ ∀ name ∈ names, py.identifier name = true ∧ name.head? ≠ some '_' then .ok ()
  else .error ⟨"ValueError", "field names".toList⟩

/-- A name and a type, by unpacking; a text is unpacked in its characters. -/
def Parser.Inner.unpack : Inner → Except PyException (Str × Str)
  | .named name type => .ok (name, type)
  | .bare [a, b] => .ok ([a], [b])
  | .bare _ => .error ⟨"ValueError", "unpack".toList⟩

structure StorageDictInfo where
  primaryKeys : List ColumnDict
  columns : List ColumnDict
  hasEmbeddedSet : Bool
  buildKeys : List (Str × Str)
  buildColumn : List (Str × Str)
  deriving DecidableEq

/-- `_get_set_types`, before it is unpacked. -/
def setTypes (hasEmbeddedSet : Bool) (columns : List ColumnDict) : List Inner :=
  if hasEmbeddedSet then columns.flatMap fun col => col.columns.getD [] else []

def ColumnDict.build (col : ColumnDict) : Except PyException (List (Str × Str)) :=
  if col.type = "set".toList then
    match col.columns with
    | none => .error keyError
    | some types => types.mapM fun
      | .named name type => .ok ("_set_".toList ++ name, type)
      | .bare (a :: b :: _) => .ok ("_set_".toList ++ [a], [b])
      | .bare _ => .error ⟨"IndexError", "string index out of range".toList⟩
  else .ok [(col.name, col.type)]

/-- The first test of `_has_embedded_set`: a set among other columns is seen only in front. -/
def embeddedSet : List RawColumn → Except PyException Bool
  | [] => .error indexError
  | .dict d :: _ => .ok (d.type = "set".toList)
  | .pair .. :: _ => .ok false

def checkFields (py : Interpreter) (keyNames : List Str) (cols : List ColumnDict) (hasEmbeddedSet : Bool) :
    Except PyException Unit := do
  namedtuple py (keyNames ++ cols.map ColumnDict.name)
  (if 1 < keyNames.length then namedtuple py keyNames else .ok ())
  (if hasEmbeddedSet then do
      let setNames ← (setTypes hasEmbeddedSet cols).mapM Inner.unpack
      namedtuple py (setNames.map Prod.fst)
    else if 1 < cols.length then namedtuple py (cols.map ColumnDict.name) else .ok ())

def buildMetas (keys cols : List ColumnDict) :
    Option (List (Str × Str) × List (Str × Str)) → Except PyException (List (Str × Str) × List (Str × Str))
  | some built => .ok built
  | none => do
    let buildColumn ← cols.mapM ColumnDict.build
    return (keys.map fun key => (key.name, key.type), buildColumn.flatten)

/-- The common part of `__init__`, for a new object and for one found in `hecuba.istorage`. -/
def commonInit (py : Interpreter) (primaryKeys columns : List RawColumn)
    (build : Option (List (Str × Str) × List (Str × Str))) : Except PyException StorageDictInfo := do
  let hasEmbeddedSet ← embeddedSet columns
  let keys := primaryKeys.map RawColumn.toDict
  let cols := columns.map RawColumn.toDict
  checkFields py (keys.map ColumnDict.name) cols hasEmbeddedSet
  let built ← buildMetas keys cols build
  return ⟨keys, cols, hasEmbeddedSet, built.1, built.2⟩

def newDict (py : Interpreter) (spec : List Column × List Column) : Except PyException StorageDictInfo :=
  commonInit py (spec.1.map Column.raw) (spec.2.map Column.raw) none

def basicTypes : List Str :=
  ["counter", "text", "boolean", "decimal", "double", "int", "list", "set", "map", "bigint", "blob", "tuple", "dict",
    "float", "timestamp", "time", "date"].map String.toList

def ColumnDict.tupleType (col : ColumnDict) : Except PyException Str :=
  match col.columns with
  | none => .error keyError
  | some inner => do
    let types ← inner.mapM fun
      | .bare type => .ok type
      | .named .. => .error ⟨"TypeError", "sequence item 0: expected str instance, tuple found".toList⟩
    return "tuple<".toList ++ [','].intercalate types ++ ['>']

def StorageDictInfo.createTables (info : StorageDictInfo) :
    Except PyException (List (Str × Str) × List (Str × Str)) := do
  let keys ← info.primaryKeys.mapM fun key => do
    return (key.name, ← if key.type = "tuple".toList then key.tupleType else .ok key.type)
  let setTypes ← (setTypes info.hasEmbeddedSet info.columns).mapM Inner.unpack
  let columns ← if info.hasEmbeddedSet then .ok [] else info.columns.mapM fun col => do
    return (col.name, ← if col.type = "tuple".toList then col.tupleType
      else .ok (if basicTypes.contains col.type then col.type else "uuid".toList))
  -- the database refuses a table without keys
  if (keys ++ setTypes).isEmpty then throw ⟨"SyntaxException", "no primary key".toList⟩
  return (keys ++ setTypes, columns)

/-- A row of `hecuba.istorage`; an empty list is null there. -/
structure IstorageMetas where
  primaryKeys : Option (List (Str × Str))
  columns : Option (List (Str × Str))
  deriving DecidableEq

def stored (l : List (Str × Str)) : Option (List (Str × Str)) := if l = [] then none else some l

/-- `_persist_metadata`, for a new object. -/
def StorageDictInfo.persistMetadata (info : StorageDictInfo) : Except PyException IstorageMetas := do
  let _ ← info.createTables
  return ⟨stored info.buildKeys, stored info.buildColumn⟩

def typeError : PyException := ⟨"TypeError", "'NoneType' object is not iterable".toList⟩

def decodeSchema (columns : List (Str × Str)) : List RawColumn :=
  let setPks := (columns.filter fun c => "_set_".toList.isPrefixOf c.1).map fun c => (c.1.drop 5, c.2)
  match setPks.getLast? with
  | some (attrName, _) =>
    [.dict ⟨attrName.takeWhile (· ≠ '_'), "set".toList, some (setPks.map fun c => .named c.1 c.2)⟩]
  | none => columns.map fun c => .dict ⟨c.1, c.2, none⟩

/-- A dict without a specification, whose row is in `hecuba.istorage`. -/
def IstorageMetas.reinstantiate (py : Interpreter) (metas : IstorageMetas) : Except PyException StorageDictInfo :=
  match metas.columns, metas.primaryKeys with
  | some columns, some primaryKeys =>
    commonInit py (primaryKeys.map fun c => .pair c.1 c.2) (decodeSchema columns) (some (primaryKeys, columns))
  | _, _ => .error typeError

def SameSchema (py : Interpreter) (metas : IstorageMetas) (info : StorageDictInfo) : Prop :=
  ∃ info', metas.reinstantiate py = .ok info' ∧ info'.columns = info.columns ∧
    info'.hasEmbeddedSet = info.hasEmbeddedSet

def Parser.Column.isPlain : Column → Bool
  | .plain .. => true
  | .nested .. => false

/-- The schemas that the stored columns tell: no column with inner columns, or only a set whose name
has no underscore. -/
def KeepsSchema (columns : List Column) : Prop :=
  (∀ c ∈ columns, c.isPlain = true) ∨ ∃ name inner, columns = [.nested name .set inner] ∧ '_' ∉ name

section decoding

variable {py : Interpreter}

theorem decodeSchema_plain {columns : List (Str × Str)}
    (h : ∀ c ∈ columns, "_set_".toList.isPrefixOf c.1 = false) :
    decodeSchema columns = columns.map fun c => .dict ⟨c.1, c.2, none⟩ := by
  have hfilter : columns.filter (fun c => "_set_".toList.isPrefixOf c.1) = [] :=
    List.filter_eq_nil_iff.mpr fun c hc => by rw [h c hc]; decide
  simp only [decodeSchema, hfilter]
  rfl

theorem decodeSchema_set (columns : List (Str × Str)) (last : Str × Str) :
    decodeSchema ((columns ++ [last]).map fun c => ("_set_".toList ++ c.1, c.2)) =
      [.dict ⟨last.1.takeWhile (· ≠ '_'), "set".toList,
        some ((columns ++ [last]).map fun c => .named c.1 c.2)⟩] := by
  have hfilter : ((columns ++ [last]).map fun c => ("_set_".toList ++ c.1, c.2)).filter
      (fun c => "_set_".toList.isPrefixOf c.1) = (columns ++ [last]).map fun c => ("_set_".toList ++ c.1, c.2) := by
    refine List.filter_eq_self.mpr fun c hc => ?_
    obtain ⟨e, -, rfl⟩ := List.mem_map.mp hc
    simp
  have hdrop : ((columns ++ [last]).map fun c => ("_set_".toList ++ c.1, c.2)).map (fun c => (c.1.drop 5, c.2)) =
      columns ++ [last] := by
    rw [List.map_map]
    exact List.map_id _
  simp only [decodeSchema, hfilter, hdrop]
  simp

theorem decodeSchema_cases (columns : List (Str × Str)) :
    (∀ c ∈ (decodeSchema columns).map RawColumn.toDict, c.columns = none) ∨
      ∃ (attrName : Str) (inner : List Inner), (decodeSchema columns).map RawColumn.toDict =
        [⟨attrName.takeWhile (· ≠ '_'), "set".toList, some inner⟩] := by
  rw [decodeSchema]
  split
  · exact .inr ⟨_, _, rfl⟩
  · refine .inl fun c hc => ?_
    simp only [List.map_map, List.mem_map] at hc
    obtain ⟨e, -, rfl⟩ := hc
    rfl

theorem commonInit_ok_iff {primaryKeys columns : List RawColumn}
    {build : Option (List (Str × Str) × List (Str × Str))} {info : StorageDictInfo} :
    commonInit py primaryKeys columns build = .ok info ↔
      embeddedSet columns = .ok info.hasEmbeddedSet ∧
        checkFields py (info.primaryKeys.map ColumnDict.name) info.columns info.hasEmbeddedSet = .ok () ∧
        buildMetas info.primaryKeys info.columns build = .ok (info.buildKeys, info.buildColumn) ∧
        info.primaryKeys = primaryKeys.map RawColumn.toDict ∧ info.columns = columns.map RawColumn.toDict := by
  simp only [commonInit, bind_ok_iff, pure_eq_ok_iff]
  constructor
  · rintro ⟨has, hset, u, hfields, built, hbuilt, rfl⟩
    exact ⟨hset, hfields, hbuilt, rfl, rfl⟩
  · rintro ⟨hset, hfields, hbuilt, hkeys, hcols⟩
    rw [hkeys, hcols] at hfields hbuilt
    refine ⟨_, hset, (), hfields, _, hbuilt, ?_⟩
    rw [← hkeys, ← hcols]

end decoding

section parsed

variable {py : Interpreter}

theorem innerColumns_set (t1 : Str) {types : List Str} (h : types ≠ []) :
    ∃ columns last, innerColumns .set t1 types = (columns ++ [last]).map (fun c : Str × Str => .named c.1 c.2) ∧
      ∃ rest, last.1 = t1 ++ rest ∧ (rest = [] ∨ rest.head? = some '_') := by
  obtain ⟨types, last, rfl⟩ := (List.eq_nil_or_concat types).resolve_left h
  rw [List.concat_eq_append]
  cases types with
  | nil => exact ⟨[], (t1, last), rfl, [], by simp⟩
  | cons first types =>
    refine ⟨(first :: types).zipIdx.map fun e => (t1 ++ '_' :: Nat.toDigits 10 e.2, e.1),
      (t1 ++ '_' :: Nat.toDigits 10 (first :: types).length, last), ?_, _, rfl, .inr rfl⟩
    have hlen : innerColumns .set t1 (first :: types ++ [last]) = (first :: types ++ [last]).zipIdx.map
        fun e => .named (t1 ++ '_' :: Nat.toDigits 10 e.2) e.1 := by
      cases types <;> rfl
    rw [hlen, List.zipIdx_append, List.map_append, List.map_append, List.map_map]
    simp

theorem getColumn_simple {t1 t : Str} {column : Column} (h : getColumn py (t1, .simple, t) = .ok column) :
    ∃ type, column = .plain t1 type := by
  rw [getColumn] at h
  split at h
  · exact ⟨_, (Except.ok.inj h).symm⟩
  · split at h
    split at h
    · exact ⟨_, (Except.ok.inj h).symm⟩
    · split at h <;> cases h

theorem evaluate_nested {column : Column} {name : Str} {type : Dtype} {inner : List Inner}
    (h : column.evaluate py = .ok (.nested name type inner)) :
    ∃ t1, column = .nested t1 type inner ∧ py.quoted t1 = .ok name := by
  cases column with
  | plain t1 t =>
    obtain ⟨_, -, h⟩ := bind_ok_iff.mp h
    obtain ⟨_, -, ⟨⟩⟩ := bind_ok_iff.mp h
  | nested t1 type inner =>
    obtain ⟨_, hquoted, ⟨⟩⟩ := bind_ok_iff.mp h
    exact ⟨t1, rfl, hquoted⟩

/-- A set that the parser returns has the value of its declared name, and inner columns with that
name itself. -/
theorem parseColumns_set {pk : Str} {spec : List Column × List Column} (h : parseColumns py pk = .ok spec) {name : Str}
    {inner : List Inner} (hmem : Column.nested name .set inner ∈ spec.2) :
    ∃ t1 types, types ≠ [] ∧ py.quoted t1 = .ok name ∧ inner = innerColumns .set t1 types := by
  simp only [parseColumns, bind_ok_iff, pure_eq_ok_iff] at h
  obtain ⟨fields, -, pks, -, columns, hcolumns, pks', -, columns', hevaluated, rfl⟩ := h
  obtain ⟨column, hcolumn, hvalue⟩ := exists_of_mem_mapM hevaluated hmem
  obtain ⟨⟨t1, type, t⟩, -, hfield⟩ := exists_of_mem_mapM hcolumns hcolumn
  obtain ⟨t1', rfl, hquoted⟩ := evaluate_nested hvalue
  cases type with
  | simple =>
    obtain ⟨_, ⟨⟩⟩ := getColumn_simple hfield
  | tuple => cases hfield
  | set =>
    obtain ⟨⟩ := hfield
    exact ⟨t1, _, by simp, hquoted, rfl⟩

end parsed

section roundTrip

variable {py : Interpreter} {spec : List Column × List Column} {info : StorageDictInfo} {metas : IstorageMetas}

theorem persistMetadata_eq (h : info.persistMetadata = .ok metas) :
    metas = ⟨stored info.buildKeys, stored info.buildColumn⟩ := by
  obtain ⟨_, -, h⟩ := bind_ok_iff.mp h
  exact (Except.ok.inj h).symm

theorem stored_eq_some {l m : List (Str × Str)} : stored l = some m ↔ l ≠ [] ∧ l = m := by
  by_cases h : l = [] <;> simp [stored, h]

theorem newDict_ok (h : newDict py spec = .ok info) :
    info.columns = spec.2.map (RawColumn.toDict ∘ Column.raw) ∧
      embeddedSet (spec.2.map Column.raw) = .ok info.hasEmbeddedSet ∧
      checkFields py (info.primaryKeys.map ColumnDict.name) info.columns info.hasEmbeddedSet = .ok () ∧
      info.buildKeys = info.primaryKeys.map (fun key => (key.name, key.type)) ∧
      info.primaryKeys.length = spec.1.length ∧
      ∃ built, info.columns.mapM ColumnDict.build = .ok built ∧ info.buildColumn = built.flatten := by
  obtain ⟨hset, hfields, hbuild, hkeys, hcols⟩ := commonInit_ok_iff.mp h
  obtain ⟨built, hbuilt, hpair⟩ := bind_ok_iff.mp hbuild
  rw [pure_eq_ok_iff, Prod.mk.injEq] at hpair
  exact ⟨by simp [hcols], hset, hfields, hpair.1.symm, by simp [hkeys], built, hbuilt, hpair.2.symm⟩

theorem reinstantiate_same (hkeys : info.buildKeys = info.primaryKeys.map fun key => (key.name, key.type))
    (hkeysne : info.primaryKeys ≠ []) (hcolumnsne : info.buildColumn ≠ [])
    (hdecode : (decodeSchema info.buildColumn).map RawColumn.toDict = info.columns)
    (hset : embeddedSet (decodeSchema info.buildColumn) = .ok info.hasEmbeddedSet)
    (hfields : checkFields py (info.primaryKeys.map ColumnDict.name) info.columns info.hasEmbeddedSet = .ok ()) :
    SameSchema py ⟨stored info.buildKeys, stored info.buildColumn⟩ info := by
  have hbuildKeys : stored info.buildKeys = some info.buildKeys :=
    stored_eq_some.mpr ⟨by simp [hkeys, hkeysne], rfl⟩
  have hbuildColumn : stored info.buildColumn = some info.buildColumn := stored_eq_some.mpr ⟨hcolumnsne, rfl⟩
  refine ⟨⟨(info.buildKeys.map fun c => RawColumn.pair c.1 c.2).map RawColumn.toDict, info.columns,
    info.hasEmbeddedSet, info.buildKeys, info.buildColumn⟩, ?_, rfl, rfl⟩
  simp only [IstorageMetas.reinstantiate, hbuildKeys, hbuildColumn]
  refine commonInit_ok_iff.mpr ⟨hset, ?_, rfl, rfl, hdecode.symm⟩
  have hnames : ((info.buildKeys.map fun c => RawColumn.pair c.1 c.2).map RawColumn.toDict).map ColumnDict.name =
      info.primaryKeys.map ColumnDict.name := by
    simp [hkeys, Function.comp_def, RawColumn.toDict]
  rw [hnames]
  exact hfields

theorem keepsSchema_of_same (hinfo : newDict py spec = .ok info)
    (h : SameSchema py ⟨stored info.buildKeys, stored info.buildColumn⟩ info) :
    spec.1 ≠ [] ∧ KeepsSchema spec.2 := by
  obtain ⟨hcols, -, -, hbuildKeys, hlen, -⟩ := newDict_ok hinfo
  obtain ⟨info', hinfo', hcolumns, -⟩ := h
  rw [IstorageMetas.reinstantiate] at hinfo'
  split at hinfo'
  · rename_i columns primaryKeys hstored hkeys
    obtain ⟨-, rfl⟩ := stored_eq_some.mp hstored
    obtain ⟨hkeysne, -⟩ := stored_eq_some.mp hkeys
    have hdecoded := (commonInit_ok_iff.mp hinfo').2.2.2.2
    rw [hcolumns, hcols] at hdecoded
    constructor
    · rintro hnil
      rw [hnil, List.length_nil, List.length_eq_zero_iff] at hlen
      simp [hbuildKeys, hlen] at hkeysne
    · rcases decodeSchema_cases info.buildColumn with hnone | ⟨attrName, inner, hset⟩
      · refine .inl fun c hc => ?_
        have := hnone _ (hdecoded ▸ List.mem_map_of_mem hc)
        cases c with
        | plain name type => rfl
        | nested name type columns => cases this
      · rw [hset] at hdecoded
        obtain ⟨c, hc, hcset⟩ := List.map_eq_singleton_iff.mp hdecoded
        cases c with
        | plain name type => cases hcset
        | nested name type columns =>
          have hname : name = attrName.takeWhile (· ≠ '_') := congrArg ColumnDict.name hcset
          have htype : type.text = "set".toList := congrArg ColumnDict.type hcset
          have hdtype : type = .set := by
            cases type with
            | set => rfl
            | simple => exact absurd htype (by decide)
            | tuple => exact absurd htype (by decide)
          refine .inr ⟨name, columns, by rw [hc, hdtype], fun hm => ?_⟩
          rw [hname] at hm
          simpa using List.mem_takeWhile_imp hm
  · cases hinfo'

theorem namedtuple_ok_iff {names : List Str} : namedtuple py names = .ok () ↔
    names.Nodup ∧ ∀ name ∈ names, py.identifier name = true ∧ name.head? ≠ some '_' := by
  rw [namedtuple]
  split
  · simpa using by assumption
  · rename_i h
    simp [h]

/-- A new dict of columns without inner ones: none is a set, and none has a name that begins with an
underscore. -/
theorem newDict_plain (hinfo : newDict py spec = .ok info) {pairs : List (Str × Str)}
    (hpairs : spec.2 = pairs.map fun c => .plain c.1 c.2) :
    info.columns = pairs.map (fun c => ⟨c.1, c.2, none⟩) ∧ info.buildColumn = pairs ∧ info.hasEmbeddedSet = false ∧
      pairs ≠ [] ∧ ∀ c ∈ pairs, c.1.head? ≠ some '_' ∧ c.2 ≠ "set".toList := by
  obtain ⟨hcols, hset, hfields, -, -, built, hbuilt, hbuildColumn⟩ := newDict_ok hinfo
  have hcolumns : info.columns = pairs.map fun c => ⟨c.1, c.2, none⟩ := by
    rw [hcols, hpairs, List.map_map]
    rfl
  rw [hcolumns, List.mapM_map] at hbuilt
  have htypes : ∀ c ∈ pairs, c.2 ≠ "set".toList := by
    intro c hc htype
    obtain ⟨_, hb⟩ := mapM_returns_iff.mp ⟨_, hbuilt⟩ c hc
    simp [ColumnDict.build, htype] at hb
  have hbuild : pairs.mapM (ColumnDict.build ∘ fun c => ⟨c.1, c.2, none⟩) = .ok (pairs.map fun c => [c]) :=
    mapM_eq_map fun c hc => by simp only [Function.comp_apply, ColumnDict.build, if_neg (htypes c hc)]
  rw [hbuild] at hbuilt
  have hne : pairs ≠ [] := by
    rintro rfl
    simp [hpairs, embeddedSet] at hset
  have hplain : info.hasEmbeddedSet = false := by
    obtain ⟨c, rest, rfl⟩ := List.exists_cons_of_ne_nil hne
    rw [hpairs] at hset
    exact (Except.ok.inj hset).symm
  refine ⟨hcolumns, ?_, hplain, hne, fun c hc => ⟨?_, htypes c hc⟩⟩
  · obtain rfl := Except.ok.inj hbuilt
    rw [hbuildColumn, ← List.flatMap_def, List.flatMap_singleton']
  · obtain ⟨_, hnames, -⟩ := bind_ok_iff.mp hfields
    refine ((namedtuple_ok_iff.mp hnames).2 c.1 ?_).2
    rw [hcolumns]
    simp only [List.map_map, List.mem_append]
    exact .inr (List.mem_map_of_mem hc)

theorem same_of_plain (hinfo : newDict py spec = .ok info) (hkeys : info.primaryKeys ≠ [])
    (hplain : ∀ c ∈ spec.2, c.isPlain = true) :
    SameSchema py ⟨stored info.buildKeys, stored info.buildColumn⟩ info := by
  obtain ⟨-, -, hfields, hbuildKeys, -⟩ := newDict_ok hinfo
  obtain ⟨pairs, hpairs⟩ : ∃ pairs : List (Str × Str), spec.2 = pairs.map fun c => .plain c.1 c.2 := by
    refine ⟨spec.2.map fun c => (c.raw.toDict.name, c.raw.toDict.type), ?_⟩
    rw [List.map_map]
    refine (List.map_id spec.2).symm.trans (List.map_congr_left fun c hc => ?_)
    have := hplain c hc
    cases c with
    | plain name type => rfl
    | nested name type columns => cases this
  obtain ⟨hcolumns, hbuildColumn, hset, hne, hnames⟩ := newDict_plain hinfo hpairs
  have hextends : ∀ c ∈ pairs, "_set_".toList.isPrefixOf c.1 = false := by
    intro c hc
    by_contra hp
    rw [Bool.not_eq_false, List.isPrefixOf_iff_prefix] at hp
    obtain ⟨rest, hrest⟩ := hp
    exact (hnames c hc).1 (by rw [← hrest]; rfl)
  have hdecode : decodeSchema info.buildColumn = pairs.map fun c => .dict ⟨c.1, c.2, none⟩ := by
    rw [hbuildColumn, decodeSchema_plain hextends]
  refine reinstantiate_same hbuildKeys hkeys (hbuildColumn ▸ hne) ?_ ?_ hfields
  · rw [hdecode, hcolumns, List.map_map]
    rfl
  · obtain ⟨c, rest, rfl⟩ := List.exists_cons_of_ne_nil hne
    rw [hdecode, hset, List.map_cons, embeddedSet, decide_eq_false (hnames c (by simp)).2]

theorem takeWhile_underscore {t1 rest : Str} (h : '_' ∉ t1) (hrest : rest = [] ∨ rest.head? = some '_') :
    (t1 ++ rest).takeWhile (· ≠ '_') = t1 := by
  have hall : ∀ c ∈ t1, decide (c ≠ '_') = true := fun c hc => by simpa using ne_of_mem_of_not_mem hc h
  rw [List.takeWhile_append_of_pos hall]
  cases rest with
  | nil => simp
  | cons c rest =>
    obtain rfl : c = '_' := by simpa using hrest
    simp

theorem same_of_set {pk : Str} (hspec : parseColumns py pk = .ok spec) (hinfo : newDict py spec = .ok info)
    (hkeys : info.primaryKeys ≠ []) {name : Str} {inner : List Inner} (hset : spec.2 = [.nested name .set inner])
    (hname : '_' ∉ name) : SameSchema py ⟨stored info.buildKeys, stored info.buildColumn⟩ info := by
  obtain ⟨hcols, hembedded, hfields, hbuildKeys, -, built, hbuilt, hbuildColumn⟩ := newDict_ok hinfo
  have hmem : Column.nested name .set inner ∈ spec.2 := by simp [hset]
  obtain ⟨t1, types, htypes, hquoted, hinner⟩ := parseColumns_set hspec hmem
  obtain ⟨columns, last, hcolumns, rest, hlast, hrest⟩ := innerColumns_set t1 htypes
  rw [hcolumns] at hinner
  have hdicts : info.columns = [⟨name, "set".toList, some inner⟩] := by
    rw [hcols, hset]
    rfl
  have hhas : info.hasEmbeddedSet = true := by
    rw [hset] at hembedded
    exact (Except.ok.inj hembedded).symm
  have hsetTypes : setTypes info.hasEmbeddedSet info.columns = inner := by simp [setTypes, hhas, hdicts]
  have hunpack : (setTypes info.hasEmbeddedSet info.columns).mapM Inner.unpack = .ok (columns ++ [last]) := by
    rw [hsetTypes, hinner, List.mapM_map]
    have := @mapM_eq_map PyException _ _ (Inner.unpack ∘ fun c : Str × Str => .named c.1 c.2) id (columns ++ [last])
      fun c _ => rfl
    rwa [List.map_id] at this
  have hid : py.identifier last.1 = true := by
    obtain ⟨_, -, hrows⟩ := bind_ok_iff.mp hfields
    obtain ⟨_, -, hvalues⟩ := bind_ok_iff.mp hrows
    rw [if_pos hhas, hunpack] at hvalues
    exact ((namedtuple_ok_iff.mp hvalues).2 last.1 (List.mem_map_of_mem (by simp))).1
  have hliteral : ∀ c ∈ t1, IsLiteral c := fun c hc => py.identifier_literal _ hid c (by simp [hlast, hc])
  obtain rfl : t1 = name := Except.ok.inj ((py.quoted_literal t1 hliteral).symm.trans hquoted)
  have hbuild : ColumnDict.build ⟨t1, "set".toList, some inner⟩ =
      .ok ((columns ++ [last]).map fun c => ("_set_".toList ++ c.1, c.2)) := by
    simp only [ColumnDict.build, if_pos, hinner, List.mapM_map]
    exact mapM_eq_map fun c _ => rfl
  have hcolumn : info.buildColumn = (columns ++ [last]).map fun c => ("_set_".toList ++ c.1, c.2) := by
    rw [hdicts, List.mapM_cons, hbuild] at hbuilt
    obtain rfl := Except.ok.inj hbuilt
    simp [hbuildColumn]
  have hdecode : decodeSchema info.buildColumn = [.dict ⟨t1, "set".toList, some inner⟩] := by
    rw [hcolumn, decodeSchema_set, hlast, takeWhile_underscore hname hrest, hinner]
  refine reinstantiate_same hbuildKeys hkeys (by simp [hcolumn]) ?_ ?_ hfields
  · rw [hdecode, hdicts]
    rfl
  · rw [hdecode, hhas]
    rfl

/-- A dict that is instantiated again has its schema exactly when there is a key, and the stored
columns tell the schema. -/
theorem sameSchema_iff {pk : Str} (hspec : parseColumns py pk = .ok spec) (hinfo : newDict py spec = .ok info)
    (hmetas : info.persistMetadata = .ok metas) :
    SameSchema py metas info ↔ spec.1 ≠ [] ∧ KeepsSchema spec.2 := by
  obtain rfl := persistMetadata_eq hmetas
  refine ⟨keepsSchema_of_same hinfo, ?_⟩
  rintro ⟨hkeys, hkeeps⟩
  have hprimary : info.primaryKeys ≠ [] := by
    obtain ⟨-, -, -, -, hlen, -⟩ := newDict_ok hinfo
    rw [← List.length_pos_iff, hlen]
    exact List.length_pos_iff.mpr hkeys
  rcases hkeeps with hplain | ⟨name, inner, hset, hname⟩
  · exact same_of_plain hinfo hprimary hplain
  · exact same_of_set hspec hinfo hprimary hset hname

end roundTrip

section schemas

def intKey : ColumnDict := ⟨"k".toList, "int".toList, none⟩

def setSpec : List Column × List Column :=
  ([.plain "k".toList "int".toList],
    [.nested "s".toList .set [.named "s_0".toList "int".toList, .named "s_1".toList "text".toList]])

def setInfo : StorageDictInfo where
  primaryKeys := [intKey]
  columns := [⟨"s".toList, "set".toList,
    some [.named "s_0".toList "int".toList, .named "s_1".toList "text".toList]⟩]
  hasEmbeddedSet := true
  buildKeys := [("k".toList, "int".toList)]
  buildColumn := [("_set_s_0".toList, "int".toList), ("_set_s_1".toList, "text".toList)]

def tupleSpec : List Column × List Column :=
  ([.plain "k".toList "int".toList], [.nested "t".toList .tuple [.bare "int".toList, .bare "text".toList]])

def tupleInfo : StorageDictInfo where
  primaryKeys := [intKey]
  columns := [⟨"t".toList, "tuple".toList, some [.bare "int".toList, .bare "text".toList]⟩]
  hasEmbeddedSet := false
  buildKeys := [("k".toList, "int".toList)]
  buildColumn := [("t".toList, "tuple".toList)]

theorem sameSchema_set : SameSchema asciiPython ⟨some setInfo.buildKeys, some setInfo.buildColumn⟩ setInfo := by
  have hspec : parseColumns asciiPython "dict<<k:int>,s:set<int,str>>".toList = .ok setSpec := rfl
  have hinfo : newDict asciiPython setSpec = .ok setInfo := rfl
  have hmetas : setInfo.persistMetadata = .ok ⟨some setInfo.buildKeys, some setInfo.buildColumn⟩ := rfl
  exact (sameSchema_iff hspec hinfo hmetas).mpr ⟨by simp [setSpec], .inr ⟨_, _, rfl, by decide⟩⟩

/-- A dict with a column of tuples does not find their types again. -/
theorem tuple_types_lost :
    parseColumns asciiPython "dict<<k:int>,t:tuple<int,str>>".toList = .ok tupleSpec ∧
      newDict asciiPython tupleSpec = .ok tupleInfo ∧
      tupleInfo.persistMetadata = .ok ⟨some tupleInfo.buildKeys, some tupleInfo.buildColumn⟩ ∧
      ¬ SameSchema asciiPython ⟨some tupleInfo.buildKeys, some tupleInfo.buildColumn⟩ tupleInfo := by
  refine ⟨rfl, rfl, rfl, ?_⟩
  rintro ⟨info, hinfo, hcolumns, -⟩
  have hread : IstorageMetas.reinstantiate asciiPython ⟨some tupleInfo.buildKeys, some tupleInfo.buildColumn⟩ =
      .ok { tupleInfo with columns := [⟨"t".toList, "tuple".toList, none⟩] } := rfl
  rw [hread] at hinfo
  obtain rfl := Except.ok.inj hinfo
  exact absurd hcolumns (by decide)

end schemas

end Hecuba
