import Mathlib.Data.List.Nodup
import Hecuba.PrefetchEnd
import Hecuba.TableQueries
import Hecuba.TokenRanges

/-! A table that is worked on through its statements: what a run of puts, deletes and gets makes of
it, and what a full scan reads of it. -/

namespace Hecuba

open Cql (IsName CqlTable execute executeAll executeRange)

/-- A table as its users see it: the values under each key. -/
abbrev Rows (V : Type) := List V → Option (List V)

/-- What is asked of Cassandra for a table, row by row or of one column. -/
inductive TableRequest (V : Type) where
  | put (keys values : List V)
  | putColumn (attrName : Str) (keys : List V) (value : V)
  | delete (keys : List V)
  | get (keys : List V)

/-- The text that is executed, and the values that are bound to it. -/
def TableQueries.request {V : Type} (q : TableQueries) : TableRequest V → Str × List V
  | .put keys values => (q.insert, keys ++ values)
  | .putColumn attrName keys value => (q.partialInsertQuery attrName, keys ++ [value])
  | .delete keys => (q.deleteRow, keys)
  | .get keys => (q.select, keys)

namespace TableRequest

variable {V : Type} [DecidableEq V] (null : V)

def meaning (columns : List Str) (rows : Rows V) : TableRequest V → Rows V
  | .put keys values => Function.update rows keys (some values)
  | .putColumn attrName keys value => Function.update rows keys
      (some (((rows keys).getD (List.replicate columns.length null)).set (columns.idxOf (lowerName attrName)) value))
  | .delete keys => Function.update rows keys none
  | .get _ => rows

/-- A table of keys alone returns the key. -/
def result (columns : List Str) (rows : Rows V) : TableRequest V → List (List V)
  | .get keys => (rows keys).toList.map fun values => if columns = [] then keys else values
  | _ => []

def results (columns : List Str) : Rows V → List (TableRequest V) → List (List (List V))
  | _, [] => []
  | rows, r :: requests => r.result columns rows :: results columns (r.meaning null columns rows) requests

/-- The values are as many as the names. -/
def Fits (keysNames columnsNames : List Str) : TableRequest V → Prop
  | .put keys values => keys.length = keysNames.length ∧ values.length = columnsNames.length
  | .putColumn attrName keys _ => keys.length = keysNames.length ∧ IsName attrName ∧ lowerName attrName ∈ columnsNames
  | .delete keys | .get keys => keys.length = keysNames.length

end TableRequest

section table

variable {V : Type} [DecidableEq V] (null : V)

/-- What the table holds under the keys that have a value for each name. -/
def content (t : CqlTable V) (keysNames columnsNames : List Str) : Rows V := fun keys =>
  if keys.length = keysNames.length then
    (t.rows.lookup (t.keyOf null (keysNames.zip keys))).map fun row => columnsNames.map row
  else none

/-- The primary key is made of the names. -/
def Keyed (t : CqlTable V) (keysNames : List Str) : Prop := ∀ n, n ∈ t.primaryKey ↔ n ∈ keysNames

variable {null} {t : CqlTable V} {keysNames columnsNames names : List Str} {keys values : List V}

theorem Keyed.binds (h : Keyed t keysNames) (hlen : keys.length = keysNames.length) (more : List (Str × V)) :
    t.Binds (keysNames.zip keys ++ more) := by
  intro n hn
  have hsome := Cql.lookup_zip_isSome hlen ((h n).mp hn)
  rwa [Cql.lookup_append_left hsome]

theorem Keyed.keyOf_append (h : Keyed t keysNames) (hlen : keys.length = keysNames.length) (more : List (Str × V)) :
    t.keyOf null (keysNames.zip keys ++ more) = t.keyOf null (keysNames.zip keys) := by
  refine List.map_congr_left fun n hn => ?_
  rw [Cql.lookup_append_left (Cql.lookup_zip_isSome hlen ((h n).mp hn))]

theorem Keyed.map_row (h : Keyed t keysNames) (hnodup : keysNames.Nodup) (hlen : keys.length = keysNames.length)
    {row : Str → V} (hrow : t.primaryKey.map row = t.keyOf null (keysNames.zip keys)) : keysNames.map row = keys := by
  have hat := List.map_inj_left.mp hrow
  calc keysNames.map row = keysNames.map fun n => ((keysNames.zip keys).lookup n).getD null :=
        List.map_congr_left fun n hn => hat n ((h n).mpr hn)
    _ = keys := Cql.map_lookup_zip null hnodup hlen

theorem Keyed.keyOf_inj (h : Keyed t keysNames) (hnodup : keysNames.Nodup) {keys' : List V}
    (hlen : keys.length = keysNames.length) (hlen' : keys'.length = keysNames.length)
    (heq : t.keyOf null (keysNames.zip keys) = t.keyOf null (keysNames.zip keys')) : keys = keys' := by
  rw [← Cql.map_lookup_zip null hnodup hlen]
  exact h.map_row hnodup hlen' heq

/-- The row of a key that an INSERT has written. -/
theorem content_insert (h : Keyed t keysNames) (hnodup : keysNames.Nodup) (hlen : keys.length = keysNames.length)
    (more : List (Str × V)) : content null (t.insert null (keysNames.zip keys ++ more) (h.binds hlen more)) keysNames columnsNames =
      Function.update (content null t keysNames columnsNames) keys
        (some (columnsNames.map (t.insertedRow null (keysNames.zip keys ++ more)))) := by
  funext keys'
  by_cases heq : keys' = keys
  · rw [heq, Function.update_self, content, if_pos hlen]
    change ((t.rows.insert (t.keyOf null _) _).lookup (t.keyOf null _)).map _ = _
    rw [h.keyOf_append hlen, AList.lookup_insert]
    rfl
  · rw [Function.update_of_ne heq, content, content]
    by_cases hlen' : keys'.length = keysNames.length
    · have hne : t.keyOf null (keysNames.zip keys') ≠ t.keyOf null (keysNames.zip keys ++ more) := by
        rw [h.keyOf_append hlen]
        exact fun hkey => heq (h.keyOf_inj hnodup hlen' hlen hkey)
      rw [if_pos hlen', if_pos hlen']
      change ((t.rows.insert (t.keyOf null _) _).lookup (t.keyOf null _)).map _ = _
      rw [AList.lookup_insert_ne hne]
    · rw [if_neg hlen', if_neg hlen']

theorem content_erase (h : Keyed t keysNames) (hnodup : keysNames.Nodup) (hlen : keys.length = keysNames.length) :
    content null (t.erase (t.keyOf null (keysNames.zip keys))) keysNames columnsNames =
      Function.update (content null t keysNames columnsNames) keys none := by
  funext keys'
  by_cases heq : keys' = keys
  · rw [heq, Function.update_self, content, if_pos hlen]
    change ((t.rows.erase (t.keyOf null _)).lookup (t.keyOf null _)).map _ = _
    rw [AList.lookup_erase]
    rfl
  · rw [Function.update_of_ne heq, content, content]
    by_cases hlen' : keys'.length = keysNames.length
    · have hne : t.keyOf null (keysNames.zip keys') ≠ t.keyOf null (keysNames.zip keys) :=
        fun hkey => heq (h.keyOf_inj hnodup hlen' hlen hkey)
      rw [if_pos hlen', if_pos hlen']
      change ((t.rows.erase (t.keyOf null _)).lookup (t.keyOf null _)).map _ = _
      rw [AList.lookup_erase_ne hne]
    · rw [if_neg hlen', if_neg hlen']

/-- A column that is no key has the value that the INSERT names for it, or the one before. -/
theorem insertedRow_column (h : Keyed t keysNames) (hlen : keys.length = keysNames.length) (more : List (Str × V)) {n : Str}
    (hn : n ∉ keysNames) : t.insertedRow null (keysNames.zip keys ++ more) n = (more.lookup n).getD
      (((t.rows.lookup (t.keyOf null (keysNames.zip keys))).map fun row => row n).getD null) := by
  rw [CqlTable.insertedRow, h.keyOf_append hlen, Cql.lookup_append_right (Cql.lookup_zip_eq_none hn)]

theorem insertedRow_values (h : Keyed t keysNames) (hlen : keys.length = keysNames.length)
    (hnodup : (keysNames ++ columnsNames).Nodup) (hvalues : values.length = columnsNames.length) :
    columnsNames.map (t.insertedRow null (keysNames.zip keys ++ columnsNames.zip values)) = values := by
  obtain ⟨-, hcolumns, hdisjoint⟩ := List.nodup_append.mp hnodup
  have hat : ∀ n ∈ columnsNames, t.insertedRow null (keysNames.zip keys ++ columnsNames.zip values) n =
      ((columnsNames.zip values).lookup n).getD null := by
    intro n hn
    obtain ⟨v, hv⟩ := Option.isSome_iff_exists.mp (Cql.lookup_zip_isSome hvalues hn)
    rw [insertedRow_column h hlen _ fun hk => hdisjoint n hk n hn rfl, hv]
    rfl
  rw [List.map_congr_left hat, Cql.map_lookup_zip null hcolumns hvalues]

theorem insertedRow_single (h : Keyed t keysNames) (hlen : keys.length = keysNames.length)
    (hnodup : (keysNames ++ columnsNames).Nodup) {name : Str} (hname : name ∈ columnsNames) (value : V) :
    columnsNames.map (t.insertedRow null (keysNames.zip keys ++ [(name, value)])) =
      ((content null t keysNames columnsNames keys).getD (List.replicate columnsNames.length null)).set
        (columnsNames.idxOf name) value := by
  obtain ⟨-, hcolumns, hdisjoint⟩ := List.nodup_append.mp hnodup
  let old n := ((t.rows.lookup (t.keyOf null (keysNames.zip keys))).map fun row => row n).getD null
  have hold : (content null t keysNames columnsNames keys).getD (List.replicate columnsNames.length null) =
      columnsNames.map old := by
    rw [content, if_pos hlen]
    cases hrow : t.rows.lookup (t.keyOf null (keysNames.zip keys)) with
    | none => simp [old, hrow]
    | some row => simp [old, hrow]
  have hmap := hcolumns.map_update old name value
  rw [if_pos hname, lawful_beq_subsingleton instBEqOfDecidableEq List.instBEq] at hmap
  rw [hold, ← hmap]
  refine List.map_congr_left fun n hn => ?_
  have hkey : n ∉ keysNames := fun hk => hdisjoint n hk n hn rfl
  rw [insertedRow_column h hlen _ hkey]
  by_cases heq : n = name
  · simp [heq]
  · simp [List.lookup_cons, beq_false_of_ne heq, Function.update_of_ne heq, old]

end table

section requests

variable {V : Type} [DecidableEq V] (null : V) (isPartition : Str → Bool) {keyspace table key : Str}
  {others columns : List Str} {t : CqlTable V}

theorem execute_insert {text : Str} {names : List Str} {keys values : List V} (hkeyed : Keyed t (key :: others))
    (hread : Cql.readStatement text = some (.insert t.name (key :: others ++ names)))
    (hlen : keys.length = (key :: others).length) (hvalues : values.length = names.length) :
    execute null t text (keys ++ values) =
      some ([], t.insert null ((key :: others).zip keys ++ names.zip values) (hkeyed.binds hlen _)) := by
  have hzip : (key :: others ++ names).zip (keys ++ values) = (key :: others).zip keys ++ names.zip values :=
    List.zip_append hlen.symm
  have hlength : (keys ++ values).length = (key :: others ++ names).length := by
    rw [List.length_append, List.length_append, hlen, hvalues]
  rw [execute, hread, Option.bind_some, Cql.run, if_pos ⟨rfl, hlength⟩]
  simp only [hzip, hkeyed.binds hlen, dif_pos]

/-- One request through the text for it. -/
theorem execute_request (h : TableNames keyspace table key others columns) (hname : t.name = (keyspace, table))
    (hkeyed : Keyed t (key :: others)) (hnodup : (key :: others ++ columns).Nodup) {r : TableRequest V}
    (hfit : r.Fits (key :: others) columns) :
    ∃ t', execute null t ((tableTexts isPartition keyspace table key others columns).request r).1
        ((tableTexts isPartition keyspace table key others columns).request r).2 =
          some (r.result columns (content null t (key :: others) columns), t') ∧
      content null t' (key :: others) columns = r.meaning null columns (content null t (key :: others) columns) ∧
      t'.name = t.name ∧ t'.primaryKey = t.primaryKey := by
  have hkeys : (key :: others).Nodup := (List.nodup_append.mp hnodup).1
  cases r with
  | put keys values =>
    obtain ⟨hlen, hvalues⟩ := hfit
    have hread := @TableNames.read_insert isPartition _ _ _ _ _ h
    rw [← hname] at hread
    refine ⟨_, execute_insert null hkeyed hread hlen hvalues, ?_, rfl, rfl⟩
    rw [content_insert hkeyed hkeys hlen, insertedRow_values hkeyed hlen hnodup hvalues]
    rfl
  | putColumn attrName keys value =>
    obtain ⟨hlen, hattr, hmem⟩ := hfit
    have hread := @TableNames.read_partialInsertQuery isPartition _ _ _ _ _ h _ hattr
    rw [← hname] at hread
    have hone : [value].length = [lowerName attrName].length := rfl
    refine ⟨_, execute_insert null hkeyed hread hlen hone, ?_, rfl, rfl⟩
    rw [content_insert hkeyed hkeys hlen]
    exact congrArg (fun row => Function.update (content null t (key :: others) columns) keys (some row))
      (insertedRow_single hkeyed hlen hnodup hmem value)
  | delete keys =>
    have hbinds := hkeyed.binds hfit []
    rw [List.append_nil] at hbinds
    refine ⟨t.erase (t.keyOf null ((key :: others).zip keys)), ?_, content_erase hkeyed hkeys hfit, rfl, rfl⟩
    change execute null t (tableTexts isPartition keyspace table key others columns).deleteRow keys = _
    rw [execute, h.read_deleteRow, ← hname, Option.bind_some, Cql.run, if_pos ⟨rfl, hfit, hbinds⟩]
    rfl
  | get keys =>
    have hbinds := hkeyed.binds hfit []
    rw [List.append_nil] at hbinds
    refine ⟨t, ?_, rfl, rfl, rfl⟩
    change execute null t (tableTexts isPartition keyspace table key others columns).select keys = _
    rw [execute, h.read_select, ← hname, Option.bind_some, Cql.run, if_pos ⟨rfl, hfit, hbinds⟩]
    have hlen : keys.length = (key :: others).length := hfit
    rw [TableRequest.result, content, if_pos hlen]
    cases hrow : t.rows.lookup (t.keyOf null ((key :: others).zip keys)) with
    | none => rfl
    | some row =>
      have hkey := hkeyed.map_row hkeys hfit (t.keyed _ row hrow)
      by_cases hc : columns = []
      · rw [List.map_cons] at hkey
        simp [TableNames.resultColumns, hc, hkey]
      · simp [TableNames.resultColumns, hc]

theorem executeAll_requests (h : TableNames keyspace table key others columns) (hname : t.name = (keyspace, table))
    (hkeyed : Keyed t (key :: others)) (hnodup : (key :: others ++ columns).Nodup) {requests : List (TableRequest V)}
    (hfit : ∀ r ∈ requests, r.Fits (key :: others) columns) :
    ∃ t', executeAll null t (requests.map (tableTexts isPartition keyspace table key others columns).request) =
        some (TableRequest.results null columns (content null t (key :: others) columns) requests, t') ∧
      content null t' (key :: others) columns =
        requests.foldl (fun rows r => r.meaning null columns rows) (content null t (key :: others) columns) := by
  induction requests generalizing t with
  | nil => exact ⟨t, rfl, rfl⟩
  | cons r requests ih =>
    obtain ⟨t₁, hrun, hcontent, hname₁, hkey₁⟩ := execute_request null isPartition h hname hkeyed hnodup
      (hfit r List.mem_cons_self)
    have hkeyed₁ : Keyed t₁ (key :: others) := fun n => by rw [hkey₁]; exact hkeyed n
    obtain ⟨t', hruns, hcontent'⟩ := ih (hname₁.trans hname) hkeyed₁ fun r hr => hfit r (List.mem_cons_of_mem _ hr)
    refine ⟨t', ?_, by rw [hcontent', hcontent, List.foldl_cons]⟩
    simp [executeAll, hrun, hruns, hcontent, TableRequest.results]

theorem executeRange_all (h : TableNames keyspace table key others columns) (hname : t.name = (keyspace, table))
    (hpartition : t.partitionKey = (key :: others).filter isPartition) (hne : (key :: others).filter isPartition ≠ [])
    (range : Int × Int) : executeRange t (tableTexts isPartition keyspace table key others columns).selectTokensAll range =
      some ((t.rows.entries.filter fun e => inRange (t.rowToken e.2) range).map fun e => (key :: others ++ columns).map e.2) := by
  rw [executeRange, h.read_selectTokensAll hne]
  exact if_pos ⟨hname.symm, hpartition.symm⟩

def noWords : CqlTable Nat where
  name := ("ks".toList, "words".toList)
  primaryKey := ["position".toList]
  partitionKey := ["position".toList]
  token key := key.headD 0
  rows := ∅
  keyed key row h := by simp at h

def wordRequests : List (TableRequest Nat) :=
  [.put [1] [10], .putColumn "WordInfo".toList [2] 20, .get [1], .delete [1], .get [1], .get [2]]

theorem noWords_keyed : Keyed noWords (["position".toList].map lowerName) := fun _ => Iff.rfl

theorem words_names : ∀ n ∈ "Words".toList :: "KS".toList :: (["position".toList] ++ ["wordinfo".toList]), IsName n := by
  simp only [List.cons_append, List.nil_append, List.forall_mem_cons]
  exact ⟨Cql.isName_of_all (by decide), Cql.isName_of_all (by decide), Cql.isName_of_all (by decide), Cql.isName_of_all (by decide), nofun⟩

def wordColumns : List (Str × Bool) := [("position".toList, true), ("wordinfo".toList, false)]

theorem words_partition : ∃ n ∈ ["position".toList], wordColumns.lookup (lowerName n) = some true :=
  ⟨_, List.mem_cons_self, by decide⟩

def twoWords : CqlTable Nat :=
  (noWords.insert 0 [("position".toList, 1), ("wordinfo".toList, 10)] (by decide)).insert 0
    [("position".toList, 2), ("wordinfo".toList, 20)] (by decide)

end requests

end Hecuba
