import Hecuba.ArrayStores
import Hecuba.CqlStatements

/-! The statements of a table: the texts that TableMetadata builds of the names of its keys and
columns, and what Cassandra reads in them. -/

namespace Hecuba

open Cql (IsName Token CqlTable tokens nameTokens markerTokens conditionTokens readStatement execute executeRange)

/-- What the loop over the keys builds. -/
structure KeyTexts where
  selectWhere : Str
  keys : Str
  tokensKeys : Str

def KeyTexts.first (isPartition : Str → Bool) (key : Str) : KeyTexts where
  selectWhere := key ++ "=? ".toList
  keys := key
  tokensKeys := if isPartition key then key else []

def KeyTexts.next (isPartition : Str → Bool) (t : KeyTexts) (key : Str) : KeyTexts where
  selectWhere := t.selectWhere ++ ("AND ".toList ++ (key ++ "=? ".toList))
  keys := t.keys ++ (',' :: key)
  tokensKeys :=
    if isPartition key then (if t.tokensKeys = [] then key else t.tokensKeys ++ (',' :: key)) else t.tokensKeys

def colsText : List Str → Str
  | [] => []
  | name :: names => names.foldl (fun cols col => cols ++ (',' :: col)) name

/-- The texts, with the names of the keys and columns in lower case. -/
structure TableQueries where
  keysNames : List Str
  columnsNames : List Str
  select : Str
  selectKeysTokens : Str
  selectTokensValues : Str
  selectTokensAll : Str
  partialInsert : Str
  insert : Str
  deleteRow : Str

/-- The markers of `n` values. -/
def markersText (n : Nat) : Str := '?' :: (List.replicate (n - 1) [',', '?']).flatten

def fromTable (keyspace table : Str) : Str := " FROM ".toList ++ (keyspace ++ ('.' :: (table ++ " WHERE ".toList)))

def intoTable (keyspace table : Str) : Str := "INSERT INTO ".toList ++ (keyspace ++ ('.' :: (table ++ ['('])))

/-- `select_tokens_where` -/
def tokensWhere (tokensKeys : Str) : Str :=
  " token(".toList ++ (tokensKeys ++ (")>=? AND token(".toList ++ (tokensKeys ++ ")<? ".toList)))

def valuesText (n : Nat) : Str := ")VALUES (".toList ++ (markersText n ++ ");".toList)

/-- The texts for names in lower case. -/
def tableTexts (isPartition : Str → Bool) (keyspace table key : Str) (others columns : List Str) : TableQueries :=
  let t := others.foldl (KeyTexts.next isPartition) (KeyTexts.first isPartition key)
  let cols := colsText columns
  let keysAndCols := if cols = [] then t.keys else t.keys ++ (", ".toList ++ cols)
  let cols := if cols = [] then t.keys else cols
  { keysNames := key :: others
    columnsNames := columns
    select := "SELECT ".toList ++ (cols ++ (fromTable keyspace table ++ (t.selectWhere ++ [';'])))
    selectKeysTokens := "SELECT ".toList ++ (t.keys ++ (fromTable keyspace table ++ (tokensWhere t.tokensKeys ++ [';'])))
    selectTokensValues := "SELECT ".toList ++ (cols ++ (fromTable keyspace table ++ (tokensWhere t.tokensKeys ++ [';'])))
    selectTokensAll := "SELECT ".toList ++ (keysAndCols ++ (fromTable keyspace table ++ (tokensWhere t.tokensKeys ++ [';'])))
    partialInsert := intoTable keyspace table ++ t.keys
    insert := intoTable keyspace table ++ (keysAndCols ++ valuesText ((key :: others).length + columns.length))
    deleteRow := "DELETE ".toList ++ (fromTable keyspace table ++ (t.selectWhere ++ [';'])) }

/-- The constructor of TableMetadata, for a table with these columns. -/
def tableQueries (metadatas : List (Str × Bool)) (tableName keyspaceName : Str) (keysNames columnsNames : List Str) :
    Except WriterFault TableQueries :=
  let isPartition key := metadatas.lookup key = some true
  match keysNames.map lowerName with
  | [] => .error (.moduleException "TableMetadata: No keys received")
  | key :: others =>
    let t := others.foldl (KeyTexts.next isPartition) (KeyTexts.first isPartition key)
    if metadatas.isEmpty then
      .error (.moduleException ("The table " ++ String.ofList tableName ++
        " has no metadatas, check the table name and make sure it exists"))
    else
      match emptyName (key :: others) "Empty key name given on position 0" "Empty key name given on position: " with
      | some e => .error e
      | none =>
        if t.tokensKeys = [] then
          .error (.moduleException ("No partition key detected among the keys: " ++ String.ofList t.keys))
        else
          match emptyName (columnsNames.map lowerName) "Empty column name given on position 0"
              "Empty column name given onposition: " with
          | some e => .error e
          | none =>
            .ok (tableTexts isPartition (lowerName keyspaceName) (lowerName tableName) key others (columnsNames.map lowerName))

/-- `get_partial_insert_query` -/
def TableQueries.partialInsertQuery (q : TableQueries) (attrName : Str) : Str :=
  q.partialInsert ++ ((',' :: attrName) ++ valuesText (q.keysNames.length + 1))

section texts

variable {isPartition : Str → Bool} {name : Str} {names : List Str} {text rest : Str}

theorem foldl_cols (name : Str) (names : List Str) : names.foldl (fun cols col => cols ++ (',' :: col)) name =
    name ++ names.flatMap fun col => ',' :: col := by
  induction names generalizing name with
  | nil => simp
  | cons n names ih => rw [List.foldl_cons, ih, List.flatMap_cons, List.append_assoc]

theorem colsText_append (hne : names ≠ []) (name : Str) : colsText (names ++ [name]) = colsText names ++ (',' :: name) := by
  obtain ⟨first, names, rfl⟩ := List.exists_cons_of_ne_nil hne
  simp [colsText, List.foldl_append]

theorem colsText_eq_nil (h : ∀ n ∈ names, n ≠ []) : colsText names = [] ↔ names = [] := by
  cases names with
  | nil => simp [colsText]
  | cons n names => simp [colsText, h n List.mem_cons_self]

theorem tokens_append_cols (h : ∀ n ∈ names, Cql.IsLowerName n) : tokens (text ++ names.flatMap fun n => ',' :: n) =
    tokens text ++ names.flatMap fun n => [.symbol ',', .word n] := by
  induction names generalizing text with
  | nil => simp
  | cons n names ih =>
    have hn := h n List.mem_cons_self
    rw [List.flatMap_cons, List.flatMap_cons, ← List.append_assoc, ih fun m hm => h m (List.mem_cons_of_mem _ hm),
      Cql.tokens_append rfl, Cql.tokens_mark rfl (by decide), hn.tokens_eq, List.append_assoc]

theorem tokens_colsText (h : ∀ n ∈ names, Cql.IsLowerName n) : tokens (colsText names) = nameTokens names := by
  cases names with
  | nil => rfl
  | cons n names =>
    rw [colsText, foldl_cols, tokens_append_cols fun m hm => h m (List.mem_cons_of_mem _ hm),
      (h n List.mem_cons_self).tokens_eq]
    rfl

theorem tokens_condition (h : Cql.IsLowerName name) (rest : Str) : tokens ((name ++ "=? ".toList) ++ rest) =
    [.word name, .symbol '=', .symbol '?'] ++ tokens rest := by
  rw [List.append_assoc]
  change tokens (name ++ ('=' :: ('?' :: (' ' :: rest)))) = _
  rw [h.tokens_append rfl, Cql.tokens_mark rfl (by decide), Cql.tokens_mark rfl (by decide), Cql.tokens_space]
  rfl

theorem conditionTokens_append (hne : names ≠ []) (name : Str) : conditionTokens (names ++ [name]) =
    conditionTokens names ++ [.word "and".toList, .word name, .symbol '=', .symbol '?'] := by
  obtain ⟨first, names, rfl⟩ := List.exists_cons_of_ne_nil hne
  simp [conditionTokens]

theorem tokens_keyword {w : Str} (h : IsName w) (rest : Str) : tokens (w ++ (' ' :: rest)) = .word (Cql.lower w) :: tokens rest := by
  rw [Cql.tokens_name_append h rfl, Cql.tokens_space]

/-- What the loop has built of the keys `done`. -/
structure KeyTexts.Built (isPartition : Str → Bool) (done : List Str) (t : KeyTexts) : Prop where
  selectWhere : ∀ rest, tokens (t.selectWhere ++ rest) = conditionTokens done ++ tokens rest
  keys : t.keys = colsText done
  tokensKeys : t.tokensKeys = colsText (done.filter isPartition)

theorem KeyTexts.first_built (isPartition : Str → Bool) (h : Cql.IsLowerName name) :
    (KeyTexts.first isPartition name).Built isPartition [name] where
  selectWhere := tokens_condition h
  keys := rfl
  tokensKeys := by
    cases hp : isPartition name <;> simp [KeyTexts.first, hp, colsText]

theorem KeyTexts.Built.next {t : KeyTexts} (ht : t.Built isPartition names) (hne : names ≠ [])
    (hnames : ∀ n ∈ names, Cql.IsLowerName n) (h : Cql.IsLowerName name) :
    (t.next isPartition name).Built isPartition (names ++ [name]) where
  selectWhere rest := by
    have hand : tokens (("AND ".toList ++ (name ++ "=? ".toList)) ++ rest) =
        .word "and".toList :: tokens ((name ++ "=? ".toList) ++ rest) :=
      tokens_keyword (w := "AND".toList) (Cql.isName_of_all (by decide)) _
    rw [KeyTexts.next, List.append_assoc, ht.selectWhere, hand, tokens_condition h, conditionTokens_append hne,
      List.append_assoc]
    rfl
  keys := by rw [KeyTexts.next, ht.keys, colsText_append hne]
  tokensKeys := by
    have hnil : colsText (names.filter isPartition) = [] ↔ names.filter isPartition = [] :=
      colsText_eq_nil fun n hn => (hnames n (List.mem_of_mem_filter hn)).nonempty
    rw [List.filter_append]
    cases hname : isPartition name with
    | false => simp [KeyTexts.next, hname, ht.tokensKeys]
    | true =>
      by_cases hp : names.filter isPartition = []
      · simp [KeyTexts.next, hname, ht.tokensKeys, hp, colsText]
      · have hcols := mt hnil.mp hp
        simp [KeyTexts.next, hname, ht.tokensKeys, hcols, colsText_append hp]

theorem KeyTexts.Built.foldl {others : List Str} {t : KeyTexts} (ht : t.Built isPartition names) (hne : names ≠ [])
    (hnames : ∀ n ∈ names ++ others, Cql.IsLowerName n) :
    (others.foldl (KeyTexts.next isPartition) t).Built isPartition (names ++ others) := by
  induction others generalizing names t with
  | nil => rwa [List.append_nil]
  | cons key others ih =>
    have hnext := ht.next hne (fun n hn => hnames n (List.mem_append_left _ hn)) (hnames key (by simp))
    have hfold := ih hnext (by simp) (by rwa [List.append_assoc])
    rwa [List.append_assoc] at hfold

theorem tokens_fromTable {keyspace table : Str} (hkeyspace : Cql.IsLowerName keyspace) (htable : Cql.IsLowerName table)
    (rest : Str) : tokens (fromTable keyspace table ++ rest) = Cql.whereTokens (keyspace, table) (tokens rest) := by
  have hfrom := tokens_keyword (w := "FROM".toList) (Cql.isName_of_all (by decide)) (keyspace ++ '.' :: (table ++ (" WHERE ".toList ++ rest)))
  have hwhere := tokens_keyword (w := "WHERE".toList) (Cql.isName_of_all (by decide)) rest
  have htext : fromTable keyspace table ++ rest =
      ' ' :: ("FROM".toList ++ (' ' :: (keyspace ++ '.' :: (table ++ (" WHERE ".toList ++ rest))))) := by
    unfold fromTable
    simp
  rw [htext, Cql.tokens_space, hfrom, hkeyspace.tokens_append rfl, Cql.tokens_mark rfl (by decide)]
  change _ :: _ :: _ :: tokens (table ++ (' ' :: ("WHERE".toList ++ (' ' :: rest)))) = _
  rw [htable.tokens_append rfl, Cql.tokens_space, hwhere]
  rfl

theorem tokens_select {keyspace table : Str} (hkeyspace : Cql.IsLowerName keyspace) (htable : Cql.IsLowerName table)
    (cols rest : Str) : tokens ("SELECT ".toList ++ (cols ++ (fromTable keyspace table ++ rest))) =
      .word "select".toList :: (tokens cols ++ Cql.whereTokens (keyspace, table) (tokens rest)) := by
  have hselect := tokens_keyword (w := "SELECT".toList) (Cql.isName_of_all (by decide)) (cols ++ (fromTable keyspace table ++ rest))
  have hcols : tokens (cols ++ (fromTable keyspace table ++ rest)) =
      tokens cols ++ tokens (fromTable keyspace table ++ rest) := Cql.tokens_append rfl
  rw [hcols, tokens_fromTable hkeyspace htable] at hselect
  exact hselect

theorem tokens_tokensWhere (h : ∀ n ∈ names, Cql.IsLowerName n) : tokens (tokensWhere (colsText names) ++ [';']) =
    Cql.tokenTokens names (.symbol '>' :: .symbol '=' :: .symbol '?' :: .word "and".toList ::
      Cql.tokenTokens names [.symbol '<', .symbol '?', .symbol ';']) := by
  have htoken (rest : Str) : tokens ("token".toList ++ ('(' :: (colsText names ++ (')' :: rest)))) =
      Cql.tokenTokens names (tokens rest) := by
    rw [Cql.tokens_name_append (Cql.isName_of_all (by decide)) rfl, Cql.tokens_mark rfl (by decide), Cql.tokens_append rfl,
      tokens_colsText h, Cql.tokens_mark rfl (by decide)]
    rfl
  have hand := tokens_keyword (w := "AND".toList) (Cql.isName_of_all (by decide))
    ("token".toList ++ ('(' :: (colsText names ++ (')' :: "<? ;".toList))))
  have hbound (rest : Str) : tokens (">=? ".toList ++ rest) =
      .symbol '>' :: .symbol '=' :: .symbol '?' :: tokens rest := rfl
  have hend : tokens "<? ;".toList = [.symbol '<', .symbol '?', .symbol ';'] := rfl
  have htext : tokensWhere (colsText names) ++ [';'] = ' ' :: ("token".toList ++ ('(' :: (colsText names ++ (')' ::
      (">=? ".toList ++ ("AND".toList ++ (' ' :: ("token".toList ++ ('(' :: (colsText names ++
        (')' :: "<? ;".toList))))))))))) := by
    unfold tokensWhere
    simp
  rw [htext, Cql.tokens_space, htoken, hbound, hand, htoken, hend]
  rfl

theorem tokens_append_markers (text rest : Str) (n : Nat) : tokens (text ++ ((List.replicate n [',', '?']).flatten ++ ')' :: rest)) =
    tokens text ++ ((List.replicate n [.symbol ',', .symbol '?']).flatten ++ tokens (')' :: rest)) := by
  induction n generalizing text with
  | zero => exact Cql.tokens_append rfl
  | succ n ih =>
    have hmark : tokens (text ++ [',', '?']) = tokens text ++ [.symbol ',', .symbol '?'] := Cql.tokens_append rfl
    have hn := ih (text ++ [',', '?'])
    rw [hmark] at hn
    simpa [List.replicate_succ] using hn

theorem tokens_valuesText {n : Nat} (hn : n ≠ 0) (text : Str) : tokens (text ++ valuesText n) =
    tokens text ++ (.symbol ')' :: .word "values".toList :: .symbol '(' :: (markerTokens n ++ [.symbol ')', .symbol ';'])) := by
  obtain ⟨n, rfl⟩ := Nat.exists_eq_succ_of_ne_zero hn
  have hvalues : tokens (text ++ ")VALUES (?".toList) =
      tokens text ++ [.symbol ')', .word "values".toList, .symbol '(', .symbol '?'] := by
    simp only [String.reduceToList]
    exact Cql.tokens_append rfl
  have hn := tokens_append_markers (text ++ ")VALUES (?".toList) [';'] n
  have hend : tokens [')', ';'] = [.symbol ')', .symbol ';'] := rfl
  rw [hvalues, hend] at hn
  unfold valuesText
  simpa [markersText, markerTokens] using hn

theorem tokens_intoTable {keyspace table : Str} (hkeyspace : Cql.IsLowerName keyspace) (htable : Cql.IsLowerName table)
    (rest : Str) : tokens (intoTable keyspace table ++ rest) =
      .word "insert".toList :: .word "into".toList :: (Cql.tableTokens (keyspace, table) ++ (.symbol '(' :: tokens rest)) := by
  have hinsert := tokens_keyword (w := "INSERT".toList) (Cql.isName_of_all (by decide))
    ("INTO".toList ++ (' ' :: (keyspace ++ '.' :: (table ++ '(' :: rest))))
  have hinto := tokens_keyword (w := "INTO".toList) (Cql.isName_of_all (by decide)) (keyspace ++ '.' :: (table ++ '(' :: rest))
  have htext : intoTable keyspace table ++ rest =
      "INSERT".toList ++ (' ' :: ("INTO".toList ++ (' ' :: (keyspace ++ '.' :: (table ++ '(' :: rest))))) := by
    unfold intoTable
    simp
  rw [htext, hinsert, hinto, hkeyspace.tokens_append rfl, Cql.tokens_mark rfl (by decide), htable.tokens_append rfl,
    Cql.tokens_mark rfl (by decide)]
  rfl

theorem nameTokens_append {keys columns : List Str} (hkeys : keys ≠ []) (hcolumns : columns ≠ []) :
    nameTokens (keys ++ columns) = nameTokens keys ++ (.symbol ',' :: nameTokens columns) := by
  obtain ⟨key, keys, rfl⟩ := List.exists_cons_of_ne_nil hkeys
  obtain ⟨column, columns, rfl⟩ := List.exists_cons_of_ne_nil hcolumns
  simp [nameTokens]

theorem tokens_keysAndCols {keys columns : List Str} (hkeys : keys ≠ []) (hcolumns : columns ≠ [])
    (h : ∀ n ∈ keys ++ columns, Cql.IsLowerName n) :
    tokens (colsText keys ++ (", ".toList ++ colsText columns)) = nameTokens (keys ++ columns) := by
  have hsep : ", ".toList ++ colsText columns = ',' :: (' ' :: colsText columns) := by simp
  rw [hsep, Cql.tokens_append rfl, Cql.tokens_mark rfl (by decide), Cql.tokens_space,
    tokens_colsText fun n hn => h n (List.mem_append_left _ hn), tokens_colsText fun n hn => h n (List.mem_append_right _ hn),
    nameTokens_append hkeys hcolumns]

end texts

/-- The names in the statements of a table, which stand without quotes. -/
structure TableNames (keyspace table key : Str) (others columns : List Str) : Prop where
  keyspace : Cql.IsLowerName keyspace
  table : Cql.IsLowerName table
  names : ∀ n ∈ (key :: others) ++ columns, Cql.IsLowerName n

namespace TableNames

variable {isPartition : Str → Bool} {keyspace table key : Str} {others columns : List Str}

theorem key_name (h : TableNames keyspace table key others columns) {n : Str} (hn : n ∈ key :: others) : Cql.IsLowerName n :=
  h.names n (List.mem_append_left _ hn)

theorem column_name (h : TableNames keyspace table key others columns) {n : Str} (hn : n ∈ columns) : Cql.IsLowerName n :=
  h.names n (List.mem_append_right _ hn)

theorem built (h : TableNames keyspace table key others columns) (isPartition : Str → Bool) :
    (others.foldl (KeyTexts.next isPartition) (KeyTexts.first isPartition key)).Built isPartition (key :: others) :=
  (KeyTexts.first_built isPartition (h.key_name List.mem_cons_self)).foldl (List.cons_ne_nil _ _) fun _ hn => h.key_name hn

/-- The columns that a row is read as. -/
def resultColumns (key : Str) (others columns : List Str) : List Str := if columns = [] then key :: others else columns

theorem resultColumns_ne (key : Str) (others columns : List Str) : resultColumns key others columns ≠ [] := by
  rw [resultColumns]
  split
  · exact List.cons_ne_nil _ _
  · assumption

theorem cols_eq_nil (h : TableNames keyspace table key others columns) : colsText columns = [] ↔ columns = [] :=
  colsText_eq_nil fun _ hn => (h.column_name hn).nonempty

theorem tokens_cols (h : TableNames keyspace table key others columns) :
    tokens (if colsText columns = [] then colsText (key :: others) else colsText columns) =
      nameTokens (resultColumns key others columns) := by
  rw [resultColumns]
  by_cases hc : columns = []
  · rw [if_pos (h.cols_eq_nil.mpr hc), if_pos hc, tokens_colsText fun _ hn => h.key_name hn]
  · rw [if_neg (mt h.cols_eq_nil.mp hc), if_neg hc, tokens_colsText fun _ hn => h.column_name hn]

theorem tokens_keysCols (h : TableNames keyspace table key others columns) :
    tokens (if colsText columns = [] then colsText (key :: others) else colsText (key :: others) ++ (", ".toList ++ colsText columns)) =
      nameTokens (key :: others ++ columns) := by
  by_cases hc : columns = []
  · rw [if_pos (h.cols_eq_nil.mpr hc), hc, List.append_nil, tokens_colsText fun _ hn => h.key_name hn]
  · rw [if_neg (mt h.cols_eq_nil.mp hc), tokens_keysAndCols (List.cons_ne_nil _ _) hc h.names]

theorem read_select (h : TableNames keyspace table key others columns) :
    readStatement (tableTexts isPartition keyspace table key others columns).select =
      some (.select (keyspace, table) (resultColumns key others columns) (key :: others)) := by
  have hbuilt := h.built isPartition
  have hwhere := hbuilt.selectWhere [';']
  have hcomplete : (Cql.Statement.select (keyspace, table) (resultColumns key others columns) (key :: others)).Complete :=
    ⟨resultColumns_ne key others columns, List.cons_ne_nil _ _⟩
  rw [← Cql.readTokens_tokens hcomplete, readStatement]
  unfold tableTexts
  rw [tokens_select h.keyspace h.table, hbuilt.keys, h.tokens_cols, hwhere]
  rfl

theorem read_deleteRow (h : TableNames keyspace table key others columns) :
    readStatement (tableTexts isPartition keyspace table key others columns).deleteRow =
      some (.delete (keyspace, table) (key :: others)) := by
  have hwhere := (h.built isPartition).selectWhere [';']
  have hcomplete : (Cql.Statement.delete (keyspace, table) (key :: others)).Complete := List.cons_ne_nil _ _
  have hdelete (rest : Str) : tokens ("DELETE ".toList ++ rest) = .word "delete".toList :: tokens rest :=
    tokens_keyword (w := "DELETE".toList) (Cql.isName_of_all (by decide)) rest
  rw [← Cql.readTokens_tokens hcomplete, readStatement]
  unfold tableTexts
  rw [hdelete, tokens_fromTable h.keyspace h.table, hwhere]
  rfl

theorem read_tokens (h : TableNames keyspace table key others columns)
    (hpartition : (key :: others).filter isPartition ≠ []) {cols : Str} {names : List Str} (hcols : tokens cols = nameTokens names)
    (hnames : names ≠ []) :
    readStatement ("SELECT ".toList ++ (cols ++ (fromTable keyspace table ++
      (tokensWhere (colsText ((key :: others).filter isPartition)) ++ [';'])))) =
      some (.selectTokens (keyspace, table) names ((key :: others).filter isPartition)) := by
  have hcomplete : (Cql.Statement.selectTokens (keyspace, table) names ((key :: others).filter isPartition)).Complete :=
    ⟨hnames, hpartition⟩
  rw [← Cql.readTokens_tokens hcomplete, readStatement, tokens_select h.keyspace h.table, hcols,
    tokens_tokensWhere fun _ hn => h.key_name (List.mem_of_mem_filter hn)]
  rfl

theorem read_selectKeysTokens (h : TableNames keyspace table key others columns)
    (hpartition : (key :: others).filter isPartition ≠ []) :
    readStatement (tableTexts isPartition keyspace table key others columns).selectKeysTokens =
      some (.selectTokens (keyspace, table) (key :: others) ((key :: others).filter isPartition)) := by
  have hbuilt := h.built isPartition
  unfold tableTexts
  dsimp only
  rw [hbuilt.keys, hbuilt.tokensKeys]
  exact h.read_tokens hpartition (tokens_colsText fun _ hn => h.key_name hn) (List.cons_ne_nil _ _)

theorem read_selectTokensValues (h : TableNames keyspace table key others columns)
    (hpartition : (key :: others).filter isPartition ≠ []) :
    readStatement (tableTexts isPartition keyspace table key others columns).selectTokensValues =
      some (.selectTokens (keyspace, table) (resultColumns key others columns) ((key :: others).filter isPartition)) := by
  have hbuilt := h.built isPartition
  unfold tableTexts
  dsimp only
  rw [hbuilt.keys, hbuilt.tokensKeys]
  exact h.read_tokens hpartition h.tokens_cols (resultColumns_ne key others columns)

theorem read_selectTokensAll (h : TableNames keyspace table key others columns)
    (hpartition : (key :: others).filter isPartition ≠ []) :
    readStatement (tableTexts isPartition keyspace table key others columns).selectTokensAll =
      some (.selectTokens (keyspace, table) (key :: others ++ columns) ((key :: others).filter isPartition)) := by
  have hbuilt := h.built isPartition
  unfold tableTexts
  dsimp only
  rw [hbuilt.keys, hbuilt.tokensKeys]
  exact h.read_tokens hpartition h.tokens_keysCols (by simp)

theorem read_insert (h : TableNames keyspace table key others columns) :
    readStatement (tableTexts isPartition keyspace table key others columns).insert =
      some (.insert (keyspace, table) (key :: others ++ columns)) := by
  have hkeys := (h.built isPartition).keys
  have hcomplete : (Cql.Statement.insert (keyspace, table) (key :: others ++ columns)).Complete := by simp [Cql.Statement.Complete]
  rw [← Cql.readTokens_tokens hcomplete, readStatement]
  unfold tableTexts
  rw [tokens_intoTable h.keyspace h.table, tokens_valuesText (by simp), hkeys, h.tokens_keysCols, ← List.length_append]
  rfl

theorem read_partialInsertQuery (h : TableNames keyspace table key others columns) {attrName : Str} (hattr : IsName attrName) :
    readStatement ((tableTexts isPartition keyspace table key others columns).partialInsertQuery attrName) =
      some (.insert (keyspace, table) (key :: others ++ [lowerName attrName])) := by
  have hkeys := (h.built isPartition).keys
  have hcomplete : (Cql.Statement.insert (keyspace, table) (key :: others ++ [lowerName attrName])).Complete := by
    simp [Cql.Statement.Complete]
  have hnames : tokens (colsText (key :: others) ++ (',' :: attrName)) = nameTokens (key :: others ++ [lowerName attrName]) := by
    rw [Cql.tokens_append rfl, Cql.tokens_mark rfl (by decide), tokens_colsText fun _ hn => h.key_name hn,
      Cql.tokens_name hattr, nameTokens_append (List.cons_ne_nil _ _) (List.cons_ne_nil _ _)]
    rfl
  have hlength : (key :: others ++ [lowerName attrName]).length = (key :: others).length + 1 := List.length_append
  rw [← Cql.readTokens_tokens hcomplete, readStatement]
  unfold TableQueries.partialInsertQuery tableTexts
  dsimp only
  rw [List.append_assoc, tokens_intoTable h.keyspace h.table, ← List.append_assoc, tokens_valuesText (by simp), hkeys, hnames,
    ← hlength]
  rfl

end TableNames

theorem emptyName_none {names : List Str} (first later : String) (h : ∀ n ∈ names, n ≠ []) : emptyName names first later = none := by
  have hnone : names.findIdx? List.isEmpty = none := by simpa using h
  rw [emptyName, hnone]

theorem tableQueries_ok {metadatas : List (Str × Bool)} {tableName keyspaceName : Str} {keysNames columnsNames : List Str}
    (hnames : ∀ n ∈ tableName :: keyspaceName :: (keysNames ++ columnsNames), IsName n)
    (hkey : ∃ n ∈ keysNames, metadatas.lookup (lowerName n) = some true) :
    ∃ isPartition key others, keysNames.map lowerName = key :: others ∧
      isPartition = (fun key => decide (metadatas.lookup key = some true)) ∧ (key :: others).filter isPartition ≠ [] ∧
      TableNames (lowerName keyspaceName) (lowerName tableName) key others (columnsNames.map lowerName) ∧
      tableQueries metadatas tableName keyspaceName keysNames columnsNames =
        .ok (tableTexts isPartition (lowerName keyspaceName) (lowerName tableName) key others (columnsNames.map lowerName)) := by
  obtain ⟨n, hn, hpartition⟩ := hkey
  cases hkeys : keysNames.map lowerName with
  | nil => simp [List.map_eq_nil_iff.mp hkeys] at hn
  | cons key others =>
    have hlower (names : List Str) (hsub : ∀ n ∈ names, IsName n) : ∀ n ∈ names.map lowerName, Cql.IsLowerName n := by
      intro n hn
      obtain ⟨m, hm, rfl⟩ := List.mem_map.mp hn
      exact (hsub m hm).isLowerName
    have hkeysNames := hlower keysNames fun n hn => hnames n (by simp [hn])
    have hcolumnsNames := hlower columnsNames fun n hn => hnames n (by simp [hn])
    rw [hkeys] at hkeysNames
    have htable : TableNames (lowerName keyspaceName) (lowerName tableName) key others (columnsNames.map lowerName) :=
      ⟨(hnames keyspaceName (by simp)).isLowerName, (hnames tableName (by simp)).isLowerName,
        fun n hn => (List.mem_append.mp hn).elim (hkeysNames n) (hcolumnsNames n)⟩
    have hfilter : (key :: others).filter (fun key => decide (metadatas.lookup key = some true)) ≠ [] := by
      have hmem : lowerName n ∈ key :: others := hkeys ▸ List.mem_map_of_mem hn
      exact List.ne_nil_of_mem (List.mem_filter.mpr ⟨hmem, by simpa using hpartition⟩)
    have hmetadatas : metadatas.isEmpty = false := by
      cases metadatas with
      | nil => simp at hpartition
      | cons m metadatas => rfl
    have hbuilt := htable.built fun key => decide (metadatas.lookup key = some true)
    have htokens : (others.foldl (KeyTexts.next fun key => decide (metadatas.lookup key = some true))
        (KeyTexts.first (fun key => decide (metadatas.lookup key = some true)) key)).tokensKeys ≠ [] := by
      rw [hbuilt.tokensKeys]
      exact mt (colsText_eq_nil fun n hn => (htable.key_name (List.mem_of_mem_filter hn)).nonempty).mp hfilter
    refine ⟨_, key, others, rfl, rfl, hfilter, htable, ?_⟩
    unfold tableQueries
    simp only [hkeys, hmetadatas, htokens, emptyName_none _ _ fun n hn => (hkeysNames n hn).nonempty,
      emptyName_none _ _ fun n hn => (hcolumnsNames n hn).nonempty, if_false, Bool.false_eq_true]

end Hecuba
