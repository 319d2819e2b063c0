import Mathlib.Data.List.Basic
import Mathlib.Tactic.IntervalCases
import Mathlib.Data.List.AList
import Hecuba.HalfOpenRanges

/-! Prepared statements of CQL on a table: the words of a text, what it asks for, and what it does
when values are bound to its markers. -/

namespace Hecuba.Cql

abbrev Text := List Char

inductive Token where
  | word (w : Text)
  | symbol (c : Char)
  deriving DecidableEq

def isWordChar (c : Char) : Bool := c.isAlphanum || c = '_'

def lower (w : Text) : Text := w.map Char.toLower

/-- A word without quotes counts in lower case. -/
def flush (w : Text) : List Token := if w = [] then [] else [.word (lower w)]

def tokensFrom (w : Text) : Text → List Token
  | [] => flush w
  | c :: text =>
    if isWordChar c then tokensFrom (w ++ [c]) text
    else flush w ++ ((if c = ' ' then [] else [.symbol c]) ++ tokensFrom [] text)

def tokens (text : Text) : List Token := tokensFrom [] text

inductive Statement where
  | insert (table : Text × Text) (columns : List Text)
  | select (table : Text × Text) (columns key : List Text)
  | selectTokens (table : Text × Text) (columns partitionKey : List Text)
  | delete (table : Text × Text) (key : List Text)
  deriving DecidableEq

def expectWord (w : Text) : List Token → Option (List Token)
  | .word v :: rest => if v = w then some rest else none
  | _ => none

def expect (c : Char) : List Token → Option (List Token)
  | .symbol d :: rest => if d = c then some rest else none
  | _ => none

def readNames : List Token → Option (List Text × List Token)
  | .word w :: .symbol ',' :: rest => (readNames rest).map fun r => (w :: r.1, r.2)
  | .word w :: rest => some ([w], rest)
  | _ => none

def readMarkers : List Token → Option (Nat × List Token)
  | .symbol '?' :: .symbol ',' :: rest => (readMarkers rest).map fun r => (r.1 + 1, r.2)
  | .symbol '?' :: rest => some (1, rest)
  | _ => none

def readTable : List Token → Option ((Text × Text) × List Token)
  | .word keyspace :: .symbol '.' :: .word table :: rest => some ((keyspace, table), rest)
  | _ => none

/-- The columns that are compared with markers, and what follows. -/
def readConditions : List Token → Option (List Text × List Token)
  | .word name :: .symbol '=' :: .symbol '?' :: .word w :: rest =>
    if w = "and".toList then (readConditions rest).map fun r => (name :: r.1, r.2) else none
  | .word name :: .symbol '=' :: .symbol '?' :: rest => some ([name], rest)
  | _ => none

def readToken (rest : List Token) : Option (List Text × List Token) := do
  let rest ← expectWord "token".toList rest
  let rest ← expect '(' rest
  let (names, rest) ← readNames rest
  return (names, ← expect ')' rest)

/-- Both bounds are on the token of the same columns. -/
def readTokenRange (rest : List Token) : Option (List Text × List Token) := do
  let (names, rest) ← readToken rest
  let rest ← expect '?' (← expect '=' (← expect '>' rest))
  let (names', rest) ← readToken (← expectWord "and".toList rest)
  let rest ← expect '?' (← expect '<' rest)
  if names = names' then some (names, rest) else none

def ended {α : Type} (a : α) (rest : List Token) : Option α := if rest = [.symbol ';'] then some a else none

def readInsert (rest : List Token) : Option Statement := do
  let (table, rest) ← readTable (← expectWord "into".toList rest)
  let (columns, rest) ← readNames (← expect '(' rest)
  let rest ← expectWord "values".toList (← expect ')' rest)
  let (markers, rest) ← readMarkers (← expect '(' rest)
  if markers = columns.length then ended (.insert table columns) (← expect ')' rest) else none

def readSelect (rest : List Token) : Option Statement := do
  let (columns, rest) ← readNames rest
  let (table, rest) ← readTable (← expectWord "from".toList rest)
  let rest ← expectWord "where".toList rest
  match readTokenRange rest with
  | some (names, rest) => ended (.selectTokens table columns names) rest
  | none =>
    let (names, rest) ← readConditions rest
    ended (.select table columns names) rest

def readDelete (rest : List Token) : Option Statement := do
  let (table, rest) ← readTable (← expectWord "from".toList rest)
  let (names, rest) ← readConditions (← expectWord "where".toList rest)
  ended (.delete table names) rest

def readTokens : List Token → Option Statement
  | .word w :: rest =>
    if w = "insert".toList then readInsert rest
    else if w = "select".toList then readSelect rest
    else if w = "delete".toList then readDelete rest
    else none
  | _ => none

def readStatement (text : Text) : Option Statement := readTokens (tokens text)

/-- The rows are found by the values of the primary key, and come in no order. -/
structure CqlTable (V : Type) [DecidableEq V] where
  name : Text × Text
  primaryKey : List Text
  partitionKey : List Text
  token : List V → Int
  rows : AList fun _ : List V => Text → V
  keyed : ∀ key row, rows.lookup key = some row → primaryKey.map row = key

section run

variable {V : Type} [DecidableEq V] (null : V)

namespace CqlTable

/-- A value for each column of the primary key. -/
def Binds (t : CqlTable V) (bound : List (Text × V)) : Prop := ∀ name ∈ t.primaryKey, (bound.lookup name).isSome = true

instance (t : CqlTable V) (bound : List (Text × V)) : Decidable (t.Binds bound) :=
  inferInstanceAs (Decidable (∀ name ∈ t.primaryKey, (bound.lookup name).isSome = true))

def keyOf (t : CqlTable V) (bound : List (Text × V)) : List V := t.primaryKey.map fun name => (bound.lookup name).getD null

/-- An INSERT sets the columns that it names, and makes the row where there is none. -/
def insertedRow (t : CqlTable V) (bound : List (Text × V)) (name : Text) : V :=
  (bound.lookup name).getD (((t.rows.lookup (t.keyOf null bound)).map fun row => row name).getD null)

theorem insertedRow_keyed {t : CqlTable V} {bound : List (Text × V)} (h : t.Binds bound) :
    t.primaryKey.map (t.insertedRow null bound) = t.keyOf null bound := by
  refine List.map_congr_left fun name hname => ?_
  obtain ⟨v, hv⟩ := Option.isSome_iff_exists.mp (h name hname)
  rw [insertedRow, hv]
  rfl

def insert (t : CqlTable V) (bound : List (Text × V)) (h : t.Binds bound) : CqlTable V :=
  { t with
    rows := t.rows.insert (t.keyOf null bound) (t.insertedRow null bound)
    keyed := by
      intro key row hrow
      by_cases hkey : key = t.keyOf null bound
      · rw [hkey, AList.lookup_insert] at hrow
        rw [hkey, ← Option.some.inj hrow, insertedRow_keyed null h]
      · rw [AList.lookup_insert_ne hkey] at hrow
        exact t.keyed key row hrow }

def erase (t : CqlTable V) (key : List V) : CqlTable V :=
  { t with
    rows := t.rows.erase key
    keyed := by
      intro key' row hrow
      by_cases hkey : key' = key
      · rw [hkey, AList.lookup_erase] at hrow
        exact absurd hrow (by simp)
      · rw [AList.lookup_erase_ne hkey] at hrow
        exact t.keyed key' row hrow }

def rowToken (t : CqlTable V) (row : Text → V) : Int := t.token (t.partitionKey.map row)

end CqlTable

/-- The rows that a statement returns and the table that it leaves; none when it is refused. A
SELECT or DELETE is run for a whole primary key. -/
def run (t : CqlTable V) (statement : Statement) (params : List V) : Option (List (List V) × CqlTable V) :=
  match statement with
  | .insert table columns =>
    if table = t.name ∧ params.length = columns.length then
      if h : t.Binds (columns.zip params) then some ([], t.insert null (columns.zip params) h) else none
    else none
  | .select table columns names =>
    if table = t.name ∧ params.length = names.length ∧ t.Binds (names.zip params) then
      some ((t.rows.lookup (t.keyOf null (names.zip params))).toList.map fun row => columns.map row, t)
    else none
  | .delete table names =>
    if table = t.name ∧ params.length = names.length ∧ t.Binds (names.zip params) then
      some ([], t.erase (t.keyOf null (names.zip params)))
    else none
  | .selectTokens .. => none

/-- A prepared text with values bound to its markers. -/
def execute (t : CqlTable V) (text : Text) (params : List V) : Option (List (List V) × CqlTable V) :=
  (readStatement text).bind fun statement => run null t statement params

/-- The rows that each text of a list returns. -/
def executeAll : CqlTable V → List (Text × List V) → Option (List (List (List V)) × CqlTable V)
  | t, [] => some ([], t)
  | t, (text, params) :: rest => do
    let (rows, t) ← execute null t text params
    let (others, t) ← executeAll t rest
    return (rows :: others, t)

/-- A prepared text with the two bounds of a range of tokens. -/
def executeRange (t : CqlTable V) (text : Text) (range : Int × Int) : Option (List (List V)) :=
  match readStatement text with
  | some (.selectTokens table columns names) =>
    if table = t.name ∧ names = t.partitionKey then
      some ((t.rows.entries.filter fun e => inRange (t.rowToken e.2) range).map fun e => columns.map e.2)
    else none
  | _ => none

end run

section words

variable {v w rest text : Text}

/-- A name that stands without quotes. -/
structure IsName (w : Text) : Prop where
  nonempty : w ≠ []
  chars : ∀ c ∈ w, isWordChar c = true

theorem isName_of_all (h : (!w.isEmpty && w.all isWordChar) = true) : IsName w := by
  obtain ⟨hne, hall⟩ := Bool.and_eq_true_iff.mp h
  refine ⟨fun hnil => ?_, List.all_eq_true.mp hall⟩
  rw [hnil] at hne
  cases hne

theorem toLower_same_or_letter (c : Char) : c.toLower = c ∨ ∃ n < 26, c = Char.ofNat (65 + n) := by
  by_cases h : 65 ≤ c.toNat ∧ c.toNat ≤ 90
  · refine .inr ⟨c.toNat - 65, by omega, ?_⟩
    rw [Nat.add_sub_cancel' h.1, Char.ofNat_toNat]
  · left
    have hu : ¬ (c.val ≥ 'A'.val ∧ c.val ≤ 'Z'.val) := fun hv => h ⟨hv.1, hv.2⟩
    exact dif_neg hu

theorem isWordChar_toLower {c : Char} (h : isWordChar c = true) : isWordChar c.toLower = true := by
  rcases toLower_same_or_letter c with hc | ⟨n, hn, rfl⟩
  · rwa [hc]
  · interval_cases n <;> rfl

theorem toLower_toLower (c : Char) : c.toLower.toLower = c.toLower := by
  rcases toLower_same_or_letter c with hc | ⟨n, hn, rfl⟩
  · rw [hc, hc]
  · interval_cases n <;> rfl

theorem lower_lower (w : Text) : lower (lower w) = lower w := by
  simp only [lower, List.map_map, Function.comp_def, toLower_toLower]

theorem IsName.lower (h : IsName w) : IsName (lower w) := by
  refine ⟨by simpa [Cql.lower] using h.nonempty, fun c hc => ?_⟩
  obtain ⟨d, hd, rfl⟩ := List.mem_map.mp hc
  exact isWordChar_toLower (h.chars d hd)

theorem tokensFrom_word (h : ∀ c ∈ v, isWordChar c = true) : tokensFrom w (v ++ rest) = tokensFrom (w ++ v) rest := by
  induction v generalizing w with
  | nil => simp
  | cons c v ih =>
    rw [List.cons_append, tokensFrom, if_pos (h c List.mem_cons_self), ih fun d hd => h d (List.mem_cons_of_mem _ hd),
      List.append_assoc]
    rfl

theorem tokensFrom_cons {c : Char} (h : isWordChar c = false) :
    tokensFrom w (c :: rest) = flush w ++ ((if c = ' ' then [] else [.symbol c]) ++ tokens rest) := by
  simp [tokensFrom, tokens, h]

theorem tokensFrom_stop {c : Char} (h : isWordChar c = false) :
    tokensFrom w (c :: rest) = flush w ++ tokens (c :: rest) := by
  have hstart : tokens (c :: rest) = flush [] ++ ((if c = ' ' then [] else [.symbol c]) ++ tokens rest) :=
    tokensFrom_cons h
  rw [tokensFrom_cons h, hstart]
  rfl

/-- A text can be cut in front of a character that no word has. -/
theorem tokensFrom_append {c : Char} (h : isWordChar c = false) :
    tokensFrom w (text ++ c :: rest) = tokensFrom w text ++ tokens (c :: rest) := by
  induction text generalizing w with
  | nil => exact tokensFrom_stop h
  | cons d text ih =>
    rw [List.cons_append, tokensFrom, tokensFrom]
    split
    · exact ih
    · rw [ih]
      simp

theorem tokens_append {c : Char} (h : isWordChar c = false) : tokens (text ++ c :: rest) = tokens text ++ tokens (c :: rest) :=
  tokensFrom_append h

theorem tokens_symbol {c : Char} (h : isWordChar c = false) :
    tokens (c :: rest) = (if c = ' ' then [] else [.symbol c]) ++ tokens rest :=
  tokensFrom_cons h

theorem tokens_space : tokens (' ' :: rest) = tokens rest := tokens_symbol rfl

theorem tokens_mark {c : Char} (h : isWordChar c = false) (hc : c ≠ ' ') : tokens (c :: rest) = .symbol c :: tokens rest := by
  rw [tokens_symbol h, if_neg hc]
  rfl

theorem tokens_name (h : IsName w) : tokens w = [.word (lower w)] := by
  have hw : tokensFrom [] (w ++ []) = tokensFrom ([] ++ w) [] := tokensFrom_word h.chars
  rw [List.append_nil, List.nil_append] at hw
  rw [tokens, hw, tokensFrom, flush, if_neg h.nonempty]

theorem tokens_name_append {c : Char} (h : IsName w) (hc : isWordChar c = false) :
    tokens (w ++ c :: rest) = .word (lower w) :: tokens (c :: rest) := by
  rw [tokens_append hc, tokens_name h]
  rfl

/-- A name that stands as it is read. -/
structure IsLowerName (w : Text) : Prop extends IsName w where
  lowered : lower w = w

theorem IsName.isLowerName (h : IsName w) : IsLowerName (Cql.lower w) := ⟨h.lower, lower_lower w⟩

theorem IsLowerName.tokens_eq (h : IsLowerName w) : tokens w = [.word w] := by
  rw [tokens_name h.toIsName, h.lowered]

theorem IsLowerName.tokens_append (h : IsLowerName w) {c : Char} (hc : isWordChar c = false) :
    tokens (w ++ c :: rest) = .word w :: tokens (c :: rest) := by
  rw [tokens_name_append h.toIsName hc, h.lowered]

end words

section grammar

variable {names : List Text} {rest : List Token}

def nameTokens : List Text → List Token
  | [] => []
  | name :: names => .word name :: names.flatMap fun n => [.symbol ',', .word n]

def markerTokens : Nat → List Token
  | 0 => []
  | n + 1 => .symbol '?' :: (List.replicate n [.symbol ',', .symbol '?']).flatten

def conditionTokens : List Text → List Token
  | [] => []
  | name :: names => [.word name, .symbol '=', .symbol '?'] ++
      names.flatMap fun n => [.word "and".toList, .word n, .symbol '=', .symbol '?']

def tableTokens (table : Text × Text) : List Token := [.word table.1, .symbol '.', .word table.2]

/-- The rows of a table under a condition. -/
def whereTokens (table : Text × Text) (condition : List Token) : List Token :=
  .word "from".toList :: (tableTokens table ++ (.word "where".toList :: condition))

def tokenTokens (names : List Text) (rest : List Token) : List Token :=
  .word "token".toList :: .symbol '(' :: (nameTokens names ++ (.symbol ')' :: rest))

namespace Statement

/-- How a statement is written. -/
def tokens : Statement → List Token
  | .insert table columns =>
    .word "insert".toList :: .word "into".toList :: (tableTokens table ++ (.symbol '(' :: (nameTokens columns ++
      (.symbol ')' :: .word "values".toList :: .symbol '(' :: (markerTokens columns.length ++ [.symbol ')', .symbol ';'])))))
  | .select table columns names =>
    .word "select".toList :: (nameTokens columns ++ whereTokens table (conditionTokens names ++ [.symbol ';']))
  | .selectTokens table columns names =>
    .word "select".toList :: (nameTokens columns ++ whereTokens table (tokenTokens names (.symbol '>' :: .symbol '=' ::
      .symbol '?' :: .word "and".toList :: tokenTokens names [.symbol '<', .symbol '?', .symbol ';'])))
  | .delete table names =>
    .word "delete".toList :: whereTokens table (conditionTokens names ++ [.symbol ';'])

/-- No list of names is empty. -/
def Complete : Statement → Prop
  | .insert _ columns => columns ≠ []
  | .select _ columns names | .selectTokens _ columns names => columns ≠ [] ∧ names ≠ []
  | .delete _ names => names ≠ []

end Statement

@[simp] theorem expect_symbol (c : Char) (rest : List Token) : expect c (.symbol c :: rest) = some rest := by
  rw [expect, if_pos rfl]

@[simp] theorem expectWord_word (w : Text) (rest : List Token) : expectWord w (.word w :: rest) = some rest := by
  rw [expectWord, if_pos rfl]

@[simp] theorem readTable_tokens (table : Text × Text) (rest : List Token) :
    readTable (tableTokens table ++ rest) = some (table, rest) := rfl

theorem readNames_tokens (names : List Text) (rest : List Token) (hne : names ≠ []) (h : rest.head? ≠ some (.symbol ',')) :
    readNames (nameTokens names ++ rest) = some (names, rest) := by
  obtain ⟨name, names, rfl⟩ := List.exists_cons_of_ne_nil hne
  induction names generalizing name with
  | nil =>
    cases rest with
    | nil => rfl
    | cons token rest =>
      have ht : token ≠ .symbol ',' := fun he => h (by rw [he]; rfl)
      simp [nameTokens, readNames, ht]
  | cons n names ih =>
    have hn := ih n (List.cons_ne_nil _ _)
    rw [nameTokens, List.cons_append] at hn
    simp only [nameTokens, List.flatMap_cons, List.cons_append, List.nil_append, readNames, hn, Option.map_some]

theorem readMarkers_tokens (n : Nat) (rest : List Token) (hn : n ≠ 0) (h : rest.head? ≠ some (.symbol ',')) :
    readMarkers (markerTokens n ++ rest) = some (n, rest) := by
  obtain ⟨n, rfl⟩ := Nat.exists_eq_succ_of_ne_zero hn
  induction n with
  | zero =>
    cases rest with
    | nil => rfl
    | cons token rest =>
      have ht : token ≠ .symbol ',' := fun he => h (by rw [he]; rfl)
      simp [markerTokens, readMarkers, ht]
  | succ n ih =>
    have hm := ih (Nat.succ_ne_zero n)
    rw [markerTokens, List.cons_append] at hm
    simp only [markerTokens, List.replicate_succ, List.flatten_cons, List.cons_append, List.nil_append, readMarkers, hm,
      Option.map_some]

theorem readConditions_tokens (hne : names ≠ []) (h : ∀ w, rest.head? ≠ some (.word w)) :
    readConditions (conditionTokens names ++ rest) = some (names, rest) := by
  obtain ⟨name, names, rfl⟩ := List.exists_cons_of_ne_nil hne
  induction names generalizing name with
  | nil =>
    cases rest with
    | nil => rfl
    | cons token rest =>
      cases token with
      | word w => exact absurd rfl (h w)
      | symbol c => rfl
  | cons n names ih =>
    have hn := ih n (List.cons_ne_nil _ _)
    simp only [conditionTokens, List.cons_append, List.nil_append] at hn
    simp only [conditionTokens, List.flatMap_cons, List.cons_append, List.nil_append, readConditions, hn, if_true,
      Option.map_some]

theorem readToken_tokens (hne : names ≠ []) (rest : List Token) : readToken (tokenTokens names rest) = some (names, rest) := by
  have hnames := readNames_tokens names (.symbol ')' :: rest) hne (by simp)
  simp [readToken, tokenTokens, hnames]

/-- A column can be named like the function. -/
theorem readTokenRange_conditions (hne : names ≠ []) (rest : List Token) :
    readTokenRange (conditionTokens names ++ rest) = none := by
  obtain ⟨name, names, rfl⟩ := List.exists_cons_of_ne_nil hne
  by_cases hname : name = "token".toList
  · simp [conditionTokens, readTokenRange, readToken, hname, expect]
  · simp [-String.reduceToList, conditionTokens, readTokenRange, readToken, hname, expectWord]

theorem readSelect_where {table : Text × Text} {columns : List Text} (hne : columns ≠ []) (condition : List Token) :
    readSelect (nameTokens columns ++ whereTokens table condition) =
      match readTokenRange condition with
      | some (names, rest) => ended (.selectTokens table columns names) rest
      | none => (readConditions condition).bind fun r => ended (.select table columns r.1) r.2 := by
  have hnames := readNames_tokens columns (whereTokens table condition) hne (by simp [whereTokens])
  rw [whereTokens] at hnames ⊢
  simp [-String.reduceToList, readSelect, hnames]

/-- A statement is read from what is written of it. -/
theorem readTokens_tokens {statement : Statement} (h : statement.Complete) : readTokens statement.tokens = some statement := by
  have hend (w : Text) : [Token.symbol ';'].head? ≠ some (.word w) := by simp
  cases statement with
  | insert table columns =>
    have hnames := readNames_tokens columns (.symbol ')' :: .word "values".toList :: .symbol '(' ::
      (markerTokens columns.length ++ [.symbol ')', .symbol ';'])) h (by simp)
    have hmarkers := readMarkers_tokens columns.length [.symbol ')', .symbol ';']
      (mt List.eq_nil_of_length_eq_zero h) (by simp)
    simp [-String.reduceToList, Statement.tokens, readTokens, readInsert, hnames, hmarkers, ended]
  | select table columns names =>
    have hread : readTokens (Statement.select table columns names).tokens = readSelect (nameTokens columns ++
        whereTokens table (conditionTokens names ++ [.symbol ';'])) := rfl
    rw [hread, readSelect_where h.1, readTokenRange_conditions h.2, readConditions_tokens h.2 hend]
    rfl
  | selectTokens table columns names =>
    have hread : readTokens (Statement.selectTokens table columns names).tokens = readSelect (nameTokens columns ++
        whereTokens table (tokenTokens names (.symbol '>' :: .symbol '=' :: .symbol '?' :: .word "and".toList ::
          tokenTokens names [.symbol '<', .symbol '?', .symbol ';']))) := rfl
    rw [hread, readSelect_where h.1]
    simp [-String.reduceToList, readTokenRange, readToken_tokens h.2, ended]
  | delete table names =>
    have hread : readTokens (Statement.delete table names).tokens =
        readDelete (whereTokens table (conditionTokens names ++ [.symbol ';'])) := rfl
    rw [hread]
    simp [-String.reduceToList, readDelete, whereTokens, readConditions_tokens h hend, ended]

end grammar

section bound

variable {V : Type} {names names' : List Text} {values values' : List V} (null : V)

theorem lookup_zip_isSome (hlen : values.length = names.length) {name : Text} (h : name ∈ names) :
    ((names.zip values).lookup name).isSome = true := by
  induction names generalizing values with
  | nil => cases h
  | cons n names ih =>
    obtain ⟨v, values, rfl⟩ := List.exists_cons_of_length_eq_add_one hlen
    rw [List.zip_cons_cons, List.lookup_cons]
    by_cases hn : name = n
    · simp [hn]
    · rw [beq_false_of_ne hn]
      exact ih (Nat.succ.inj hlen) ((List.mem_cons.mp h).resolve_left hn)

theorem lookup_zip_eq_none {name : Text} (h : name ∉ names) : (names.zip values).lookup name = none := by
  rw [List.lookup_eq_none_iff]
  intro p hp
  have hmem := (List.of_mem_zip hp).1
  have hne : name ≠ p.1 := fun he => h (he ▸ hmem)
  simpa using hne

/-- Each name has the value that stands at its place. -/
theorem map_lookup_zip (hnodup : names.Nodup) (hlen : values.length = names.length) :
    names.map (fun name => ((names.zip values).lookup name).getD null) = values := by
  induction names generalizing values with
  | nil => rw [List.length_eq_zero_iff.mp hlen, List.map_nil]
  | cons n names ih =>
    obtain ⟨v, values, rfl⟩ := List.exists_cons_of_length_eq_add_one hlen
    obtain ⟨hn, hnodup⟩ := List.nodup_cons.mp hnodup
    rw [List.map_cons, List.zip_cons_cons]
    congr 1
    · simp
    · rw [← ih hnodup (Nat.succ.inj hlen)]
      refine List.map_congr_left fun name hname => ?_
      have hne : name ≠ n := fun he => hn (he ▸ hname)
      rw [List.lookup_cons, beq_false_of_ne hne, ih hnodup (Nat.succ.inj hlen)]

theorem lookup_append_left {bound bound' : List (Text × V)} {name : Text} (h : (bound.lookup name).isSome = true) :
    (bound ++ bound').lookup name = bound.lookup name := by
  rw [List.lookup_append]
  exact Option.or_of_isSome h

theorem lookup_append_right {bound bound' : List (Text × V)} {name : Text} (h : bound.lookup name = none) :
    (bound ++ bound').lookup name = bound'.lookup name := by
  rw [List.lookup_append, h, Option.none_or]

end bound

end Hecuba.Cql
