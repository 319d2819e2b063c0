import Hecuba.Fallible
import Hecuba.TextScan

/-! The parser of the specification in the documentation of a StorageDict,
`Parser("TypeSpec")`. -/

namespace Hecuba

abbrev Str := List Char

structure PyException where
  cls : String
  message : Str
  deriving DecidableEq, Repr

/-- The characters that are themselves in a literal between double quotes. -/
def IsLiteral (c : Char) : Prop := c ≠ '"' ∧ c ≠ '\\' ∧ c ≠ '\n' ∧ c ≠ '\r' ∧ c ≠ '\x00'

instance (c : Char) : Decidable (IsLiteral c) := inferInstanceAs (Decidable (_ ∧ _))

def IsWordChar (c : Char) : Prop := c.isAlphanum = true ∨ c = '_'

instance (c : Char) : Decidable (IsWordChar c) := inferInstanceAs (Decidable (_ ∨ _))

theorem IsWordChar.bounds {c : Char} (h : IsWordChar c) : 48 ≤ c.toNat ∧ c.toNat < 128 := by
  rcases h with h | rfl
  · change ((decide (65 ≤ c.val ∧ c.val ≤ 90) || (97 ≤ c.val && c.val ≤ 122)) ||
      (48 ≤ c.val && c.val ≤ 57)) = true at h
    have hn : c.toNat = c.val.toNat := rfl
    simp only [Bool.or_eq_true, Bool.and_eq_true, decide_eq_true_eq, UInt32.le_iff_toNat_le] at h
    rw [hn]
    rcases h with (h | h) | h <;> simp at h <;> omega
  · decide

theorem IsWordChar.isLiteral {c : Char} (h : IsWordChar c) : IsLiteral c := by
  have hb := h.bounds
  have hne : c ≠ '\\' := fun hc => absurd h (hc ▸ by decide)
  refine ⟨?_, hne, ?_, ?_, ?_⟩ <;> rintro rfl <;> simp at hb

/-- What is left to Python: the characters of words and of white space beyond ASCII, the identifiers
that are no keywords, the value of the literal that has a text between double quotes, and whether a
module can be imported. -/
structure Interpreter where
  wideWord : Char → Bool
  wideSpace : Char → Bool
  identifier : Str → Bool
  quoted : Str → Except PyException Str
  imports : Str → Bool
  identifier_literal : ∀ s, identifier s = true → ∀ c ∈ s, IsLiteral c
  quoted_literal : ∀ s, (∀ c ∈ s, IsLiteral c) → quoted s = .ok s
  imports_empty : imports [] = false

def Interpreter.isWord (py : Interpreter) (c : Char) : Bool :=
  if c.toNat < 128 then c.isAlphanum || c = '_' else py.wideWord c

def Interpreter.isSpace (py : Interpreter) (c : Char) : Bool :=
  if c.toNat < 128 then c = ' ' || (9 ≤ c.toNat && c.toNat ≤ 13) || (28 ≤ c.toNat && c.toNat ≤ 31)
  else py.wideSpace c

def keywords : List Str :=
  ["False", "None", "True", "and", "as", "assert", "async", "await", "break", "class", "continue", "def", "del", "elif",
    "else", "except", "finally", "for", "from", "global", "if", "import", "in", "is", "lambda", "nonlocal", "not", "or",
    "pass", "raise", "return", "try", "while", "with", "yield"].map String.toList

/-- Python on ASCII texts, with the modules of Hecuba; it takes no literals but plain ones. -/
def asciiPython : Interpreter where
  wideWord _ := false
  wideSpace _ := false
  identifier s := s ≠ [] && s.all (fun c => c.isAlphanum || c = '_') && !(s.head?.any Char.isDigit) && s ∉ keywords
  quoted s := if s.all (fun c => IsLiteral c) then .ok s else .error ⟨"SyntaxError", "invalid syntax".toList⟩
  imports s := s ∈ ["hecuba.hnumpy".toList, "hecuba.hdict".toList]
  identifier_literal s h c hc := by
    have hword : c.isAlphanum = true ∨ c = '_' := by
      simp only [Bool.and_eq_true, List.all_eq_true, Bool.or_eq_true, decide_eq_true_eq] at h
      exact h.1.1.2 c hc
    exact IsWordChar.isLiteral hword
  quoted_literal s h := by
    have hall : (s.all fun c => decide (IsLiteral c)) = true := by simpa using h
    simp [hall]
  imports_empty := by decide

namespace Parser

def conversions : List (Str × Str) :=
  [("atomicint", "counter"), ("str", "text"), ("bool", "boolean"), ("decimal", "decimal"), ("float", "float"),
    ("int", "int"), ("tuple", "tuple"), ("list", "list"), ("generator", "list"), ("frozenset", "set"),
    ("set", "set"), ("dict", "map"), ("long", "bigint"), ("buffer", "blob"), ("bytearray", "blob"),
    ("counter", "counter"), ("double", "double"), ("StorageDict", "dict"),
    ("ndarray", "hecuba.hnumpy.StorageNumpy"), ("numpy.ndarray", "hecuba.hnumpy.StorageNumpy"),
    ("date", "date"), ("time", "time"), ("datetime", "timestamp")].map fun e => (e.1.toList, e.2.toList)

def converted (w : Str) : Str := (conversions.lookup w).getD w

inductive Dtype where
  | simple
  | tuple
  | set
  deriving DecidableEq, Repr

inductive Inner where
  | named (name type : Str)
  | bare (type : Str)
  deriving DecidableEq, Repr

/-- A parsed column: the pair of a name and a type, or the dict of a set or a tuple. -/
inductive Column where
  | plain (name type : Str)
  | nested (name : Str) (type : Dtype) (columns : List Inner)
  deriving DecidableEq, Repr

inductive SpecEntry where
  | columns (l : List Column)
  | names (l : List Str)
  | text (s : Str)
  | table (primaryKeys columns : List Column)
  deriving DecidableEq, Repr

abbrev Spec := List (Str × SpecEntry)

def Spec.insert (this : Spec) (key : Str) (e : SpecEntry) : Spec := this.filter (·.1 ≠ key) ++ [(key, e)]

def splitDtype (var : Str) : Dtype × Str :=
  let inside (keyword : Str) : Option Str :=
    let rest := var.drop keyword.length
    if keyword.isPrefixOf var ∧ rest.getLast? = some '>' then some rest.dropLast else none
  match inside "tuple<".toList, inside "set<".toList with
  | some s, _ => (.tuple, s)
  | none, some s => (.set, s)
  | none, none => (.simple, var)

/-- `current` is `s[lastpos:pos + 1]`. -/
structure ElementScan where
  elements : List Str
  current : Str
  nBrackets : Int

def elementStep (scan : ElementScan) (c : Char) : ElementScan :=
  if c = '<' then { scan with current := scan.current ++ [c], nBrackets := scan.nBrackets + 1 }
  else if c = '>' then { scan with current := scan.current ++ [c], nBrackets := scan.nBrackets - 1 }
  else if c = ',' ∧ scan.nBrackets = 0 then { scan with elements := scan.elements ++ [scan.current], current := [] }
  else { scan with current := scan.current ++ [c] }

/-- `_get_elements`; `lastpos < pos` says that the last element has two characters or more. -/
def getElements (s : Str) : List Str :=
  let scan := s.foldl elementStep ⟨[], [], 0⟩
  if 2 ≤ scan.current.length then scan.elements ++ [scan.current] else scan.elements

def getNameAndType (k : Str) : Except PyException (Option Str × Str) :=
  match k.splitOn ':' with
  | [name, type] => if name ≠ [] ∧ type ≠ [] then .ok (some name, type) else .error refused
  | [type] => if type ≠ [] then .ok (none, type) else .error refused
  | _ => .error refused
where
  refused : PyException :=
    ⟨"SyntaxError", "Error parsing Type Specification. Trying to parse: '".toList ++ k ++ ['\'']⟩

/-- The position where the keys end: the `>` that leaves one bracket open, or the last one. -/
def splitPosition (nBrackets : Int) (pos : Nat) : Str → Nat
  | [] => pos - 1
  | c :: rest =>
    if c = '<' then splitPosition (nBrackets + 1) (pos + 1) rest
    else if c = '>' then
      if nBrackets - 1 = 1 then pos else splitPosition (nBrackets - 1) (pos + 1) rest
    else splitPosition nBrackets (pos + 1) rest

/-- The names and types of the elements; `stem` and `offset` number those without a name. -/
def namesAndTypes (stem : Str) (offset : Nat) (elements : List Str) : Except PyException (List (Str × Str)) :=
  elements.zipIdx.mapM fun e => do
    let (name, type) ← getNameAndType e.1
    return (name.getD (stem ++ Nat.toDigits 10 (e.2 + offset)), type)

abbrev Field := Str × Dtype × Str

def strip (py : Interpreter) (s : Str) : Str :=
  ((s.dropWhile py.isSpace).reverse.dropWhile py.isSpace).reverse

/-- `_get_str_primary_keys_values`: the fields of the keys and of the values. -/
def getStrPrimaryKeysValues (py : Interpreter) (pk : Str) : Except PyException (List Field × List Field) := do
  let pk := strip py (replaceFirst "dict".toList [] pk)
  let pos := splitPosition 0 0 pk
  let keys := (pk.take pos).drop 2
  let values := (pk.take (pk.length - 1)).drop (pos + 2)
  if keys = [] then throw ⟨"SyntaxError", "Can't detect the keys in the TypeSpec".toList⟩
  let keyList ← namesAndTypes "key_".toList 0 (getElements keys)
  let valueList ← namesAndTypes "val_".toList keyList.length (getElements values)
  return (keyList.map fun e => (e.1, splitDtype e.2), valueList.map fun e => (e.1, splitDtype e.2))

/-- The types of a set get names; those of a tuple do not, unless there is only one. -/
def innerColumns (type : Dtype) (t1 : Str) (convertedPrimaryKeys : List Str) : List Inner :=
  match convertedPrimaryKeys with
  | [w] => [.named t1 w]
  | ws => if type = .set then ws.zipIdx.map fun e => .named (t1 ++ '_' :: Nat.toDigits 10 e.2) e.1
    else ws.map .bare

def setOrTuple (type : Dtype) (t t1 : Str) : Column :=
  .nested t1 type (innerColumns type t1
    (((", ".toList.intercalate ((t.splitOn ',').map converted)).splitOn ',').map fun w => w.filter (· ≠ ' ')))

def processPath (modulePath : Str) : Str × Str :=
  if modulePath = "numpy.ndarray".toList then ("StorageNumpy".toList, "hecuba.hnumpy".toList)
  else if modulePath = "StorageDict".toList then ("StorageDict".toList, "hecuba.hdict".toList)
  else
    let last := (modulePath.zipIdx.filter fun e => e.1 = '.').getLast?.elim 0 Prod.snd
    (modulePath.drop (last + 1), modulePath.take last)

def getColumn (py : Interpreter) (field : Field) : Except PyException Column :=
  match field with
  | (t1, .simple, t) =>
    match conversions.lookup t with
    | some type => .ok (.plain t1 type)
    | none =>
      let (cname, module) := processPath t
      if py.imports module = true then .ok (.plain t1 t)
      else if (conversions.lookup cname).isSome then
        .error ⟨"Exception",
          "Error parsing the TypeSpec. Maybe you forgot a comma between the columns.".toList⟩
      else .error ⟨"ImportError", "Can't import class ".toList ++ cname ++ " from module ".toList ++ module⟩
  | (t1, type, t) => .ok (setOrTuple type t t1)

def getDictStr (py : Interpreter) (fields : List Field) : Except PyException (List Column) := fields.mapM (getColumn py)

/-- The texts of the columns are put between double quotes, and those of inner columns are
written as Python writes them. -/
def Column.evaluate (py : Interpreter) : Column → Except PyException Column
  | .plain name type => do return .plain (← py.quoted name) (← py.quoted type)
  | .nested name type columns => do return .nested (← py.quoted name) type columns

def words (py : Interpreter) (line : Str) : List Str := (line.splitOnP py.isSpace).filter (· ≠ [])

def indexError : PyException := ⟨"IndexError", "list index out of range".toList⟩

def parseColumns (py : Interpreter) (pk : Str) : Except PyException (List Column × List Column) := do
  let (keys, values) ← getStrPrimaryKeysValues py pk
  let pks ← getDictStr py keys
  let columns ← getDictStr py values
  let pks ← pks.mapM (Column.evaluate py)
  let columns ← columns.mapM (Column.evaluate py)
  return (pks, columns)

def parseDict (py : Interpreter) (line : Str) (this : Spec) : Except PyException Spec :=
  match words py line with
  | [_, pk] => do
    let (pks, columns) ← parseColumns py pk
    return [("primary_keys".toList, .columns pks), ("columns".toList, .columns columns),
      ("type".toList, .text "StorageDict".toList)]
  | _ :: table :: pk :: _ => do
    let (pks, columns) ← parseColumns py pk
    match this.lookup table with
    | none => return [(table, .table pks columns)]
    | some (.table ..) => return this.insert table (.table pks columns)
    | some _ => throw ⟨"AttributeError", "object has no attribute 'update'".toList⟩
  | _ => .error indexError

def parseIndex (line : Str) (this : Spec) : Except PyException Spec :=
  match (line.splitOn ' ')[1]? with
  | none => .error indexError
  | some attributes => .ok (this.insert "indexed_on".toList (.names
      (((", ".toList.intercalate ((attributes.splitOn ',').map converted)).splitOn ',').map
        fun w => w.filter (· ≠ ' '))))

/-- The forms of the attributes of a StorageObj, which a line can also have. -/
inductive AttributeForm where
  | setTupleList
  | simple
  | file

abbrev AttributeParser := AttributeForm → Str → Spec → Except PyException Spec

/-- `parseAttribute` is for the lines of those forms. -/
def inputType (py : Interpreter) (parseAttribute : AttributeParser) (line : Str) (this : Spec) :
    Except PyException Spec :=
  let count (s : String) := occurrences s.toList line
  if count "<" = 1 then parseAttribute .setTupleList line this
  else if (count "<" = 0 ∧ count "Index_on" = 0 ∧ count "@stream" = 0 ∧ count "." = 0) ∨
      (count "numpy.ndarray" ≠ 0 ∧ count " dict" = 0) then parseAttribute .simple line this
  else if count "Index_on" = 1 then parseIndex line this
  else if 0 < count "." ∧ count " dict" = 0 then parseAttribute .file line this
  else if count "@stream" = 1 then .ok (this.insert "stream".toList (.text "on".toList))
  else parseDict py line this

def starSpaces : Bool → Str → Str
  | _, [] => []
  | inRun, c :: rest =>
    if c = ' ' then (if inRun then starSpaces true rest else '*' :: starSpaces true rest)
    else c :: starSpaces false rest

/-- Where `\b(word)\b` is found first. -/
def wordPosition (py : Interpreter) (word : Str) : Bool → Nat → Str → Option Nat
  | _, _, [] => none
  | inWord, pos, c :: rest =>
    if !inWord && word.isPrefixOf (c :: rest) && !((c :: rest).drop word.length).head?.any py.isWord then some pos
    else wordPosition py word (py.isWord c) (pos + 1) rest

def removeSpacesFromLine (py : Interpreter) (line : Str) : Except PyException Str :=
  let line := starSpaces false line
  let line :=
    if dropUntil "@Index_on".toList line = none ∧ dropUntil "@stream".toList line = none then
      -- where the parser is not named, `find` gives -1, and the last character is left
      (dropUntil "TypeSpec".toList line).getD (line.drop (line.length - 1))
    else line
  let count (s : String) := occurrences s.toList line
  let spaces (s : Str) : Str := s.map fun c => if c = '*' then ' ' else c
  let cutAt (word : String) : Except PyException Str :=
    match wordPosition py word.toList false 0 line with
    | none => .error ⟨"AttributeError", "'NoneType' object has no attribute 'start'".toList⟩
    | some pos => .ok (spaces (line.take pos) ++ (line.drop pos).filter (· ≠ '*'))
  if count "tuple" = 1 ∧ count "dict" = 0 then cutAt "tuple"
  else if count "set" = 1 ∧ count "dict" = 0 then cutAt "set"
  else if count "@stream" = 1 then .ok (spaces ((dropUntil "@stream".toList line).getD []))
  else if count "@Index_on" = 1 then .ok (spaces ((dropUntil "@Index_on".toList line).getD []))
  else if 0 < count "*dict" then cutAt "dict"
  else if 0 < count "list" then cutAt "list"
  else .ok (spaces line)

def badCharacters : List Char := [';', '&', '(', ')', '[', ']', '=', '?', '¿', '!', '¡']

def detectErrorsBefore (lines : Str) : Except PyException Unit :=
  let badFound := lines.filter (· ∈ badCharacters)
  if badFound ≠ [] then
    .error ⟨"Exception", "One or more bad character detected: [".toList ++
      ", ".toList.intercalate (badFound.map ([·])) ++ "].".toList⟩
  else if 2 < (lines.splitOn '\n').length then
    .error ⟨"Exception", ("StorageDicts should only have one TypeSpec line and (optionaly) the Index_on " ++
      "or the stream properties.").toList⟩
  else if occurrences ['<'] lines < 2 ∨ occurrences ['>'] lines < 2 then
    .error ⟨"Exception", ("The TypeSpec should have at least two '<' and two '>'. Format: " ++
      "@TypeSpec dict<<key:type>, value:type>.").toList⟩
  else .ok ()

def detectErrorsAfter (output : Spec) : Except PyException Unit :=
  if (output.lookup "primary_keys".toList).isNone then
    .error ⟨"Exception", ("No detected keys. Maybe you forgot to set a primary key or " ++
      "there is a missing 'dict' after the TypeSpec.").toList⟩
  else if (output.lookup "columns".toList).isNone then
    .error ⟨"Exception", "No detected non-key columns.".toList⟩
  else .ok ()

def parseComments (py : Interpreter) (parseAttribute : AttributeParser) (comments : Str) :
    Except PyException Spec := do
  let lines := beforeLast '\n' (afterFirst '\n' comments)
  detectErrorsBefore lines
  let this ← (lines.splitOn '\n').foldlM
    (fun this line => do inputType py parseAttribute (← removeSpacesFromLine py line) this) []
  detectErrorsAfter this
  return this

section elements

/-- A text that the scan for commas passes over, with all its brackets closed. -/
def IsElement (s : Str) : Prop :=
  ∀ elements current, s.foldl elementStep ⟨elements, current, 0⟩ = ⟨elements, current ++ s, 0⟩

theorem foldl_elementStep {s : Str} {n : Int} (h : ∀ c ∈ s, c ≠ '<' ∧ c ≠ '>' ∧ (c = ',' → n ≠ 0))
    (elements : List Str) (current : Str) :
    s.foldl elementStep ⟨elements, current, n⟩ = ⟨elements, current ++ s, n⟩ := by
  induction s generalizing current with
  | nil => simp
  | cons c s ih =>
    have hc := h c (by simp)
    have hcomma : ¬ (c = ',' ∧ n = 0) := fun hcn => hc.2.2 hcn.1 hcn.2
    have hstep : elementStep ⟨elements, current, n⟩ c = ⟨elements, current ++ [c], n⟩ := by
      simp [elementStep, hc.1, hc.2.1, hcomma]
    rw [List.foldl_cons, hstep, ih fun d hd => h d (by simp [hd])]
    simp

theorem isElement_of_flat {s : Str} (h : ∀ c ∈ s, c ≠ '<' ∧ c ≠ '>' ∧ c ≠ ',') : IsElement s :=
  fun elements current => foldl_elementStep (fun c hc => by simp [h c hc]) elements current

theorem foldl_elements {items : List Str} (h : ∀ s ∈ items, IsElement s) (elements : List Str) :
    (items.flatMap (· ++ [','])).foldl elementStep ⟨elements, [], 0⟩ = ⟨elements ++ items, [], 0⟩ := by
  induction items generalizing elements with
  | nil => simp
  | cons s items ih =>
    have hs := h s (by simp) elements []
    rw [List.flatMap_cons, List.foldl_append, List.foldl_append, hs]
    simp [elementStep, ih fun t ht => h t (by simp [ht])]

theorem getElements_join {items : List Str} {last : Str} (h : ∀ s ∈ items, IsElement s) (hlast : IsElement last)
    (hlen : 2 ≤ last.length) : getElements (items.flatMap (· ++ [',']) ++ last) = items ++ [last] := by
  have hscan : (items.flatMap (· ++ [',']) ++ last).foldl elementStep ⟨[], [], 0⟩ = ⟨items, last, 0⟩ := by
    rw [List.foldl_append, foldl_elements h, hlast]
    simp
  simp [getElements, hscan, hlen]

end elements

theorem splitPosition_append {s : Str} (h : ∀ c ∈ s, c ≠ '<' ∧ c ≠ '>') (n : Int) (pos : Nat) (rest : Str) :
    splitPosition n pos (s ++ rest) = splitPosition n (pos + s.length) rest := by
  induction s generalizing pos with
  | nil => simp
  | cons c s ih =>
    have hc := h c (by simp)
    rw [List.cons_append, splitPosition, if_neg hc.1, if_neg hc.2, ih fun d hd => h d (by simp [hd])]
    simp [Nat.add_comm, Nat.add_left_comm]

/-- A text that the scan for the end of the keys passes over, with all its brackets closed. -/
def IsBalanced (s : Str) : Prop :=
  ∀ n pos rest, 2 ≤ n → splitPosition n pos (s ++ rest) = splitPosition n (pos + s.length) rest

theorem isBalanced_of_flat {s : Str} (h : ∀ c ∈ s, c ≠ '<' ∧ c ≠ '>') : IsBalanced s :=
  fun n pos rest _ => splitPosition_append h n pos rest

theorem IsBalanced.append {s t : Str} (hs : IsBalanced s) (ht : IsBalanced t) : IsBalanced (s ++ t) := by
  intro n pos rest hn
  rw [List.append_assoc, hs n pos _ hn, ht n _ rest hn, List.length_append, Nat.add_assoc]

end Parser

end Hecuba
