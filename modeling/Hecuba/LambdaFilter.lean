import Hecuba.TypeSpecParser

/-! The filter of a StorageDict without index: the text of a lambda, its tokens, the comparisons
read from them, and the conditions of the query. -/

namespace Hecuba

inductive Scalar (F : Type) where
  | str (s : Str)
  | int (n : Int)
  | float (x : F)
  | bool (b : Bool)
  deriving DecidableEq, Repr

inductive Item (F : Type) where
  | scalar (v : Scalar F)
  | sequence (mutable : Bool) (items : List (Scalar F))
  deriving DecidableEq, Repr

abbrev Item.str {F : Type} (s : Str) : Item F := .scalar (.str s)

/-- What is left to Python: the digits beyond ASCII, the conversions of texts to numbers, the texts
of floats and of sequences, and the value of the text of a list or of a tuple. -/
structure FilterPython (F : Type) extends Interpreter where
  wideDecimal : Char → Bool
  wideDigit : Char → Bool
  toInt : Str → Except PyException Int
  toFloat : Str → Except PyException F
  formatFloat : F → Str
  formatSequence : Bool → List (Scalar F) → Str
  eval : Str → Except PyException (Item F)
  identifier_keyword : ∀ s, identifier s = true → keywords.contains s = false
  identifier_start : ∀ s, identifier s = true → ∃ c rest, s = c :: rest ∧
    (if c.toNat < 128 then c.isDigit else wideDecimal c || wideDigit c) = false
  toInt_digits : ∀ s, s ≠ [] → (∀ c ∈ s, c.isDigit = true) → toInt s = .ok (Nat.ofDigitChars 10 s 0)

namespace LambdaFilter

variable {F : Type}

section characters

variable (py : FilterPython F)

def isDecimal (c : Char) : Bool := if c.toNat < 128 then c.isDigit else py.wideDecimal c

def isDigits (s : Str) : Bool :=
  s ≠ [] && s.all fun c => if c.toNat < 128 then c.isDigit else py.wideDigit c

def isFloat (s : Str) : Bool := s.head?.any (isDecimal py)

/-- The length of a round of the group in `magical_regex`,
`\d+(?:\.\d+)?|\w|"\w+"|'\w+'`; 0 when it does not match. -/
def roundLength : Str → Nat
  | [] => 0
  | c :: rest =>
    if isDecimal py c then
      let digits := ((c :: rest).takeWhile (isDecimal py)).length
      let fraction := (((c :: rest).drop (digits + 1)).takeWhile (isDecimal py)).length
      if ((c :: rest).drop digits).head? = some '.' ∧ fraction ≠ 0 then digits + 1 + fraction else digits
    else if py.isWord c then 1
    else if c = '"' ∨ c = '\'' then
      let word := (rest.takeWhile py.isWord).length
      if word ≠ 0 ∧ (rest.drop word).head? = some c then word + 2 else 0
    else 0

/-- `skip` characters are left of the present round. -/
def wordLength : Nat → Str → Nat
  | _, [] => 0
  | skip + 1, _ :: rest => wordLength skip rest + 1
  | 0, c :: rest =>
    match roundLength py (c :: rest) with
    | 0 => 0
    | n + 1 => wordLength n rest + 1

def matchLength (s : Str) : Nat :=
  match wordLength py 0 s, s with
  | 0, c :: _ => if py.isSpace c ∨ py.isWord c then 0 else 1
  | n, _ => n

def findallFrom : Nat → Str → List Str
  | _, [] => []
  | skip + 1, _ :: rest => findallFrom skip rest
  | 0, c :: rest =>
    match matchLength py (c :: rest) with
    | 0 => findallFrom 0 rest
    | n + 1 => (c :: rest.take n) :: findallFrom n rest

def findall (s : Str) : List Str := findallFrom py 0 s

end characters

/-- The first line of the source of a function, and the variables that it captures. -/
structure Lambda (F : Type) where
  source : Str
  captured : List (Str × Item F)

def funcToStr (source : Str) : List Str × Str :=
  let s := slice (firstIndex "lambda".toList source) (lastIndex ',' source) source
  let colon := firstIndex [':'] s
  (((slice 7 colon s).filter (· ≠ ' ')).splitOn ',', eraseAll "\\n".toList (s.drop (colon + 1).toNat))

def mergeToken (simplified : List Str) (elem : Str) : List Str :=
  match simplified with
  | [] => [elem]
  | last :: done =>
    if elem = ['='] ∧ last = ['='] then last :: done
    else if elem = ['='] ∧ (last = ['<'] ∨ last = ['>']) then (last ++ ['=']) :: done
    else if last.getLast? = some '.' then (last ++ elem) :: done
    else if elem = ['.'] then (last ++ elem) :: done
    else elem :: last :: done

def simplify (tokens : List Str) : List Str := (tokens.foldl mergeToken []).reverse

def Item.length : Item F → Except PyException Nat
  | .scalar (.str s) => .ok s.length
  | .sequence _ items => .ok items.length
  | .scalar (.int _) => .error ⟨"TypeError", "object of type 'int' has no len()".toList⟩
  | .scalar (.float _) => .error ⟨"TypeError", "object of type 'float' has no len()".toList⟩
  | .scalar (.bool _) => .error ⟨"TypeError", "object of type 'bool' has no len()".toList⟩

def Item.addParens : Item F → Except PyException (Item F)
  | .scalar (.str s) => .ok (.str (s ++ "()".toList))
  | .sequence true items => .ok (.sequence true (items ++ [.str ['('], .str [')']]))
  | .sequence false _ =>
    .error ⟨"TypeError", "can only concatenate tuple (not \"str\") to tuple".toList⟩
  | .scalar _ => .error ⟨"TypeError", "unsupported operand type(s) for +=".toList⟩

/-- Where the loop that combines lists and tuples is: after an empty tuple the next element is not
looked at. -/
inductive Scan where
  | plain
  | skipping
  | bracket (group : List Str)
  | paren (group : List Str)

/-- The loop that combines lists and tuples; `suffix` is for the last element of all. -/
def combineFrom (py : FilterPython F) (suffix : Str) :
    Scan → List (Item F) → List Str → Except PyException (List (Item F))
  | .plain, done, [] => .ok done.reverse
  | .skipping, done, [] => .ok done.reverse
  | .bracket _, _, [] => .error ⟨"ValueError", "']' is not in list".toList⟩
  | .paren _, _, [] => .error ⟨"ValueError", "')' is not in list".toList⟩
  | .plain, done, elem :: rest =>
    let elem := if rest = [] then elem ++ suffix else elem
    if elem = ['['] then combineFrom py suffix (.bracket [elem]) done rest
    else if elem = ['('] then combineFrom py suffix (.paren [elem]) done rest
    else combineFrom py suffix .plain (.str elem :: done) rest
  | .skipping, done, elem :: rest =>
    let elem := if rest = [] then elem ++ suffix else elem
    combineFrom py suffix .plain (.str elem :: done) rest
  | .bracket group, done, elem :: rest =>
    let elem := if rest = [] then elem ++ suffix else elem
    if elem = [']'] then do
      let joined ← py.eval (group ++ [elem]).flatten
      combineFrom py suffix .plain (joined :: done) rest
    else combineFrom py suffix (.bracket (group ++ [elem])) done rest
  | .paren group, done, elem :: rest =>
    let elem := if rest = [] then elem ++ suffix else elem
    if elem = [')'] then do
      let joinedTuple ← py.eval (group ++ [elem]).flatten
      let n ← Item.length joinedTuple
      if 0 < n then combineFrom py suffix .plain (joinedTuple :: done) rest
      else match done with
        | previous :: done => do
          let previous ← Item.addParens previous
          combineFrom py suffix .skipping (previous :: done) rest
        | [] =>
          -- the element before the first one is the last one
          if rest = [] then .error ⟨"IndexError", "list index out of range".toList⟩
          else combineFrom py (suffix ++ "()".toList) .skipping [] rest
    else combineFrom py suffix (.paren (group ++ [elem])) done rest

def combine (py : FilterPython F) (tokens : List Str) : Except PyException (List (Item F)) :=
  combineFrom py [] .plain [] tokens

def substitVar (py : FilterPython F) (funcVars : List Str) (dictv : List (Str × Item F)) :
    Item F → Except PyException (Item F)
  | .sequence mutable items => .ok (.sequence mutable items)
  | .scalar (.int n) => .ok (.scalar (.int n))
  | .scalar (.bool b) => .ok (.scalar (.bool b))
  | .scalar (.float _) => .error ⟨"TypeError", "expected string or bytes-like object".toList⟩
  | .scalar (.str elem) =>
    if elem ≠ "in".toList ∧ elem.head?.all (fun c => py.isSpace c || py.isWord c) ∧ isDigits py elem = false then
      let elemVar := elem.takeWhile (· ≠ '.')
      if elem.contains '.' ∧ elemVar ≠ [] then
        if funcVars.contains elemVar then .ok (.str (elem.drop (elemVar.length + 1)))
        else match dictv.lookup (elem.drop elemVar.length) with
          | none => .ok (.str elem)
          | some _ => .ok ((dictv.lookup elem).getD (.str elem))
      else .ok ((dictv.lookup elem).getD (.str elem))
    else .ok (.str elem)

/-- One round of the loop that guesses types in `transform_to_correct_type`. -/
def correctType [DecidableEq F] (py : FilterPython F) (dictv : List (Str × Item F)) :
    Item F → Except PyException (Item F)
  | .scalar (.str value) =>
    if value.contains '"' then .ok (.str (value.filter (· ≠ '"')))
    else if value.contains '\'' then .ok (.str (value.filter (· ≠ '\'')))
    else if isDigits py value ∧ (dictv.map Prod.snd).contains (.str value) = false then
      (py.toInt value).map fun n => .scalar (.int n)
    else if isFloat py value ∧ (dictv.map Prod.snd).contains (.str value) = false then
      (py.toFloat value).map fun x => .scalar (.float x)
    else if value = "True".toList then .ok (.scalar (.bool true))
    else if value = "False".toList then .ok (.scalar (.bool false))
    else .ok (.str value)
  | value => .ok value

def reverseComparison : List (Str × Str) :=
  [(">=", "<="), ("<=", ">="), (">", "<"), ("<", ">")].map fun e => (e.1.toList, e.2.toList)

def startsWithValue (py : FilterPython F) : Item F → Bool
  | .scalar (.str s) => isDigits py s
  | .scalar (.int _) => true
  | .scalar (.bool _) => true
  | _ => false

def reverseAux (aux : List (Item F)) : Except PyException (List (Item F)) :=
  match aux.reverse with
  | first :: second :: rest =>
    match second with
    | .scalar (.str op) =>
      match reverseComparison.lookup op with
      | some reversed => .ok (first :: .str reversed :: rest)
      | none => .error ⟨"KeyError", op⟩
    | .sequence true _ => .error ⟨"TypeError", "unhashable type: 'list'".toList⟩
    | _ => .error ⟨"KeyError", []⟩
  | _ => .error ⟨"IndexError", "list index out of range".toList⟩

def transformPiece [DecidableEq F] (py : FilterPython F) (dictv : List (Str × Item F)) (piece : List (Item F)) :
    Except PyException (List (Item F)) := do
  let aux ← piece.mapM (correctType py dictv)
  match aux with
  | [] => throw ⟨"IndexError", "list index out of range".toList⟩
  | first :: _ => if startsWithValue py first then reverseAux aux else return aux

def isAnd : Item F → Bool
  | .scalar (.str s) => s = "and".toList
  | _ => false

def parseLambda [DecidableEq F] (py : FilterPython F) (func : Lambda F) :
    Except PyException (List (List (Item F))) := do
  let (funcVars, cleanString) := funcToStr func.source
  let simplifiedFilter ← combine py (simplify (findall py cleanString))
  let finalList ← (simplifiedFilter.splitOnP isAnd).mapM fun sublist =>
    sublist.mapM (substitVar py funcVars func.captured)
  finalList.mapM (transformPiece py func.captured)

inductive Condition (F : Type) where
  | comp (col op : Str) (value : Item F)
  | inside (col : Str) (values : List (Scalar F))
  deriving DecidableEq, Repr

section query

def intText : Int → Str
  | .ofNat n => Nat.toDigits 10 n
  | .negSucc n => '-' :: Nat.toDigits 10 (n + 1)

/-- A value in the text of the query; the texts of `str` are put between quotes as they are. -/
def scalarText (py : FilterPython F) : Scalar F → Str
  | .str s => '\'' :: s ++ ['\'']
  | .int n => intText n
  | .float x => py.formatFloat x
  | .bool b => if b then "True".toList else "False".toList

end query

structure FilteredDict where
  primaryKeys : List Str
  columns : List Str

def comp (d : FilteredDict) (col : Item F) (op : Str) (value : Item F) : Except PyException (Condition F) :=
  match col with
  | .scalar (.str name) =>
    if (d.columns ++ d.primaryKeys).contains name then .ok (.comp name op value)
    else .error ⟨"Exception", "Wrong column.".toList⟩
  | _ => .error ⟨"Exception", "Wrong column.".toList⟩

def iterated : Item F → Except PyException (List (Scalar F))
  | .scalar (.str s) => .ok (s.map fun c => .str [c])
  | .sequence _ items => .ok items
  | .scalar (.int _) => .error ⟨"TypeError", "'int' object is not iterable".toList⟩
  | .scalar (.float _) => .error ⟨"TypeError", "'float' object is not iterable".toList⟩
  | .scalar (.bool _) => .error ⟨"TypeError", "'bool' object is not iterable".toList⟩

def inside (d : FilteredDict) (col values : Item F) : Except PyException (Condition F) :=
  match col with
  | .scalar (.str name) =>
    if d.primaryKeys.contains name then (iterated values).map (.inside name)
    else .error ⟨"Exception", "Column not in primary key.".toList⟩
  | _ => .error ⟨"Exception", "Column not in primary key.".toList⟩

def comparators : List Str := [">", "<", "=", ">=", "<="].map String.toList

def addExpression (d : FilteredDict) : List (Item F) → Except PyException (Condition F)
  | col :: .scalar (.str op) :: rest =>
    if comparators.contains op then
      match rest with
      | value :: _ => comp d col op value
      | [] => .error ⟨"IndexError", "list index out of range".toList⟩
    else if op = "in".toList then
      match rest with
      | values :: _ => inside d col values
      | [] => .error ⟨"IndexError", "list index out of range".toList⟩
    else .error ⟨"Exception", "Bad expression.".toList⟩
  | _ :: _ :: _ => .error ⟨"Exception", "Bad expression.".toList⟩
  | _ => .error ⟨"IndexError", "list index out of range".toList⟩

/-- `hfilter` on a StorageDict without index, up to the query. -/
def hfilter [DecidableEq F] (py : FilterPython F) (d : FilteredDict) (func : Lambda F) :
    Except PyException (List (Condition F)) := do
  let parsedLambda ← parseLambda py func
  parsedLambda.mapM (addExpression d)

end LambdaFilter

end Hecuba
