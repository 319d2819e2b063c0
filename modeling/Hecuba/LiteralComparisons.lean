import Hecuba.LambdaMeaning
import Hecuba.LiteralTokens

/-! Comparisons of a column with a literal or with a captured variable, on the line of a lambda. -/

namespace Hecuba

namespace LambdaFilter

variable {F : Type}

def IsBlank (c : Char) : Prop := c = ' ' ∨ c = '\t'

instance (c : Char) : Decidable (IsBlank c) := inferInstanceAs (Decidable (_ ∨ _))

/-- What may stand between the words of a line. -/
structure Blanks where
  text : Str
  blank : ∀ c ∈ text, IsBlank c

/-- The signs before a number. -/
structure Signs where
  text : Str
  sign : ∀ c ∈ text, c = '+' ∨ c = '-' ∨ IsBlank c

def Signs.symbols (s : Signs) : Str := s.text.filter fun c => c = '+' || c = '-'

def Signs.negative (s : Signs) : Bool := s.symbols.count '-' % 2 = 1

/-- An integer in any of its notations; what the digits stand for in the others is left to Python. -/
structure IntegerLiteral where
  signs : Signs
  number : IntegerText
  magnitude : Nat
  magnitude_digits : (∀ c ∈ number.text, c.isDigit = true) → magnitude = Nat.ofDigitChars 10 number.text 0

def IntegerLiteral.text (l : IntegerLiteral) : Str := l.signs.text ++ l.number.text

def IntegerLiteral.value (l : IntegerLiteral) : Int := if l.signs.negative then -l.magnitude else l.magnitude

/-- The sign and the digits of an exponent that has a sign. -/
structure Exponent where
  negative : Bool
  digits : IntegerText

def Exponent.text (e : Exponent) : Str := (if e.negative then '-' else '+') :: e.digits.text

/-- A decimal number, which has a point or an exponent. Python reads its text alone as it does in
the source, and does not read it up to the sign of the exponent. -/
structure DecimalLiteral (py : FilterPython F) where
  signs : Signs
  number : Str
  exponent : Option Exponent
  magnitude : F
  negated : F
  dotted : ∀ c ∈ number, IsWordChar c ∨ c = '.'
  start : (if number.head? = some '.' then number.tail else number).head?.any Char.isDigit = true
  decimal : ∃ c ∈ number, c.isDigit = false
  mark : exponent ≠ none → number.getLast? = some 'e' ∨ number.getLast? = some 'E'
  toFloat_number : exponent = none → py.toFloat number = .ok magnitude
  toFloat_unfinished : exponent ≠ none → (py.toFloat number).toOption = none

section decimal

variable {py : FilterPython F}

def DecimalLiteral.exponentText (l : DecimalLiteral py) : Str := (l.exponent.map Exponent.text).getD []

def DecimalLiteral.text (l : DecimalLiteral py) : Str := l.signs.text ++ l.number ++ l.exponentText

def DecimalLiteral.value (l : DecimalLiteral py) : F := if l.signs.negative then l.negated else l.magnitude

end decimal

/-- A text between two quotes, in which the quote stands only behind a backslash; what else a
backslash makes of the characters behind it is left to Python. -/
structure StringLiteral where
  quote : Char
  content : Str
  value : Str
  quote_eq : quote = '"' ∨ quote = '\''
  closed : (quote :: content).IsChain fun a b => b = quote → a = '\\'
  value_plain : '\\' ∉ content → value = content

def StringLiteral.text (s : StringLiteral) : Str := s.quote :: s.content ++ [s.quote]

/-- What `func_to_str` leaves of the text between the quotes. -/
def StringLiteral.cleaned (s : StringLiteral) : Str := eraseAll "\\n".toList s.content

inductive Operand (py : FilterPython F) where
  | integer (l : IntegerLiteral)
  | decimal (l : DecimalLiteral py)
  | boolean (b : Bool)
  | string (s : StringLiteral)
  | captured (name : Name py) (value : Scalar F)

section operands

variable {py : FilterPython F}

def Operand.text : Operand py → Str
  | integer l => l.text
  | decimal l => l.text
  | boolean b => if b then "True".toList else "False".toList
  | string s => s.text
  | captured v _ => v.text

def Operand.value : Operand py → Scalar F
  | integer l => .int l.value
  | decimal l => .float l.value
  | boolean b => .bool b
  | string s => .str s.value
  | captured _ value => value

/-- The captured variables are those of the lambda. -/
def Operand.CapturedBy (func : Lambda F) : Operand py → Prop
  | captured v value => func.captured.lookup v.text = some (.scalar value)
  | _ => True

/-- One comparison; the operand may come before the operator or after it. -/
structure LiteralComparison (py : FilterPython F) where
  column : Name py
  op : CompareOp
  operand : Operand py
  operandFirst : Bool
  lead : Blanks
  before : Blanks
  after : Blanks
  trail : Blanks
  compares : op ≠ .isIn

/-- The line of a call such as `filter(lambda x: x.a == 1, d)`, around the body of the lambda. -/
structure FilterLine (py : FilterPython F) where
  before : Str
  row : Name py
  after : Str
  captured : List (Name py × Item F)
  first_lambda : firstIndex "lambda".toList (before ++ "lambda".toList) = before.length
  last_comma : ',' ∉ after

def CompareOp.text (op : CompareOp) : Str := op.tokens.flatten

/-- The text of a comparison with an operand of this text. -/
def LiteralComparison.textOf (row : Name py) (c : LiteralComparison py) (operand : Str) : Str :=
  let op := c.before.text ++ (c.op.text ++ c.after.text)
  if c.operandFirst then c.lead.text ++ (operand ++ (op ++ (columnText row c.column ++ c.trail.text)))
  else c.lead.text ++ (columnText row c.column ++ (op ++ (operand ++ c.trail.text)))

def LiteralComparison.text (row : Name py) (c : LiteralComparison py) : Str := c.textOf row c.operand.text

def FilterLine.func (line : FilterLine py) (body : Str) : Lambda F where
  source := line.before ++ ("lambda ".toList ++ (line.row.text ++ ':' :: (body ++ ',' :: line.after)))
  captured := line.captured.map fun e => (e.1.text, e.2)

/-- The operator of the column with the operand. -/
def LiteralComparison.oriented (c : LiteralComparison py) : CompareOp := if c.operandFirst then c.op.flipped else c.op

/-- Between quotes as it is, a text stands for itself in the query only without quotes of that kind. -/
def IsConstant : Scalar F → Prop
  | .str s => '\'' ∉ s
  | _ => True

/-- The filter raises, or its only condition is the comparison, with the value of the operand. -/
def LiteralComparison.Kept [DecidableEq F] (d : FilteredDict) (line : FilterLine py) (c : LiteralComparison py) : Prop :=
  ∀ conditions, hfilter py d (line.func (c.text line.row)) = .ok conditions →
    (∃ op, c.oriented.comparator = some op ∧ conditions = [.comp c.column.text op (.scalar c.operand.value)]) ∧
      IsConstant c.operand.value

end operands

end LambdaFilter

end Hecuba
