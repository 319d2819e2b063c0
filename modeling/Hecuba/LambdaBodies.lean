import Hecuba.LambdaFilter

/-! Bodies of lambdas that compare columns with integers, and their tokens. -/

namespace Hecuba

namespace LambdaFilter

variable {F : Type}

/-- The text of an integer literal. -/
structure IntegerText where
  text : Str
  word : ∀ c ∈ text, IsWordChar c
  digit : text.head?.any Char.isDigit = true

inductive UnaryOp where
  | pos
  | neg
  | invert
  deriving DecidableEq, Repr

def UnaryOp.symbol : UnaryOp → Str
  | .pos => ['+']
  | .neg => ['-']
  | .invert => ['~']

inductive BinaryOp where
  | add
  | sub
  | mul
  | div
  | floorDiv
  | mod
  | and
  | or
  | xor
  | shiftLeft
  | shiftRight
  deriving DecidableEq, Repr

/-- Each character of an operator is a token. -/
def BinaryOp.tokens : BinaryOp → List Str
  | .add => [['+']]
  | .sub => [['-']]
  | .mul => [['*']]
  | .div => [['/']]
  | .floorDiv => [['/'], ['/']]
  | .mod => [['%']]
  | .and => [['&']]
  | .or => [['|']]
  | .xor => [['^']]
  | .shiftLeft => [['<'], ['<']]
  | .shiftRight => [['>'], ['>']]

/-- Arithmetic of integer literals. Only its tokens count, which do not say what binds tighter. -/
inductive Arith where
  | number (n : IntegerText)
  | unary (op : UnaryOp) (a : Arith)
  | binary (a : Arith) (op : BinaryOp) (b : Arith)
  | power (a : Arith) (n : IntegerText)
  | paren (a : Arith)

namespace Arith

def tokens : Arith → List Str
  | number n => [n.text]
  | unary op a => op.symbol :: a.tokens
  | binary a op b => a.tokens ++ op.tokens ++ b.tokens
  | power a n => a.tokens ++ [['*'], ['*'], n.text]
  | paren a => ['('] :: a.tokens ++ [[')']]

/-- The text without blanks. -/
def text (a : Arith) : Str := a.tokens.flatten

/-- No parenthesis. -/
def bare : Arith → Bool
  | number _ => true
  | unary _ a => a.bare
  | binary a _ b => a.bare && b.bare
  | power a _ => a.bare
  | paren _ => false

def numbers : Arith → List IntegerText
  | number n => [n]
  | unary _ a => a.numbers
  | binary a _ b => a.numbers ++ b.numbers
  | power a n => a.numbers ++ [n]
  | paren a => a.numbers

/-- The token it starts with, if there is no parenthesis. -/
def first : Arith → UnaryOp ⊕ IntegerText
  | number n => .inr n
  | unary op _ => .inl op
  | binary a _ _ => a.first
  | power a _ => a.first
  | paren a => a.first

def last : Arith → IntegerText
  | number n => n
  | unary _ a => a.last
  | binary _ _ b => b.last
  | power _ n => n
  | paren a => a.last

/-- The tokens of arithmetic that are no literals, the parentheses aside. -/
def symbols : List Str :=
  [['+'], ['-'], ['~'], ['*'], ['/'], ['%'], ['&'], ['|'], ['^'], ['<'], ['>']]

end Arith

theorem UnaryOp.symbol_mem (op : UnaryOp) : op.symbol ∈ Arith.symbols := by
  cases op <;> decide

theorem BinaryOp.tokens_mem (op : BinaryOp) : ∀ t ∈ op.tokens, t ∈ Arith.symbols := by
  cases op <;> decide

section arith

variable {p : Str → Prop}

theorem Arith.forall_mem_tokens (hnumber : ∀ n : IntegerText, p n.text) (hsymbol : ∀ t ∈ symbols, p t)
    (hparen : p ['('] ∧ p [')']) (a : Arith) : ∀ t ∈ a.tokens, p t := by
  induction a with
  | number n => simpa [tokens] using hnumber n
  | unary op a ih => simpa [tokens, hsymbol _ op.symbol_mem] using ih
  | binary a op b iha ihb =>
    simp only [tokens, List.mem_append]
    rintro t ((ht | ht) | ht)
    · exact iha t ht
    · exact hsymbol t (op.tokens_mem t ht)
    · exact ihb t ht
  | power a n ih =>
    have hstar := hsymbol ['*'] (by decide)
    simpa [tokens, or_imp, forall_and, hnumber, hstar] using ih
  | paren a ih => simpa [tokens, or_imp, forall_and, hparen] using ih

theorem Arith.forall_mem_tokens_of_bare (hnumber : ∀ n : IntegerText, p n.text) (hsymbol : ∀ t ∈ symbols, p t)
    {a : Arith} (h : a.bare = true) : ∀ t ∈ a.tokens, p t := by
  induction a with
  | number n => simpa [tokens] using hnumber n
  | unary op a ih => simpa [tokens, hsymbol _ op.symbol_mem] using ih h
  | binary a op b iha ihb =>
    obtain ⟨ha, hb⟩ := Bool.and_eq_true_iff.mp h
    simp only [tokens, List.mem_append]
    rintro t ((ht | ht) | ht)
    · exact iha ha t ht
    · exact hsymbol t (op.tokens_mem t ht)
    · exact ihb hb t ht
  | power a n ih =>
    have hstar := hsymbol ['*'] (by decide)
    simpa [tokens, or_imp, forall_and, hnumber, hstar] using ih h
  | paren a _ => exact absurd h (by simp [bare])

end arith

theorem IntegerText.not_mem (n : IntegerText) {c : Char} (hc : ¬ IsWordChar c) : c ∉ n.text := fun h => hc (n.word c h)

inductive CompareOp where
  | eq
  | ne
  | lt
  | le
  | gt
  | ge
  | isIn
  deriving DecidableEq, Repr

def CompareOp.tokens : CompareOp → List Str
  | .eq => [['='], ['=']]
  | .ne => [['!'], ['=']]
  | .lt => [['<']]
  | .le => [['<'], ['=']]
  | .gt => [['>']]
  | .ge => [['>'], ['=']]
  | .isIn => [['i', 'n']]

/-- The tokens that the loop of `parse_lambda` leaves. -/
def CompareOp.simplified : CompareOp → List Str
  | .eq => [['=']]
  | .ne => [['!'], ['=']]
  | .lt => [['<']]
  | .le => [['<', '=']]
  | .gt => [['>']]
  | .ge => [['>', '=']]
  | .isIn => [['i', 'n']]

/-- A name that the regular expression takes whole. -/
structure Name (py : FilterPython F) where
  text : Str
  identifier : py.identifier text = true
  word : ∀ c ∈ text, py.isWord c = true

inductive Comparison (py : FilterPython F) where
  | left (column : Name py) (op : CompareOp) (a : Arith)
  | right (a : Arith) (op : CompareOp) (column : Name py)
  | inList (column : Name py) (items : List Arith)
  | inTuple (column : Name py) (items : List Arith)

inductive Body (py : FilterPython F) where
  | comparison (c : Comparison py)
  | not (a : Body py)
  | and (a b : Body py)
  | or (a b : Body py)
  | paren (a : Body py)

/-- What a body is a sequence of. -/
inductive Elem (py : FilterPython F) where
  | comparison (c : Comparison py)
  | not
  | and
  | or
  | opening
  | closing

/-- How tight an operand has to bind. -/
inductive Level where
  | disjunction
  | conjunction
  | negation
  deriving DecidableEq, Repr

section tokens

variable {py : FilterPython F}

def Body.elems : Body py → Level → List (Elem py)
  | comparison c, _ => [.comparison c]
  | not a, _ => .not :: a.elems .negation
  | and a b, level => wrap (level = .negation) (a.elems .conjunction ++ .and :: b.elems .conjunction)
  | or a b, level => wrap (level ≠ .disjunction) (a.elems .disjunction ++ .or :: b.elems .disjunction)
  | paren a, _ => wrap true (a.elems .disjunction)
where
  wrap (needed : Bool) (l : List (Elem py)) : List (Elem py) :=
    if needed then .opening :: l ++ [.closing] else l

/-- The items of a list or of a tuple, with a comma between any two. -/
def separated (items : List Arith) : List Str := [[',']].intercalate (items.map Arith.tokens)

def listTokens (items : List Arith) : List Str := ['['] :: separated items ++ [[']']]

/-- A tuple of one item ends with a comma. -/
def tupleContent : List Arith → List Str
  | [a] => a.tokens ++ [[',']]
  | items => separated items

def tupleTokens (items : List Arith) : List Str := ['('] :: tupleContent items ++ [[')']]

def columnTokens (row column : Name py) : List Str := [row.text, ['.'], column.text]

def columnText (row column : Name py) : Str := row.text ++ '.' :: column.text

def Comparison.tokens (row : Name py) : Comparison py → List Str
  | left column op a => columnTokens row column ++ op.tokens ++ a.tokens
  | right a op column => a.tokens ++ op.tokens ++ columnTokens row column
  | inList column items => columnTokens row column ++ CompareOp.isIn.tokens ++ listTokens items
  | inTuple column items => columnTokens row column ++ CompareOp.isIn.tokens ++ tupleTokens items

def Comparison.simplified (row : Name py) : Comparison py → List Str
  | left column op a => columnText row column :: op.simplified ++ a.tokens
  | right a op column => a.tokens ++ op.simplified ++ [columnText row column]
  | inList column items => columnText row column :: ['i', 'n'] :: listTokens items
  | inTuple column items => columnText row column :: ['i', 'n'] :: tupleTokens items

def Elem.tokens (row : Name py) : Elem py → List Str
  | comparison c => c.tokens row
  | not => [['n', 'o', 't']]
  | and => [['a', 'n', 'd']]
  | or => [['o', 'r']]
  | opening => [['(']]
  | closing => [[')']]

def Elem.simplified (row : Name py) : Elem py → List Str
  | comparison c => c.simplified row
  | e => e.tokens row

/-- The tokens of a body in a lambda of `row`. -/
def Body.tokens (row : Name py) (b : Body py) : List Str := (b.elems .disjunction).flatMap (Elem.tokens row)

end tokens

section simplify

/-- The loop, on `tokens` after a list with `P`, adds `simplified` and leaves a list with `Q`. -/
def Simplifies (P Q : List Str → Prop) (tokens simplified : List Str) : Prop :=
  ∀ acc, P acc → tokens.foldl mergeToken acc = simplified.reverse ++ acc ∧ Q (simplified.reverse ++ acc)

theorem Simplifies.append {P Q R : List Str → Prop} {l l' m m' : List Str} (h : Simplifies P Q l m)
    (h' : Simplifies Q R l' m') : Simplifies P R (l ++ l') (m ++ m') := by
  intro acc hacc
  obtain ⟨hl, hq⟩ := h acc hacc
  obtain ⟨hl', hr⟩ := h' _ hq
  simp only [List.foldl_append, List.reverse_append, List.append_assoc]
  exact ⟨hl ▸ hl', hr⟩

theorem Simplifies.mono {P P' Q Q' : List Str → Prop} {l m : List Str} (h : Simplifies P Q l m)
    (hp : ∀ acc, P' acc → P acc) (hq : ∀ acc, Q acc → Q' acc) : Simplifies P' Q' l m :=
  fun acc hacc => ⟨(h acc (hp acc hacc)).1, hq _ (h acc (hp acc hacc)).2⟩

/-- The last token does not go on with the next one that is no `=`. -/
def Undotted (acc : List Str) : Prop := ∀ t ∈ acc.head?, t.getLast? ≠ some '.'

/-- The last token does not go on with the next one. -/
def Complete (acc : List Str) : Prop :=
  ∀ t ∈ acc.head?, t.getLast? ≠ some '.' ∧ t ≠ ['='] ∧ t ≠ ['<'] ∧ t ≠ ['>']

theorem Complete.undotted {acc : List Str} (h : Complete acc) : Undotted acc := fun t ht => (h t ht).1

theorem undotted_cons {t : Str} {acc : List Str} : Undotted (t :: acc) ↔ t.getLast? ≠ some '.' := by
  simp [Undotted]

theorem complete_cons {t : Str} {acc : List Str} :
    Complete (t :: acc) ↔ t.getLast? ≠ some '.' ∧ t ≠ ['='] ∧ t ≠ ['<'] ∧ t ≠ ['>'] := by
  simp [Complete]

theorem mergeToken_push {t : Str} {acc : List Str} (h : Undotted acc) (ht : t ≠ ['=']) (hdot : t ≠ ['.']) :
    mergeToken acc t = t :: acc := by
  cases acc with
  | nil => rfl
  | cons last done => simp [mergeToken, ht, hdot, undotted_cons.mp h]

theorem simplifies_symbol {t : Str} (ht : t ≠ ['=']) (hdot : t.getLast? ≠ some '.') :
    Simplifies Undotted Undotted [t] [t] := by
  intro acc hacc
  have hdot' : t ≠ ['.'] := fun h => hdot (by simp [h])
  simp [mergeToken_push hacc ht hdot', undotted_cons, hdot]

theorem simplifies_token {t : Str} (ht : t ≠ ['='] ∧ t ≠ ['<'] ∧ t ≠ ['>']) (hdot : t.getLast? ≠ some '.') :
    Simplifies Undotted Complete [t] [t] := by
  intro acc hacc
  have hdot' : t ≠ ['.'] := fun h => hdot (by simp [h])
  simp [mergeToken_push hacc ht.1 hdot', complete_cons, hdot, ht]

theorem simplifies_nil : Simplifies Complete Complete [] [] := fun _ hacc => ⟨rfl, hacc⟩

theorem word_token {t : Str} {p : Char → Bool} (h : ∀ c ∈ t, p c = true)
    (hp : p '.' = false ∧ p '=' = false ∧ p '<' = false ∧ p '>' = false) :
    (t ≠ ['='] ∧ t ≠ ['<'] ∧ t ≠ ['>']) ∧ t.getLast? ≠ some '.' := by
  have hne : ∀ c, p c = false → c ∉ t := fun c hc hmem => by simp [h c hmem] at hc
  refine ⟨⟨?_, ?_, ?_⟩, fun hlast => hne _ hp.1 (List.mem_of_getLast? hlast)⟩
  · exact fun ht => hne _ hp.2.1 (by simp [ht])
  · exact fun ht => hne _ hp.2.2.1 (by simp [ht])
  · exact fun ht => hne _ hp.2.2.2 (by simp [ht])

variable {py : FilterPython F}

theorem isWord_symbols (py : FilterPython F) :
    py.isWord '.' = false ∧ py.isWord '=' = false ∧ py.isWord '<' = false ∧ py.isWord '>' = false :=
  ⟨rfl, rfl, rfl, rfl⟩

theorem IntegerText.token (n : IntegerText) :
    (n.text ≠ ['='] ∧ n.text ≠ ['<'] ∧ n.text ≠ ['>']) ∧ n.text.getLast? ≠ some '.' :=
  word_token (p := fun c => decide (IsWordChar c)) (fun c hc => by simpa using n.word c hc) (by decide)

theorem Name.token (n : Name py) : (n.text ≠ ['='] ∧ n.text ≠ ['<'] ∧ n.text ≠ ['>']) ∧ n.text.getLast? ≠ some '.' :=
  word_token n.word (isWord_symbols py)

theorem IntegerText.simplifies (n : IntegerText) : Simplifies Undotted Complete [n.text] [n.text] :=
  simplifies_token n.token.1 n.token.2

theorem BinaryOp.simplifies (op : BinaryOp) : Simplifies Complete Undotted op.tokens op.tokens := by
  have one (c : Char) (h : c ≠ '=' ∧ c ≠ '.') : Simplifies Undotted Undotted [[c]] [[c]] :=
    simplifies_symbol (by simp [h.1]) (by simp [h.2])
  have two (c : Char) (h : c ≠ '=' ∧ c ≠ '.') : Simplifies Undotted Undotted [[c], [c]] [[c], [c]] :=
    (one c h).append (one c h)
  cases op <;>
    first
    | exact (one _ (by decide)).mono (fun _ => Complete.undotted) fun _ h => h
    | exact (two _ (by decide)).mono (fun _ => Complete.undotted) fun _ h => h

theorem Arith.simplifies (a : Arith) : Simplifies Undotted Complete a.tokens a.tokens := by
  have symbol (t : Str) (ht : t ≠ ['=']) (hdot : t.getLast? ≠ some '.') := simplifies_symbol ht hdot
  induction a with
  | number n => exact n.simplifies
  | unary op a ih => exact (symbol op.symbol (by cases op <;> decide) (by cases op <;> decide)).append ih
  | binary a op b iha ihb => exact (iha.append op.simplifies).append ihb
  | power a n ih =>
    have star := symbol ['*'] (by decide) (by decide)
    have stars := ((star.mono (fun _ => Complete.undotted) fun _ h => h).append star).append n.simplifies
    exact ih.append stars
  | paren a ih =>
    have opened := (symbol ['('] (by decide) (by decide)).append ih
    exact opened.append ((simplifies_token (by decide) (by decide)).mono (fun _ => Complete.undotted) fun _ h => h)

theorem Name.ne_nil (n : Name py) : n.text ≠ [] := by
  obtain ⟨c, rest, h, -⟩ := py.identifier_start n.text n.identifier
  simp [h]

theorem columnText_getLast? (row column : Name py) : (columnText row column).getLast? = column.text.getLast? := by
  have hne := column.ne_nil
  simp [columnText, List.getLast?_append, List.getLast?_cons, List.getLast?_eq_getLast_of_ne_nil hne]

theorem columnText_ne (row column : Name py) (c : Char) : columnText row column ≠ [c] := by
  have hrow := List.length_pos_of_ne_nil row.ne_nil
  have hcol := List.length_pos_of_ne_nil column.ne_nil
  intro h
  have hlen := congrArg List.length h
  simp only [columnText, List.length_append, List.length_cons, List.length_nil] at hlen
  omega

theorem simplifies_column (row column : Name py) :
    Simplifies Undotted Complete (columnTokens row column) [columnText row column] := by
  intro acc hacc
  have hrow : mergeToken acc row.text = row.text :: acc :=
    mergeToken_push hacc row.token.1.1 fun h => row.token.2 (by simp [h])
  have hdot : mergeToken (row.text :: acc) ['.'] = (row.text ++ ['.']) :: acc := by
    simp [mergeToken, row.token.2]
  have hcol : mergeToken ((row.text ++ ['.']) :: acc) column.text = columnText row column :: acc := by
    simp [mergeToken, column.token.1.1, columnText]
  have hlast := columnText_getLast? row column
  refine ⟨by simp [columnTokens, hrow, hdot, hcol], ?_⟩
  simpa [complete_cons, hlast, column.token.2] using
    ⟨columnText_ne row column '=', columnText_ne row column '<', columnText_ne row column '>'⟩

/-- After an operand the two tokens of an operator become one. -/
theorem CompareOp.simplifies (op : CompareOp) : Simplifies Complete Undotted op.tokens op.simplified := by
  intro acc hacc
  cases acc with
  | nil => cases op <;> exact ⟨by decide, by simp [Undotted, CompareOp.simplified]⟩
  | cons last done =>
    obtain ⟨hdot, heq, hlt, hgt⟩ := complete_cons.mp hacc
    cases op <;> simp [CompareOp.tokens, CompareOp.simplified, mergeToken, hdot, heq, hlt, hgt, undotted_cons]

theorem simplifies_separated (items : List Arith) :
    Simplifies Undotted Undotted (separated items) (separated items) := by
  have comma : Simplifies Complete Undotted [[',']] [[',']] :=
    (simplifies_symbol (by decide) (by decide)).mono (fun _ => Complete.undotted) fun _ h => h
  have weaken {l : List Str} (h : Simplifies Undotted Complete l l) : Simplifies Undotted Undotted l l :=
    h.mono (fun _ h => h) fun _ => Complete.undotted
  induction items with
  | nil => exact fun acc hacc => ⟨rfl, hacc⟩
  | cons a items ih =>
    cases items with
    | nil => simpa [separated, List.intercalate] using weaken a.simplifies
    | cons b items => simpa [separated, List.intercalate] using (a.simplifies.append comma).append ih

theorem simplifies_tupleContent (items : List Arith) :
    Simplifies Undotted Undotted (tupleContent items) (tupleContent items) := by
  have comma : Simplifies Complete Undotted [[',']] [[',']] :=
    (simplifies_symbol (by decide) (by decide)).mono (fun _ => Complete.undotted) fun _ h => h
  match items with
  | [] => exact simplifies_separated []
  | [a] => exact a.simplifies.append comma
  | a :: b :: items => exact simplifies_separated (a :: b :: items)

theorem Comparison.simplifies (row : Name py) (c : Comparison py) :
    Simplifies Undotted Complete (c.tokens row) (c.simplified row) := by
  have bracket (l r : Char) (content : List Str) (h : Simplifies Undotted Undotted content content)
      (hl : l ≠ '=' ∧ l ≠ '.') (hr : (r ≠ '=' ∧ r ≠ '<' ∧ r ≠ '>') ∧ r ≠ '.') :
      Simplifies Undotted Complete ([l] :: content ++ [[r]]) ([l] :: content ++ [[r]]) := by
    have hopen : Simplifies Undotted Undotted [[l]] [[l]] := simplifies_symbol (by simp [hl.1]) (by simp [hl.2])
    have hclose : Simplifies Undotted Complete [[r]] [[r]] := simplifies_token (by simp [hr.1]) (by simp [hr.2])
    exact (hopen.append h).append hclose
  have isIn (column : Name py) := (simplifies_column row column).append CompareOp.isIn.simplifies
  cases c with
  | left column op a => exact ((simplifies_column row column).append op.simplifies).append a.simplifies
  | right a op column => exact (a.simplifies.append op.simplifies).append (simplifies_column row column)
  | inList column items =>
    exact (isIn column).append (bracket '[' ']' _ (simplifies_separated items) (by decide) (by decide))
  | inTuple column items =>
    exact (isIn column).append (bracket '(' ')' _ (simplifies_tupleContent items) (by decide) (by decide))

theorem Elem.simplifies (row : Name py) (e : Elem py) :
    Simplifies Complete Complete (e.tokens row) (e.simplified row) := by
  have token (t : Str) (ht : t ≠ ['='] ∧ t ≠ ['<'] ∧ t ≠ ['>']) (hdot : t.getLast? ≠ some '.') :
      Simplifies Complete Complete [t] [t] :=
    (simplifies_token ht hdot).mono (fun _ => Complete.undotted) fun _ h => h
  cases e with
  | comparison c => exact (c.simplifies row).mono (fun _ => Complete.undotted) fun _ h => h
  | not => exact token _ (by decide) (by decide)
  | and => exact token _ (by decide) (by decide)
  | or => exact token _ (by decide) (by decide)
  | opening => exact token _ (by decide) (by decide)
  | closing => exact token _ (by decide) (by decide)

theorem simplify_elems (row : Name py) (l : List (Elem py)) :
    simplify (l.flatMap (Elem.tokens row)) = l.flatMap (Elem.simplified row) := by
  have h : Simplifies Complete Complete (l.flatMap (Elem.tokens row)) (l.flatMap (Elem.simplified row)) := by
    induction l with
    | nil => exact simplifies_nil
    | cons e l ih => exact (e.simplifies row).append ih
  have hstart : Complete [] := by simp [Complete]
  simp [simplify, (h [] hstart).1]

end simplify

end LambdaFilter

end Hecuba
