import Hecuba.LambdaGroups

/-! What the filter reads of a body that compares columns with integers. -/

namespace Hecuba

namespace LambdaFilter

variable {F : Type} {py : FilterPython F}

/-- The value that the filter takes a literal for; none when Python refuses its text. -/
def literal (py : FilterPython F) (n : IntegerText) : Option (Scalar F) :=
  if isDigits py n.text then (py.toInt n.text).toOption.map .int else (py.toFloat n.text).toOption.map .float

/-- What is read of arithmetic when it comes after a column. -/
def Arith.firstRead (py : FilterPython F) (a : Arith) : Option (Scalar F) :=
  match a.first with
  | .inl op => some (.str op.symbol)
  | .inr n => literal py n

/-- What is read of arithmetic when it comes before a column. -/
def Arith.lastRead (py : FilterPython F) (a : Arith) : Option (Scalar F) := literal py a.last

def Arith.readable (py : FilterPython F) (a : Arith) : Bool := a.bare && a.numbers.all fun n => (literal py n).isSome

/-- Nothing of an element makes the code raise on the way to the query. -/
def Elem.readable (A : Arithmetic py) : Elem py → Bool
  | comparison (.left _ _ a) => a.readable py
  | comparison (.right a _ _) => a.readable py
  | comparison (.inList _ l) => (A.values l).isSome
  | comparison (.inTuple _ l) => l.all Arith.bare && (A.values l).isSome
  | opening => false
  | closing => false
  | _ => true

/-- The operators that the query takes. -/
def CompareOp.comparator : CompareOp → Option Str
  | .eq => some ['=']
  | .lt => some ['<']
  | .le => some ['<', '=']
  | .gt => some ['>']
  | .ge => some ['>', '=']
  | .ne => none
  | .isIn => none

/-- The operator of the comparison the other way round; the code knows it of four. -/
def CompareOp.reversed : CompareOp → Option Str
  | .lt => some ['>']
  | .le => some ['>', '=']
  | .gt => some ['<']
  | .ge => some ['<', '=']
  | _ => none

def readComp (d : FilteredDict) (col : Str) (op : Option Str) (v : Scalar F) : Option (Condition F) :=
  op.bind fun op => if (d.columns ++ d.primaryKeys).contains col then some (.comp col op (.scalar v)) else none

def readInside (d : FilteredDict) (col : Str) (values : Option (List (Scalar F))) : Option (Condition F) :=
  if d.primaryKeys.contains col then values.map (.inside col) else none

/-- The condition that comes of a piece between `and`s: the comparison at its start, with the first
token of the arithmetic; when the piece starts with a number, the one at its end, with the last. -/
def readPiece (A : Arithmetic py) (d : FilteredDict) (p : List (Elem py)) : Option (Condition F) :=
  if p.all (Elem.readable A) then
    match p.head?, p.getLast? with
    | some (.comparison (.left col .isIn a)), _ =>
      (a.firstRead py).bind fun v => readInside d col.text (iterated (.scalar v)).toOption
    | some (.comparison (.left col op a)), _ => (a.firstRead py).bind fun v => readComp d col.text op.comparator v
    | some (.comparison (.inList col l)), _ => readInside d col.text (A.values l)
    | some (.comparison (.inTuple col l)), _ => if l.isEmpty then none else readInside d col.text (A.values l)
    | some (.comparison (.right a _ _)), some (.comparison (.right b op col)) =>
      match a.firstRead py with
      | some (.int _) => (b.lastRead py).bind fun v => readComp d col.text op.reversed v
      | _ => none
    | _, _ => none
  else none

/-- The conditions that come of a body; none when the code raises. -/
def Body.read (A : Arithmetic py) (d : FilteredDict) (b : Body py) : Option (List (Condition F)) :=
  ((b.elems .disjunction).splitOnP Elem.isAnd).mapM (readPiece A d)

section substituted

theorem substitVar_undotted {t : Str} (h : '.' ∉ t) (vars : List Str) :
    substitVar py vars [] (.str t) = .ok (.str t) := by
  simp [substitVar, h]

theorem Name.not_mem (n : Name py) {c : Char} (h : py.isWord c = false) : c ∉ n.text := fun hc => by
  simp [n.word c hc] at h

theorem substitVar_column (dictv : List (Str × Item F)) (row column : Name py) :
    substitVar py [row.text] dictv (.str (columnText row column)) = .ok (.str column.text) := by
  obtain ⟨c, rest, hrow, -⟩ := py.identifier_start row.text row.identifier
  have hdot : '.' ∉ row.text := row.not_mem (isWord_symbols py).1
  have hhead : py.isWord c = true := row.word c (by simp [hrow])
  have hvar : (columnText row column).takeWhile (· ≠ '.') = row.text := by
    rw [columnText, List.takeWhile_append_of_pos fun a ha => by simpa using fun h : a = '.' => hdot (h ▸ ha)]
    simp
  have hdigits : isDigits py (columnText row column) = false := by
    simp [isDigits, columnText]
  have hin : columnText row column ≠ "in".toList := fun h => by
    have hmem : '.' ∈ columnText row column := by simp [columnText]
    rw [h] at hmem
    simp at hmem
  have hword : (columnText row column).head?.all (fun c => py.isSpace c || py.isWord c) = true := by
    simp [columnText, hrow, hhead]
  have hcontains : (columnText row column).contains '.' = true := by simp [columnText]
  have hdrop : (columnText row column).drop (row.text.length + 1) = column.text := by
    simp [columnText, List.drop_append]
  simp only [substitVar]
  rw [if_pos ⟨hin, hword, hdigits⟩, hvar, if_pos ⟨hcontains, row.ne_nil⟩, hdrop]
  simp

theorem substitVar_tokens {ts : List Str} (h : ∀ t ∈ ts, '.' ∉ t) (vars : List Str) :
    (ts.map Item.str).mapM (substitVar py vars []) = .ok (ts.map Item.str) := by
  have hid : ∀ i ∈ ts.map Item.str, substitVar py vars [] i = .ok (id i) := by
    simpa using fun t ht => substitVar_undotted (h t ht) vars
  simpa using mapM_eq_map hid

theorem Arith.not_mem_tokens (a : Arith) : ∀ t ∈ a.tokens, '.' ∉ t :=
  a.forall_mem_tokens (fun n => n.not_mem (by decide)) (by decide) (by decide)

theorem CompareOp.not_mem_simplified (op : CompareOp) : ∀ t ∈ op.simplified, '.' ∉ t := by
  cases op <;> simp [CompareOp.simplified]

/-- The names of the columns lose the row variable, and nothing else changes. -/
theorem Elem.substituted (A : Arithmetic py) (row : Name py) (e : Elem py) :
    ((e.items A (columnText row)).bind fun g => (g.mapM (substitVar py [row.text] [])).toOption) =
      e.items A Name.text := by
  have hcolumn (column : Name py) := substitVar_column [] row column
  have htoken (t : Str) (h : '.' ∉ t) : substitVar py [row.text] [] (.str t) = .ok (.str t) :=
    substitVar_undotted h [row.text]
  have hseq (m : Bool) (vs : List (Scalar F)) :
      substitVar py [row.text] [] (.sequence m vs) = .ok (.sequence m vs) := rfl
  cases e with
  | comparison c =>
    cases c with
    | left column op a =>
      have htokens : ((op.simplified ++ a.tokens).map Item.str).mapM (substitVar py [row.text] []) = .ok _ :=
        substitVar_tokens (by simpa [or_imp, forall_and] using ⟨op.not_mem_simplified, a.not_mem_tokens⟩) [row.text]
      by_cases h : a.bare
      · simp only [items, Comparison.items, h, if_true, Option.bind_some, List.mapM_cons, hcolumn, htokens]
        rfl
      · simp [items, Comparison.items, h]
    | right a op column =>
      have htokens : ((a.tokens ++ op.simplified).map Item.str).mapM (substitVar py [row.text] []) = .ok _ :=
        substitVar_tokens (by simpa [or_imp, forall_and] using ⟨a.not_mem_tokens, op.not_mem_simplified⟩) [row.text]
      by_cases h : a.bare
      · simp only [items, Comparison.items, h, if_true, Option.bind_some, List.mapM_append, List.mapM_cons, hcolumn,
          htokens]
        rfl
      · simp [items, Comparison.items, h]
    | inList column l =>
      simp only [items, Comparison.items]
      cases A.values l with
      | none => rfl
      | some vs =>
        simp only [Option.map_some, Option.bind_some, List.mapM_cons, hcolumn, hseq, htoken ['i', 'n'] (by simp)]
        rfl
    | inTuple column l =>
      simp only [items, Comparison.items]
      by_cases h : l.all Arith.bare
      · cases A.values l with
        | none => simp [h]
        | some vs =>
          by_cases hl : l.isEmpty
          · simp only [h, hl, if_true, Option.map_some, Option.bind_some, List.mapM_cons, hcolumn,
              htoken ['i', 'n', '(', ')'] (by simp)]
            rfl
          · simp only [h, hl, if_true, if_false, Option.map_some, Option.bind_some, List.mapM_cons, hcolumn, hseq,
              htoken ['i', 'n'] (by simp), Bool.false_eq_true]
            rfl
      · simp [h]
  | not => simp only [items, Option.bind_some, List.mapM_cons, htoken ['n', 'o', 't'] (by simp)]; rfl
  | and => simp only [items, Option.bind_some, List.mapM_cons, htoken ['a', 'n', 'd'] (by simp)]; rfl
  | or => simp only [items, Option.bind_some, List.mapM_cons, htoken ['o', 'r'] (by simp)]; rfl
  | opening => rfl
  | closing => simp only [items, Option.bind_some, List.mapM_cons, htoken [')'] (by simp)]; rfl

end substituted

section typed

variable [DecidableEq F]

/-- A token with its guessed type. -/
def typedToken (py : FilterPython F) (t : Str) : Option (Item F) := (correctType py [] (.str t)).toOption

theorem correctType_str {dictv : List (Str × Item F)} {t : Str} (hquote : t.contains '"' = false ∧ t.contains '\'' = false)
    (hdigits : isDigits py t = false ∧ isFloat py t = false) (hbool : t ≠ "True".toList ∧ t ≠ "False".toList) :
    correctType py dictv (.str t) = .ok (.str t) := by
  simp only [correctType, hquote.1, hquote.2, hdigits.1, hdigits.2, Bool.false_eq_true, false_and, if_false,
    if_neg hbool.1, if_neg hbool.2]

theorem typedToken_symbol {c : Char} {rest : Str} (hc : c.toNat < 128 ∧ c.isDigit = false)
    (hquote : '"' ∉ c :: rest ∧ '\'' ∉ c :: rest) (hbool : c :: rest ≠ "True".toList ∧ c :: rest ≠ "False".toList) :
    typedToken py (c :: rest) = some (.str (c :: rest)) := by
  have hdigits : isDigits py (c :: rest) = false := by simp [isDigits, hc]
  have hfloat : isFloat py (c :: rest) = false := by simp [isFloat, isDecimal, hc]
  rw [typedToken, correctType_str (by simpa using hquote) ⟨hdigits, hfloat⟩ hbool]
  rfl

theorem Name.correctType_text (n : Name py) (dictv : List (Str × Item F)) :
    correctType py dictv (.str n.text) = .ok (.str n.text) := by
  obtain ⟨c, rest, hn, hstart⟩ := py.identifier_start n.text n.identifier
  have hkeyword := py.identifier_keyword n.text n.identifier
  have hquote (q : Char) (hq : py.isWord q = false) : n.text.contains q = false := by
    simpa using n.not_mem hq
  have hdigits : isDigits py n.text = false ∧ isFloat py n.text = false := by
    rw [hn]
    by_cases hc : c.toNat < 128 <;> simp_all [isDigits, isFloat, isDecimal]
  have hbool (s : Str) (hs : keywords.contains s = true) : n.text ≠ s := fun h => by
    rw [h, hs] at hkeyword
    exact absurd hkeyword (by simp)
  exact correctType_str ⟨hquote '"' rfl, hquote '\'' rfl⟩ hdigits ⟨hbool _ (by decide), hbool _ (by decide)⟩

theorem Name.typed (n : Name py) : typedToken py n.text = some (.str n.text) := by
  rw [typedToken, n.correctType_text]
  rfl

theorem IntegerText.exists_head (n : IntegerText) :
    ∃ c rest, n.text = c :: rest ∧ c.isDigit = true ∧ c.toNat < 128 := by
  have hdigit := n.digit
  cases hn : n.text with
  | nil => simp [hn] at hdigit
  | cons c rest => exact ⟨c, rest, rfl, by simpa [hn] using hdigit, (n.word c (by simp [hn])).bounds.2⟩

theorem IntegerText.typed (n : IntegerText) : typedToken py n.text = (literal py n).map .scalar := by
  obtain ⟨c, rest, hn, hdigit, hascii⟩ := n.exists_head
  have hquote (q : Char) (hq : ¬ IsWordChar q) : n.text.contains q = false := by
    simpa using fun h => hq (n.word q h)
  have hfloat : isFloat py n.text = true := by simp [isFloat, isDecimal, hn, hascii, hdigit]
  simp only [typedToken, correctType, hquote '"' (by decide), hquote '\'' (by decide), hfloat, literal]
  by_cases h : isDigits py n.text
  · simp only [h, List.map_nil, List.contains_nil, and_self, if_true, Bool.false_eq_true, if_false, toOption_map,
      Option.map_map]
    rfl
  · simp only [h, List.map_nil, List.contains_nil, and_self, if_true, Bool.false_eq_true, if_false, toOption_map,
      Option.map_map, false_and]
    rfl

theorem symbols_typed : ∀ t ∈ Arith.symbols, typedToken py t = some (.str t) := by
  have hsymbol (c : Char) (hc : (c.toNat < 128 ∧ c.isDigit = false) ∧ c ≠ '"' ∧ c ≠ '\'') :
      typedToken py [c] = some (.str [c]) :=
    typedToken_symbol hc.1 (by simpa [eq_comm] using hc.2) (by simp)
  simp only [Arith.symbols, List.mem_cons, List.not_mem_nil, or_false]
  rintro t (rfl | rfl | rfl | rfl | rfl | rfl | rfl | rfl | rfl | rfl | rfl) <;> exact hsymbol _ (by decide)

theorem UnaryOp.typed (op : UnaryOp) : typedToken py op.symbol = some (.str op.symbol) := symbols_typed _ op.symbol_mem

theorem CompareOp.typed (op : CompareOp) : ∀ t ∈ op.simplified, typedToken py t = some (.str t) := by
  intro t ht
  cases op <;> simp only [CompareOp.simplified, List.mem_cons, List.not_mem_nil, or_false] at ht
  case ne => rcases ht with rfl | rfl <;> exact typedToken_symbol (by decide) (by decide) (by decide)
  all_goals exact ht ▸ typedToken_symbol (by decide) (by decide) (by decide)

theorem Arith.mem_tokens {a : Arith} (h : a.bare = true) : ∀ t ∈ a.tokens,
    (∃ n ∈ a.numbers, t = n.text) ∨ typedToken py t = some (.str t) := by
  induction a with
  | number n => simp [tokens, numbers]
  | unary op a ih =>
    simp only [tokens, List.mem_cons]
    rintro t (rfl | ht)
    · exact .inr op.typed
    · exact ih h t ht
  | binary a op b iha ihb =>
    obtain ⟨ha, hb⟩ := Bool.and_eq_true_iff.mp h
    simp only [tokens, numbers, List.mem_append]
    rintro t ((ht | ht) | ht)
    · refine (iha ha t ht).imp_left ?_
      rintro ⟨n, hn, rfl⟩
      exact ⟨n, .inl hn, rfl⟩
    · exact .inr (symbols_typed t (op.tokens_mem t ht))
    · refine (ihb hb t ht).imp_left ?_
      rintro ⟨n, hn, rfl⟩
      exact ⟨n, .inr hn, rfl⟩
  | power a n ih =>
    have hstar : typedToken py ['*'] = some (.str ['*']) := symbols_typed ['*'] (by decide)
    simp only [tokens, numbers, List.mem_append, List.mem_cons, List.not_mem_nil, or_false]
    rintro t (ht | rfl | rfl | rfl)
    · refine (ih h t ht).imp_left ?_
      rintro ⟨m, hm, rfl⟩
      exact ⟨m, .inl hm, rfl⟩
    · exact .inr hstar
    · exact .inr hstar
    · exact .inl ⟨n, .inr rfl, rfl⟩
  | paren a _ => exact absurd h (by simp [bare])

theorem Arith.text_mem_tokens (a : Arith) : ∀ n ∈ a.numbers, n.text ∈ a.tokens := by
  induction a with
  | number n => simp [tokens, numbers]
  | unary op a ih => simpa [tokens, numbers] using fun n hn => Or.inr (ih n hn)
  | binary a op b iha ihb =>
    simp only [tokens, numbers, List.mem_append]
    rintro n (hn | hn)
    · exact .inl (.inl (iha n hn))
    · exact .inr (ihb n hn)
  | power a n ih =>
    simp only [tokens, numbers, List.mem_append, List.mem_cons, List.not_mem_nil, or_false]
    rintro m (hm | rfl)
    · exact .inl (ih m hm)
    · simp
  | paren a ih =>
    simp only [tokens, numbers, List.cons_append, List.mem_cons, List.mem_append]
    exact fun n hn => .inr (.inl (ih n hn))

/-- All tokens get a type exactly when Python takes the literals. -/
theorem Arith.typed_eq_none_iff {a : Arith} (h : a.bare = true) :
    a.tokens.mapM (typedToken py) = none ↔ a.readable py = false := by
  rw [mapM_eq_none_iff]
  simp only [readable, h, Bool.true_and, List.all_eq_false, Bool.not_eq_true, Option.isSome_eq_false_iff,
    Option.isNone_iff_eq_none]
  constructor
  · rintro ⟨t, ht, hnone⟩
    rcases (mem_tokens h t ht : _ ∨ typedToken py t = some (.str t)) with ⟨n, hn, rfl⟩ | hsome
    · exact ⟨n, hn, by simpa [n.typed] using hnone⟩
    · simp [hnone] at hsome
  · rintro ⟨n, hn, hnone⟩
    exact ⟨n.text, a.text_mem_tokens n hn, by simp [n.typed, hnone]⟩

theorem Arith.exists_first {a : Arith} (h : a.bare = true) :
    (∃ n rest, a.first = .inr n ∧ a.tokens = n.text :: rest) ∨
      ∃ op t rest, a.first = .inl op ∧ a.tokens = op.symbol :: t :: rest ∧
        ((∃ n : IntegerText, t = n.text) ∨ ∃ op' : UnaryOp, t = op'.symbol) := by
  induction a with
  | number n => exact .inl ⟨n, [], rfl, rfl⟩
  | unary op a ih =>
    rcases ih h with ⟨n, rest, -, ha⟩ | ⟨op', t, rest, -, ha, -⟩
    · exact .inr ⟨op, n.text, rest, rfl, by rw [tokens, ha], .inl ⟨n, rfl⟩⟩
    · exact .inr ⟨op, op'.symbol, t :: rest, rfl, by rw [tokens, ha], .inr ⟨op', rfl⟩⟩
  | binary a op b iha _ =>
    rcases iha (Bool.and_eq_true_iff.mp h).1 with ⟨n, rest, hn, ha⟩ | ⟨op', t, rest, hop, ha, ht⟩
    · exact .inl ⟨n, rest ++ op.tokens ++ b.tokens, hn, by simp [tokens, ha]⟩
    · exact .inr ⟨op', t, rest ++ op.tokens ++ b.tokens, hop, by simp [tokens, ha], ht⟩
  | power a n ih =>
    rcases ih h with ⟨m, rest, hm, ha⟩ | ⟨op', t, rest, hop, ha, ht⟩
    · exact .inl ⟨m, rest ++ [['*'], ['*'], n.text], hm, by simp [tokens, ha]⟩
    · exact .inr ⟨op', t, rest ++ [['*'], ['*'], n.text], hop, by simp [tokens, ha], ht⟩
  | paren a _ => exact absurd h (by simp [bare])

theorem Arith.exists_last {a : Arith} (h : a.bare = true) : ∃ before, a.tokens = before ++ [a.last.text] := by
  induction a with
  | number n => exact ⟨[], rfl⟩
  | unary op a ih =>
    obtain ⟨before, ha⟩ := ih h
    exact ⟨op.symbol :: before, by simp [tokens, last, ha]⟩
  | binary a op b _ ihb =>
    obtain ⟨before, hb⟩ := ihb (Bool.and_eq_true_iff.mp h).2
    exact ⟨a.tokens ++ op.tokens ++ before, by simp [tokens, last, hb]⟩
  | power a n _ => exact ⟨a.tokens ++ [['*'], ['*']], by simp [tokens, last]⟩
  | paren a _ => exact absurd h (by simp [bare])

/-- An element that is no text of an operator of the query. -/
def NoOperator (i : Item F) : Prop := ∀ t, i = .str t → comparators.contains t = false ∧ t ≠ ['i', 'n']

omit [DecidableEq F] in
theorem literal_ne_str {n : IntegerText} {v : Scalar F} (h : literal py n = some v) (s : Str) : v ≠ .str s := by
  rintro rfl
  by_cases hd : isDigits py n.text <;> simp [literal, hd] at h

omit [DecidableEq F] in
theorem firstRead_ne_bool {a : Arith} {v : Scalar F} (h : a.firstRead py = some v) (b : Bool) : v ≠ .bool b := by
  rintro rfl
  cases ha : a.first with
  | inl op => simp [Arith.firstRead, ha] at h
  | inr n => by_cases hd : isDigits py n.text <;> simp [Arith.firstRead, ha, literal, hd] at h

omit [DecidableEq F] in
theorem UnaryOp.noOperator (op : UnaryOp) : NoOperator (F := F) (.str op.symbol) := by
  intro t ht
  obtain rfl : op.symbol = t := by simpa using ht
  cases op <;> decide

theorem Arith.typed_first {a : Arith} {vs : List (Item F)} (h : a.bare = true)
    (hvs : a.tokens.mapM (typedToken py) = some vs) : ∃ v rest, a.firstRead py = some v ∧ vs = .scalar v :: rest ∧
      ∀ s, v = .str s → isDigits py s = false ∧ NoOperator (F := F) (.str s) ∧
        ∃ i rest', rest = i :: rest' ∧ NoOperator i := by
  rcases exists_first h with ⟨n, rest, hn, ha⟩ | ⟨op, t, rest, hop, ha, ht⟩
  · rw [ha, mapM_some_iff, List.forall₂_cons_left_iff] at hvs
    obtain ⟨i, vs', hi, -, rfl⟩ := hvs
    rw [n.typed] at hi
    obtain ⟨v, hv, rfl⟩ := Option.map_eq_some_iff.mp hi
    exact ⟨v, vs', by simp [firstRead, hn, hv], rfl, fun s hs => absurd hs (literal_ne_str hv s)⟩
  · rw [ha, mapM_some_iff, List.forall₂_cons_left_iff] at hvs
    obtain ⟨i, vs', hi, hrest, rfl⟩ := hvs
    obtain ⟨i', vs', hi', -, rfl⟩ := List.forall₂_cons_left_iff.mp hrest
    obtain rfl : Item.str op.symbol = i := by simpa [op.typed] using hi
    refine ⟨.str op.symbol, i' :: vs', by simp [firstRead, hop], rfl, ?_⟩
    rintro s hs
    obtain rfl : op.symbol = s := by simpa using hs
    refine ⟨by cases op <;> rfl, op.noOperator, i', vs', rfl, ?_⟩
    rcases ht with ⟨n, rfl⟩ | ⟨op', rfl⟩
    · rw [n.typed] at hi'
      obtain ⟨v, hv, rfl⟩ := Option.map_eq_some_iff.mp hi'
      intro s hs
      exact absurd (by simpa using hs) (literal_ne_str hv s)
    · obtain rfl : Item.str op'.symbol = i' := by simpa [op'.typed] using hi'
      exact op'.noOperator

theorem Arith.typed_last {a : Arith} {vs : List (Item F)} (h : a.bare = true)
    (hvs : a.tokens.mapM (typedToken py) = some vs) :
    ∃ v before, a.lastRead py = some v ∧ vs = before ++ [.scalar v] := by
  obtain ⟨before, ha⟩ := exists_last h
  rw [ha, List.mapM_append] at hvs
  simp only [Option.bind_eq_bind, Option.bind_eq_some_iff, List.mapM_cons, List.mapM_nil, a.last.typed,
    Option.map_eq_some_iff, Option.pure_def, Option.some.injEq] at hvs
  obtain ⟨before', -, _, ⟨_, ⟨v, hv, rfl⟩, _, rfl, rfl⟩, rfl⟩ := hvs
  exact ⟨v, before', hv, rfl⟩

/-- What the filter makes of an element in the end. -/
def Elem.typed (A : Arithmetic py) (e : Elem py) : Option (List (Item F)) :=
  (e.items A Name.text).bind fun g => g.mapM fun i => (correctType py [] i).toOption

theorem typed_tokens (py : FilterPython F) (ts : List Str) :
    ((ts.map Item.str).mapM fun i => (correctType py [] i).toOption) = ts.mapM (typedToken py) := by
  rw [List.mapM_map]
  rfl

theorem CompareOp.typed_simplified (op : CompareOp) :
    op.simplified.mapM (typedToken py) = some (op.simplified.map Item.str) :=
  mapM_eq_some_map op.typed

theorem Name.typed_str (n : Name py) : (correctType py [] (.str n.text)).toOption = some (.str n.text) := n.typed

theorem Elem.typed_left (A : Arithmetic py) {col : Name py} {op : CompareOp} {a : Arith} (h : a.bare = true) :
    (Elem.comparison (.left col op a)).typed A =
      (a.tokens.mapM (typedToken py)).map fun vs => .str col.text :: op.simplified.map .str ++ vs := by
  simp only [Elem.typed, items, Comparison.items, h, if_true, Option.bind_some, List.mapM_cons, col.typed_str,
    typed_tokens, List.mapM_append, op.typed_simplified]
  cases a.tokens.mapM (typedToken py) <;> rfl

theorem Elem.typed_right (A : Arithmetic py) {col : Name py} {op : CompareOp} {a : Arith} (h : a.bare = true) :
    (Elem.comparison (.right a op col)).typed A =
      (a.tokens.mapM (typedToken py)).map fun vs => vs ++ op.simplified.map .str ++ [.str col.text] := by
  simp only [Elem.typed, items, Comparison.items, h, if_true, Option.bind_some, List.mapM_append, typed_tokens,
    op.typed_simplified, List.mapM_cons, col.typed_str]
  cases a.tokens.mapM (typedToken py) <;> rfl

theorem Elem.typed_inList (A : Arithmetic py) (col : Name py) (l : List Arith) :
    (Elem.comparison (.inList col l)).typed A =
      (A.values l).map fun vs => [.str col.text, .str ['i', 'n'], .sequence true vs] := by
  have hin : (correctType py [] (.str ['i', 'n'])).toOption = some (.str ['i', 'n']) :=
    typedToken_symbol (by decide) (by decide) (by decide)
  simp only [Elem.typed, items, Comparison.items]
  cases A.values l with
  | none => rfl
  | some vs =>
    simp only [Option.map_some, Option.bind_some, List.mapM_cons, col.typed_str, hin]
    rfl

theorem Elem.typed_inTuple (A : Arithmetic py) (col : Name py) {l : List Arith} (h : l.all Arith.bare = true) :
    (Elem.comparison (.inTuple col l)).typed A = (A.values l).map fun vs =>
      if l.isEmpty then [.str col.text, .str ['i', 'n', '(', ')']]
      else [.str col.text, .str ['i', 'n'], .sequence false vs] := by
  have hin (t : Str) (ht : t = ['i', 'n'] ∨ t = ['i', 'n', '(', ')']) :
      (correctType py [] (.str t)).toOption = some (.str t) := by
    rcases ht with rfl | rfl <;> exact typedToken_symbol (by decide) (by decide) (by decide)
  simp only [Elem.typed, items, Comparison.items, h, if_true]
  cases A.values l with
  | none => rfl
  | some vs =>
    by_cases hl : l.isEmpty
    · simp only [hl, if_true, Option.map_some, Option.bind_some, List.mapM_cons, col.typed_str, hin _ (.inr rfl)]
      rfl
    · simp only [hl, Bool.false_eq_true, if_false, Option.map_some, Option.bind_some, List.mapM_cons, col.typed_str,
        hin _ (.inl rfl)]
      rfl

theorem Elem.typed_word (A : Arithmetic py) {e : Elem py} {c : Char} {rest : Str}
    (h : e.items A Name.text = some [.str (c :: rest)])
    (hc : c.toNat < 128 ∧ c.isDigit = false) (hquote : '"' ∉ c :: rest ∧ '\'' ∉ c :: rest)
    (hbool : c :: rest ≠ "True".toList ∧ c :: rest ≠ "False".toList) : e.typed A = some [.str (c :: rest)] := by
  have htoken : (correctType py [] (.str (c :: rest))).toOption = some (.str (c :: rest)) :=
    typedToken_symbol hc hquote hbool
  simp [typed, h, htoken]

theorem Elem.typed_not (A : Arithmetic py) : (Elem.not : Elem py).typed A = some [.str ['n', 'o', 't']] :=
  typed_word A rfl (by decide) (by decide) (by decide)

theorem Elem.typed_and (A : Arithmetic py) : (Elem.and : Elem py).typed A = some [.str ['a', 'n', 'd']] :=
  typed_word A rfl (by decide) (by decide) (by decide)

theorem Elem.typed_or (A : Arithmetic py) : (Elem.or : Elem py).typed A = some [.str ['o', 'r']] :=
  typed_word A rfl (by decide) (by decide) (by decide)

/-- An element, no parenthesis, makes the code raise exactly when it is not readable. -/
theorem Elem.typed_eq_none_iff (A : Arithmetic py) {e : Elem py} (h : e ≠ .opening ∧ e ≠ .closing) :
    e.typed A = none ↔ e.readable A = false := by
  have hbare {a : Arith} (ha : a.bare = false) : a.readable py = false := by simp [Arith.readable, ha]
  cases e with
  | comparison c =>
    cases c with
    | left col op a =>
      by_cases ha : a.bare
      · rw [Elem.typed_left A ha, Option.map_eq_none_iff, Arith.typed_eq_none_iff ha]
        rfl
      · exact iff_of_true (by simp [Elem.typed, items, Comparison.items, ha]) (hbare (by simpa using ha))
    | right a op col =>
      by_cases ha : a.bare
      · rw [Elem.typed_right A ha, Option.map_eq_none_iff, Arith.typed_eq_none_iff ha]
        rfl
      · exact iff_of_true (by simp [Elem.typed, items, Comparison.items, ha]) (hbare (by simpa using ha))
    | inList col l => simp [Elem.typed_inList, readable]
    | inTuple col l =>
      by_cases hl : l.all Arith.bare
      · simp [Elem.typed_inTuple A col hl, readable, hl]
      · exact iff_of_true (by simp [Elem.typed, items, Comparison.items, hl]) (by simp [readable, hl])
  | opening => exact absurd rfl h.1
  | closing => exact absurd rfl h.2
  | not => simp [Elem.typed_not, readable]
  | and => simp [Elem.typed_and, readable]
  | or => simp [Elem.typed_or, readable]

end typed

section finish

/-- The rest of the way from the elements of a piece to its condition. -/
def finish (py : FilterPython F) (d : FilteredDict) (aux : List (Item F)) : Option (Condition F) :=
  (match aux with
    | [] => none
    | first :: _ => if startsWithValue py first then (reverseAux aux).toOption else some aux).bind
      fun aux => (addExpression d aux).toOption

variable {d : FilteredDict}

theorem finish_cons {first : Item F} (h : startsWithValue py first = false) (rest : List (Item F)) :
    finish py d (first :: rest) = (addExpression d (first :: rest)).toOption := by
  simp [finish, h]

/-- An expression is refused when its first element is no column of any condition. -/
theorem addExpression_refused {first : Item F} (hcomp : ∀ op v, (comp d first op v).toOption = none)
    (hinside : ∀ v, (inside d first v).toOption = none) (rest : List (Item F)) :
    (addExpression d (first :: rest)).toOption = none := by
  match rest with
  | [] => rfl
  | .scalar (.int _) :: _ => rfl
  | .scalar (.float _) :: _ => rfl
  | .scalar (.bool _) :: _ => rfl
  | .sequence _ _ :: _ => rfl
  | .scalar (.str op) :: rest =>
    by_cases hop : comparators.contains op
    · cases rest with
      | nil => simp only [addExpression, hop, if_true]; rfl
      | cons v rest => simpa only [addExpression, hop, if_true] using hcomp op v
    · by_cases hin : op = "in".toList
      · cases rest with
        | nil => simp only [addExpression, hop, if_false, if_pos hin, Bool.false_eq_true]; rfl
        | cons v rest => simpa only [addExpression, hop, if_false, if_pos hin, Bool.false_eq_true] using hinside v
      · simp only [addExpression, hop, if_false, if_neg hin, Bool.false_eq_true]; rfl

theorem addExpression_no_text {first : Item F} (h : ∀ t, first ≠ .str t) (rest : List (Item F)) :
    (addExpression d (first :: rest)).toOption = none := by
  have hcomp (op : Str) (v : Item F) : (comp d first op v).toOption = none := by
    cases first with
    | scalar s => cases s <;> first | rfl | exact absurd rfl (h _)
    | sequence m vs => rfl
  have hinside (v : Item F) : (inside d first v).toOption = none := by
    cases first with
    | scalar s => cases s <;> first | rfl | exact absurd rfl (h _)
    | sequence m vs => rfl
  exact addExpression_refused hcomp hinside rest

theorem addExpression_no_column {name : Str} (h : name ∉ d.columns ++ d.primaryKeys) (rest : List (Item F)) :
    (addExpression d (.str name :: rest)).toOption = none := by
  have hcolumn : (d.columns ++ d.primaryKeys).contains name = false := by simpa using h
  have hkey : d.primaryKeys.contains name = false := by
    simpa using fun hmem => h (List.mem_append_right _ hmem)
  refine addExpression_refused (fun op v => ?_) (fun v => ?_) rest
  · simp only [comp, hcolumn, Bool.false_eq_true, if_false]
    rfl
  · simp only [inside, hkey, Bool.false_eq_true, if_false]
    rfl

theorem addExpression_noOperator {i : Item F} (h : NoOperator i) (first : Item F) (rest : List (Item F)) :
    (addExpression d (first :: i :: rest)).toOption = none := by
  match i with
  | .scalar (.int _) => rfl
  | .scalar (.float _) => rfl
  | .scalar (.bool _) => rfl
  | .sequence _ _ => rfl
  | .scalar (.str op) =>
    obtain ⟨hop, hin⟩ := h op rfl
    simp only [addExpression, hop, if_false, if_neg (show op ≠ "in".toList from hin), Bool.false_eq_true]
    rfl

theorem addExpression_comp {op : Str} (h : comparators.contains op = true) (col : Str) (v : Scalar F)
    (rest : List (Item F)) :
    (addExpression d (.str col :: .str op :: .scalar v :: rest)).toOption = readComp d col (some op) v := by
  simp only [addExpression, h, if_true, comp, readComp, Option.bind_some]
  by_cases hcol : (d.columns ++ d.primaryKeys).contains col
  · simp only [hcol, if_true]
    rfl
  · simp only [hcol, if_false, Bool.false_eq_true]
    rfl

theorem addExpression_inside {op : Str} (hop : comparators.contains op = false) (hin : op = "in".toList) (col : Str)
    (v : Item F) (rest : List (Item F)) :
    (addExpression d (.str col :: .str op :: v :: rest)).toOption = readInside d col (iterated v).toOption := by
  have hstep : addExpression d (.str col :: .str op :: v :: rest) = inside d (.str col) v := by
    simp only [addExpression, hop, Bool.false_eq_true, if_false]
    exact if_pos hin
  rw [hstep]
  by_cases hcol : d.primaryKeys.contains col
  · simp only [inside, readInside, hcol, if_true]
    exact toOption_map _ _
  · simp only [inside, readInside, hcol, if_false, Bool.false_eq_true]
    rfl

/-- A piece that starts with a number is read from its end. -/
theorem finish_reversed {first : Item F} (h : startsWithValue py first = true) {aux : List (Item F)}
    (hfirst : aux.head? = some first) :
    finish py d aux = (reverseAux aux).toOption.bind fun aux => (addExpression d aux).toOption := by
  cases aux with
  | nil => simp at hfirst
  | cons i aux =>
    obtain rfl : i = first := by simpa using hfirst
    simp [finish, h]

theorem reverseAux_head {aux r : List (Item F)} {last : Item F} (h : reverseAux (aux ++ [last]) = .ok r) :
    ∃ rest, r = last :: rest := by
  simp only [reverseAux, List.reverse_append, List.reverse_cons, List.reverse_nil, List.nil_append,
    List.singleton_append] at h
  cases haux : aux.reverse with
  | nil => simp [haux] at h
  | cons second rest =>
    simp only [haux] at h
    match second with
    | .scalar (.str op) =>
      cases hop : reverseComparison.lookup op with
      | none => simp [hop] at h
      | some reversed =>
        simp only [hop, Except.ok.injEq] at h
        exact ⟨_, h.symm⟩
    | .scalar (.int _) => simp at h
    | .scalar (.float _) => simp at h
    | .scalar (.bool _) => simp at h
    | .sequence true _ => simp at h
    | .sequence false _ => simp at h

theorem reverseAux_no_text {last : Item F} (hlast : ∀ t, last ≠ .str t) {aux : List (Item F)}
    (haux : aux.getLast? = some last) :
    ((reverseAux aux).toOption.bind fun aux => (addExpression d aux).toOption) = none := by
  obtain ⟨before, rfl⟩ := List.getLast?_eq_some_iff.mp haux
  rw [Option.bind_eq_none_iff]
  intro r hr
  obtain ⟨rest, rfl⟩ := reverseAux_head (toOption_eq_some_iff.mp hr)
  exact addExpression_no_text hlast rest

theorem reverseAux_unknown {op : Str} (h : reverseComparison.lookup op = none) (aux : List (Item F)) (last : Item F) :
    (reverseAux (aux ++ [.str op, last])).toOption = none := by
  simp [reverseAux, h, Except.toOption]

theorem reverseAux_known {op reversed : Str} (h : reverseComparison.lookup op = some reversed) (aux : List (Item F))
    (last : Item F) : (reverseAux (aux ++ [.str op, last])).toOption = some (last :: .str reversed :: aux.reverse) := by
  simp [reverseAux, h, Except.toOption]

theorem Name.noOperator (n : Name py) : NoOperator (F := F) (.str n.text) := by
  intro t ht
  obtain rfl : n.text = t := by simpa using ht
  have hne (c : Char) (hc : py.isWord c = false) (s : Str) (hs : c ∈ s) : n.text ≠ s := fun h => n.not_mem hc (h ▸ hs)
  have hkeyword := py.identifier_keyword n.text n.identifier
  refine ⟨?_, fun h => absurd hkeyword (by rw [h]; decide)⟩
  simp only [comparators, List.map_cons, List.map_nil, List.contains_cons, List.contains_nil, Bool.or_false,
    Bool.or_eq_false_iff, beq_eq_false_iff_ne]
  exact ⟨hne '>' rfl _ (by decide), hne '<' rfl _ (by decide), hne '=' rfl _ (by decide), hne '>' rfl _ (by decide),
    hne '<' rfl _ (by decide)⟩

theorem Name.lookup_reversed (n : Name py) : reverseComparison.lookup n.text = none := by
  have hne (c : Char) (hc : py.isWord c = false) (s : Str) (hs : c ∈ s) : (n.text == s) = false := by
    simpa using fun h : n.text = s => n.not_mem hc (h ▸ hs)
  have hge := hne '>' rfl ">=".toList (by decide)
  have hle := hne '<' rfl "<=".toList (by decide)
  have hgt := hne '>' rfl ">".toList (by decide)
  have hlt := hne '<' rfl "<".toList (by decide)
  simp only [reverseComparison, List.map_cons, List.map_nil, List.lookup_cons, hge, hle, hgt, hlt]
  rfl

theorem Name.not_value (n : Name py) : startsWithValue py (Item.str n.text : Item F) = false := by
  obtain ⟨c, rest, hn, hstart⟩ := py.identifier_start n.text n.identifier
  rw [startsWithValue, hn]
  by_cases hc : c.toNat < 128 <;> simp_all [isDigits]

end finish

section pieces

variable [DecidableEq F] {d : FilteredDict}

theorem Elem.typed_start (A : Arithmetic py) {e : Elem py} {g : List (Item F)} (hstart : e.starts = true)
    (hread : e.readable A = true) (hg : e.typed A = some g) : ∃ i rest, g = i :: rest ∧ NoOperator i := by
  have harith {a : Arith} (ha : a.readable py = true) : a.bare = true := (Bool.and_eq_true_iff.mp ha).1
  cases e with
  | comparison c =>
    cases c with
    | left col op a =>
      rw [Elem.typed_left A (harith hread)] at hg
      obtain ⟨vs, -, rfl⟩ := Option.map_eq_some_iff.mp hg
      exact ⟨_, _, rfl, col.noOperator⟩
    | right a op col =>
      rw [Elem.typed_right A (harith hread)] at hg
      obtain ⟨vs, hvs, rfl⟩ := Option.map_eq_some_iff.mp hg
      obtain ⟨v, rest, -, rfl, hstr⟩ := Arith.typed_first (harith hread) hvs
      refine ⟨.scalar v, _, rfl, fun t ht => ?_⟩
      obtain rfl : v = .str t := by simpa using ht
      exact (hstr t rfl).2.1 t rfl
    | inList col l =>
      rw [Elem.typed_inList] at hg
      obtain ⟨vs, -, rfl⟩ := Option.map_eq_some_iff.mp hg
      exact ⟨_, _, rfl, col.noOperator⟩
    | inTuple col l =>
      rw [Elem.typed_inTuple A col (Bool.and_eq_true_iff.mp hread).1] at hg
      obtain ⟨vs, -, rfl⟩ := Option.map_eq_some_iff.mp hg
      by_cases hl : l.isEmpty
      · exact ⟨.str col.text, _, by simp only [hl, if_true]; rfl, col.noOperator⟩
      · exact ⟨.str col.text, _, by simp only [hl, if_false, Bool.false_eq_true]; rfl, col.noOperator⟩
  | not =>
    obtain rfl : [.str ['n', 'o', 't']] = g := by simpa [Elem.typed_not] using hg
    refine ⟨_, [], rfl, fun t ht => ?_⟩
    obtain rfl : ['n', 'o', 't'] = t := by simpa using ht
    decide
  | opening => simp [readable] at hread
  | and => simp [starts] at hstart
  | or => simp [starts] at hstart
  | closing => simp [starts] at hstart

/-- A piece read from its end is the comparison there, the other way round. -/
theorem read_reversed (A : Arithmetic py) {c : Comparison py} {aux g : List (Item F)}
    (hread : (Elem.comparison c).readable A = true) (hg : (Elem.comparison c).typed A = some g) :
    ((reverseAux (aux ++ g)).toOption.bind fun aux => (addExpression d aux).toOption) =
      match c with
      | .right b op col => (b.lastRead py).bind fun v => readComp d col.text op.reversed v
      | _ => none := by
  have harith {a : Arith} (ha : a.readable py = true) : a.bare = true := (Bool.and_eq_true_iff.mp ha).1
  cases c with
  | left col op a =>
    rw [Elem.typed_left A (harith hread)] at hg
    obtain ⟨vs, hvs, rfl⟩ := Option.map_eq_some_iff.mp hg
    obtain ⟨v, before, hv, rfl⟩ := Arith.typed_last (harith hread) hvs
    have hstr (t : Str) : Item.scalar v ≠ .str t := fun h => literal_ne_str hv t (by simpa using h)
    exact reverseAux_no_text hstr (by simp [List.getLast?_append, List.getLast?_cons])
  | right b op col =>
    rw [Elem.typed_right A (harith hread)] at hg
    obtain ⟨vs, hvs, rfl⟩ := Option.map_eq_some_iff.mp hg
    obtain ⟨v, before, hv, rfl⟩ := Arith.typed_last (harith hread) hvs
    have hunknown (ops : List (Item F)) (t : Str) (h : reverseComparison.lookup t = none) :
        ((reverseAux (aux ++ (before ++ [.scalar v] ++ (ops ++ [.str t]) ++ [.str col.text]))).toOption.bind fun aux =>
          (addExpression d aux).toOption) = none := by
      have hrev := reverseAux_unknown h (aux ++ (before ++ [.scalar v] ++ ops)) (Item.str col.text)
      simp only [List.append_assoc, List.cons_append, List.nil_append] at hrev ⊢
      rw [hrev]
      rfl
    have hknown (t r : Str) (h : reverseComparison.lookup t = some r) (hr : comparators.contains r = true) :
        ((reverseAux (aux ++ (before ++ [.scalar v] ++ [.str t] ++ [.str col.text]))).toOption.bind fun aux =>
          (addExpression d aux).toOption) = readComp d col.text (some r) v := by
      have hrev := reverseAux_known h (aux ++ (before ++ [.scalar v])) (Item.str col.text)
      simp only [List.append_assoc, List.cons_append, List.nil_append] at hrev ⊢
      rw [hrev]
      simpa using addExpression_comp hr col.text v (before.reverse ++ aux.reverse)
    simp only [hv, Option.bind_some]
    cases op with
    | eq => exact hunknown [] ['='] (by decide)
    | ne => exact hunknown [.str ['!']] ['='] (by decide)
    | isIn => exact hunknown [] ['i', 'n'] (by decide)
    | lt => exact hknown ['<'] ['>'] (by decide) (by decide)
    | le => exact hknown ['<', '='] ['>', '='] (by decide) (by decide)
    | gt => exact hknown ['>'] ['<'] (by decide) (by decide)
    | ge => exact hknown ['>', '='] ['<', '='] (by decide) (by decide)
  | inList col l =>
    rw [Elem.typed_inList] at hg
    obtain ⟨vs, -, rfl⟩ := Option.map_eq_some_iff.mp hg
    have hseq (t : Str) : Item.sequence true vs ≠ .str t := by simp
    exact reverseAux_no_text hseq (by simp [List.getLast?_append])
  | inTuple col l =>
    rw [Elem.typed_inTuple A col (Bool.and_eq_true_iff.mp hread).1] at hg
    obtain ⟨vs, -, rfl⟩ := Option.map_eq_some_iff.mp hg
    by_cases hl : l.isEmpty
    · have hrev := reverseAux_unknown col.lookup_reversed aux (Item.str ['i', 'n', '(', ')'])
      simp only [hl, if_true, hrev]
      rfl
    · have hseq (t : Str) : Item.sequence false vs ≠ .str t := by simp
      exact reverseAux_no_text hseq (by simp [hl, List.getLast?_append])

theorem finish_left (A : Arithmetic py) (d : FilteredDict) {col : Name py} {op : CompareOp} {a : Arith}
    {g : List (Item F)} (hread : a.readable py = true) (hg : (Elem.comparison (.left col op a)).typed A = some g)
    (rest : List (Item F)) :
    finish py d (g ++ rest) = (a.firstRead py).bind fun v =>
      if op = .isIn then readInside d col.text (iterated (.scalar v)).toOption
      else readComp d col.text op.comparator v := by
  have hbare : a.bare = true := (Bool.and_eq_true_iff.mp hread).1
  rw [Elem.typed_left A hbare] at hg
  obtain ⟨vs, hvs, rfl⟩ := Option.map_eq_some_iff.mp hg
  obtain ⟨v, after, hv, rfl, -⟩ := Arith.typed_first hbare hvs
  rw [List.cons_append, List.cons_append, finish_cons col.not_value, hv, Option.bind_some]
  have hcomp (t : Str) (ht : comparators.contains t = true) :
      (addExpression d (.str col.text :: .str t :: .scalar v :: (after ++ rest))).toOption =
        readComp d col.text (some t) v :=
    addExpression_comp ht col.text v _
  cases op with
  | eq => exact hcomp ['='] (by decide)
  | lt => exact hcomp ['<'] (by decide)
  | le => exact hcomp ['<', '='] (by decide)
  | gt => exact hcomp ['>'] (by decide)
  | ge => exact hcomp ['>', '='] (by decide)
  | isIn => exact addExpression_inside (by decide) (by decide) col.text (.scalar v) _
  | ne =>
    have hbang : NoOperator (F := F) (.str ['!']) := fun t ht => by
      obtain rfl : ['!'] = t := by simpa using ht
      decide
    exact addExpression_noOperator hbang _ _

theorem finish_inList (A : Arithmetic py) (d : FilteredDict) {col : Name py} {l : List Arith} {g : List (Item F)}
    (hg : (Elem.comparison (.inList col l)).typed A = some g) (rest : List (Item F)) :
    finish py d (g ++ rest) = readInside d col.text (A.values l) := by
  rw [Elem.typed_inList] at hg
  obtain ⟨vs, hvs, rfl⟩ := Option.map_eq_some_iff.mp hg
  rw [List.cons_append, finish_cons col.not_value, hvs]
  exact addExpression_inside (by decide) (by decide) col.text (.sequence true vs) rest

theorem finish_inTuple (A : Arithmetic py) (d : FilteredDict) {col : Name py} {l : List Arith} {g : List (Item F)}
    (hread : (Elem.comparison (.inTuple col l)).readable A = true)
    (hg : (Elem.comparison (.inTuple col l)).typed A = some g) (rest : List (Item F)) :
    finish py d (g ++ rest) = if l.isEmpty then none else readInside d col.text (A.values l) := by
  rw [Elem.typed_inTuple A col (Bool.and_eq_true_iff.mp hread).1] at hg
  obtain ⟨vs, hvs, rfl⟩ := Option.map_eq_some_iff.mp hg
  by_cases hl : l.isEmpty
  · have hparens : NoOperator (F := F) (.str ['i', 'n', '(', ')']) := fun t ht => by
      obtain rfl : ['i', 'n', '(', ')'] = t := by simpa using ht
      decide
    simpa [hl, finish_cons col.not_value] using addExpression_noOperator hparens (.str col.text) rest
  · simp only [hl, Bool.false_eq_true, if_false, hvs]
    rw [List.cons_append, finish_cons col.not_value]
    exact addExpression_inside (by decide) (by decide) col.text (.sequence false vs) rest

/-- No condition starts with a `not`. -/
theorem finish_not (A : Arithmetic py) (d : FilteredDict) {e : Elem py} {g : List (Item F)} (hstart : e.starts = true)
    (hread : e.readable A = true) (hg : e.typed A = some g) (rest : List (Item F)) :
    finish py d (.str ['n', 'o', 't'] :: (g ++ rest)) = none := by
  obtain ⟨i, after, rfl, hi⟩ := Elem.typed_start A hstart hread hg
  have hvalue : startsWithValue py (Item.str ['n', 'o', 't'] : Item F) = false := rfl
  simpa [finish_cons hvalue] using addExpression_noOperator hi (.str ['n', 'o', 't']) (after ++ rest)

section right

variable {a : Arith} {op : CompareOp} {col : Name py} {g : List (Item F)}

/-- A comparison that starts with arithmetic starts with its first token. -/
theorem typed_right_head (A : Arithmetic py) (hread : (Elem.comparison (.right a op col)).readable A = true)
    (hg : (Elem.comparison (.right a op col)).typed A = some g) :
    ∃ v after, a.firstRead py = some v ∧ g = .scalar v :: after ∧
      ∀ s, v = .str s → isDigits py s = false ∧ ∃ i after', after = i :: after' ∧ NoOperator i := by
  have hbare : a.bare = true := (Bool.and_eq_true_iff.mp hread).1
  rw [Elem.typed_right A hbare] at hg
  obtain ⟨vs, hvs, rfl⟩ := Option.map_eq_some_iff.mp hg
  obtain ⟨v, after, hv, rfl, hstr⟩ := Arith.typed_first hbare hvs
  refine ⟨v, after ++ op.simplified.map .str ++ [.str col.text], hv, by simp, fun s hs => ?_⟩
  obtain ⟨hdigits, -, i, after', rfl, hi⟩ := hstr s hs
  exact ⟨hdigits, i, _, rfl, hi⟩

theorem finish_right_none (A : Arithmetic py) (d : FilteredDict)
    (hread : (Elem.comparison (.right a op col)).readable A = true)
    (hg : (Elem.comparison (.right a op col)).typed A = some g) (hint : ∀ n, a.firstRead py ≠ some (.int n))
    (rest : List (Item F)) : finish py d (g ++ rest) = none := by
  obtain ⟨v, after, hv, rfl, hstr⟩ := typed_right_head A hread hg
  rw [List.cons_append]
  cases v with
  | bool b => exact absurd rfl (firstRead_ne_bool hv b)
  | int n => exact absurd hv (hint n)
  | float x =>
    have htext (t : Str) : Item.scalar (.float x) ≠ .str t := by simp
    have hfirst : startsWithValue py (.scalar (.float x)) = false := rfl
    rw [finish_cons hfirst, addExpression_no_text htext]
  | str s =>
    obtain ⟨hdigits, i, after', rfl, hi⟩ := hstr s rfl
    have hfirst : startsWithValue py (Item.str s : Item F) = false := hdigits
    rw [finish_cons hfirst]
    exact addExpression_noOperator hi _ _

theorem finish_right_int (A : Arithmetic py) (d : FilteredDict)
    (hread : (Elem.comparison (.right a op col)).readable A = true)
    (hg : (Elem.comparison (.right a op col)).typed A = some g) {n : Int} (hint : a.firstRead py = some (.int n))
    (rest : List (Item F)) :
    finish py d (g ++ rest) = (reverseAux (g ++ rest)).toOption.bind fun aux => (addExpression d aux).toOption := by
  obtain ⟨v, after, hv, rfl, -⟩ := typed_right_head A hread hg
  obtain rfl : .int n = v := Option.some.inj (hint.symm.trans hv)
  have hfirst : startsWithValue py (.scalar (.int n) : Item F) = true := rfl
  exact finish_reversed hfirst rfl

end right

theorem exists_typed (A : Arithmetic py) {p : List (Elem py)} (hparen : .opening ∉ p ∧ .closing ∉ p)
    (hread : p.all (Elem.readable A)) : ∃ gs, p.mapM (Elem.typed A) = some gs := by
  rw [← Option.ne_none_iff_exists', ne_eq, mapM_eq_none_iff]
  rintro ⟨e, he, hnone⟩
  have htyped := Elem.typed_eq_none_iff A (e := e) ⟨fun h => hparen.1 (h ▸ he), fun h => hparen.2 (h ▸ he)⟩
  simpa [List.all_eq_true.mp hread e he] using htyped.mp hnone

/-- The groups of a piece end with those of its last comparison. -/
theorem typed_last_split (A : Arithmetic py) {p : List (Elem py)} {e : Elem py} (hlast : p.getLast? = some e)
    {gs : List (List (Item F))} (hgs : p.mapM (Elem.typed A) = some gs) :
    ∃ before g, e.typed A = some g ∧ gs.flatten = before ++ g := by
  obtain ⟨before, rfl⟩ := List.getLast?_eq_some_iff.mp hlast
  rw [List.mapM_append] at hgs
  simp only [Option.bind_eq_bind, Option.bind_eq_some_iff, List.mapM_cons, List.mapM_nil, Option.pure_def,
    Option.some.injEq] at hgs
  obtain ⟨gs₁, -, _, ⟨g, hg, _, rfl, rfl⟩, rfl⟩ := hgs
  exact ⟨gs₁.flatten, g, hg, by simp⟩

/-- The code reads of a piece what `readPiece` says. -/
theorem finish_piece (A : Arithmetic py) (d : FilteredDict) {p : List (Elem py)} (h : Formed p)
    (hparen : .opening ∉ p ∧ .closing ∉ p) :
    ((p.mapM (Elem.typed A)).bind fun gs => finish py d gs.flatten) = readPiece A d p := by
  by_cases hall : p.all (Elem.readable A)
  · have hreadable := List.all_eq_true.mp hall
    obtain ⟨gs, hgs⟩ := exists_typed A hparen hall
    rw [hgs, Option.bind_some, readPiece, if_pos hall]
    obtain ⟨e, he, hstart⟩ := h.starts
    obtain ⟨last, hlast, hend⟩ := h.ends
    obtain ⟨rest, rfl⟩ : ∃ rest, p = e :: rest := by cases p <;> simp_all
    obtain ⟨g, gs', hg, hgs', rfl⟩ := List.forall₂_cons_left_iff.mp (mapM_some_iff.mp hgs)
    have hread := hreadable e (by simp)
    rw [List.flatten_cons, List.head?_cons, Option.mem_def.mp hlast]
    cases e with
    | and => simp [Elem.starts] at hstart
    | or => simp [Elem.starts] at hstart
    | closing => simp [Elem.starts] at hstart
    | opening => simp at hparen
    | not =>
      cases rest with
      | nil =>
        obtain rfl : .not = last := by simpa using hlast
        simp [Elem.ends] at hend
      | cons e' rest =>
        obtain ⟨g', gs'', hg', -, rfl⟩ := List.forall₂_cons_left_iff.mp hgs'
        have hstart' : e'.starts = true := by
          simpa [Follows, Elem.ends] using (List.isChain_cons.mp h.chain).1 e' rfl
        obtain rfl : [.str ['n', 'o', 't']] = g := by simpa [Elem.typed_not] using hg
        exact finish_not A d hstart' (hreadable e' (by simp)) hg' gs''.flatten
    | comparison c =>
      cases c with
      | left col op a =>
        rw [finish_left A d hread hg]
        cases op <;> rfl
      | inList col l => rw [finish_inList A d hg]
      | inTuple col l => rw [finish_inTuple A d hread hg]
      | right a op col =>
        have hlast' : last ≠ .closing := fun h => hparen.2 (h ▸ List.mem_of_getLast? hlast)
        obtain ⟨c, rfl⟩ : ∃ c, last = .comparison c := by cases last <;> simp_all [Elem.ends]
        have hreadLast := hreadable (.comparison c) (List.mem_of_getLast? hlast)
        by_cases hint : ∃ n, a.firstRead py = some (.int n)
        · obtain ⟨n, hn⟩ := hint
          obtain ⟨before, gl, hgl, hflat⟩ := typed_last_split A hlast hgs
          rw [finish_right_int A d hread hg hn, ← List.flatten_cons, hflat, read_reversed A hreadLast hgl]
          cases c <;> simp [hn]
        · rw [finish_right_none A d hread hg (not_exists.mp hint)]
          obtain ⟨v, -, hv, -⟩ := typed_right_head A hread hg
          cases c <;> cases v <;> simp_all
  · have hnone : p.mapM (Elem.typed A) = none := by
      simp only [List.all_eq_true, not_forall, Bool.not_eq_true] at hall
      obtain ⟨e, he, hunread⟩ := hall
      have htyped := Elem.typed_eq_none_iff A (e := e) ⟨fun h => hparen.1 (h ▸ he), fun h => hparen.2 (h ▸ he)⟩
      exact mapM_eq_none_iff.mpr ⟨e, he, htyped.mpr hunread⟩
    rw [hnone, readPiece, if_neg hall]
    rfl

end pieces

section hfilter

variable [DecidableEq F]

theorem Arith.head_tokens (a : Arith) : ∀ t ∈ a.tokens, t.head? ≠ some 'a' := by
  have hnumber (n : IntegerText) : n.text.head? ≠ some 'a' := by
    obtain ⟨c, rest, hn, hdigit, -⟩ := n.exists_head
    rw [hn, List.head?_cons, ne_eq, Option.some.injEq]
    rintro rfl
    simp at hdigit
  exact a.forall_mem_tokens hnumber (by decide) (by decide)

omit [DecidableEq F] in
theorem Elem.items_isAnd (A : Arithmetic py) (row : Name py) {e : Elem py} {g : List (Item F)}
    (hg : e.items A (columnText row) = some g) (he : e.isAnd = false) : ∀ i ∈ g, LambdaFilter.isAnd i = false := by
  have hcolumn (column : Name py) : columnText row column ≠ ['a', 'n', 'd'] := fun h => by
    have hmem : '.' ∈ columnText row column := by simp [columnText]
    simp [h] at hmem
  have hop (op : CompareOp) : ∀ t ∈ op.simplified, t ≠ ['a', 'n', 'd'] := by
    cases op <;> simp [CompareOp.simplified]
  have harith (a : Arith) : ∀ t ∈ a.tokens, t ≠ ['a', 'n', 'd'] := fun t ht h => a.head_tokens t ht (by simp [h])
  cases e with
  | comparison c =>
    cases c with
    | left column op a =>
      by_cases h : a.bare
      · obtain rfl : _ = g := by simpa [items, Comparison.items, h] using hg
        simpa [LambdaFilter.isAnd, hcolumn, or_imp, forall_and] using ⟨hop op, harith a⟩
      · simp [items, Comparison.items, h] at hg
    | right a op column =>
      by_cases h : a.bare
      · obtain rfl : _ = g := by simpa [items, Comparison.items, h] using hg
        simpa [LambdaFilter.isAnd, hcolumn, or_imp, forall_and] using ⟨harith a, hop op⟩
      · simp [items, Comparison.items, h] at hg
    | inList column l =>
      obtain ⟨vs, -, rfl⟩ := Option.map_eq_some_iff.mp hg
      simp [hcolumn, LambdaFilter.isAnd]
    | inTuple column l =>
      by_cases h : l.all Arith.bare
      · simp only [items, Comparison.items, h, if_true] at hg
        obtain ⟨vs, -, rfl⟩ := Option.map_eq_some_iff.mp hg
        by_cases hl : l.isEmpty <;> simp [hl, hcolumn, LambdaFilter.isAnd]
      · simp [items, Comparison.items, h] at hg
  | not =>
    obtain rfl : [.str ['n', 'o', 't']] = g := by simpa [items] using hg
    simp [LambdaFilter.isAnd]
  | or =>
    obtain rfl : [.str ['o', 'r']] = g := by simpa [items] using hg
    simp [LambdaFilter.isAnd]
  | closing =>
    obtain rfl : [.str [')']] = g := by simpa [items] using hg
    simp [LambdaFilter.isAnd]
  | opening => simp [items] at hg
  | and => simp [isAnd] at he

/-- The last stages of the filter, piece by piece. -/
theorem transform_pieces (d : FilteredDict) (dictv : List (Str × Item F)) (pieces : List (List (Item F))) :
    (((pieces.mapM (transformPiece py dictv)) >>= fun parsed => parsed.mapM (addExpression d)).toOption) =
      pieces.mapM fun s => (s.mapM fun i => (correctType py dictv i).toOption).bind (finish py d) := by
  rw [toOption_bind, toOption_mapM]
  simp only [toOption_mapM]
  rw [mapM_bind_mapM]
  refine mapM_option_congr fun s _ => ?_
  rw [transformPiece, toOption_bind, toOption_mapM, Option.bind_assoc]
  refine congrArg _ (funext fun aux => ?_)
  cases aux with
  | nil => rfl
  | cons first rest =>
    by_cases h : startsWithValue py first
    · simp [finish, h]
    · simp only [finish, h]
      rfl

/-- The stages of the filter after its elements are combined, piece by piece. -/
theorem hfilter_stages (d : FilteredDict) {func : Lambda F} {vars : List Str} {text : Str}
    (hsource : funcToStr func.source = (vars, text)) :
    (hfilter py d func).toOption = (combine py (simplify (findall py text))).toOption.bind fun items =>
      (items.splitOnP isAnd).mapM fun p => ((p.mapM fun i => (substitVar py vars func.captured i).toOption).bind fun s =>
        (s.mapM fun i => (correctType py func.captured i).toOption).bind (finish py d)) := by
  have hstages (items : List (Item F)) :
      ((((items.splitOnP isAnd).mapM fun s => s.mapM (substitVar py vars func.captured)) >>= fun finalList =>
        finalList.mapM (transformPiece py func.captured) >>= fun parsed => parsed.mapM (addExpression d)).toOption) =
        (items.splitOnP isAnd).mapM fun p =>
          ((p.mapM fun i => (substitVar py vars func.captured i).toOption).bind fun s =>
            (s.mapM fun i => (correctType py func.captured i).toOption).bind (finish py d)) := by
    rw [toOption_bind, toOption_mapM]
    simp only [transform_pieces, toOption_mapM]
    exact mapM_bind_mapM _ _ _
  simp only [hfilter, parseLambda, hsource, bind_assoc, toOption_bind]
  refine congrArg _ (funext fun items => ?_)
  rw [← hstages items, toOption_bind]
  exact congrArg _ (funext fun finalList => (toOption_bind _ _).symm)

theorem typed_piece (A : Arithmetic py) (row : Name py) {g : Elem py → List (Item F)} {p : List (Elem py)}
    (hg : ∀ e ∈ p, e.items A (columnText row) = some (g e)) :
    (((p.flatMap g).mapM fun i => (substitVar py [row.text] [] i).toOption).bind fun s =>
        s.mapM fun i => (correctType py [] i).toOption) = (p.mapM (Elem.typed A)).map List.flatten := by
  have hitems : ((p.flatMap g).mapM fun i => (substitVar py [row.text] [] i).toOption) =
      (p.mapM (Elem.items A Name.text)).map List.flatten := by
    rw [List.flatMap_def, mapM_flatten_option, List.mapM_map]
    refine congrArg _ (mapM_option_congr fun e he => ?_)
    have hsub := e.substituted A row
    rw [hg e he, Option.bind_some, toOption_mapM] at hsub
    exact hsub
  have htyped := mapM_bind_mapM (Elem.items A Name.text)
    (fun items => items.mapM fun i => (correctType py [] i).toOption) p
  rw [hitems, Option.bind_map]
  simp only [Function.comp_def, mapM_flatten_option]
  rw [show Elem.typed A = fun e : Elem py => (e.items A Name.text).bind fun items => items.mapM fun i =>
    (correctType py [] i).toOption from rfl, ← htyped, Option.map_bind]
  rfl

/-- The filter of a body: its conditions, or an exception. -/
theorem hfilter_toOption (A : Arithmetic py) (d : FilteredDict) (row : Name py) (b : Body py) {func : Lambda F}
    {text : Str} (hsource : funcToStr func.source = ([row.text], text)) (htext : findall py text = b.tokens row)
    (hcaptured : func.captured = []) : (hfilter py d func).toOption = b.read A d := by
  have hcombine : (combine py (simplify (findall py text))).toOption =
      ((b.elems .disjunction).mapM (Elem.items A (columnText row))).map List.flatten := by
    rw [htext, Body.tokens, simplify_elems, combine, combineFrom_elems A row (b.elems_formed .disjunction).chain]
    simp
  have hparse : (hfilter py d func).toOption = ((b.elems .disjunction).mapM (Elem.items A (columnText row))).bind
      fun gs => (gs.flatten.splitOnP isAnd).mapM fun p =>
        ((p.mapM fun i => (substitVar py [row.text] [] i).toOption).bind fun s =>
          (s.mapM fun i => (correctType py [] i).toOption).bind (finish py d)) := by
    rw [hfilter_stages d hsource, hcombine, hcaptured, Option.bind_map]
    rfl
  rw [hparse, Body.read]
  cases hgs : (b.elems .disjunction).mapM (Elem.items A (columnText row)) with
  | none =>
    obtain ⟨e, he, hnone⟩ := mapM_eq_none_iff.mp hgs
    have hand : e.isAnd = false := Elem.isAnd_eq_false fun h => by simp [h, Elem.items] at hnone
    obtain ⟨p, hp, hep⟩ := exists_mem_splitOnP he hand
    have hread : e.readable A = false := by
      cases e with
      | opening => rfl
      | comparison c =>
        have htyped : (Elem.comparison c).typed A = none := by
          have hsub := (Elem.comparison c).substituted A row
          rw [hnone, Option.bind_none] at hsub
          rw [Elem.typed, ← hsub, Option.bind_none]
        exact (Elem.typed_eq_none_iff A (by simp)).mp htyped
      | _ => simp [Elem.items] at hnone
    have hpiece : readPiece A d p = none := if_neg fun hall => by simp [List.all_eq_true.mp hall e hep] at hread
    exact (mapM_eq_none_iff.mpr ⟨p, hp, hpiece⟩).symm
  | some gs =>
    have hg : ∀ e ∈ b.elems .disjunction, e.items A (columnText row) = some ((e.items A (columnText row)).getD []) := by
      intro e he
      cases hi : e.items A (columnText row) with
      | none => simp [mapM_eq_none_iff.mpr ⟨e, he, hi⟩] at hgs
      | some g => rfl
    have hopening : .opening ∉ b.elems .disjunction := fun h => by simpa [Elem.items] using hg _ h
    have hclosing : .closing ∉ b.elems .disjunction := fun h => hopening (b.opening_mem_elems _ h)
    obtain rfl : _ = gs := Option.some.inj ((mapM_eq_some_map hg).symm.trans hgs)
    have hsplit : ((b.elems .disjunction).flatMap fun e => (e.items A (columnText row)).getD []).splitOnP isAnd =
        ((b.elems .disjunction).splitOnP Elem.isAnd).map fun p =>
          p.flatMap fun e => (e.items A (columnText row)).getD [] := by
      refine splitOnP_flatMap (fun e _ hand => ?_) fun e he hand => Elem.items_isAnd A row (hg e he) hand
      cases e <;> simp_all [Elem.isAnd, Elem.items, isAnd]
    rw [Option.bind_some, ← List.flatMap_def, hsplit, List.mapM_map]
    refine mapM_option_congr fun p hp => ?_
    have hmem : ∀ e ∈ p, e ∈ b.elems .disjunction := fun e he => mem_of_mem_splitOnP hp he
    have htyped := typed_piece A row (g := fun e => (e.items A (columnText row)).getD []) fun e he => hg e (hmem e he)
    have hfinish := finish_piece A d ((b.elems_formed .disjunction).pieces p hp)
      ⟨fun h => hopening (hmem _ h), fun h => hclosing (hmem _ h)⟩
    rw [← hfinish, Function.comp_apply, ← Option.bind_assoc, htyped, Option.bind_map]
    rfl

end hfilter

end LambdaFilter

end Hecuba
