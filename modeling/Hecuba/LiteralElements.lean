import Hecuba.LiteralComparisons

/-! The elements that the filter makes of a comparison with a literal. -/

namespace Hecuba

namespace LambdaFilter

variable {F : Type} {py : FilterPython F}

section line

/-- What `func_to_str` makes of the line of a filter. -/
theorem FilterLine.funcToStr_func (line : FilterLine py) (body : Str) :
    funcToStr (line.func body).source = ([line.row.text], eraseAll "\\n".toList body) := by
  have hsplit : "lambda ".toList = "lambda".toList ++ [' '] := by decide
  have hrow (c : Char) (hc : py.isWord c = false) : c ∉ line.row.text := line.row.not_mem hc
  have hfirst : firstIndex "lambda".toList (line.func body).source = line.before.length := by
    rw [FilterLine.func, hsplit, List.append_assoc]
    exact firstIndex_append line.first_lambda _
  have hlast : lastIndex ',' (line.func body).source =
      (line.before ++ ("lambda ".toList ++ line.row.text ++ ':' :: body)).length := by
    have := lastIndex_append line.last_comma (line.before ++ ("lambda ".toList ++ line.row.text ++ ':' :: body))
    simpa only [FilterLine.func, List.append_assoc, List.cons_append] using this
  have hslice : slice (firstIndex "lambda".toList (line.func body).source) (lastIndex ',' (line.func body).source)
      (line.func body).source = "lambda ".toList ++ line.row.text ++ ':' :: body := by
    rw [hfirst, hlast]
    have := slice_append line.before ("lambda ".toList ++ line.row.text ++ ':' :: body) (',' :: line.after)
    simpa only [FilterLine.func, List.append_assoc, List.cons_append] using this
  have hcolon : firstIndex [':'] ("lambda ".toList ++ line.row.text ++ ':' :: body) =
      ("lambda ".toList ++ line.row.text).length := by
    refine firstIndex_singleton ?_ body
    simpa using hrow ':' rfl
  have hname : slice 7 ("lambda ".toList ++ line.row.text).length ("lambda ".toList ++ line.row.text ++ ':' :: body) =
      line.row.text := by
    have := slice_append "lambda ".toList line.row.text (':' :: body)
    simpa using this
  have hblank : line.row.text.filter (· ≠ ' ') = line.row.text := by
    rw [List.filter_eq_self]
    exact fun c hc => by simpa using fun h : c = ' ' => hrow ' ' rfl (h ▸ hc)
  simp only [funcToStr, hslice, hcolon, hname, hblank]
  have hcomma : line.row.text.splitOn ',' = [line.row.text] := List.splitOn_eq_singleton (hrow ',' rfl)
  have hbody : ("lambda ".toList ++ line.row.text ++ ':' :: body).drop
      ((("lambda ".toList ++ line.row.text).length : Int) + 1).toNat = body := by
    have hlen : ((("lambda ".toList ++ line.row.text).length : Int) + 1).toNat =
        ("lambda ".toList ++ line.row.text ++ [':']).length := by
      simp
      omega
    rw [hlen, show "lambda ".toList ++ line.row.text ++ ':' :: body =
      "lambda ".toList ++ line.row.text ++ [':'] ++ body by simp, List.drop_left]
  rw [hcomma, hbody]

theorem Blanks.not_mem (b : Blanks) {c : Char} (hc : ¬IsBlank c) : c ∉ b.text := fun h => hc (b.blank c h)

theorem CompareOp.backslash_not_mem (op : CompareOp) : '\\' ∉ op.text := by
  cases op <;> decide

theorem columnText_not_mem (row column : Name py) {c : Char} (hc : py.isWord c = false) (hpoint : c ≠ '.') :
    c ∉ columnText row column := by
  simp [columnText, row.not_mem hc, column.not_mem hc, hpoint]

theorem Signs.not_mem (s : Signs) {c : Char} (hsign : c ≠ '+' ∧ c ≠ '-') (hc : ¬IsBlank c) : c ∉ s.text := fun h => by
  rcases s.sign c h with rfl | rfl | hb
  · exact hsign.1 rfl
  · exact hsign.2 rfl
  · exact hc hb

/-- The operand in the text that `func_to_str` leaves. -/
def Operand.cleaned : Operand py → Str
  | string s => s.quote :: s.cleaned ++ [s.quote]
  | o => o.text

theorem Operand.backslash_not_mem {o : Operand py} (h : ∀ s, o ≠ .string s) : '\\' ∉ o.text := by
  have hnumber (s : Signs) : '\\' ∉ s.text := s.not_mem (by decide) (by decide)
  have hdigits (n : IntegerText) : '\\' ∉ n.text := n.not_mem (by decide)
  cases o with
  | integer l => simp [text, IntegerLiteral.text, hnumber, hdigits]
  | decimal l =>
    have hdotted : '\\' ∉ l.number := fun hc => absurd (l.dotted _ hc) (by decide)
    have hexponent : '\\' ∉ l.exponentText := by
      cases he : l.exponent with
      | none => simp [DecimalLiteral.exponentText, he]
      | some e => cases hn : e.negative <;> simp [DecimalLiteral.exponentText, he, Exponent.text, hn, hdigits]
    simp [text, DecimalLiteral.text, hnumber, hdotted, hexponent]
  | boolean b => cases b <;> simp [text]
  | string s => exact absurd rfl (h s)
  | captured v value => exact v.not_mem rfl

theorem LiteralComparison.eraseAll_text (row : Name py) (c : LiteralComparison py) :
    eraseAll "\\n".toList (c.text row) = c.textOf row c.operand.cleaned := by
  have hbackslash : '\\' ∈ "\\n".toList := by decide
  have hcolumn : '\\' ∉ columnText row c.column := columnText_not_mem row c.column rfl (by decide)
  have hblank (b : Blanks) : '\\' ∉ b.text := b.not_mem (by decide)
  have hop := c.op.backslash_not_mem
  cases ho : c.operand with
  | string s =>
    have hquote : s.quote ∉ "\\n".toList := by rcases s.quote_eq with h | h <;> rw [h] <;> decide
    have hstring {l m : Str} (hl : '\\' ∉ l) (hm : '\\' ∉ m) :
        eraseAll "\\n".toList (l ++ s.quote :: (s.content ++ s.quote :: m)) =
          l ++ s.quote :: (s.cleaned ++ s.quote :: m) := by
      rw [eraseAll, eraseFrom_append_cons (by decide) hquote (by simp), eraseFrom_of_not_mem hbackslash hl,
        eraseFrom_append_cons (by decide) hquote (by simp), eraseFrom_of_not_mem hbackslash hm]
      rfl
    by_cases hfirst : c.operandFirst
    · have := hstring (l := c.lead.text)
        (m := c.before.text ++ (c.op.text ++ c.after.text) ++ (columnText row c.column ++ c.trail.text))
        (hblank _) (by simp [hblank, hop, hcolumn])
      simpa [text, textOf, ho, hfirst, Operand.text, Operand.cleaned, StringLiteral.text] using this
    · have := hstring (l := c.lead.text ++ (columnText row c.column ++ (c.before.text ++ (c.op.text ++ c.after.text))))
        (m := c.trail.text) (by simp [hblank, hop, hcolumn]) (hblank _)
      simpa [text, textOf, ho, hfirst, Operand.text, Operand.cleaned, StringLiteral.text] using this
  | _ =>
    have hoperand : '\\' ∉ c.operand.text := Operand.backslash_not_mem (by simp [ho])
    have hclean : c.operand.cleaned = c.operand.text := by simp [ho, Operand.cleaned]
    rw [← ho, hclean]
    refine eraseFrom_of_not_mem hbackslash ?_
    by_cases hfirst : c.operandFirst <;> simp [text, textOf, hfirst, hblank, hop, hcolumn, hoperand]

end line

section tokens

variable {s t : Str}

theorem IsBlank.class (py : FilterPython F) {c : Char} (h : IsBlank c) :
    (py.isWord c = false ∧ py.isSpace c = true) ∧ isDecimal py c = false ∧ c ≠ '.' ∧ c ≠ '"' ∧ c ≠ '\'' := by
  rcases h with rfl | rfl <;> exact ⟨⟨rfl, rfl⟩, rfl, by decide, by decide, by decide⟩

theorem findall_blank {c : Char} (h : IsBlank c) : findall py (c :: t) = findall py t := by
  obtain ⟨⟨hword, hspace⟩, hdecimal, -, hdouble, hsingle⟩ := h.class py
  have hround : roundLength py (c :: t) = 0 := by simp [roundLength, hword, hdecimal, hdouble, hsingle]
  simp [findall, findallFrom, matchLength, wordLength, hround, hspace]

theorem Blanks.findall_append (b : Blanks) (t : Str) : findall py (b.text ++ t) = findall py t := by
  have hblank := b.blank
  generalize b.text = l at hblank
  induction l with
  | nil => rfl
  | cons c l ih =>
    obtain ⟨hc, hl⟩ := List.forall_mem_cons.mp hblank
    rw [List.cons_append, findall_blank hc, ih hl]

theorem Blanks.findall_text (b : Blanks) : findall py b.text = [] := by
  have hnil : findall py (b.text ++ []) = [] := b.findall_append []
  rwa [List.append_nil] at hnil

/-- The characters that are tokens of their own, blanks aside. -/
def IsSymbol (py : FilterPython F) (c : Char) : Prop :=
  (py.isWord c = false ∧ py.isSpace c = false) ∧ isDecimal py c = false ∧ c ≠ '"' ∧ c ≠ '\''

theorem IsSymbol.findall_cons {c : Char} (h : IsSymbol py c) (t : Str) : findall py (c :: t) = [c] :: findall py t := by
  obtain ⟨⟨hword, hspace⟩, hdecimal, hdouble, hsingle⟩ := h
  exact findall_symbol (by simp [roundLength, hword, hdecimal, hdouble, hsingle]) hspace hword

theorem isSymbol_of_mem (py : FilterPython F) {c : Char} (h : c ∈ "=!<>+-".toList) : IsSymbol py c := by
  have hlist : c = '=' ∨ c = '!' ∨ c = '<' ∨ c = '>' ∨ c = '+' ∨ c = '-' := by simpa using h
  rcases hlist with rfl | rfl | rfl | rfl | rfl | rfl <;> exact ⟨⟨rfl, rfl⟩, rfl, by decide, by decide⟩

theorem operator_of_mem {c : Char} (h : c ∈ "=!<>+-".toList) :
    (c.toNat < 128 ∧ c.isDigit = false) ∧ (c ≠ '[' ∧ c ≠ ']') ∧ c ≠ '(' ∧ c ≠ ')' := by
  have hlist : c = '=' ∨ c = '!' ∨ c = '<' ∨ c = '>' ∨ c = '+' ∨ c = '-' := by simpa using h
  rcases hlist with rfl | rfl | rfl | rfl | rfl | rfl <;> decide

theorem CompareOp.findall_append {op : CompareOp} (h : op ≠ .isIn) (t : Str) :
    findall py (op.text ++ t) = op.tokens ++ findall py t := by
  have heq := (isSymbol_of_mem py (c := '=') (by decide)).findall_cons
  have hne := (isSymbol_of_mem py (c := '!') (by decide)).findall_cons
  have hlt := (isSymbol_of_mem py (c := '<') (by decide)).findall_cons
  have hgt := (isSymbol_of_mem py (c := '>') (by decide)).findall_cons
  cases op with
  | isIn => exact absurd rfl h
  | eq => simp [text, tokens, heq]
  | ne => simp [text, tokens, heq, hne]
  | lt => simp [text, tokens, hlt]
  | le => simp [text, tokens, heq, hlt]
  | gt => simp [text, tokens, hgt]
  | ge => simp [text, tokens, heq, hgt]

theorem stops_blanks (b : Blanks) (ht : Stops py t) : Stops py (b.text ++ t) := by
  intro c hc
  cases hb : b.text with
  | nil => exact ht c (by simpa [hb] using hc)
  | cons d l =>
    obtain rfl : d = c := by simpa [hb] using hc
    obtain ⟨⟨hword, -⟩, hrest⟩ := (b.blank d (by simp [hb])).class py
    exact ⟨hword, hrest⟩

theorem CompareOp.stops {op : CompareOp} (h : op ≠ .isIn) (t : Str) : Stops py (op.text ++ t) := by
  have hsymbol (c : Char) (hc : c ∈ "=!<>+-".toList) (hpoint : c ≠ '.') (t : Str) : Stops py (c :: t) := by
    obtain ⟨⟨hword, -⟩, hdecimal, hdouble, hsingle⟩ := isSymbol_of_mem py hc
    simp [Stops, hword, hdecimal, hpoint, hdouble, hsingle]
  cases op with
  | isIn => exact absurd rfl h
  | eq => exact hsymbol '=' (by decide) (by decide) _
  | ne => exact hsymbol '!' (by decide) (by decide) _
  | lt => exact hsymbol '<' (by decide) (by decide) _
  | le => exact hsymbol '<' (by decide) (by decide) _
  | gt => exact hsymbol '>' (by decide) (by decide) _
  | ge => exact hsymbol '>' (by decide) (by decide) _

theorem stops_nil : Stops py [] := by simp [Stops]

theorem LiteralComparison.findall_textOf (row : Name py) (c : LiteralComparison py) (operand : Str) :
    findall py (c.textOf row operand) =
      if c.operandFirst then findall py operand ++ (c.op.tokens ++ findall py (columnText row c.column))
      else findall py (columnText row c.column) ++ (c.op.tokens ++ findall py operand) := by
  have hop (t : Str) : findall py (c.before.text ++ (c.op.text ++ (c.after.text ++ t))) = c.op.tokens ++ findall py t := by
    rw [Blanks.findall_append, CompareOp.findall_append c.compares, Blanks.findall_append]
  have hstops (t : Str) : Stops py (c.before.text ++ (c.op.text ++ t)) := stops_blanks _ (CompareOp.stops c.compares t)
  have hlast (t : Str) : findall py (t ++ c.trail.text) = findall py t := by
    have htrail : Stops py c.trail.text := by simpa using stops_blanks c.trail (stops_nil : Stops py [])
    rw [LambdaFilter.findall_append htrail, Blanks.findall_text, List.append_nil]
  by_cases hfirst : c.operandFirst
  · simp only [textOf, hfirst, if_true, Blanks.findall_append, List.append_assoc,
      LambdaFilter.findall_append (hstops _), hop, hlast]
  · simp only [textOf, hfirst, Bool.false_eq_true, if_false, Blanks.findall_append, List.append_assoc,
      LambdaFilter.findall_append (hstops _), hop, hlast]

end tokens

section elements

variable {s t : Str}

theorem isWord_of_isWordChar (py : FilterPython F) {c : Char} (h : IsWordChar c) : py.isWord c = true := by
  have hascii := h.bounds.2
  rcases h with h | rfl
  · simp [Interpreter.isWord, hascii, h]
  · rfl

theorem isWordChar_of_isDigit {c : Char} (h : c.isDigit = true) : IsWordChar c := .inl (by simp [Char.isAlphanum, h])

/-- A text of words and points that starts with a word is one element. -/
theorem foldl_word (hs : IsDotted py s) (hhead : ∃ c ∈ s.head?, py.isWord c = true) {acc : List Str}
    (hacc : Undotted acc) : (findall py s).foldl mergeToken acc = s :: acc := by
  obtain ⟨c, hc, hword⟩ := hhead
  obtain ⟨rest, rfl⟩ : ∃ rest, s = c :: rest := by cases s <;> simp_all
  have := mergeTokens_word hs hword stops_nil.endsWord hacc
  rwa [List.append_nil] at this

/-- One that starts with a point goes on with the element before it, if there is any. -/
theorem foldl_point (hs : IsDotted py s) (hhead : s.head? = some '.') (last : Str) (done : List Str) :
    (findall py s).foldl mergeToken (last :: done) = (last ++ s) :: done := by
  have hnext : PointNext s := fun c hc => by simpa [hhead] using hc.symm
  have hlast : last.getLast? = some '.' ∨ PointNext s := .inr hnext
  have hfold : (findall py (s ++ [])).foldl mergeToken (last :: done) = (last ++ s) :: done :=
    mergeTokens_append hs stops_nil.endsWord hlast
  rwa [List.append_nil] at hfold

theorem foldl_point_nil (hs : IsDotted py s) (hhead : s.head? = some '.') :
    (findall py s).foldl mergeToken [] = [s] := by
  obtain ⟨rest, rfl⟩ : ∃ rest, s = '.' :: rest := by cases s <;> simp_all
  have hrest : IsDotted py rest := fun c hc => hs c (by simp [hc])
  have hlast : ['.'].getLast? = some '.' ∨ PointNext rest := .inl rfl
  have hfold : (findall py (rest ++ [])).foldl mergeToken [['.']] = [['.'] ++ rest] :=
    mergeTokens_append hrest stops_nil.endsWord hlast
  rw [List.append_nil] at hfold
  rw [findall_point, List.foldl_cons]
  exact hfold

theorem Signs.findall_append (sg : Signs) (t : Str) :
    findall py (sg.text ++ t) = sg.symbols.map ([·]) ++ findall py t := by
  have hsign := sg.sign
  rw [Signs.symbols]
  generalize sg.text = l at hsign
  induction l with
  | nil => rfl
  | cons c l ih =>
    obtain ⟨hc, hl⟩ := List.forall_mem_cons.mp hsign
    by_cases hsymbol : c = '+' ∨ c = '-'
    · have hc' : IsSymbol py c := isSymbol_of_mem py (by rcases hsymbol with rfl | rfl <;> decide)
      simp [hc'.findall_cons, hsymbol, ih hl]
    · have hb : IsBlank c := (hc.resolve_left fun h => hsymbol (.inl h)).resolve_left fun h => hsymbol (.inr h)
      simp [findall_blank hb, not_or.mp hsymbol, ih hl]

theorem Signs.mem_symbols {sg : Signs} {c : Char} (h : c ∈ sg.symbols) : c = '+' ∨ c = '-' := by
  simpa using (List.mem_filter.mp h).2

theorem foldl_symbols {l : Str} (hl : ∀ c ∈ l, c = '+' ∨ c = '-') {acc : List Str} (hacc : Undotted acc) :
    (l.map ([·])).foldl mergeToken acc = (l.map ([·])).reverse ++ acc ∧ Undotted ((l.map ([·])).reverse ++ acc) := by
  induction l generalizing acc with
  | nil => exact ⟨rfl, hacc⟩
  | cons c l ih =>
    obtain ⟨hc, hl⟩ := List.forall_mem_cons.mp hl
    have hpush : mergeToken acc [c] = [c] :: acc := by
      rcases hc with rfl | rfl <;> exact mergeToken_push hacc (by decide) (by decide)
    have hnext : Undotted ([c] :: acc) := by
      rcases hc with rfl | rfl <;> simp [undotted_cons]
    obtain ⟨hfold, hundotted⟩ := ih hl hnext
    rw [List.map_cons, List.foldl_cons, hpush, hfold, List.reverse_cons, List.append_assoc]
    exact ⟨rfl, hundotted⟩

/-- The signs of a number and its text, which goes on with the last sign when it starts with a point. -/
def signed (symbols number : Str) : List Str :=
  if number.head? = some '.' then symbols.dropLast.map ([·]) ++ [symbols.getLast?.toList ++ number]
  else symbols.map ([·]) ++ [number]

def Exponent.elements (e : Exponent) : List Str := [[if e.negative then '-' else '+'], e.digits.text]

def DecimalLiteral.exponentElements (l : DecimalLiteral py) : List Str := (l.exponent.map Exponent.elements).getD []

/-- The elements of an operand, behind others. -/
def Operand.elements : Operand py → List Str
  | integer l => signed l.signs.symbols l.number.text
  | decimal l => signed l.signs.symbols l.number ++ l.exponentElements
  | string s => simplify (findall py (s.quote :: s.cleaned ++ [s.quote]))
  | o => [o.text]

/-- A decimal number without sign that starts with a point goes on with the operator before it. -/
def Operand.Joins : Operand py → Prop
  | decimal l => l.signs.symbols = [] ∧ l.number.head? = some '.'
  | _ => False

theorem IntegerText.dotted (py : FilterPython F) (n : IntegerText) : IsDotted py n.text := fun c hc =>
  .inl (isWord_of_isWordChar py (n.word c hc))

theorem IntegerText.head_word (py : FilterPython F) (n : IntegerText) : ∃ c ∈ n.text.head?, py.isWord c = true := by
  obtain ⟨c, rest, hn, hdigit, -⟩ := n.exists_head
  exact ⟨c, by simp [hn], isWord_of_isWordChar py (isWordChar_of_isDigit hdigit)⟩

theorem DecimalLiteral.isDotted (l : DecimalLiteral py) : IsDotted py l.number := fun c hc =>
  (l.dotted c hc).imp_left (isWord_of_isWordChar py)

theorem DecimalLiteral.head_digit (l : DecimalLiteral py) (h : l.number.head? ≠ some '.') :
    ∃ c rest, l.number = c :: rest ∧ c.isDigit = true := by
  have hstart := l.start
  rw [if_neg h] at hstart
  cases hn : l.number with
  | nil => simp [hn] at hstart
  | cons c rest => exact ⟨c, rest, rfl, by simpa [hn] using hstart⟩

theorem foldl_signed (sg : Signs) (hs : IsDotted py s) (hhead : s.head? ≠ some '.' → ∃ c ∈ s.head?, py.isWord c = true)
    {acc : List Str} (hacc : Undotted acc) (hjoins : sg.symbols = [] → s.head? ≠ some '.') :
    (findall py (sg.text ++ s)).foldl mergeToken acc = (signed sg.symbols s).reverse ++ acc := by
  have hsymbols : ∀ c ∈ sg.symbols, c = '+' ∨ c = '-' := fun c hc => Signs.mem_symbols hc
  rw [Signs.findall_append, List.foldl_append]
  by_cases hpoint : s.head? = some '.'
  · obtain ⟨before, c, hbefore⟩ : ∃ before c, sg.symbols = before ++ [c] :=
      (List.eq_nil_or_concat' sg.symbols).resolve_left fun h => hjoins h hpoint
    rw [(foldl_symbols hsymbols hacc).1, hbefore]
    simp only [List.map_append, List.map_cons, List.map_nil, List.reverse_append, List.reverse_cons, List.reverse_nil,
      List.nil_append, List.cons_append]
    rw [foldl_point hs hpoint]
    simp [signed, hpoint]
  · obtain ⟨hfold, hundotted⟩ := foldl_symbols hsymbols hacc
    rw [hfold, foldl_word hs (hhead hpoint) hundotted]
    simp [signed, hpoint]

theorem Exponent.foldl_text (e : Exponent) {acc : List Str} (hacc : Undotted acc) :
    (findall py e.text).foldl mergeToken acc = e.elements.reverse ++ acc := by
  have hsymbol : IsSymbol py (if e.negative then '-' else '+') :=
    isSymbol_of_mem py (by cases e.negative <;> decide)
  have hpush : mergeToken acc [if e.negative then '-' else '+'] = [if e.negative then '-' else '+'] :: acc := by
    cases e.negative <;> exact mergeToken_push hacc (by decide) (by decide)
  have hnext : Undotted ([if e.negative then '-' else '+'] :: acc) := by
    cases e.negative <;> simp [undotted_cons]
  rw [Exponent.text, hsymbol.findall_cons, List.foldl_cons, hpush, foldl_word (e.digits.dotted py) (e.digits.head_word py) hnext]
  simp [elements]

theorem Exponent.stops (e : Exponent) : Stops py e.text := by
  have hsymbol : IsSymbol py (if e.negative then '-' else '+') :=
    isSymbol_of_mem py (by cases e.negative <;> decide)
  obtain ⟨⟨hword, -⟩, hdecimal, hdouble, hsingle⟩ := hsymbol
  have hpoint : (if e.negative then '-' else '+') ≠ '.' := by cases e.negative <;> decide
  simp [Stops, Exponent.text, hword, hdecimal, hdouble, hsingle, hpoint]

theorem DecimalLiteral.foldl_exponent (l : DecimalLiteral py) {acc : List Str}
    (hacc : l.exponent ≠ none → Undotted acc) :
    (findall py l.exponentText).foldl mergeToken acc = l.exponentElements.reverse ++ acc := by
  cases he : l.exponent with
  | none => simp [exponentText, exponentElements, he, findall, findallFrom]
  | some e =>
    simp only [exponentText, exponentElements, he, Option.map_some, Option.getD_some]
    exact e.foldl_text (hacc (by simp [he]))

theorem DecimalLiteral.findall_text (l : DecimalLiteral py) :
    findall py l.text = findall py (l.signs.text ++ l.number) ++ findall py l.exponentText := by
  have hstops : Stops py l.exponentText := by
    cases he : l.exponent with
    | none => simp [exponentText, he, Stops]
    | some e => simpa [exponentText, he] using e.stops
  exact LambdaFilter.findall_append hstops (l.signs.text ++ l.number)

theorem DecimalLiteral.undotted (l : DecimalLiteral py) (h : l.exponent ≠ none) (sign : Str) (done : List Str) :
    Undotted ((sign ++ l.number) :: done) := by
  have hlast : (sign ++ l.number).getLast? = l.number.getLast? := by
    rcases l.mark h with hm | hm <;> simp [List.getLast?_append, hm]
  rw [undotted_cons, hlast]
  rcases l.mark h with hm | hm <;> simp [hm]

theorem signed_undotted (l : DecimalLiteral py) (h : l.exponent ≠ none) (acc : List Str) :
    Undotted ((signed l.signs.symbols l.number).reverse ++ acc) := by
  rw [signed]
  split
  · simpa using l.undotted h _ _
  · simpa using l.undotted h [] _

theorem StringLiteral.quote_token (s : StringLiteral) {t : Str} (ht : t.head? = some s.quote) :
    (t ≠ ['='] ∧ t ≠ ['.']) ∧ t ≠ [] := by
  cases t with
  | nil => simp at ht
  | cons c t =>
    obtain rfl : c = s.quote := by simpa using ht
    rcases s.quote_eq with h | h <;> simp [h]

theorem matchLength_quote (py : FilterPython F) {q : Char} (hq : q = '"' ∨ q = '\'') (t : Str) : matchLength py (q :: t) ≠ 0 := by
  obtain ⟨⟨hword, hspace⟩, -⟩ := quote_chars py hq
  simp only [matchLength]
  split <;> simp_all

theorem findall_head (py : FilterPython F) {q : Char} (hq : q = '"' ∨ q = '\'') (t : Str) :
    ∃ token rest, findall py (q :: t) = token :: rest ∧ token.head? = some q := by
  obtain ⟨n, hn⟩ := Nat.exists_eq_succ_of_ne_zero (matchLength_quote py hq t)
  exact ⟨q :: t.take n, findall py (t.drop n), findall_cons hn, rfl⟩

theorem Operand.boolean_word (b : Bool) : ∀ c ∈ (boolean b : Operand py).text, py.isWord c = true := by
  cases b with
  | true =>
    have htrue : ∀ c ∈ "True".toList, IsWordChar c := by simp [IsWordChar]
    exact fun c hc => isWord_of_isWordChar py (htrue c hc)
  | false =>
    have hfalse : ∀ c ∈ "False".toList, IsWordChar c := by simp [IsWordChar]
    exact fun c hc => isWord_of_isWordChar py (hfalse c hc)

/-- The loop over the tokens of an operand that does not go on with the operator before it. -/
theorem Operand.foldl_elements {o : Operand py} (h : ¬o.Joins) {acc : List Str} (hacc : Undotted acc) :
    (findall py o.cleaned).foldl mergeToken acc = o.elements.reverse ++ acc := by
  cases o with
  | integer l =>
    refine foldl_signed l.signs (l.number.dotted py) (fun _ => l.number.head_word py) hacc fun _ hpoint => ?_
    obtain ⟨c, rest, hn, hdigit, -⟩ := l.number.exists_head
    obtain rfl : c = '.' := by simpa [hn] using hpoint
    simp at hdigit
  | decimal l =>
    have hhead (hpoint : l.number.head? ≠ some '.') : ∃ c ∈ l.number.head?, py.isWord c = true := by
      obtain ⟨c, rest, hn, hdigit⟩ := l.head_digit hpoint
      exact ⟨c, by simp [hn], isWord_of_isWordChar py (isWordChar_of_isDigit hdigit)⟩
    have hnumber := foldl_signed l.signs l.isDotted hhead hacc fun hs hpoint => h ⟨hs, hpoint⟩
    change (findall py l.text).foldl mergeToken acc = _
    rw [l.findall_text, List.foldl_append, hnumber, l.foldl_exponent fun he => signed_undotted l he acc]
    simp [elements]
  | boolean b =>
    refine foldl_word (fun c hc => .inl (Operand.boolean_word b c hc)) ?_ hacc
    cases b
    · exact ⟨'F', rfl, rfl⟩
    · exact ⟨'T', rfl, rfl⟩
  | string s =>
    obtain ⟨token, rest, hfind, hhead⟩ := findall_head py s.quote_eq (s.cleaned ++ [s.quote])
    obtain ⟨⟨heq, hpoint⟩, -⟩ := s.quote_token hhead
    have hpush : mergeToken acc token = token :: acc := mergeToken_push hacc heq hpoint
    have hfold := mergeTokens_before (List.cons_ne_nil token []) acc rest
    have hstart : mergeToken [] token = [token] := rfl
    simp only [cleaned, elements, List.cons_append, hfind, simplify, List.foldl_cons, hpush, hstart]
    simpa using hfold
  | captured v value =>
    have hdotted : IsDotted py v.text := fun c hc => .inl (v.word c hc)
    obtain ⟨c, rest, hv, -⟩ := py.identifier_start v.text v.identifier
    exact foldl_word hdotted ⟨c, by simp [hv], v.word c (by simp [hv])⟩ hacc

end elements

section comparisons

variable {row : Name py} {c : LiteralComparison py}

theorem foldl_column (row column : Name py) {acc : List Str} (hacc : Undotted acc) :
    (findall py (columnText row column)).foldl mergeToken acc = columnText row column :: acc := by
  have hdotted : IsDotted py (columnText row column) := fun d hd => by simpa using columnText_isWord row column d hd
  obtain ⟨d, rest, hrow, -⟩ := py.identifier_start row.text row.identifier
  exact foldl_word hdotted ⟨d, by simp [columnText, hrow], row.word d (by simp [hrow])⟩ hacc

theorem columnText_complete (row column : Name py) : Complete [columnText row column] := by
  rw [complete_cons, columnText_getLast?]
  exact ⟨column.token.2, columnText_ne row column '=', columnText_ne row column '<', columnText_ne row column '>'⟩

theorem LiteralComparison.simplify_left (hfirst : c.operandFirst = false) (h : ¬c.operand.Joins) :
    simplify (findall py (c.textOf row c.operand.cleaned)) =
      columnText row c.column :: c.op.simplified ++ c.operand.elements := by
  obtain ⟨hop, hundotted⟩ := c.op.simplifies _ (columnText_complete row c.column)
  have hstart : Undotted [] := by simp [Undotted]
  rw [simplify, c.findall_textOf, hfirst]
  simp only [Bool.false_eq_true, if_false, List.foldl_append, foldl_column row c.column hstart, hop,
    Operand.foldl_elements h hundotted]
  simp

/-- A number that starts with a point goes on with the operator. -/
theorem LiteralComparison.simplify_joined (row : Name py) (hfirst : c.operandFirst = false) (h : c.operand.Joins) :
    ∃ second more, simplify (findall py (c.textOf row c.operand.cleaned)) = columnText row c.column :: second :: more ∧
      (second = ['!'] ∨ ∃ o s, second = o :: s ∧ o ∈ "=<>".toList ∧ '.' ∈ s) := by
  cases ho : c.operand with
  | decimal l =>
    rw [ho] at h
    obtain ⟨hsymbols, hpoint⟩ := h
    have hmem : '.' ∈ l.number := List.mem_of_mem_head? hpoint
    have hnumber (last : Str) (done : List Str) :
        (findall py (l.signs.text ++ l.number)).foldl mergeToken (last :: done) = (last ++ l.number) :: done := by
      rw [Signs.findall_append, hsymbols]
      exact foldl_point l.isDotted hpoint last done
    have hfold (last : Str) (done : List Str) : (findall py (Operand.decimal l).cleaned).foldl mergeToken (last :: done) =
        l.exponentElements.reverse ++ (last ++ l.number) :: done := by
      change (findall py l.text).foldl mergeToken (last :: done) = _
      rw [l.findall_text, List.foldl_append, hnumber, l.foldl_exponent fun he => l.undotted he last done]
    obtain ⟨hop, -⟩ := c.op.simplifies _ (columnText_complete row c.column)
    have hstart : Undotted [] := by simp [Undotted]
    have hall : simplify (findall py (c.textOf row (Operand.decimal l).cleaned)) =
        ((findall py (Operand.decimal l).cleaned).foldl mergeToken
          (c.op.simplified.reverse ++ [columnText row c.column])).reverse := by
      rw [simplify, c.findall_textOf, hfirst]
      simp only [Bool.false_eq_true, if_false, List.foldl_append, foldl_column row c.column hstart, hop]
    rw [hall]
    have hjoined (o : Char) (rest : Str) (ho : o ∈ "=<>".toList) (hop : c.op.simplified = [o :: rest]) :
        ∃ second more, ((findall py (Operand.decimal l).cleaned).foldl mergeToken
            (c.op.simplified.reverse ++ [columnText row c.column])).reverse = columnText row c.column :: second :: more ∧
          (second = ['!'] ∨ ∃ o s, second = o :: s ∧ o ∈ "=<>".toList ∧ '.' ∈ s) :=
      ⟨o :: (rest ++ l.number), l.exponentElements, by simp [hop, hfold], .inr ⟨o, _, rfl, ho, by simp [hmem]⟩⟩
    cases hc : c.op with
    | isIn => exact absurd hc c.compares
    | ne => exact ⟨['!'], ('=' :: l.number) :: l.exponentElements, by simp [CompareOp.simplified, hfold], .inl rfl⟩
    | eq => exact hc ▸ hjoined '=' [] (by decide) (by simp [hc, CompareOp.simplified])
    | lt => exact hc ▸ hjoined '<' [] (by decide) (by simp [hc, CompareOp.simplified])
    | gt => exact hc ▸ hjoined '>' [] (by decide) (by simp [hc, CompareOp.simplified])
    | le => exact hc ▸ hjoined '<' ['='] (by decide) (by simp [hc, CompareOp.simplified])
    | ge => exact hc ▸ hjoined '>' ['='] (by decide) (by simp [hc, CompareOp.simplified])
  | _ => simp [ho, Operand.Joins] at h

theorem LiteralComparison.simplify_single (hfirst : c.operandFirst = true) {e : Str}
    (h : (findall py c.operand.cleaned).foldl mergeToken [] = [e]) (he : Complete [e]) :
    simplify (findall py (c.textOf row c.operand.cleaned)) = e :: c.op.simplified ++ [columnText row c.column] := by
  obtain ⟨hop, hundotted⟩ := c.op.simplifies _ he
  rw [simplify, c.findall_textOf, hfirst]
  simp only [if_true, List.foldl_append, h, hop, foldl_column row c.column hundotted]
  simp

/-- The first element of a comparison that starts with an operand of several tokens. -/
theorem LiteralComparison.simplify_first (row : Name py) (hfirst : c.operandFirst = true) {tokens rest : List Str} {x : Str}
    (hsplit : findall py c.operand.cleaned = tokens ++ rest) (hx : tokens.foldl mergeToken [] = [x]) :
    ∃ u more, simplify (findall py (c.textOf row c.operand.cleaned)) = (x ++ u) :: more ∧ (Complete [x] → PointNext u) := by
  obtain ⟨acc, u, hfold, hnext, -⟩ := mergeTokens_first x (rest ++ (c.op.tokens ++ findall py (columnText row c.column)))
  refine ⟨u, acc.reverse, ?_, hnext⟩
  rw [simplify, c.findall_textOf, hfirst, if_pos rfl, hsplit, List.append_assoc, List.foldl_append, hx, hfold]
  simp

end comparisons

end LambdaFilter

end Hecuba
