import Hecuba.LiteralsBehind

/-! Each kind of operand before the operator, and the literals that the filter keeps. -/

namespace Hecuba

namespace LambdaFilter

variable {F : Type} [DecidableEq F] {py : FilterPython F}

section right

variable {line : FilterLine py} {d : NamedDict py} {c : LiteralComparison py}

omit [DecidableEq F] in
theorem complete_word {t : Str} (h : ∀ c ∈ t, py.isWord c = true) : Complete [t] := by
  obtain ⟨⟨heq, hlt, hgt⟩, hpoint⟩ := word_token h (isWord_symbols py)
  exact complete_cons.mpr ⟨hpoint, heq, hlt, hgt⟩

/-- A number with a sign is no value before the operator, and no column. -/
theorem LiteralComparison.kept_signed_right (hfirst : c.operandFirst = true) {b : Char} (hb : b = '+' ∨ b = '-')
    {rest : List Str} (hsplit : findall py c.operand.cleaned = [[b]] ++ rest) : c.Kept d.toFilteredDict line := by
  have hplain (u : Str) : IsPlain ([b] ++ u) ∧ [b] ++ u ≠ ['a', 'n', 'd'] := isPlain_number rfl (hb.imp_right .inl)
  refine c.kept_of_none (c.hfilter_first hfirst d.named hsplit rfl (fun u => (hplain u).1) (fun u => (hplain u).2) ?_)
  rintro u v - hv
  have hclass : b.toNat < 128 ∧ b.isDigit = false := by rcases hb with rfl | rfl <;> decide
  have hsymbol : IsSymbol py b := isSymbol_of_mem py (by rcases hb with rfl | rfl <;> decide)
  obtain ⟨after, hafter⟩ := unquoted_cons ⟨hsymbol.2.2.1, hsymbol.2.2.2⟩ u
  obtain rfl : .str (b :: after) = v := by
    have htyped : line.typed (.str (b :: u)) = some (.str (b :: after)) := by rw [line.typed_sign hb, hafter]
    exact Option.some.inj (htyped.symm.trans hv)
  exact noColumn_symbol hclass hsymbol.1.1 after

/-- Neither is a number that has other characters than digits. -/
theorem LiteralComparison.kept_number_right (hfirst : c.operandFirst = true) {a : Char} {digits : Str}
    (ha : a.isDigit = true) (hother : ∃ b ∈ a :: digits, (IsWordChar b ∨ b = '.') ∧ b.isDigit = false)
    {tokens rest : List Str} (hsplit : findall py c.operand.cleaned = tokens ++ rest)
    (hfold : tokens.foldl mergeToken [] = [a :: digits]) : c.Kept d.toFilteredDict line := by
  have hplain (u : Str) : IsPlain (a :: digits ++ u) ∧ a :: digits ++ u ≠ ['a', 'n', 'd'] :=
    isPlain_number rfl (.inr (.inr ha))
  refine c.kept_of_none (c.hfilter_first hfirst d.named hsplit hfold (fun u => (hplain u).1) (fun u => (hplain u).2) ?_)
  rintro u v - hv
  obtain ⟨b, hb, hclass⟩ := hother
  exact line.typed_digit ha ⟨b, List.mem_append_left u hb, hclass⟩ hv

theorem LiteralComparison.kept_integer_right {l : IntegerLiteral} (ho : c.operand = .integer l)
    (hfirst : c.operandFirst = true) : c.Kept d.toFilteredDict line ↔ c.KeptBefore line d := by
  obtain ⟨a, digits, hn, hdigit, -⟩ := l.number.exists_head
  have hwords : ∀ b ∈ l.number.text, py.isWord b = true := fun b hb => isWord_of_isWordChar py (l.number.word b hb)
  have hfind : findall py c.operand.cleaned = l.signs.symbols.map ([·]) ++ [l.number.text] := by
    rw [ho, Operand.cleaned, Operand.text, IntegerLiteral.text, Signs.findall_append,
      findall_words hwords (by simp [hn])]
    simp
  cases hs : l.signs.symbols with
  | cons b symbols =>
    have hb : b = '+' ∨ b = '-' := l.signs.mem_symbols (by simp [hs])
    have hsplit : findall py c.operand.cleaned = [[b]] ++ (symbols.map ([·]) ++ [l.number.text]) := by
      rw [hfind, hs]
      rfl
    refine iff_of_true (c.kept_signed_right hfirst hb hsplit) ?_
    rw [KeptBefore, ho]
    exact .inl (by simp [hs])
  | nil =>
    rw [hs, List.map_nil, List.nil_append] at hfind
    by_cases hdigits : isDigits py l.number.text = true
    · have hvalue : c.operand.value = .int l.magnitude := by
        simp [ho, Operand.value, IntegerLiteral.value, Signs.negative, hs]
      have hplain := isPlain_number (t := l.number.text) (by rw [hn]; rfl) (.inr (.inr hdigit))
      have hcomplete := complete_word hwords
      have hfold : (findall py c.operand.cleaned).foldl mergeToken [] = [l.number.text] := by rw [hfind]; rfl
      by_cases hcaptured : line.Captures l.number.text
      · have htyped : line.typed (.str l.number.text) = some (.scalar (.str l.number.text)) := by
          rw [line.typed_integer, line.readNumber_captured hcaptured]
          rfl
        rw [c.kept_right_iff hfirst hfold hcomplete hplain.1 hplain.2 htyped, c.readBefore_text_iff, TextKept, KeptBefore,
          ho]
        simp [hdigits, hs, hcaptured, Operand.value]
      · have htyped : line.typed (.str l.number.text) = some (.scalar (.int l.magnitude)) := by
          rw [line.typed_integer, l.readNumber_iff.mpr ⟨hdigits, hcaptured⟩]
          rfl
        have hstart : startsWithValue py (.scalar (.int l.magnitude) : Item F) = true := rfl
        have hconstant : IsConstant (.int l.magnitude : Scalar F) := trivial
        rw [c.kept_right_iff hfirst hfold hcomplete hplain.1 hplain.2 htyped, readBefore_value_iff hstart hconstant,
          KeptBefore, ho]
        simp [hcaptured, ← ho, hvalue]
    · refine iff_of_true ?_ ?_
      · obtain ⟨b, hb, hother⟩ : ∃ b ∈ l.number.text, b.isDigit = false := by
          simpa using mt l.number.isDigits_iff.mpr hdigits
        have hsplit : findall py c.operand.cleaned = [a :: digits] ++ [] := by rw [hfind, hn]; rfl
        exact c.kept_number_right hfirst hdigit ⟨b, hn ▸ hb, .inl (l.number.word b hb), hother⟩ hsplit rfl
      · rw [KeptBefore, ho]
        exact .inr (.inl (by simpa using hdigits))

theorem LiteralComparison.kept_decimal_right {l : DecimalLiteral py} (ho : c.operand = .decimal l)
    (hfirst : c.operandFirst = true) : c.Kept d.toFilteredDict line := by
  have hfind : findall py c.operand.cleaned =
      l.signs.symbols.map ([·]) ++ (findall py l.number ++ findall py l.exponentText) := by
    have hcleaned : c.operand.cleaned = l.text := by rw [ho]; rfl
    rw [hcleaned, l.findall_text, Signs.findall_append, List.append_assoc]
  cases hs : l.signs.symbols with
  | cons b symbols =>
    have hb : b = '+' ∨ b = '-' := l.signs.mem_symbols (by simp [hs])
    rw [hs] at hfind
    exact c.kept_signed_right hfirst hb hfind
  | nil =>
    rw [hs, List.map_nil, List.nil_append] at hfind
    by_cases hpoint : l.number.head? = some '.'
    · obtain ⟨digits, hn⟩ : ∃ digits, l.number = '.' :: digits := by cases hn : l.number <;> simp_all
      have hfold : (findall py l.number).foldl mergeToken [] = [l.number] := foldl_point_nil l.isDotted hpoint
      have hplain (u : Str) : IsPlain (l.number ++ u) := isPlain_head (by rw [hn]; rfl) (by decide)
      have hand (u : Str) : l.number ++ u ≠ ['a', 'n', 'd'] := by simp [hn]
      refine c.kept_of_none (c.hfilter_first hfirst d.named hfind hfold hplain hand ?_)
      rintro u v - hv
      obtain ⟨after, hafter⟩ := unquoted_cons (c := '.') (by decide) (digits ++ u)
      obtain rfl : .str ('.' :: after) = v := by
        have htyped : line.typed (.str ('.' :: (digits ++ u))) = some (.str (unquoted ('.' :: (digits ++ u)))) :=
          typedItem_symbol (by decide) ⟨rfl, rfl⟩ _
        rw [hn, List.cons_append, htyped, hafter] at hv
        exact Option.some.inj hv
      exact noColumn_symbol (by decide) rfl after
    · obtain ⟨a, digits, hn, hdigit⟩ := l.head_digit hpoint
      obtain ⟨b, hb, hother⟩ := l.decimal
      have hhead : ∃ b ∈ l.number.head?, py.isWord b = true :=
        ⟨a, by simp [hn], isWord_of_isWordChar py (isWordChar_of_isDigit hdigit)⟩
      have hstart : Undotted [] := by simp [Undotted]
      have hfold : (findall py l.number).foldl mergeToken [] = [a :: digits] := by
        rw [foldl_word l.isDotted hhead hstart, hn]
      exact c.kept_number_right hfirst hdigit ⟨b, hn ▸ hb, l.dotted b hb, hother⟩ hfind hfold

theorem LiteralComparison.kept_word_iff (hfirst : c.operandFirst = true) {e : Str} (hcleaned : c.operand.cleaned = e)
    (hwords : ∀ b ∈ e, py.isWord b = true) (hne : e ≠ []) (hand : e ≠ ['a', 'n', 'd']) {v : Item F}
    (htyped : line.typed (.str e) = some v) :
    c.Kept d.toFilteredDict line ↔ ∀ condition, c.readBefore d.toFilteredDict v = some condition →
      (∃ o, c.op.flipped.comparator = some o ∧ condition = .comp c.column.text o (.scalar c.operand.value)) ∧
        IsConstant c.operand.value := by
  have hfold : (findall py c.operand.cleaned).foldl mergeToken [] = [e] := by
    rw [hcleaned, findall_words hwords hne]
    rfl
  exact c.kept_right_iff hfirst hfold (complete_word hwords) (isPlain_word hwords) hand htyped

theorem LiteralComparison.kept_boolean_right {b : Bool} (ho : c.operand = .boolean b) (hfirst : c.operandFirst = true) :
    c.Kept d.toFilteredDict line := by
  have hcleaned : c.operand.cleaned = if b then "True".toList else "False".toList := by rw [ho]; rfl
  have hwords : ∀ c ∈ if b then "True".toList else "False".toList, py.isWord c = true :=
    (Operand.boolean_word b : ∀ c ∈ (Operand.boolean b : Operand py).text, py.isWord c = true)
  have hne : (if b then "True".toList else "False".toList) ≠ [] := by cases b <;> decide
  have hand : (if b then "True".toList else "False".toList) ≠ ['a', 'n', 'd'] := by cases b <;> decide
  have hstart : startsWithValue py (.scalar (.bool b) : Item F) = true := rfl
  have hconstant : IsConstant (.bool b : Scalar F) := trivial
  rw [c.kept_word_iff hfirst hcleaned hwords hne hand (line.typed_boolean b), readBefore_value_iff hstart hconstant, ho]
  exact .inr (.inr rfl)

theorem LiteralComparison.kept_captured_right {n : Name py} {v : Scalar F} (ho : c.operand = .captured n v)
    (hfirst : c.operandFirst = true) (hlookup : line.dictv.lookup n.text = some (.scalar v)) :
    c.Kept d.toFilteredDict line ↔ c.KeptBefore line d := by
  have hcleaned : c.operand.cleaned = n.text := by rw [ho]; rfl
  have hvalue : c.operand.value = v := by rw [ho]; rfl
  rw [c.kept_word_iff hfirst hcleaned n.word n.ne_nil (n.ne_keyword (by decide)) (line.typed_captured hlookup)]
  cases v with
  | str s =>
    have hbefore : c.KeptBefore line d ↔
        if ('"' ∉ s ∧ '\'' ∉ s) ∧ (s = "True".toList ∨ s = "False".toList) then c.op.reversed = none ∨ ¬c.KnownColumn d
        else c.TextKept d (unquoted s) := by
      simp only [KeptBefore, ho]
    have hbool (b : Bool) : (∀ condition, c.readBefore d.toFilteredDict (.scalar (.bool b)) = some condition →
        (∃ o, c.op.flipped.comparator = some o ∧ condition = .comp c.column.text o (.scalar c.operand.value)) ∧
          IsConstant c.operand.value) ↔ c.op.reversed = none ∨ ¬c.KnownColumn d := by
      have hstart : startsWithValue py (.scalar (.bool b) : Item F) = true := rfl
      have hconstant : IsConstant (.bool b : Scalar F) := trivial
      rw [readBefore_value_iff hstart hconstant]
      simp [hvalue]
    rw [hbefore, readCaptured]
    by_cases hquotes : '"' ∈ s ∨ '\'' ∈ s
    · have hlost : ¬('"' ∉ s ∧ '\'' ∉ s) := by rwa [← not_or, not_not]
      rw [if_pos hquotes, c.readBefore_text_iff, if_neg fun h => hlost h.1]
    · have hplain : '"' ∉ s ∧ '\'' ∉ s := not_or.mp hquotes
      have hunquoted : unquoted s = s := by simp [unquoted, hplain]
      rw [if_neg hquotes, hunquoted]
      by_cases htrue : s = "True".toList
      · rw [if_pos htrue, hbool, if_pos ⟨hplain, .inl htrue⟩]
      · by_cases hfalse : s = "False".toList
        · rw [if_neg htrue, if_pos hfalse, hbool, if_pos ⟨hplain, .inr hfalse⟩]
        · rw [if_neg htrue, if_neg hfalse, c.readBefore_text_iff, if_neg fun h => h.2.elim htrue hfalse]
  | int n =>
    have hstart : startsWithValue py (.scalar (.int n) : Item F) = true := rfl
    have hconstant : IsConstant (.int n : Scalar F) := trivial
    have hbefore : c.KeptBefore line d := by simp only [KeptBefore, ho]
    have hread : readCaptured (.int n : Scalar F) = .int n := rfl
    rw [hread, readBefore_value_iff hstart hconstant]
    simp [hvalue, hbefore]
  | bool b =>
    have hstart : startsWithValue py (.scalar (.bool b) : Item F) = true := rfl
    have hconstant : IsConstant (.bool b : Scalar F) := trivial
    have hbefore : c.KeptBefore line d := by simp only [KeptBefore, ho]
    have hread : readCaptured (.bool b : Scalar F) = .bool b := rfl
    rw [hread, readBefore_value_iff hstart hconstant]
    simp [hvalue, hbefore]
  | float x =>
    have hbefore : c.KeptBefore line d := by simp only [KeptBefore, ho]
    have hunknown (o : Str) : (comp d.toFilteredDict (.scalar (.float x) : Item F) o (.str c.column.text)).toOption = none :=
      rfl
    refine iff_of_true ?_ hbefore
    intro condition hread
    cases ho : c.op.comparator <;> simp [readCaptured, readBefore, startsWithValue, hunknown, ho] at hread

theorem LiteralComparison.kept_string_right {s : StringLiteral} (ho : c.operand = .string s)
    (hfirst : c.operandFirst = true) : c.Kept d.toFilteredDict line ↔ c.KeptBefore line d := by
  have hbefore : c.KeptBefore line d ↔ (s.IsWord py → c.TextKept d s.cleaned) := by simp only [KeptBefore, ho]
  have hcleaned : c.operand.cleaned = s.quote :: (s.cleaned ++ [s.quote]) := by rw [ho]; rfl
  rw [hbefore]
  by_cases hword : s.IsWord py
  · have hfold : (findall py c.operand.cleaned).foldl mergeToken [] = [s.quote :: (s.cleaned ++ [s.quote])] := by
      rw [hcleaned, ← List.cons_append, findall_quoted s.quote_eq hword.2 hword.1]
      rfl
    have hcomplete : Complete [s.quote :: (s.cleaned ++ [s.quote])] := by
      have hlast : (s.quote :: s.cleaned ++ [s.quote]).getLast? = some s.quote := List.getLast?_concat
      rw [List.cons_append] at hlast
      rw [complete_cons, hlast]
      rcases s.quote_eq with h | h <;> simp [h]
    have htyped : line.typed (.str (s.quote :: (s.cleaned ++ [s.quote]))) = some (.str s.cleaned) :=
      line.typed_word s.quote_eq hword.2
    rw [c.kept_right_iff hfirst hfold hcomplete (s.isPlain _) (s.ne_and _) htyped, c.readBefore_text_iff]
    simp [hword]
  · refine iff_of_true ?_ fun h => absurd h hword
    have hsplit : findall py c.operand.cleaned = [[s.quote]] ++ findall py (s.cleaned ++ [s.quote]) := by
      rw [hcleaned, s.findall_parts hword]
      rfl
    refine c.kept_of_none (c.hfilter_first hfirst d.named hsplit rfl s.isPlain s.ne_and ?_)
    rintro u v hnext hv
    obtain ⟨hclass, -⟩ := quote_chars py s.quote_eq
    have hcomplete : Complete [[s.quote]] := by
      rw [complete_cons]
      rcases s.quote_eq with h | h <;> simp [h]
    obtain rfl : .str (unquoted (s.quote :: u)) = v := Option.some.inj ((line.typed_quote s.quote_eq u).symm.trans hv)
    -- behind the quote, if it is lost, come a point, an empty tuple or nothing
    obtain ⟨p, hunquoted, hkept⟩ := exists_unquoted (s.quote :: u)
    rw [hunquoted, List.filter_cons]
    split_ifs
    · exact noColumn_symbol (quote_ascii s.quote_eq) hclass.1 _
    · rcases hnext hcomplete with hpoint | rfl
      · cases u with
        | nil => exact noColumn_nil
        | cons b u =>
          obtain rfl : b = '.' := hpoint b rfl
          rw [List.filter_cons_of_pos (hkept '.' (by decide) (by decide))]
          exact noColumn_symbol (by decide) rfl _
      · have hparens : "()".toList = ['(', ')'] := rfl
        rw [hparens, List.filter_cons_of_pos (hkept '(' (by decide) (by decide))]
        exact noColumn_symbol (by decide) rfl _

end right

section literals

/-- A comparison with an intact literal keeps it, and keeps no other one, unless Python can refuse parts of its text. -/
theorem intact_literals_kept (line : FilterLine py) (d : NamedDict py) (c : LiteralComparison py)
    (hcaptured : c.operand.CapturedBy (line.func (c.text line.row))) :
    (c.Intact line d → c.Kept d.toFilteredDict line) ∧
      (c.IsPlainText → c.Kept d.toFilteredDict line → c.Intact line d) := by
  rw [LiteralComparison.Intact]
  cases hfirst : c.operandFirst with
  | true =>
    have hbefore (hkept : c.Kept d.toFilteredDict line) (h : c.KeptBefore line d) :
        c.Kept d.toFilteredDict line ↔ c.KeptBefore line d := iff_of_true hkept h
    rw [if_pos rfl]
    suffices hkept : c.Kept d.toFilteredDict line ↔ c.KeptBefore line d from ⟨hkept.mpr, fun _ => hkept.mp⟩
    cases ho : c.operand with
    | integer l => exact c.kept_integer_right ho hfirst
    | decimal l => exact hbefore (c.kept_decimal_right ho hfirst) (by simp only [LiteralComparison.KeptBefore, ho])
    | boolean b => exact hbefore (c.kept_boolean_right ho hfirst) (by simp only [LiteralComparison.KeptBefore, ho])
    | string s => exact c.kept_string_right ho hfirst
    | captured n v =>
      rw [ho] at hcaptured
      exact c.kept_captured_right ho hfirst hcaptured
  | false =>
    rw [if_neg Bool.false_ne_true]
    have hexact (hkept : c.Kept d.toFilteredDict line ↔ c.op = .ne ∨ ¬c.KnownColumn d ∨ c.operand.KeptBehind line) :
        (c.op = .ne ∨ ¬c.KnownColumn d ∨ c.operand.KeptBehind line → c.Kept d.toFilteredDict line) ∧
          (c.IsPlainText → c.Kept d.toFilteredDict line →
            c.op = .ne ∨ ¬c.KnownColumn d ∨ c.operand.KeptBehind line) := ⟨hkept.mpr, fun _ => hkept.mp⟩
    cases ho : c.operand with
    | integer l => exact ho ▸ hexact (c.kept_integer_left ho hfirst)
    | decimal l => exact ho ▸ hexact (c.kept_decimal_left ho hfirst)
    | boolean b => exact ho ▸ hexact (c.kept_boolean_left ho hfirst)
    | string s =>
      obtain ⟨hkept, hintact⟩ := @LiteralComparison.kept_string_left F _ py line d c s ho hfirst
      exact ho ▸ ⟨hkept, fun htext => hintact (htext s ho hfirst)⟩
    | captured n v =>
      rw [ho] at hcaptured
      exact ho ▸ hexact (c.kept_captured_left ho hfirst hcaptured)

def namedDict : NamedDict integerPython where
  toFilteredDict := integerDict.toFilteredDict
  named := by simp [integerDict, IsColumnName]; decide

def oneBlank : Blanks := ⟨[' '], by simp [IsBlank]⟩

def variableName : Name integerPython := ⟨['v'], by decide, by simp; decide⟩

/-- A comparison of the first column with an operand. -/
def equalTo (operand : Operand integerPython) : LiteralComparison integerPython where
  column := columnA
  op := .eq
  operand := operand
  operandFirst := false
  lead := oneBlank
  before := oneBlank
  after := oneBlank
  trail := ⟨[], by simp⟩
  compares := by decide

/-- `r = filter(lambda x: x.a == v, d)`, with this value of the variable. -/
def capturedLine (value : Scalar Empty) : FilterLine integerPython where
  before := "r = filter(".toList
  row := rowName
  after := " d)".toList
  captured := [(variableName, .scalar value)]
  first_lambda := by decide
  last_comma := by decide

/-- Two words between quotes. -/
def twoWords : StringLiteral where
  quote := '"'
  content := "a b".toList
  value := "a b".toList
  quote_eq := .inl rfl
  closed := by simp
  value_plain _ := rfl

theorem captured_text_kept :
    hfilter integerPython namedDict.toFilteredDict
        ((capturedLine (.str "a b".toList)).func " x.a == v".toList) =
      .ok [.comp ['a'] ['='] (.str "a b".toList)] ∧
    (equalTo (.captured variableName (.str "a b".toList))).Kept namedDict.toFilteredDict
      (capturedLine (.str "a b".toList)) := by
  have hkept := (intact_literals_kept (capturedLine (.str "a b".toList)) namedDict
    (equalTo (.captured variableName (.str "a b".toList))) rfl).1
  have hplain : ('"' ∉ "a b".toList ∧ '\'' ∉ "a b".toList) ∧ "a b".toList ≠ "True".toList ∧ "a b".toList ≠ "False".toList := by
    decide
  exact ⟨by decide, hkept (.inr (.inr hplain))⟩

theorem two_words_not_kept : ¬ ∀ (line : FilterLine integerPython) (d : NamedDict integerPython)
    (c : LiteralComparison integerPython), c.operand.CapturedBy (line.func (c.text line.row)) →
      c.Kept d.toFilteredDict line := by
  intro h
  have hkept := h (capturedLine (.int 0)) namedDict (equalTo (.string twoWords)) trivial
  have hfilter : hfilter integerPython namedDict.toFilteredDict
      ((capturedLine (.int 0)).func ((equalTo (.string twoWords)).text rowName)) = .ok [.comp ['a'] ['='] (.str [])] := by
    decide
  obtain ⟨⟨op, -, hvalue⟩, -⟩ := hkept _ hfilter
  exact absurd hvalue (by simp [equalTo, Operand.value, twoWords])

end literals

end LambdaFilter

end Hecuba
