import Hecuba.LiteralParts

/-! Each kind of operand behind the operator. -/

namespace Hecuba

namespace LambdaFilter

variable {F : Type} [DecidableEq F] {py : FilterPython F}

section numbers

variable {line : FilterLine py}

theorem FilterLine.typed_sign {c : Char} (hc : c = '+' ∨ c = '-') (rest : Str) :
    line.typed (.str (c :: rest)) = some (.str (unquoted (c :: rest))) := by
  have hascii : c.toNat < 128 ∧ c.isDigit = false := by rcases hc with rfl | rfl <;> decide
  have hsymbol : IsSymbol py c := isSymbol_of_mem py (by rcases hc with rfl | rfl <;> decide)
  exact typedItem_symbol hascii hsymbol.1 rest

theorem FilterLine.typed_integer (n : IntegerText) :
    line.typed (.str n.text) = (readNumber py line.dictv n.text).map .scalar := by
  obtain ⟨c, rest, hn, hdigit, -⟩ := n.exists_head
  have hchars : ∀ d ∈ c :: rest, IsWordChar d ∨ d = '.' := fun d hd => .inl (n.word d (hn ▸ hd))
  rw [hn, line.typed_number hdigit hchars]

theorem DecimalLiteral.typed_number (l : DecimalLiteral py) (h : l.number.head? ≠ some '.') :
    line.typed (.str l.number) = (readNumber py line.dictv l.number).map .scalar := by
  obtain ⟨c, rest, hn, hdigit⟩ := l.head_digit h
  have hchars : ∀ d ∈ c :: rest, IsWordChar d ∨ d = '.' := fun d hd => l.dotted d (hn ▸ hd)
  rw [hn, line.typed_number hdigit hchars]

theorem FilterLine.readNumber_captured {t : Str} (h : line.Captures t) : readNumber py line.dictv t = some (.str t) := by
  rw [readNumber, if_pos (List.contains_iff_mem.mpr h)]

theorem FilterLine.readNumber_free {t : Str} (h : ¬line.Captures t) :
    readNumber py line.dictv t =
      if isDigits py t then (py.toInt t).toOption.map .int else (py.toFloat t).toOption.map .float := by
  rw [readNumber, if_neg fun hcontains => h (List.contains_iff_mem.mp hcontains)]

omit [DecidableEq F] in
theorem IntegerText.isDigits_iff (n : IntegerText) : isDigits py n.text = true ↔ ∀ c ∈ n.text, c.isDigit = true := by
  obtain ⟨c, rest, hn, -⟩ := n.exists_head
  have hne : n.text ≠ [] := by simp [hn]
  simp only [isDigits, hne, ne_eq, not_false_eq_true, decide_true, Bool.true_and, List.all_eq_true]
  refine forall₂_congr fun c hc => ?_
  rw [if_pos (n.word c hc).bounds.2]

theorem IntegerLiteral.readNumber_iff (l : IntegerLiteral) :
    readNumber py line.dictv l.number.text = some (.int l.magnitude) ↔
      isDigits py l.number.text = true ∧ ¬line.Captures l.number.text := by
  by_cases hcaptured : line.Captures l.number.text
  · simp [line.readNumber_captured hcaptured, hcaptured]
  · rw [line.readNumber_free hcaptured]
    by_cases hdigits : isDigits py l.number.text = true
    · have hall := l.number.isDigits_iff.mp hdigits
      have hne : l.number.text ≠ [] := by
        obtain ⟨c, rest, hn, -⟩ := l.number.exists_head
        simp [hn]
      simp [hcaptured, hdigits, py.toInt_digits _ hne hall, Except.toOption, l.magnitude_digits hall]
    · simp [hdigits]

omit [DecidableEq F] in
theorem DecimalLiteral.isDigits_number (l : DecimalLiteral py) : isDigits py l.number = false := by
  obtain ⟨c, hc, hdigit⟩ := l.decimal
  have hascii : c.toNat < 128 := (l.dotted c hc).elim (fun h => h.bounds.2) fun h => by simp [h]
  simp only [isDigits, Bool.and_eq_false_iff, List.all_eq_false]
  exact .inr ⟨c, hc, by simp [hascii, hdigit]⟩

/-- A decimal number that Python does not refuse is read, unless its text is captured. -/
theorem DecimalLiteral.readNumber_iff (l : DecimalLiteral py) (hread : readNumber py line.dictv l.number ≠ none) :
    readNumber py line.dictv l.number = some (.float l.magnitude) ↔ ¬line.Captures l.number := by
  by_cases hcaptured : line.Captures l.number
  · simp [line.readNumber_captured hcaptured, hcaptured]
  · rw [line.readNumber_free hcaptured, l.isDigits_number] at hread ⊢
    have hexponent : l.exponent = none := by
      by_contra he
      simp [l.toFloat_unfinished he] at hread
    simp [l.toFloat_number hexponent, Except.toOption, hcaptured]

end numbers

section left

variable {line : FilterLine py} {d : NamedDict py} {c : LiteralComparison py}

omit [DecidableEq F] in
theorem isPlain_number {a : Char} {t : Str} (h : t.head? = some a) (ha : a = '+' ∨ a = '-' ∨ a.isDigit = true) :
    IsPlain t ∧ t ≠ ['a', 'n', 'd'] := by
  have hclass : ((a ≠ '[' ∧ a ≠ ']') ∧ a ≠ '(' ∧ a ≠ ')') ∧ a ≠ 'a' := by
    rcases ha with rfl | rfl | ha
    · decide
    · decide
    · refine ⟨⟨⟨?_, ?_⟩, ?_, ?_⟩, ?_⟩ <;> rintro rfl <;> simp at ha
  exact ⟨isPlain_head h hclass.1, fun ht => hclass.2 (by simpa [ht] using h.symm)⟩

theorem LiteralComparison.kept_number_iff (hfirst : c.operandFirst = false) (hjoins : ¬c.operand.Joins) {first : Str}
    {rest : List Str} (helements : c.operand.elements = first :: rest)
    (hhead : ∀ t ∈ first :: rest, ∃ a, t.head? = some a ∧ (a = '+' ∨ a = '-' ∨ a.isDigit = true))
    {refused : Prop} (hrefused : (∃ t ∈ first :: rest, line.typed (.str t) = none) ↔ refused) :
    c.Kept d.toFilteredDict line ↔ c.op = .ne ∨ ¬c.KnownColumn d ∨ refused ∨
      line.typed (.str first) = some (.scalar c.operand.value) ∧ IsConstant c.operand.value := by
  have hplain (t : Str) (ht : t ∈ first :: rest) : IsPlain t ∧ t ≠ ['a', 'n', 'd'] := by
    obtain ⟨a, ha, hclass⟩ := hhead t ht
    exact isPlain_number ha hclass
  rw [c.kept_plain_iff hfirst hjoins helements (fun t ht => (hplain t ht).1) fun t ht => (hplain t ht).2, hrefused]

omit [DecidableEq F] in
theorem signed_head {symbols number : Str} (hs : ∀ c ∈ symbols, c = '+' ∨ c = '-')
    (hn : number.head? ≠ some '.' → ∃ a, number.head? = some a ∧ a.isDigit = true)
    (hjoins : symbols = [] → number.head? ≠ some '.') :
    ∀ t ∈ signed symbols number, ∃ a, t.head? = some a ∧ (a = '+' ∨ a = '-' ∨ a.isDigit = true) := by
  have hsymbols (l : Str) (hl : ∀ c ∈ l, c ∈ symbols) :
      ∀ t ∈ l.map ([·]), ∃ a, t.head? = some a ∧ (a = '+' ∨ a = '-' ∨ a.isDigit = true) := by
    simp only [List.mem_map]
    rintro t ⟨b, hb, rfl⟩
    exact ⟨b, rfl, (hs b (hl b hb)).imp_right .inl⟩
  rw [signed]
  split_ifs with hpoint
  · obtain ⟨before, b, rfl⟩ : ∃ before b, symbols = before ++ [b] :=
      (List.eq_nil_or_concat' symbols).resolve_left fun h => hjoins h hpoint
    rw [List.forall_mem_append]
    refine ⟨hsymbols _ (by simp +contextual), ?_⟩
    simpa using (hs b (by simp)).imp_right .inl
  · obtain ⟨a, ha, hdigit⟩ := hn hpoint
    rw [List.forall_mem_append]
    refine ⟨hsymbols _ fun c hc => hc, ?_⟩
    simpa [ha] using Or.inr (Or.inr hdigit)

/-- Of a number with its signs, only the number itself can be refused. -/
theorem FilterLine.signed_refused {symbols number : Str} (hs : ∀ c ∈ symbols, c = '+' ∨ c = '-')
    (hjoins : symbols = [] → number.head? ≠ some '.') :
    (∃ t ∈ signed symbols number, line.typed (.str t) = none) ↔
      number.head? ≠ some '.' ∧ line.typed (.str number) = none := by
  have hsymbols (l : Str) (hl : ∀ c ∈ l, c ∈ symbols) : ∀ t ∈ l.map ([·]), line.typed (.str t) ≠ none := by
    simp only [List.mem_map]
    rintro t ⟨b, hb, rfl⟩
    simp [line.typed_sign (hs b (hl b hb))]
  rw [signed]
  split_ifs with hpoint
  · obtain ⟨before, b, rfl⟩ : ∃ before b, symbols = before ++ [b] :=
      (List.eq_nil_or_concat' symbols).resolve_left fun h => hjoins h hpoint
    simp only [List.mem_append, List.mem_singleton, hpoint, ne_eq, not_true_eq_false, false_and, iff_false]
    rintro ⟨t, ht | rfl, hnone⟩
    · exact hsymbols _ (by simp +contextual) t ht hnone
    · simp [line.typed_sign (hs b (by simp))] at hnone
  · simp only [List.mem_append, List.mem_singleton]
    constructor
    · rintro ⟨t, ht | rfl, hnone⟩
      · exact absurd hnone (hsymbols _ (fun c hc => hc) t ht)
      · exact ⟨hpoint, hnone⟩
    · exact fun h => ⟨number, .inr rfl, h.2⟩

omit [DecidableEq F] in
theorem signed_cons (b : Char) (symbols number : Str) :
    ∃ t rest, signed (b :: symbols) number = (b :: t) :: rest := by
  rw [signed]
  split_ifs
  · cases symbols with
    | nil => exact ⟨number, [], rfl⟩
    | cons b' symbols => exact ⟨[], _, rfl⟩
  · exact ⟨[], _, rfl⟩

theorem LiteralComparison.kept_integer_left {l : IntegerLiteral} (ho : c.operand = .integer l)
    (hfirst : c.operandFirst = false) :
    c.Kept d.toFilteredDict line ↔ c.op = .ne ∨ ¬c.KnownColumn d ∨ c.operand.KeptBehind line := by
  have hjoins : ¬c.operand.Joins := by simp [ho, Operand.Joins]
  obtain ⟨a, digits, hn, hdigit, -⟩ := l.number.exists_head
  have hpoint : l.number.text.head? ≠ some '.' := by
    rw [hn]
    rintro h
    obtain rfl : a = '.' := by simpa using h
    simp at hdigit
  have hsigns : ∀ c ∈ l.signs.symbols, c = '+' ∨ c = '-' := fun c hc => Signs.mem_symbols hc
  have hdigit' : l.number.text.head? ≠ some '.' → ∃ a, l.number.text.head? = some a ∧ a.isDigit = true :=
    fun _ => ⟨a, by rw [hn]; rfl, hdigit⟩
  have hhead := signed_head hsigns hdigit' fun _ => hpoint
  have hrefused := line.signed_refused hsigns fun _ => hpoint
  have helements : c.operand.elements = signed l.signs.symbols l.number.text := by rw [ho, Operand.elements]
  have htyped : line.typed (.str l.number.text) = none ↔ readNumber py line.dictv l.number.text = none := by
    rw [line.typed_integer, Option.map_eq_none_iff]
  cases hs : l.signs.symbols with
  | nil =>
    have hnil : signed [] l.number.text = [l.number.text] := by rw [signed, if_neg hpoint]; rfl
    rw [hs, hnil] at helements hhead hrefused
    have hvalue : c.operand.value = .int l.magnitude := by
      simp [ho, Operand.value, IntegerLiteral.value, Signs.negative, hs]
    rw [c.kept_number_iff hfirst hjoins helements hhead hrefused, hvalue, htyped, line.typed_integer, ho,
      Operand.KeptBehind]
    simp [hs, hpoint, l.readNumber_iff, IsConstant]
  | cons b symbols =>
    obtain ⟨t, rest, hcons⟩ := signed_cons b symbols l.number.text
    rw [hs] at hsigns
    rw [hs, hcons] at helements hhead hrefused
    rw [c.kept_number_iff hfirst hjoins helements hhead hrefused, htyped, line.typed_sign (hsigns b (by simp)), ho,
      Operand.KeptBehind]
    simp [hs, hpoint, Operand.value]

omit [DecidableEq F] in
theorem DecimalLiteral.exponent_head (l : DecimalLiteral py) :
    ∀ t ∈ l.exponentElements, ∃ a, t.head? = some a ∧ (a = '+' ∨ a = '-' ∨ a.isDigit = true) := by
  cases he : l.exponent with
  | none => simp [exponentElements, he]
  | some e =>
    obtain ⟨a, digits, hn, hdigit, -⟩ := e.digits.exists_head
    simp only [exponentElements, he, Option.map_some, Option.getD_some, Exponent.elements, List.mem_cons,
      List.not_mem_nil, or_false]
    rintro t (rfl | rfl)
    · exact ⟨_, rfl, by cases e.negative <;> simp⟩
    · exact ⟨a, by rw [hn]; rfl, .inr (.inr hdigit)⟩

theorem DecimalLiteral.exponent_refused (l : DecimalLiteral py) :
    (∃ t ∈ l.exponentElements, line.typed (.str t) = none) ↔
      ∃ e, l.exponent = some e ∧ readNumber py line.dictv e.digits.text = none := by
  cases he : l.exponent with
  | none => simp [exponentElements, he]
  | some e =>
    have hsign : line.typed (.str [if e.negative then '-' else '+']) ≠ none := by
      have hclass : (if e.negative then '-' else '+') = '+' ∨ (if e.negative then '-' else '+') = '-' := by
        cases e.negative <;> simp
      simp [line.typed_sign hclass]
    simp [exponentElements, he, Exponent.elements, hsign, line.typed_integer]

theorem LiteralComparison.kept_decimal_left {l : DecimalLiteral py} (ho : c.operand = .decimal l)
    (hfirst : c.operandFirst = false) :
    c.Kept d.toFilteredDict line ↔ c.op = .ne ∨ ¬c.KnownColumn d ∨ c.operand.KeptBehind line := by
  by_cases hjoins : c.operand.Joins
  · have hkept : c.operand.KeptBehind line := by
      rw [ho] at hjoins ⊢
      exact .inr ⟨hjoins.1, .inl hjoins.2⟩
    exact iff_of_true (c.kept_of_none (c.hfilter_joined hfirst hjoins)) (.inr (.inr hkept))
  have hpoint (hs : l.signs.symbols = []) : l.number.head? ≠ some '.' := fun h => hjoins (by rw [ho]; exact ⟨hs, h⟩)
  have hsigns : ∀ c ∈ l.signs.symbols, c = '+' ∨ c = '-' := fun c hc => Signs.mem_symbols hc
  have hdigit (h : l.number.head? ≠ some '.') : ∃ a, l.number.head? = some a ∧ a.isDigit = true := by
    obtain ⟨a, rest, hn, ha⟩ := l.head_digit h
    exact ⟨a, by rw [hn]; rfl, ha⟩
  have helements : c.operand.elements = signed l.signs.symbols l.number ++ l.exponentElements := by
    rw [ho, Operand.elements]
  have hhead : ∀ t ∈ signed l.signs.symbols l.number ++ l.exponentElements,
      ∃ a, t.head? = some a ∧ (a = '+' ∨ a = '-' ∨ a.isDigit = true) :=
    List.forall_mem_append.mpr ⟨signed_head hsigns hdigit hpoint, l.exponent_head⟩
  have hrefused : (∃ t ∈ signed l.signs.symbols l.number ++ l.exponentElements, line.typed (.str t) = none) ↔
      l.Refused line := by
    have hnumber : l.number.head? ≠ some '.' ∧ line.typed (.str l.number) = none ↔
        l.number.head? ≠ some '.' ∧ readNumber py line.dictv l.number = none :=
      and_congr_right fun h => by rw [l.typed_number h, Option.map_eq_none_iff]
    simp only [List.mem_append, or_and_right, exists_or]
    rw [line.signed_refused hsigns hpoint, l.exponent_refused, hnumber, DecimalLiteral.Refused]
  cases hs : l.signs.symbols with
  | nil =>
    have hnil : signed [] l.number = [l.number] := by rw [signed, if_neg (hpoint hs)]; rfl
    rw [hs, hnil] at helements hhead hrefused
    have hvalue : c.operand.value = .float l.magnitude := by
      simp [ho, Operand.value, DecimalLiteral.value, Signs.negative, hs]
    rw [c.kept_number_iff hfirst hjoins helements hhead hrefused, hvalue, l.typed_number (hpoint hs), ho,
      Operand.KeptBehind]
    refine or_congr_right (or_congr_right (or_congr_right' fun hread => ?_))
    have hsome : readNumber py line.dictv l.number ≠ none := fun h => hread (.inl ⟨hpoint hs, h⟩)
    simp [hs, hpoint hs, l.readNumber_iff hsome, IsConstant]
  | cons b symbols =>
    obtain ⟨t, rest, hcons⟩ := signed_cons b symbols l.number
    rw [hs] at hsigns
    rw [hs, hcons] at helements hhead hrefused
    rw [c.kept_number_iff hfirst hjoins helements hhead hrefused, line.typed_sign (hsigns b (by simp)), ho,
      Operand.KeptBehind]
    simp [hs, Operand.value]

theorem LiteralComparison.kept_single_iff (hfirst : c.operandFirst = false) (hjoins : ¬c.operand.Joins) {e : Str}
    (helements : c.operand.elements = [e]) (hplain : IsPlain e) (hand : e ≠ ['a', 'n', 'd']) {v : Scalar F}
    (htyped : line.typed (.str e) = some (.scalar v)) :
    c.Kept d.toFilteredDict line ↔
      c.op = .ne ∨ ¬c.KnownColumn d ∨ v = c.operand.value ∧ IsConstant c.operand.value := by
  rw [c.kept_plain_iff hfirst hjoins helements (by simpa using hplain) (by simpa using hand)]
  simp [htyped]

omit [DecidableEq F] in
theorem isPlain_word {t : Str} (h : ∀ c ∈ t, py.isWord c = true) : IsPlain t := by
  have hne (b : Char) (hb : py.isWord b = false) : t ≠ [b] := by
    rintro rfl
    rw [h b (by simp)] at hb
    cases hb
  exact ⟨hne _ rfl, hne _ rfl, hne _ rfl, hne _ rfl⟩

omit [DecidableEq F] in
theorem unquoted_ne {s : Str} (h : '"' ∈ s ∨ '\'' ∈ s) : unquoted s ≠ s := by
  intro heq
  by_cases hdouble : '"' ∈ s
  · rw [unquoted, if_pos (List.contains_iff_mem.mpr hdouble)] at heq
    rw [← heq] at hdouble
    simp at hdouble
  · have hsingle := h.resolve_left hdouble
    rw [unquoted, if_neg fun hc => hdouble (List.contains_iff_mem.mp hc),
      if_pos (List.contains_iff_mem.mpr hsingle)] at heq
    rw [← heq] at hsingle
    simp at hsingle

theorem LiteralComparison.kept_boolean_left {b : Bool} (ho : c.operand = .boolean b) (hfirst : c.operandFirst = false) :
    c.Kept d.toFilteredDict line ↔ c.op = .ne ∨ ¬c.KnownColumn d ∨ c.operand.KeptBehind line := by
  have hjoins : ¬c.operand.Joins := by simp [ho, Operand.Joins]
  have helements : c.operand.elements = [if b then "True".toList else "False".toList] := by rw [ho]; rfl
  have hplain : IsPlain (if b then "True".toList else "False".toList) :=
    isPlain_word (Operand.boolean_word b : ∀ c ∈ (Operand.boolean b : Operand py).text, py.isWord c = true)
  have hand : (if b then "True".toList else "False".toList) ≠ ['a', 'n', 'd'] := by cases b <;> decide
  rw [c.kept_single_iff hfirst hjoins helements hplain hand (line.typed_boolean b), ho]
  simp [Operand.value, Operand.KeptBehind, IsConstant]

theorem LiteralComparison.kept_captured_left {n : Name py} {v : Scalar F} (ho : c.operand = .captured n v)
    (hfirst : c.operandFirst = false) (hlookup : line.dictv.lookup n.text = some (.scalar v)) :
    c.Kept d.toFilteredDict line ↔ c.op = .ne ∨ ¬c.KnownColumn d ∨ c.operand.KeptBehind line := by
  have hjoins : ¬c.operand.Joins := by simp [ho, Operand.Joins]
  have helements : c.operand.elements = [n.text] := by rw [ho]; rfl
  rw [c.kept_single_iff hfirst hjoins helements (isPlain_word n.word) (n.ne_keyword (by decide)) (line.typed_captured hlookup), ho]
  refine or_congr_right (or_congr_right ?_)
  cases v with
  | str s =>
    simp only [Operand.value, Operand.KeptBehind, readCaptured, IsConstant]
    by_cases hquotes : '"' ∈ s ∨ '\'' ∈ s
    · have hlost : ¬('"' ∉ s ∧ '\'' ∉ s) := by rwa [← not_or, not_not]
      simp [hquotes, hlost, unquoted_ne hquotes]
    · obtain ⟨hdouble, hsingle⟩ := not_or.mp hquotes
      rw [if_neg hquotes]
      split_ifs with htrue hfalse
      · simp [htrue]
      · simp [hfalse]
      · simp only [hdouble, hsingle, htrue, hfalse, ne_eq, not_false_eq_true, and_self]
  | _ => simp [Operand.value, Operand.KeptBehind, readCaptured, IsConstant]

omit [DecidableEq F] in
theorem StringLiteral.exists_elements (py : FilterPython F) (s : StringLiteral) :
    ∃ t rest, (Operand.string s : Operand py).elements = (s.quote :: t) :: rest := by
  obtain ⟨token, tokens, hfind, hhead⟩ := findall_head py s.quote_eq (s.cleaned ++ [s.quote])
  obtain ⟨acc, u, hfold, -⟩ := mergeTokens_first token tokens
  obtain ⟨t, rfl⟩ : ∃ t, token = s.quote :: t := by
    cases token with
    | nil => simp at hhead
    | cons c t => exact ⟨t, by simpa using hhead⟩
  have hstart : mergeToken [] (s.quote :: t) = [s.quote :: t] := rfl
  refine ⟨t ++ u, acc.reverse, ?_⟩
  rw [Operand.elements, List.cons_append, hfind, simplify, List.foldl_cons, hstart, hfold]
  simp

theorem LiteralComparison.kept_word_left {s : StringLiteral} (ho : c.operand = .string s)
    (hfirst : c.operandFirst = false) (hword : s.IsWord py) :
    c.Kept d.toFilteredDict line ↔ c.op = .ne ∨ ¬c.KnownColumn d ∨ s.value = s.cleaned := by
  have hjoins : ¬c.operand.Joins := by simp [ho, Operand.Joins]
  have helements : c.operand.elements = [s.quote :: s.cleaned ++ [s.quote]] := by
    rw [ho, Operand.elements, findall_quoted s.quote_eq hword.2 hword.1]
    rfl
  have hconstant : '\'' ∉ s.cleaned := fun h => by
    have := hword.2 _ h
    simp [(quote_chars py (.inr rfl)).1.1] at this
  rw [c.kept_single_iff hfirst hjoins helements (s.isPlain _) (s.ne_and _) (line.typed_word s.quote_eq hword.2), ho]
  simp only [Operand.value, Scalar.str.injEq, IsConstant]
  exact or_congr_right (or_congr_right ⟨fun h => h.1.symm, fun h => ⟨h.symm, h ▸ hconstant⟩⟩)

/-- A text between quotes behind the operator. -/
theorem LiteralComparison.kept_string_left {s : StringLiteral} (ho : c.operand = .string s)
    (hfirst : c.operandFirst = false) :
    (c.op = .ne ∨ ¬c.KnownColumn d ∨ c.operand.KeptBehind line → c.Kept d.toFilteredDict line) ∧
      (s.IsWord py ∨ s.IsPointed py ∨ s.IsProse py → c.Kept d.toFilteredDict line →
        c.op = .ne ∨ ¬c.KnownColumn d ∨ c.operand.KeptBehind line) := by
  rw [ho, Operand.KeptBehind]
  by_cases hword : s.IsWord py
  · rw [c.kept_word_left ho hfirst hword]
    simp [hword]
  · by_cases hpointed : s.IsPointed py
    · rw [c.kept_pointed_left ho hfirst hword hpointed]
      simp [hpointed]
    · have hlost : ¬(s.value = s.cleaned ∧ (s.IsWord py ∨ s.IsPointed py)) := fun h => h.2.elim hword hpointed
      simp only [or_iff_left hlost]
      refine ⟨?_, fun htext hkept => ?_⟩
      · have hjoins : ¬c.operand.Joins := by simp [ho, Operand.Joins]
        obtain ⟨t, rest, helements⟩ := s.exists_elements py
        have helements' : c.operand.elements = (s.quote :: t) :: rest := by rw [ho, helements]
        rw [c.kept_left_iff hfirst hjoins helements' (s.isPlain t)]
        exact fun h => h.imp_right .inl
      · have hprose : s.IsProse py := (htext.resolve_left hword).resolve_left hpointed
        exact (c.kept_prose_left ho hfirst hword hpointed hprose).mp hkept

end left

end LambdaFilter

end Hecuba
