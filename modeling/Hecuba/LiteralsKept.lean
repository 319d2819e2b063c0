import Hecuba.LiteralValues

/-! The comparisons whose literals the filter keeps. -/

namespace Hecuba

namespace LambdaFilter

variable {F : Type} [DecidableEq F] {py : FilterPython F}

structure NamedDict (py : FilterPython F) extends FilteredDict where
  named : ∀ s ∈ columns ++ primaryKeys, IsColumnName py s

section condition

variable (line : FilterLine py) (d : NamedDict py)

/-- A text is also the value of a captured variable. -/
def FilterLine.Captures (t : Str) : Prop := .str t ∈ line.dictv.map Prod.snd

def LiteralComparison.KnownColumn (c : LiteralComparison py) : Prop := c.column.text ∈ d.columns ++ d.primaryKeys

def DecimalLiteral.Refused (l : DecimalLiteral py) : Prop :=
  (l.number.head? ≠ some '.' ∧ readNumber py line.dictv l.number = none) ∨
    ∃ e, l.exponent = some e ∧ readNumber py line.dictv e.digits.text = none

def StringLiteral.IsWord (py : FilterPython F) (s : StringLiteral) : Prop :=
  s.cleaned ≠ [] ∧ ∀ c ∈ s.cleaned, py.isWord c = true

/-- Between the quotes there is nothing, or there are words behind points. -/
def StringLiteral.IsPointed (py : FilterPython F) (s : StringLiteral) : Prop :=
  IsDotted py s.cleaned ∧ PointNext s.cleaned

/-- A text in which Python finds nothing to refuse: no backslashes and no brackets, no word `and`, no point first,
and numbers only in a text without points, of ASCII digits with no letter behind them. -/
structure StringLiteral.IsProse (py : FilterPython F) (s : StringLiteral) : Prop where
  unescaped : '\\' ∉ s.content
  brackets : ∀ c ∈ "[]()".toList, c ∉ s.content
  start : ∀ c ∈ (s.content.dropWhile py.isSpace).head?, c ≠ '.'
  ands : ∀ before after, s.content = before ++ "and".toList ++ after →
    (∃ c ∈ before.getLast?, py.isWord c = true) ∨ ∃ c ∈ after.head?, py.isWord c = true
  ascii : ∀ c ∈ s.content, c.toNat < 128 ∨ py.wideDecimal c = false ∧ py.wideDigit c = false
  numbers : s.content.IsChain fun a b => a.isDigit = true → py.isWord b = true → b.isDigit = true
  points : '.' ∈ s.content → ∀ c ∈ s.content, c.isDigit = false

def Operand.KeptBehind : Operand py → Prop
  | integer l =>
    readNumber py line.dictv l.number.text = none ∨
      l.signs.symbols = [] ∧ isDigits py l.number.text = true ∧ ¬line.Captures l.number.text
  | decimal l =>
    l.Refused line ∨ l.signs.symbols = [] ∧ (l.number.head? = some '.' ∨ ¬line.Captures l.number)
  | boolean _ => True
  | string s => s.value = s.cleaned ∧ (s.IsWord py ∨ s.IsPointed py)
  | captured _ (.str s) => ('"' ∉ s ∧ '\'' ∉ s) ∧ s ≠ "True".toList ∧ s ≠ "False".toList
  | captured _ _ => True

/-- A text before the operator is kept: the digits as a value, when the comparison is turned round; any
other one is taken for a column. -/
def LiteralComparison.TextKept (c : LiteralComparison py) (s : Str) : Prop :=
  (isDigits py s = true ∧ (c.op.reversed = none ∨ ¬c.KnownColumn d ∨ c.operand.value = .str s)) ∨
    isDigits py s = false ∧ (c.op = .ne ∨ s ∉ d.columns ++ d.primaryKeys ∨
      c.op = .eq ∧ s = c.column.text ∧ c.operand.value = .str s)

def LiteralComparison.KeptBefore (c : LiteralComparison py) : Prop :=
  match c.operand with
  | .integer l =>
    l.signs.symbols ≠ [] ∨ isDigits py l.number.text = false ∨ c.op.reversed = none ∨ ¬c.KnownColumn d ∨
      ¬line.Captures l.number.text
  | .decimal _ => True
  | .boolean _ => True
  | .string s => s.IsWord py → c.TextKept d s.cleaned
  | .captured _ (.str s) =>
    if ('"' ∉ s ∧ '\'' ∉ s) ∧ (s = "True".toList ∨ s = "False".toList) then c.op.reversed = none ∨ ¬c.KnownColumn d
    else c.TextKept d (unquoted s)
  | .captured _ _ => True

def LiteralComparison.Intact (c : LiteralComparison py) : Prop :=
  if c.operandFirst then c.KeptBefore line d else c.op = .ne ∨ ¬c.KnownColumn d ∨ c.operand.KeptBehind line

/-- Behind the operator, a text between quotes is a word, words behind points, or prose. -/
def LiteralComparison.IsPlainText (c : LiteralComparison py) : Prop :=
  ∀ s, c.operand = .string s → c.operandFirst = false → s.IsWord py ∨ s.IsPointed py ∨ s.IsProse py

end condition

section behind

variable {line : FilterLine py} {d : NamedDict py} {c : LiteralComparison py}

omit [DecidableEq F] in
theorem comp_known {col : Str} (h : col ∈ d.columns ++ d.primaryKeys) (op : Str) (v : Item F) :
    comp d.toFilteredDict (.str col) op v = .ok (.comp col op v) := by
  have hcontains : (d.columns ++ d.primaryKeys).contains col = true := by simpa using h
  simp only [comp, hcontains, if_true]

omit [DecidableEq F] in
theorem comp_unknown {col : Str} (h : col ∉ d.columns ++ d.primaryKeys) (op : Str) (v : Item F) :
    (comp d.toFilteredDict (.str col) op v).toOption = none := by
  have hcontains : (d.columns ++ d.primaryKeys).contains col = false := by simpa using h
  simp only [comp, hcontains, Bool.false_eq_true, if_false]
  rfl

theorem LiteralComparison.kept_of_none
    (h : (hfilter py d.toFilteredDict (line.func (c.text line.row))).toOption = none) :
    c.Kept d.toFilteredDict line := by
  intro conditions hok
  rw [hok] at h
  cases h

theorem LiteralComparison.kept_left_iff (hfirst : c.operandFirst = false) (hjoins : ¬c.operand.Joins) {first : Str}
    {rest : List Str} (helements : c.operand.elements = first :: rest) (hplain : IsPlain first) :
    c.Kept d.toFilteredDict line ↔ c.op = .ne ∨ ¬c.KnownColumn d ∨
      ∀ v cs, line.readBehind d.toFilteredDict c.operand.elements = some (v, cs) →
        v = .scalar c.operand.value ∧ cs = [] ∧ IsConstant c.operand.value := by
  have hleft := c.hfilter_left line d.toFilteredDict hfirst hjoins helements hplain
  have horiented : c.oriented = c.op := by simp [oriented, hfirst]
  constructor
  · intro h
    by_cases hne : c.op = .ne
    · exact .inl hne
    by_cases hknown : c.KnownColumn d
    · refine .inr (.inr fun v cs hread => ?_)
      obtain ⟨o, ho⟩ : ∃ o, c.op.comparator = some o := by
        have hcompares := c.compares
        cases hop : c.op <;> simp_all [CompareOp.comparator]
      rw [hread, Option.bind_some, ho, Option.bind_some, comp_known hknown] at hleft
      obtain ⟨⟨o', -, hconditions⟩, hconstant⟩ := h _ (toOption_eq_some_iff.mp hleft)
      simp only [List.cons.injEq, Condition.comp.injEq] at hconditions
      exact ⟨hconditions.1.2.2, hconditions.2, hconstant⟩
    · exact .inr (.inl hknown)
  · rintro h conditions hok
    rw [hok] at hleft
    obtain ⟨⟨v, cs⟩, hread, hconditions⟩ := Option.bind_eq_some_iff.mp hleft.symm
    obtain ⟨condition, hcondition, rfl⟩ := Option.map_eq_some_iff.mp hconditions
    obtain ⟨o, ho, hcomp⟩ := Option.bind_eq_some_iff.mp hcondition
    have hne : c.op ≠ .ne := fun h => by simp [h, CompareOp.comparator] at ho
    have hknown : c.KnownColumn d := by
      by_contra hunknown
      simp [comp_unknown hunknown] at hcomp
    obtain ⟨rfl, rfl, hconstant⟩ := ((h.resolve_left hne).resolve_left fun hn => hn hknown) v cs hread
    rw [comp_known hknown] at hcomp
    obtain rfl := Option.some.inj hcomp
    exact ⟨⟨o, by rw [horiented, ho], rfl⟩, hconstant⟩

end behind

section before

variable {line : FilterLine py} {d : NamedDict py} {c : LiteralComparison py}

omit [DecidableEq F] in
theorem CompareOp.comparator_flipped {op : CompareOp} {o : Str} (h : op.reversed = some o) :
    op.flipped.comparator = some o := by
  cases op <;> simp_all [reversed, flipped, comparator]

theorem LiteralComparison.kept_right_iff (hfirst : c.operandFirst = true) {e : Str}
    (he : (findall py c.operand.cleaned).foldl mergeToken [] = [e]) (hcomplete : Complete [e]) (hplain : IsPlain e)
    (hand : e ≠ ['a', 'n', 'd']) {v : Item F} (htyped : line.typed (.str e) = some v) :
    c.Kept d.toFilteredDict line ↔ ∀ condition, c.readBefore d.toFilteredDict v = some condition →
      (∃ o, c.op.flipped.comparator = some o ∧ condition = .comp c.column.text o (.scalar c.operand.value)) ∧
        IsConstant c.operand.value := by
  have hright := c.hfilter_right line d.toFilteredDict hfirst he hcomplete hplain hand
  have horiented : c.oriented = c.op.flipped := by simp [oriented, hfirst]
  rw [htyped, Option.bind_some] at hright
  constructor
  · intro h condition hread
    rw [hread, Option.map_some] at hright
    obtain ⟨⟨o, ho, hcondition⟩, hconstant⟩ := h _ (toOption_eq_some_iff.mp hright)
    exact ⟨⟨o, by rw [← horiented, ho], by simpa using hcondition⟩, hconstant⟩
  · intro h conditions hok
    rw [hok] at hright
    obtain ⟨condition, hread, rfl⟩ := Option.map_eq_some_iff.mp hright.symm
    obtain ⟨⟨o, ho, rfl⟩, hconstant⟩ := h condition hread
    exact ⟨⟨o, by rw [horiented, ho], rfl⟩, hconstant⟩

omit [DecidableEq F] in
/-- What is taken for a value is compared with the column, the comparison turned round. -/
theorem LiteralComparison.readBefore_value_iff {v : Scalar F} (hvalue : startsWithValue py (.scalar v) = true)
    (hconstant : IsConstant v) :
    (∀ condition, c.readBefore d.toFilteredDict (.scalar v) = some condition →
      (∃ o, c.op.flipped.comparator = some o ∧ condition = .comp c.column.text o (.scalar c.operand.value)) ∧
        IsConstant c.operand.value) ↔
      c.op.reversed = none ∨ ¬c.KnownColumn d ∨ c.operand.value = v := by
  rw [readBefore, if_pos hvalue]
  cases hop : c.op.reversed with
  | none => simp
  | some o =>
    by_cases hknown : c.KnownColumn d
    · have hflipped := CompareOp.comparator_flipped hop
      simp only [Option.bind_some, comp_known hknown, Except.toOption, Option.some.injEq, forall_eq', hflipped,
        exists_eq_left', Condition.comp.injEq, true_and, Item.scalar.injEq, reduceCtorEq, not_true_eq_false, false_or,
        hknown]
      exact ⟨fun h => h.1.symm, fun h => ⟨h.symm, h ▸ hconstant⟩⟩
    · have hnone : (comp d.toFilteredDict (.str c.column.text) o (.scalar v)).toOption = none := comp_unknown hknown o _
      simp [hnone, hknown]

omit [DecidableEq F] in
theorem isConstant_of_digits {s : Str} (h : isDigits py s = true) : IsConstant (.str s : Scalar F) := by
  intro hmem
  simp only [isDigits, Bool.and_eq_true, List.all_eq_true] at h
  exact absurd (h.2 _ hmem) (by simp)

omit [DecidableEq F] in
/-- A text is a value when it has digits only, and else a column. -/
theorem LiteralComparison.readBefore_text_iff (s : Str) :
    (∀ condition, c.readBefore d.toFilteredDict (.str s) = some condition →
      (∃ o, c.op.flipped.comparator = some o ∧ condition = .comp c.column.text o (.scalar c.operand.value)) ∧
        IsConstant c.operand.value) ↔ c.TextKept d s := by
  by_cases hdigits : isDigits py s = true
  · have hvalue : startsWithValue py (.scalar (.str s) : Item F) = true := hdigits
    rw [readBefore_value_iff hvalue (isConstant_of_digits hdigits), TextKept]
    simp [hdigits]
  · have hvalue : startsWithValue py (Item.str s : Item F) = false := by simpa [startsWithValue] using hdigits
    rw [readBefore, hvalue, TextKept]
    simp only [Bool.false_eq_true, if_false, hdigits, false_and, false_or, true_and]
    by_cases hknown : s ∈ d.columns ++ d.primaryKeys
    · have hconstant : IsConstant (.str c.column.text : Scalar F) := c.column.not_mem rfl
      have hcomp (o : Str) : (comp d.toFilteredDict (.str s : Item F) o (.str c.column.text)).toOption =
          some (.comp s o (.str c.column.text)) := by
        rw [comp_known hknown]
        rfl
      have hone (o o' : Str) (ho : c.op.comparator = some o) (ho' : c.op.flipped.comparator = some o') :
          (∀ condition, (c.op.comparator.bind fun o => (comp d.toFilteredDict (.str s) o (.str c.column.text)).toOption) =
            some condition → (∃ o, c.op.flipped.comparator = some o ∧
              condition = .comp c.column.text o (.scalar c.operand.value)) ∧ IsConstant c.operand.value) ↔
            o = o' ∧ s = c.column.text ∧ c.operand.value = .str s := by
        simp only [ho, ho', Option.bind_some, hcomp, Option.some.injEq, forall_eq', exists_eq_left', Condition.comp.injEq,
          Item.scalar.injEq]
        constructor
        · rintro ⟨⟨rfl, ho, hvalue⟩, -⟩
          exact ⟨ho, rfl, hvalue.symm⟩
        · rintro ⟨ho, rfl, hvalue⟩
          exact ⟨⟨rfl, ho, hvalue.symm⟩, hvalue ▸ hconstant⟩
      have hcompares := c.compares
      cases hop : c.op with
      | isIn => exact absurd hop hcompares
      | ne => simp [CompareOp.comparator]
      | _ =>
        rw [hop] at hone
        rw [hone _ _ rfl rfl]
        simp [hknown]
    · have hnone (o : Str) : (comp d.toFilteredDict (.str s : Item F) o (.str c.column.text)).toOption = none :=
        comp_unknown hknown o _
      cases c.op.comparator <;> simp [hnone, hknown]

end before

section operands

variable {line : FilterLine py} {d : NamedDict py} {c : LiteralComparison py}

/-- What the filter makes of the value of a captured variable: quotes are lost, and two texts become booleans. -/
def readCaptured : Scalar F → Scalar F
  | .str s =>
    if '"' ∈ s ∨ '\'' ∈ s then .str (unquoted s)
    else if s = "True".toList then .bool true
    else if s = "False".toList then .bool false
    else .str s
  | v => v

theorem FilterLine.typed_captured {n : Name py} {v : Scalar F} (h : line.dictv.lookup n.text = some (.scalar v)) :
    line.typed (.str n.text) = some (.scalar (readCaptured v)) := by
  have hpoint : n.text.contains '.' = false := by simpa using n.not_mem (isWord_symbols py).1
  have hdigits : isDigits py n.text = false := n.not_value
  have hin : n.text ≠ "in".toList := n.ne_keyword (by decide)
  have hhead : n.text.head?.all (fun c => py.isSpace c || py.isWord c) = true := by
    cases hn : n.text with
    | nil => rfl
    | cons c rest => simp [n.word c (by simp [hn])]
  have hsubst : substitVar py [line.row.text] line.dictv (.str n.text) = .ok (.scalar v) := by
    simp only [substitVar, hpoint, h, Option.getD_some, Bool.false_eq_true, false_and, if_false]
    rw [if_pos ⟨hin, hhead, hdigits⟩]
  have hmem : (line.dictv.map Prod.snd).contains (.scalar v) = true := by
    obtain ⟨before, after, hsplit, -⟩ := List.lookup_eq_some_iff.mp h
    simp [hsplit]
  rw [FilterLine.typed, typedItem, hsubst]
  cases v with
  | str s =>
    have hmem' : (line.dictv.map Prod.snd).contains (.str s) = true := hmem
    simp only [Except.toOption, Option.bind_some, correctType, hmem', Bool.true_eq_false, and_false, if_false, unquoted,
      readCaptured]
    by_cases hdouble : '"' ∈ s
    · simp [hdouble]
    · by_cases hsingle : '\'' ∈ s
      · simp [hdouble, hsingle]
      · simp only [List.contains_eq_mem, hdouble, hsingle, decide_false, Bool.false_eq_true, if_false, or_self]
        split_ifs <;> rfl
  | int n => rfl
  | float x => rfl
  | bool b => rfl

theorem FilterLine.typed_boolean (b : Bool) :
    line.typed (.str (if b then "True".toList else "False".toList)) = some (.scalar (.bool b)) := by
  have hsubst (s : Str) (hs : keywords.contains s = true) (hpoint : s.contains '.' = false) :
      substitVar py [line.row.text] line.dictv (.str s) = .ok (.str s) := by
    have hlookup : line.dictv.lookup s = none := line.lookup_eq_none fun n => n.ne_keyword hs
    simp only [substitVar, hpoint, hlookup, Option.getD_none, Bool.false_eq_true, false_and, if_false, ite_self]
  cases b with
  | true =>
    rw [FilterLine.typed, typedItem, if_pos rfl, hsubst _ (by decide) (by decide)]
    rfl
  | false =>
    rw [FilterLine.typed, typedItem, if_neg Bool.false_ne_true, hsubst _ (by decide) (by decide)]
    rfl

omit [DecidableEq F] in
theorem unquoted_quoted {q : Char} (hq : q = '"' ∨ q = '\'') {w : Str} (hdouble : '"' ∉ w) (hsingle : '\'' ∉ w) :
    unquoted (q :: w) = w ∧ unquoted (q :: w ++ [q]) = w := by
  have hne (q' : Char) (hw : q' ∉ w) : ∀ c ∈ w, c ≠ q' := fun c hc h => hw (h ▸ hc)
  rcases hq with rfl | rfl
  · simpa [unquoted] using hne _ hdouble
  · simpa [unquoted, hdouble] using hne _ hsingle

theorem quote_ascii {q : Char} (hq : q = '"' ∨ q = '\'') : q.toNat < 128 ∧ q.isDigit = false := by
  rcases hq with rfl | rfl <;> decide

theorem FilterLine.typed_quote {q : Char} (hq : q = '"' ∨ q = '\'') (t : Str) :
    line.typed (.str (q :: t)) = some (.str (unquoted (q :: t))) :=
  typedItem_symbol (quote_ascii hq) (quote_chars py hq).1 t

theorem FilterLine.typed_word {q : Char} (hq : q = '"' ∨ q = '\'') {w : Str} (hw : ∀ c ∈ w, py.isWord c = true) :
    line.typed (.str (q :: w ++ [q])) = some (.str w) := by
  have hmark (c : Char) (hc : py.isWord c = false) : c ∉ w := fun h => by simp [hw c h] at hc
  have hquotes := unquoted_quoted hq (hmark '"' rfl) (hmark '\'' rfl)
  rw [List.cons_append, line.typed_quote hq, ← List.cons_append, hquotes.2]

end operands

section left

variable {line : FilterLine py} {d : NamedDict py} {c : LiteralComparison py}

theorem FilterLine.readBehind_plain {es : List Str} (hplain : ∀ t ∈ es, IsPlain t) (hand : ∀ t ∈ es, t ≠ ['a', 'n', 'd']) :
    line.readBehind d.toFilteredDict es = ((es.mapM fun t => line.typed (.str t)).bind List.head?).map fun v => (v, []) := by
  have hand' : ∀ i ∈ es.map (Item.str : Str → Item F), isAnd i = false := by simpa [isAnd] using hand
  rw [readBehind, combine_plain hplain]
  simp only [Except.toOption, Option.bind_some]
  rw [List.splitOnP_eq_singleton hand']
  simp only [List.mapM_map, List.mapM_nil, Option.pure_def, Option.map_eq_bind]
  rfl

/-- An operand of plain elements is kept when one of them is refused, or the first one is its value. -/
theorem LiteralComparison.kept_plain_iff (hfirst : c.operandFirst = false) (hjoins : ¬c.operand.Joins) {first : Str}
    {rest : List Str} (helements : c.operand.elements = first :: rest) (hplain : ∀ t ∈ first :: rest, IsPlain t)
    (hand : ∀ t ∈ first :: rest, t ≠ ['a', 'n', 'd']) :
    c.Kept d.toFilteredDict line ↔ c.op = .ne ∨ ¬c.KnownColumn d ∨
      (∃ t ∈ first :: rest, line.typed (.str t) = none) ∨
        line.typed (.str first) = some (.scalar c.operand.value) ∧ IsConstant c.operand.value := by
  rw [c.kept_left_iff hfirst hjoins helements (hplain first (by simp)), helements, line.readBehind_plain hplain hand]
  refine or_congr_right (or_congr_right ?_)
  cases hvs : (first :: rest).mapM fun t => line.typed (.str t) with
  | none => simp only [Option.bind_none, Option.map_none, reduceCtorEq, false_imp_iff, implies_true,
      mapM_eq_none_iff.mp hvs, true_or]
  | some vs =>
    have hread : ¬∃ t ∈ first :: rest, line.typed (.str t) = none := fun h => by simp [mapM_eq_none_iff.mpr h] at hvs
    obtain ⟨v, hv, hmore⟩ := Option.bind_eq_some_iff.mp (List.mapM_cons.symm.trans hvs)
    obtain ⟨more, -, rfl⟩ := Option.map_eq_some_iff.mp (Option.map_eq_bind.trans hmore)
    rw [or_iff_right hread, hv]
    simp

end left

end LambdaFilter

end Hecuba
