import Hecuba.LiteralElements

/-! The values that the filter takes the literals for. -/

namespace Hecuba

namespace LambdaFilter

variable {F : Type} [DecidableEq F] {py : FilterPython F}

/-- An element with the captured variables put in and its type guessed. -/
def typedItem (py : FilterPython F) (vars : List Str) (dictv : List (Str × Item F)) (i : Item F) : Option (Item F) :=
  (substitVar py vars dictv i).toOption.bind fun i => (correctType py dictv i).toOption

/-- A text without its quotes of one kind. -/
def unquoted (s : Str) : Str :=
  if s.contains '"' then s.filter (· ≠ '"') else if s.contains '\'' then s.filter (· ≠ '\'') else s

/-- What the text of a number is taken for; one that is also the value of a captured variable stays a text. -/
def readNumber (py : FilterPython F) (dictv : List (Str × Item F)) (t : Str) : Option (Scalar F) :=
  if (dictv.map Prod.snd).contains (.str t) then some (.str t)
  else if isDigits py t then (py.toInt t).toOption.map .int else (py.toFloat t).toOption.map .float

/-- Only quotes are taken out. -/
theorem exists_unquoted (s : Str) : ∃ p : Char → Bool, unquoted s = s.filter p ∧ ∀ c, c ≠ '"' → c ≠ '\'' → p c = true := by
  rw [unquoted]
  split_ifs
  · exact ⟨_, rfl, fun c h _ => by simpa using h⟩
  · exact ⟨_, rfl, fun c _ h => by simpa using h⟩
  · exact ⟨fun _ => true, by simp, fun _ _ _ => rfl⟩

theorem mem_unquoted {c : Char} {s : Str} (hc : c ≠ '"' ∧ c ≠ '\'') (h : c ∈ s) : c ∈ unquoted s := by
  obtain ⟨p, hp, hkept⟩ := exists_unquoted s
  rw [hp]
  exact List.mem_filter.mpr ⟨h, hkept c hc.1 hc.2⟩

theorem unquoted_cons {c : Char} (hc : c ≠ '"' ∧ c ≠ '\'') (s : Str) : ∃ rest, unquoted (c :: s) = c :: rest := by
  obtain ⟨p, hp, hkept⟩ := exists_unquoted (c :: s)
  exact ⟨s.filter p, by rw [hp, List.filter_cons_of_pos (hkept c hc.1 hc.2)]⟩

section typed

variable {vars : List Str} {dictv : List (Str × Item F)}

omit [DecidableEq F] in
theorem isDigits_cons {c : Char} (h : c.toNat < 128 ∧ c.isDigit = false) (rest : Str) : isDigits py (c :: rest) = false := by
  simp [isDigits, h.1, h.2]

/-- An element that starts with a symbol loses its quotes only. -/
theorem typedItem_symbol {c : Char} (hascii : c.toNat < 128 ∧ c.isDigit = false)
    (hclass : py.isWord c = false ∧ py.isSpace c = false) (rest : Str) :
    typedItem py vars dictv (.str (c :: rest)) = some (.str (unquoted (c :: rest))) := by
  have hsubst : substitVar py vars dictv (.str (c :: rest)) = .ok (.str (c :: rest)) := by
    simp [substitVar, hclass.1, hclass.2]
  have hfloat : isFloat py (c :: rest) = false := by simp [isFloat, isDecimal, hascii.1, hascii.2]
  have hbool (s : Str) (hs : s.head? = some 'T' ∨ s.head? = some 'F') : c :: rest ≠ s := by
    have hT : py.isWord 'T' = true := rfl
    have hF : py.isWord 'F' = true := rfl
    rintro rfl
    rcases hs with h | h <;> simp_all
  have htype : correctType py dictv (.str (c :: rest)) = .ok (.str (unquoted (c :: rest))) := by
    simp only [correctType, unquoted, isDigits_cons hascii, hfloat, Bool.false_eq_true, false_and, if_false,
      if_neg (hbool "True".toList (.inl rfl)), if_neg (hbool "False".toList (.inr rfl))]
    split_ifs <;> rfl
  rw [typedItem, hsubst]
  simp [Except.toOption, htype]

end typed

section combine

omit [DecidableEq F]

/-- What lies below the element before a group stays as it is. -/
theorem combineFrom_append (scan : Scan) {done : List (Item F)} (hdone : done ≠ []) (below : List (Item F)) (ts : List Str) :
    combineFrom py [] scan (done ++ below) ts = (combineFrom py [] scan done ts).map (below.reverse ++ ·) := by
  have hpush (i : Item F) : i :: (done ++ below) = (i :: done) ++ below := rfl
  induction ts generalizing scan done with
  | nil => cases scan <;> simp [combineFrom, Except.map]
  | cons t ts ih =>
    have ih (scan : Scan) {done : List (Item F)} (hdone : done ≠ []) := ih scan hdone fun _ => rfl
    cases scan with
    | plain =>
      simp only [combineFrom, hpush, List.append_nil, ite_self]
      split_ifs
      · exact ih _ hdone
      · exact ih _ hdone
      · exact ih _ (List.cons_ne_nil _ _)
    | skipping =>
      simp only [combineFrom, hpush, List.append_nil, ite_self]
      exact ih _ (List.cons_ne_nil _ _)
    | bracket group =>
      simp only [combineFrom, hpush, List.append_nil, ite_self]
      split_ifs
      · cases py.eval (group ++ [t]).flatten with
        | error e => rfl
        | ok joined => exact ih _ (List.cons_ne_nil _ _)
      · exact ih _ hdone
    | paren group =>
      obtain ⟨previous, rest, rfl⟩ := List.exists_cons_of_ne_nil hdone
      simp only [combineFrom, hpush, List.append_nil, ite_self]
      by_cases ht : t = [')']
      · simp only [if_pos ht]
        cases py.eval (group ++ [t]).flatten with
        | error e => rfl
        | ok joined =>
          simp only [bind, Except.bind]
          cases Item.length joined with
          | error e => rfl
          | ok n =>
            by_cases hn : 0 < n
            · simp only [if_pos hn]
              exact ih _ (List.cons_ne_nil _ _)
            · simp only [if_neg hn, List.cons_append]
              cases Item.addParens previous with
              | error e => rfl
              | ok next => exact ih _ (List.cons_ne_nil _ _)
      · simp only [if_neg ht]
        exact ih _ hdone

/-- The first element keeps its text; an empty tuple behind it leaves its parentheses there. -/
theorem combineFrom_first (scan : Scan) {first : Str} {ts : List Str} {items : List (Item F)}
    (h : combineFrom py [] scan [.str first] ts = .ok items) :
    ∃ text more, items = .str text :: more ∧ (text = first ∨ text = first ++ "()".toList) := by
  have hpush (scan : Scan) (i : Item F) (text : Str) (ts : List Str)
      (h : combineFrom py [] scan (i :: [.str text]) ts = .ok items) : ∃ more, items = .str text :: more := by
    have happend : combineFrom py [] scan ([i] ++ [.str text]) ts = (combineFrom py [] scan [i] ts).map _ :=
      combineFrom_append scan (List.cons_ne_nil i []) [.str text] ts
    obtain ⟨more, -, hmore⟩ := map_ok_iff.mp (happend.symm.trans h)
    exact ⟨more, hmore.symm⟩
  have hkept (scan : Scan) (i : Item F) (ts : List Str) (h : combineFrom py [] scan (i :: [.str first]) ts = .ok items) :
      ∃ text more, items = .str text :: more ∧ (text = first ∨ text = first ++ "()".toList) := by
    obtain ⟨more, hmore⟩ := hpush scan i first ts h
    exact ⟨first, more, hmore, .inl rfl⟩
  induction ts generalizing scan with
  | nil =>
    cases scan with
    | plain => exact ⟨first, [], (Except.ok.inj h).symm, .inl rfl⟩
    | skipping => exact ⟨first, [], (Except.ok.inj h).symm, .inl rfl⟩
    | bracket group => cases h
    | paren group => cases h
  | cons t ts ih =>
    cases scan with
    | plain =>
      simp only [combineFrom, List.append_nil, ite_self] at h
      split_ifs at h
      · exact ih _ h
      · exact ih _ h
      · exact hkept _ _ _ h
    | skipping =>
      simp only [combineFrom, List.append_nil, ite_self] at h
      exact hkept _ _ _ h
    | bracket group =>
      simp only [combineFrom, List.append_nil, ite_self] at h
      split_ifs at h
      · obtain ⟨joined, -, h⟩ := bind_ok_iff.mp h
        exact hkept _ _ _ h
      · exact ih _ h
    | paren group =>
      simp only [combineFrom, List.append_nil, ite_self] at h
      split_ifs at h
      · obtain ⟨joined, -, h⟩ := bind_ok_iff.mp h
        obtain ⟨n, -, h⟩ := bind_ok_iff.mp h
        split_ifs at h
        · exact hkept _ _ _ h
        · obtain ⟨next, hnext, h⟩ := bind_ok_iff.mp h
          obtain rfl : Item.str (first ++ "()".toList) = next := Except.ok.inj hnext
          cases ts with
          | nil => exact ⟨_, [], (Except.ok.inj h).symm, .inr rfl⟩
          | cons t' ts =>
            simp only [combineFrom, List.append_nil, ite_self] at h
            obtain ⟨more, hmore⟩ := hpush _ _ _ _ h
            exact ⟨_, more, hmore, .inr rfl⟩
      · exact ih _ h

theorem combine_cons {first : Str} (h : IsPlain first) (rest : List Str) :
    combine py (first :: rest) = combineFrom py [] .plain [.str first] rest := by
  have hfirst : ∀ t ∈ [first], IsPlain t := by simpa using h
  exact combineFrom_push hfirst [] rest

theorem combine_plain {ts : List Str} (h : ∀ t ∈ ts, IsPlain t) : combine py ts = .ok (ts.map .str) := by
  have hpush : combineFrom py [] .plain [] (ts ++ []) = _ := combineFrom_push h [] []
  simpa [combine, combineFrom] using hpush

theorem combine_append {first : Str} (hfirst : IsPlain first) {before : List Str} (h : ∀ t ∈ before, IsPlain t)
    (rest : List Str) :
    combine py (before ++ first :: rest) = (combine py (first :: rest)).map (before.map .str ++ ·) := by
  have hbefore : ∀ t ∈ before ++ [first], IsPlain t := by simpa [or_imp, forall_and, hfirst] using h
  have hpush : combineFrom py [] .plain [] (before ++ [first] ++ rest) = _ := combineFrom_push hbefore [] rest
  have happend : combineFrom py [] .plain ([.str first] ++ (before.map .str).reverse) rest = _ :=
    combineFrom_append .plain (List.cons_ne_nil (.str first) []) (before.map .str).reverse rest
  rw [combine_cons hfirst]
  simpa [combine] using hpush.trans (by simpa using happend)

end combine

section columns

omit [DecidableEq F]

/-- The names of columns that a table takes without quotes. -/
def IsColumnName (py : FilterPython F) (s : Str) : Prop :=
  (∀ c ∈ s, py.isWord c = true) ∧ s.head?.any (fun c => !c.isDigit) = true

/-- An item that is neither a value nor the name of a column. -/
def NoColumn (py : FilterPython F) (i : Item F) : Prop :=
  startsWithValue py i = false ∧ ∀ s, i = .str s → ¬IsColumnName py s

theorem noColumn_nil : NoColumn py (.str [] : Item F) := by
  refine ⟨by simp [startsWithValue, isDigits], fun s hs h => ?_⟩
  obtain rfl : [] = s := by simpa using hs
  exact absurd h.2 (by simp)

theorem noColumn_symbol {c : Char} (hascii : c.toNat < 128 ∧ c.isDigit = false) (hword : py.isWord c = false) (rest : Str) :
    NoColumn py (.str (c :: rest) : Item F) := by
  refine ⟨isDigits_cons hascii rest, fun s hs h => ?_⟩
  obtain rfl : c :: rest = s := by simpa using hs
  have := h.1 c (by simp)
  simp [hword] at this

theorem noColumn_digit {c : Char} {rest : Str} (hc : c.isDigit = true)
    (hother : ∃ d ∈ c :: rest, (IsWordChar d ∨ d = '.') ∧ d.isDigit = false) : NoColumn py (.str (c :: rest) : Item F) := by
  obtain ⟨d, hd, hclass, hdigit⟩ := hother
  have hascii : d.toNat < 128 := hclass.elim (fun h => h.bounds.2) fun h => by simp [h]
  refine ⟨?_, fun s hs h => ?_⟩
  · simp only [startsWithValue, isDigits, Bool.and_eq_false_iff, List.all_eq_false]
    exact .inr ⟨d, hd, by simp [hascii, hdigit]⟩
  · obtain rfl : c :: rest = s := by simpa using hs
    simpa [hc] using h.2

end columns

section line

variable {line : FilterLine py}

/-- The captured variables by their names. -/
def FilterLine.dictv (line : FilterLine py) : List (Str × Item F) := line.captured.map fun e => (e.1.text, e.2)

def FilterLine.typed (line : FilterLine py) (i : Item F) : Option (Item F) :=
  typedItem py [line.row.text] line.dictv i

omit [DecidableEq F] in
theorem Name.head_not_digit (n : Name py) {c : Char} (hc : c.isDigit = true) (rest : Str) : n.text ≠ c :: rest := by
  obtain ⟨d, more, hn, hstart⟩ := py.identifier_start n.text n.identifier
  rintro h
  obtain rfl : d = c := by simpa [hn] using congrArg List.head? h
  have hascii : d.toNat < 128 := (isWordChar_of_isDigit hc).bounds.2
  simp [hascii, hc] at hstart

omit [DecidableEq F] in
theorem Name.head_word (n : Name py) {c : Char} (hc : py.isWord c = false) (rest : Str) : n.text ≠ c :: rest := by
  intro h
  have := n.word c (by simp [h])
  simp [hc] at this

omit [DecidableEq F] in
theorem Name.ne_keyword (n : Name py) {s : Str} (hs : keywords.contains s = true) : n.text ≠ s := by
  rintro rfl
  rw [py.identifier_keyword n.text n.identifier] at hs
  cases hs

omit [DecidableEq F] in
theorem FilterLine.lookup_eq_none {t : Str} (h : ∀ n : Name py, n.text ≠ t) : line.dictv.lookup t = none := by
  rw [List.lookup_eq_none_iff]
  simp only [FilterLine.dictv, List.mem_map]
  rintro _ ⟨e, -, rfl⟩
  simpa using (h e.1).symm

omit [DecidableEq F] in
/-- The text of a number is left as it is when the variables are put in. -/
theorem FilterLine.substitVar_digit {c : Char} (hc : c.isDigit = true) (rest : Str) :
    substitVar py [line.row.text] line.dictv (.str (c :: rest)) = .ok (.str (c :: rest)) := by
  simp only [substitVar]
  split_ifs with helem hvar hrow
  · have hpoint : c ≠ '.' := by
      rintro rfl
      simp at hc
    have htake : (c :: rest).takeWhile (· ≠ '.') = c :: rest.takeWhile (· ≠ '.') := by simp [hpoint]
    rw [htake] at hrow
    exact absurd (by simpa using hrow) (line.row.head_not_digit hc _).symm
  · have hdrop : ∃ more, (c :: rest).drop ((c :: rest).takeWhile (· ≠ '.')).length = '.' :: more := by
      have hpoint : '.' ∈ c :: rest := by simpa using hvar.1
      obtain ⟨before, more, hsplit, hbefore⟩ := List.eq_append_cons_of_mem hpoint
      have htake : (c :: rest).takeWhile (· ≠ '.') = before := by
        rw [hsplit, List.takeWhile_append_of_pos fun d hd => by simpa using fun h : d = '.' => hbefore (h ▸ hd)]
        simp
      exact ⟨more, by rw [htake, hsplit, List.drop_left]⟩
    obtain ⟨more, hmore⟩ := hdrop
    rw [hmore, line.lookup_eq_none fun n => n.head_word rfl more]
  · rw [line.lookup_eq_none fun n => n.head_not_digit hc rest]
    rfl
  · rfl

theorem FilterLine.typed_number {c : Char} {rest : Str} (hc : c.isDigit = true)
    (hchars : ∀ d ∈ c :: rest, IsWordChar d ∨ d = '.') :
    line.typed (.str (c :: rest)) = (readNumber py line.dictv (c :: rest)).map .scalar := by
  have hquote (q : Char) (hq : ¬IsWordChar q ∧ q ≠ '.') : (c :: rest).contains q = false := by
    have hmem : q ∉ c :: rest := fun h => (hchars q h).elim hq.1 hq.2
    simpa using hmem
  have hascii : c.toNat < 128 := (isWordChar_of_isDigit hc).bounds.2
  have hfloat : isFloat py (c :: rest) = true := by simp [isFloat, isDecimal, hascii, hc]
  have hbool (s : Str) (hs : s.head?.any Char.isDigit = false) : c :: rest ≠ s := by
    rintro rfl
    simp [hc] at hs
  rw [FilterLine.typed, typedItem, line.substitVar_digit hc]
  simp only [Except.toOption, Option.bind_some, correctType, hquote '"' (by decide), hquote '\'' (by decide), hfloat,
    Bool.false_eq_true, if_false, true_and, if_neg (hbool "True".toList (by decide)),
    if_neg (hbool "False".toList (by decide)), readNumber]
  by_cases hcaptured : (line.dictv.map Prod.snd).contains (.str (c :: rest)) = true
  · simp only [hcaptured, Bool.true_eq_false, and_false, if_false, if_true]
    rfl
  · have hfalse : (line.dictv.map Prod.snd).contains (.str (c :: rest)) = false := by simpa using hcaptured
    by_cases hdigits : isDigits py (c :: rest) = true
    · simp only [hdigits, hfalse, and_self, if_true, Bool.false_eq_true, if_false]
      cases py.toInt (c :: rest) <;> rfl
    · simp only [hdigits, hfalse, false_and, if_true, Bool.false_eq_true, if_false]
      cases py.toFloat (c :: rest) <;> rfl

/-- What starts as a number and has other characters is no value of a condition, and no column. -/
theorem FilterLine.typed_digit {c : Char} {rest : Str} (hc : c.isDigit = true)
    (hother : ∃ d ∈ c :: rest, (IsWordChar d ∨ d = '.') ∧ d.isDigit = false) {v : Item F}
    (hv : line.typed (.str (c :: rest)) = some v) : NoColumn py v := by
  have hfilter (q : Char) (hq : (¬IsWordChar q ∧ q ≠ '.') ∧ c ≠ q) :
      NoColumn py (.str ((c :: rest).filter (· ≠ q)) : Item F) := by
    obtain ⟨d, hd, hclass, hdigit⟩ := hother
    have hdq : d ≠ q := by
      rintro rfl
      exact hclass.elim hq.1.1 hq.1.2
    have hkept : d ∈ (c :: rest).filter (· ≠ q) := List.mem_filter.mpr ⟨hd, by simpa using hdq⟩
    have hcons : (c :: rest).filter (· ≠ q) = c :: rest.filter (· ≠ q) := by simp [hq.2]
    rw [hcons] at hkept ⊢
    exact noColumn_digit hc ⟨d, hkept, hclass, hdigit⟩
  have hbool (s : Str) (hs : s.head?.any Char.isDigit = false) : c :: rest ≠ s := by
    rintro rfl
    simp [hc] at hs
  have hdigits : isDigits py (c :: rest) = false := (noColumn_digit hc hother).1
  rw [FilterLine.typed, typedItem, line.substitVar_digit hc] at hv
  simp only [Except.toOption, Option.bind_some, correctType, hdigits, Bool.false_eq_true, false_and, if_false,
    if_neg (hbool "True".toList (by decide)), if_neg (hbool "False".toList (by decide))] at hv
  split_ifs at hv with hdouble hsingle hfloat
  · obtain rfl := Option.some.inj hv
    exact hfilter '"' ⟨by decide, by rintro rfl; simp at hc⟩
  · obtain rfl := Option.some.inj hv
    exact hfilter '\'' ⟨by decide, by rintro rfl; simp at hc⟩
  · cases hx : py.toFloat (c :: rest) with
    | error e => simp [hx, Except.map] at hv
    | ok x =>
      obtain rfl : Item.scalar (.float x) = v := by simpa [hx, Except.map] using hv
      exact ⟨rfl, by simp⟩
  · obtain rfl := Option.some.inj hv
    exact noColumn_digit hc hother

end line

section filter

variable {line : FilterLine py} {d : FilteredDict}

/-- The condition of one piece of the filter. -/
def FilterLine.piece (line : FilterLine py) (d : FilteredDict) (p : List (Item F)) : Option (Condition F) :=
  (p.mapM line.typed).bind (finish py d)

theorem LiteralComparison.hfilter_func (c : LiteralComparison py) :
    (hfilter py d (line.func (c.text line.row))).toOption =
      (combine py (simplify (findall py (c.textOf line.row c.operand.cleaned)))).toOption.bind fun items =>
        (items.splitOnP isAnd).mapM (line.piece d) := by
  rw [hfilter_stages d (line.funcToStr_func _), c.eraseAll_text]
  refine congrArg _ (funext fun items => mapM_option_congr fun p _ => ?_)
  rw [FilterLine.piece, ← Option.bind_assoc]
  exact congrArg (Option.bind · _) (mapM_bind_mapM _ _ p)

/-- What the filter makes of the elements behind a column and an operator: the value that it takes, and the
conditions behind an `and`. -/
def FilterLine.readBehind (line : FilterLine py) (d : FilteredDict) (elements : List Str) :
    Option (Item F × List (Condition F)) :=
  (combine py elements).toOption.bind fun items =>
    match items.splitOnP isAnd with
    | [] => none
    | p :: ps => ((p.mapM line.typed).bind List.head?).bind fun v => (ps.mapM (line.piece d)).map fun cs => (v, cs)

theorem FilterLine.typed_column (column : Name py) :
    line.typed (.str (columnText line.row column)) = some (.str column.text) := by
  have hsubst := substitVar_column line.dictv line.row column
  rw [FilterLine.typed, typedItem, hsubst]
  simp only [Except.toOption, Option.bind_some, column.correctType_text]

theorem CompareOp.typed_line (op : CompareOp) (h : op ≠ .isIn) : ∀ t ∈ op.simplified, line.typed (.str t) = some (.str t) := by
  have hsymbol (c : Char) (rest : Str) (hc : c ∈ "=!<>+-".toList) (hquote : unquoted (c :: rest) = c :: rest) :
      line.typed (.str (c :: rest)) = some (.str (c :: rest)) := by
    obtain ⟨hclass, -⟩ := isSymbol_of_mem py hc
    rw [FilterLine.typed, typedItem_symbol (operator_of_mem hc).1 hclass, hquote]
  intro t ht
  cases op <;> simp only [CompareOp.simplified, List.mem_cons, List.not_mem_nil, or_false] at ht
  case isIn => exact absurd rfl h
  case ne => rcases ht with rfl | rfl <;> exact hsymbol _ _ (by decide) (by decide)
  all_goals exact ht ▸ hsymbol _ _ (by decide) (by decide)

theorem CompareOp.mapM_typed (line : FilterLine py) {op : CompareOp} (h : op ≠ .isIn) :
    (op.simplified.map Item.str).mapM line.typed = some (op.simplified.map .str) := by
  rw [List.mapM_map]
  exact mapM_eq_some_map (op.typed_line h)

theorem CompareOp.simplified_ne_and (op : CompareOp) : ∀ t ∈ op.simplified, t ≠ ['a', 'n', 'd'] := by
  cases op <;> simp [simplified]

omit [DecidableEq F] in
theorem columnText_ne_and (row column : Name py) : columnText row column ≠ ['a', 'n', 'd'] := fun h => by
  have hmem : '.' ∈ columnText row column := by simp [columnText]
  simp [h] at hmem

omit [DecidableEq F] in
theorem noOperator_ne : NoOperator (.str ['!'] : Item F) := fun t ht => by
  obtain rfl : ['!'] = t := by simpa using ht
  decide

omit [DecidableEq F] in
theorem finish_column (column : Name py) {op : CompareOp} (h : op ≠ .isIn) (vs : List (Item F)) :
    finish py d (.str column.text :: op.simplified.map .str ++ vs) =
      vs.head?.bind fun v => op.comparator.bind fun o => (comp d (.str column.text) o v).toOption := by
  have hcomp (o : Str) (ho : comparators.contains o = true) :
      (addExpression d (.str column.text :: .str o :: vs)).toOption =
        vs.head?.bind fun v => (comp d (.str column.text) o v).toOption := by
    cases vs with
    | nil => simp only [addExpression, ho, if_true]; rfl
    | cons v vs => simp only [addExpression, ho, if_true]; rfl
  rw [List.cons_append, finish_cons column.not_value]
  cases op with
  | isIn => exact absurd rfl h
  | ne =>
    have hcomparator : (vs.head?.bind fun v => CompareOp.ne.comparator.bind fun o =>
        (comp d (.str column.text) o v).toOption) = none := by cases vs <;> rfl
    rw [hcomparator]
    exact addExpression_noOperator noOperator_ne _ _
  | _ => exact hcomp _ (by decide)

theorem LiteralComparison.hfilter_left (line : FilterLine py) (d : FilteredDict) {c : LiteralComparison py}
    (hfirst : c.operandFirst = false) (hjoins : ¬c.operand.Joins) {first : Str} {rest : List Str} (helements : c.operand.elements = first :: rest)
    (hplain : IsPlain first) :
    (hfilter py d (line.func (c.text line.row))).toOption =
      (line.readBehind d c.operand.elements).bind fun r =>
        (c.op.comparator.bind fun o => (comp d (.str c.column.text) o r.1).toOption).map (· :: r.2) := by
  obtain ⟨before, hbefore⟩ : ∃ before, before = columnText line.row c.column :: c.op.simplified := ⟨_, rfl⟩
  have hsimplify : simplify (findall py (c.textOf line.row c.operand.cleaned)) = before ++ first :: rest := by
    rw [c.simplify_left hfirst hjoins, helements, hbefore]
  have hbeforePlain : ∀ t ∈ before, IsPlain t := by
    rw [hbefore]
    exact List.forall_mem_cons.mpr ⟨columnText_isPlain _ _, fun t ht => (c.op.simplified_isPlain t ht).1⟩
  have hand : ∀ i ∈ before.map (Item.str : Str → Item F), isAnd i = false := by
    rw [hbefore]
    simpa [isAnd, columnText_ne_and] using c.op.simplified_ne_and
  have htyped : (before.map Item.str).mapM line.typed = some (.str c.column.text :: c.op.simplified.map .str) := by
    rw [hbefore, List.map_cons, List.mapM_cons, line.typed_column, CompareOp.mapM_typed line c.compares]
    rfl
  rw [c.hfilter_func, hsimplify, combine_append hplain hbeforePlain, toOption_map, Option.bind_map,
    FilterLine.readBehind, helements, Option.bind_assoc]
  refine congrArg _ (funext fun items => ?_)
  rw [Function.comp_apply, splitOnP_append hand]
  obtain ⟨p, ps, hsplit⟩ := List.exists_cons_of_ne_nil (List.splitOnP_ne_nil isAnd items)
  rw [hsplit, List.modifyHead_cons, List.mapM_cons, FilterLine.piece, List.mapM_append, htyped]
  cases hp : p.mapM line.typed with
  | none => simp [hp]
  | some vs =>
    have hfinish := finish_column (d := d) c.column c.compares vs
    simp only [hp, Option.bind_eq_bind, Option.bind_some, Option.pure_def]
    rw [hfinish]
    cases vs.head? with
    | none => rfl
    | some v =>
      cases ps.mapM (line.piece d) with
      | none => simp
      | some cs => simp [Option.map_eq_bind]

/-- A piece whose first elements are refused, whatever comes behind them. -/
theorem FilterLine.pieces_refused {is : List (Item F)} (hand : ∀ i ∈ is, isAnd i = false)
    (h : ∀ ws vs, is.mapM line.typed = some ws → finish py d (ws ++ vs) = none) (more : List (Item F)) :
    ((is ++ more).splitOnP isAnd).mapM (line.piece d) = none := by
  obtain ⟨p, ps, hsplit⟩ := List.exists_cons_of_ne_nil (List.splitOnP_ne_nil isAnd more)
  rw [splitOnP_append hand, hsplit, List.modifyHead_cons, mapM_eq_none_iff]
  refine ⟨is ++ p, by simp, ?_⟩
  rw [FilterLine.piece, List.mapM_append]
  cases hws : is.mapM line.typed with
  | none => rfl
  | some ws =>
    cases p.mapM line.typed with
    | none => rfl
    | some vs => exact h ws vs hws

omit [DecidableEq F] in
theorem finish_no_column (hnamed : ∀ s ∈ d.columns ++ d.primaryKeys, IsColumnName py s) {v : Item F} (h : NoColumn py v)
    (vs : List (Item F)) : finish py d (v :: vs) = none := by
  rw [finish_cons h.1]
  by_cases htext : ∃ t, v = .str t
  · obtain ⟨t, rfl⟩ := htext
    exact addExpression_no_column (fun hmem => h.2 t rfl (hnamed t hmem)) vs
  · exact addExpression_no_text (fun t ht => htext ⟨t, ht⟩) vs

/-- What the filter makes of a value before an operator and a column. -/
def LiteralComparison.readBefore (d : FilteredDict) (c : LiteralComparison py) (v : Item F) : Option (Condition F) :=
  if startsWithValue py v then c.op.reversed.bind fun o => (comp d (.str c.column.text) o v).toOption
  else c.op.comparator.bind fun o => (comp d v o (.str c.column.text)).toOption

omit [DecidableEq F] in
theorem LiteralComparison.finish_before (c : LiteralComparison py) (v : Item F) :
    finish py d (v :: c.op.simplified.map .str ++ [.str c.column.text]) = c.readBefore d v := by
  have hop := c.compares
  by_cases hv : startsWithValue py v = true
  · rw [readBefore, if_pos hv, List.cons_append, finish_reversed hv rfl]
    cases hc : c.op with
    | isIn => exact absurd hc hop
    | _ => rfl
  · rw [readBefore, if_neg hv, List.cons_append, finish_cons (by simpa using hv)]
    cases hc : c.op with
    | isIn => exact absurd hc hop
    | ne =>
      exact addExpression_noOperator noOperator_ne v _
    | _ => rfl

/-- A comparison that starts with an operand of one element. -/
theorem LiteralComparison.hfilter_right (line : FilterLine py) (d : FilteredDict) {c : LiteralComparison py}
    (hfirst : c.operandFirst = true) {e : Str} (he : (findall py c.operand.cleaned).foldl mergeToken [] = [e])
    (hcomplete : Complete [e]) (hplain : IsPlain e) (hand : e ≠ ['a', 'n', 'd']) :
    (hfilter py d (line.func (c.text line.row))).toOption =
      (line.typed (.str e)).bind fun v => (c.readBefore d v).map ([·]) := by
  have hplain' : ∀ t ∈ e :: c.op.simplified ++ [columnText line.row c.column], IsPlain t := by
    simp only [List.cons_append, List.mem_cons, List.mem_append, List.not_mem_nil, or_false]
    rintro t (rfl | ht | rfl)
    · exact hplain
    · exact (c.op.simplified_isPlain t ht).1
    · exact columnText_isPlain _ _
  have hand' : ∀ i ∈ (e :: c.op.simplified ++ [columnText line.row c.column]).map (Item.str : Str → Item F),
      isAnd i = false := by
    simpa [isAnd, hand, columnText_ne_and, or_imp, forall_and] using c.op.simplified_ne_and
  have hops := CompareOp.mapM_typed line c.compares
  have hpiece : ((e :: c.op.simplified ++ [columnText line.row c.column]).map Item.str).mapM line.typed =
      (line.typed (.str e)).map fun v => v :: c.op.simplified.map .str ++ [.str c.column.text] := by
    simp only [List.map_append, List.map_cons, List.map_nil, List.mapM_append, List.mapM_cons, List.mapM_nil, hops,
      line.typed_column]
    cases line.typed (.str e) <;> rfl
  rw [c.hfilter_func, c.simplify_single hfirst he hcomplete, combine_plain hplain']
  simp only [Except.toOption, Option.bind_some]
  rw [List.splitOnP_eq_singleton hand', List.mapM_cons, FilterLine.piece, hpiece]
  cases line.typed (.str e) with
  | none => rfl
  | some v =>
    rw [Option.map_some, Option.bind_some, c.finish_before, Option.bind_some, List.mapM_nil]
    cases c.readBefore d v <;> rfl

/-- A comparison that starts with anything else is refused. -/
theorem LiteralComparison.hfilter_first {c : LiteralComparison py} (hfirst : c.operandFirst = true)
    (hnamed : ∀ s ∈ d.columns ++ d.primaryKeys, IsColumnName py s) {tokens rest : List Str} {x : Str}
    (hsplit : findall py c.operand.cleaned = tokens ++ rest) (hx : tokens.foldl mergeToken [] = [x])
    (hplain : ∀ u, IsPlain (x ++ u)) (hand : ∀ u, x ++ u ≠ ['a', 'n', 'd'])
    (htyped : ∀ u v, (Complete [x] → PointNext u ∨ u = "()".toList) → line.typed (.str (x ++ u)) = some v →
      NoColumn py v) :
    (hfilter py d (line.func (c.text line.row))).toOption = none := by
  obtain ⟨u, more, hsimplify, hnext⟩ := c.simplify_first line.row hfirst hsplit hx
  rw [c.hfilter_func, hsimplify, combine_cons (hplain u), Option.bind_eq_none_iff]
  intro items hitems
  obtain ⟨text, more', rfl, htext⟩ := combineFrom_first .plain (toOption_eq_some_iff.mp hitems)
  obtain ⟨u', rfl, hu'⟩ : ∃ u', text = x ++ u' ∧ (Complete [x] → PointNext u' ∨ u' = "()".toList) := by
    rcases htext with rfl | rfl
    · exact ⟨u, rfl, fun h => .inl (hnext h)⟩
    · refine ⟨u ++ "()".toList, by simp, fun h => ?_⟩
      cases u with
      | nil => exact .inr rfl
      | cons a u => exact .inl fun b hb => hnext h b (by simpa using hb)
  have hsingle : ∀ i ∈ [(Item.str (x ++ u') : Item F)], isAnd i = false := by
    simpa [isAnd] using hand u'
  refine line.pieces_refused hsingle (fun ws vs hws => ?_) more'
  rw [List.mapM_cons] at hws
  obtain ⟨v, hv, hws⟩ := Option.bind_eq_some_iff.mp hws
  obtain rfl : [v] = ws := by simpa using hws
  exact finish_no_column hnamed (htyped u' v hu' hv) vs

/-- A decimal number that goes on with the operator is refused. -/
theorem LiteralComparison.hfilter_joined {c : LiteralComparison py} (hfirst : c.operandFirst = false)
    (h : c.operand.Joins) : (hfilter py d (line.func (c.text line.row))).toOption = none := by
  obtain ⟨second, more, hsimplify, hsecond⟩ := c.simplify_joined line.row hfirst h
  obtain ⟨o, rest, rfl, ho, hother⟩ : ∃ o rest, second = o :: rest ∧ o ∈ "=!<>+-".toList ∧ (o = '!' ∨ '.' ∈ rest) := by
    rcases hsecond with rfl | ⟨o, rest, rfl, ho, hpoint⟩
    · exact ⟨'!', [], rfl, by decide, .inl rfl⟩
    · have hlist : o = '=' ∨ o = '<' ∨ o = '>' := by simpa using ho
      have hmem : o ∈ "=!<>+-".toList := by rcases hlist with rfl | rfl | rfl <;> decide
      exact ⟨o, rest, rfl, hmem, .inr hpoint⟩
  obtain ⟨hclass, hdecimal, hdouble, hsingle⟩ := isSymbol_of_mem py ho
  obtain ⟨hascii, ⟨h1, h2⟩, h3, h4⟩ := operator_of_mem ho
  have hplain (rest : Str) : IsPlain (o :: rest) := by simp [IsPlain, h1, h2, h3, h4]
  have hcolumn : ∀ t ∈ [columnText line.row c.column], IsPlain t := by simpa using columnText_isPlain line.row c.column
  rw [c.hfilter_func, hsimplify, ← List.singleton_append, combine_append (hplain rest) hcolumn, toOption_map,
    Option.bind_map, combine_cons (hplain rest), Option.bind_eq_none_iff]
  intro items hitems
  obtain ⟨text, more', rfl, htext⟩ := combineFrom_first .plain (toOption_eq_some_iff.mp hitems)
  obtain ⟨rest', rfl, hother'⟩ : ∃ rest', text = o :: rest' ∧ (o = '!' ∨ '.' ∈ rest') := by
    rcases htext with rfl | rfl
    · exact ⟨rest, rfl, hother⟩
    · exact ⟨rest ++ "()".toList, rfl, hother.imp_right fun h => List.mem_append_left _ h⟩
  have hand : ∀ i ∈ [(Item.str (columnText line.row c.column) : Item F), .str (o :: rest')], isAnd i = false := by
    have ho' : o ≠ 'a' := by
      rintro rfl
      exact absurd ho (by decide)
    simp [isAnd, columnText_ne_and, ho']
  have hnone : NoOperator (F := F) (.str (unquoted (o :: rest'))) := by
    intro t ht
    obtain rfl : unquoted (o :: rest') = t := by simpa using ht
    have hoperators : ∀ t ∈ ['i', 'n'] :: comparators, t.head? ≠ some '!' ∧ '.' ∉ t := by decide
    have hnot : unquoted (o :: rest') ∉ ['i', 'n'] :: comparators := by
      intro hmem
      obtain ⟨hhead, hpoint⟩ := hoperators _ hmem
      rcases hother' with rfl | h
      · obtain ⟨after, hafter⟩ := unquoted_cons ⟨hdouble, hsingle⟩ rest'
        exact hhead (by rw [hafter]; rfl)
      · exact hpoint (mem_unquoted (by decide) (List.mem_cons_of_mem _ h))
    rw [List.mem_cons, not_or] at hnot
    exact ⟨by simpa using hnot.2, hnot.1⟩
  refine line.pieces_refused hand (fun ws vs hws => ?_) more'
  have htyped : line.typed (.str (o :: rest')) = some (.str (unquoted (o :: rest'))) := typedItem_symbol hascii hclass rest'
  simp only [List.mapM_cons, line.typed_column, htyped, List.mapM_nil] at hws
  obtain rfl : [.str c.column.text, .str (unquoted (o :: rest'))] = ws := by simpa using hws
  rw [List.cons_append, finish_cons c.column.not_value]
  exact addExpression_noOperator hnone _ vs

end filter

end LambdaFilter

end Hecuba
