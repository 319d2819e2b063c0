import Hecuba.LambdaReading
import Hecuba.RationalSamples

/-! The rows that a body is true of, and the rows that its query selects. -/

namespace Hecuba

namespace LambdaFilter

variable {F : Type} {py : FilterPython F}

/-- A number as numbers are compared. -/
inductive Number where
  | rational (q : ℚ)
  | infinite (negative : Bool)
  | nan
  deriving DecidableEq, Repr

/-- What Python makes of arithmetic, floats included. -/
structure NumericPython (py : FilterPython F) extends Arithmetic py where
  float : F → Number

/-- A StorageDict whose columns hold numbers: integers or floats. -/
structure NumericDict extends FilteredDict where
  integral : Str → Bool

/-- The numbers in the columns. -/
abbrev Row := Str → ℚ

def NumericDict.holdsColumn (d : NumericDict) (col : Str) : Bool := (d.columns ++ d.primaryKeys).contains col

def NumericDict.IsRow (d : NumericDict) (row : Row) : Prop := ∀ c, d.integral c = true → ∃ n : ℤ, row c = n

def CompareOp.flipped : CompareOp → CompareOp
  | .lt => .gt
  | .le => .ge
  | .gt => .lt
  | .ge => .le
  | op => op

def CompareOp.holds (op : CompareOp) (v : ℚ) : Number → Bool
  | .rational q =>
    match op with
    | .eq => v = q
    | .ne => v ≠ q
    | .lt => v < q
    | .le => v ≤ q
    | .gt => q < v
    | .ge => q ≤ v
    | .isIn => false
  | .infinite negative =>
    match op with
    | .ne => true
    | .lt => !negative
    | .le => !negative
    | .gt => negative
    | .ge => negative
    | _ => false
  | .nan => op = .ne

section meaning

variable (N : NumericPython py)

def NumericPython.scalar : Scalar F → Option Number
  | .int n => some (.rational n)
  | .float x => some (N.float x)
  | _ => none

/-- The value of arithmetic; none when Python raises. -/
def NumericPython.number (a : Arith) : Option Number := (N.value a.text).toOption.bind N.scalar

/-- Whether a comparison is true of a row; none when Python raises. No number has items. -/
def Comparison.truth (d : NumericDict) (row : Row) : Comparison py → Option Bool
  | left col op a =>
    if d.holdsColumn col.text ∧ op ≠ .isIn then (N.number a).map (op.holds (row col.text)) else none
  | right a op col =>
    if d.holdsColumn col.text ∧ op ≠ .isIn then (N.number a).map (op.flipped.holds (row col.text)) else none
  | inList col l =>
    if d.holdsColumn col.text then (l.mapM N.number).map fun ns => ns.any (CompareOp.eq.holds (row col.text)) else none
  | inTuple col l =>
    if d.holdsColumn col.text then (l.mapM N.number).map fun ns => ns.any (CompareOp.eq.holds (row col.text)) else none

def Body.truth (d : NumericDict) (row : Row) : Body py → Option Bool
  | comparison c => c.truth N d row
  | not a => (a.truth d row).map fun t => !t
  | and a b =>
    match a.truth d row with
    | some true => b.truth d row
    | t => t
  | or a b =>
    match a.truth d row with
    | some false => b.truth d row
    | t => t
  | paren a => a.truth d row

/-- The number of a constant that the database takes for a column of numbers. -/
def NumericPython.constant (d : NumericDict) (col : Str) : Scalar F → Option ℚ
  | .int n => some n
  | .float x =>
    match N.float x with
    | .rational q => if d.integral col then none else some q
    | _ => none
  | _ => none

/-- The comparison that the database makes of a condition; none when it refuses the query. -/
def Condition.test (d : NumericDict) : Condition F → Option (Row → Bool)
  | .comp col op (.scalar v) =>
    ([CompareOp.eq, .lt, .le, .gt, .ge].find? fun o => o.comparator = some op).bind fun o =>
      (N.constant d col v).map fun q row => o.holds (row col) (.rational q)
  | .comp _ _ (.sequence _ _) => none
  | .inside col values =>
    if values.isEmpty then none
    else (values.mapM (N.constant d col)).map fun qs row => qs.any fun q => CompareOp.eq.holds (row col) (.rational q)

/-- The rows that the query selects. -/
def select (d : NumericDict) (conditions : List (Condition F)) : Option (Row → Bool) :=
  (conditions.mapM (Condition.test N d)).map fun tests row => tests.all fun t => t row

/-- The filter raises, the database refuses its query, or the rows selected are those that the body
is true of. -/
def Preserves [DecidableEq F] (d : NumericDict) (b : Body py) (func : Lambda F) : Prop :=
  ∀ conditions selected, hfilter py d.toFilteredDict func = .ok conditions → select N d conditions = some selected →
    ∀ row, d.IsRow row → (selected row = true ↔ b.truth N d row = some true)

section numbers

def Number.finite : Number → List ℚ
  | .rational q => [q]
  | _ => []

def Comparison.numbers : Comparison py → List ℚ
  | left _ _ a => (N.number a).toList.flatMap Number.finite
  | right a _ _ => (N.number a).toList.flatMap Number.finite
  | inList _ l => (l.filterMap N.number).flatMap Number.finite
  | inTuple _ l => (l.filterMap N.number).flatMap Number.finite

/-- The values of the arithmetic of a body. -/
def Body.numbers : Body py → List ℚ
  | comparison c => c.numbers N
  | not a => a.numbers
  | and a b => a.numbers ++ b.numbers
  | or a b => a.numbers ++ b.numbers
  | paren a => a.numbers

def Condition.numbers (d : NumericDict) : Condition F → List ℚ
  | .comp col _ (.scalar v) => (N.constant d col v).toList
  | .comp _ _ (.sequence _ _) => []
  | .inside col values => values.filterMap (N.constant d col)

end numbers

/-- What the filter reads of a body is all that the body says: the conditions read agree with it on
the rows that hold samples of their numbers. -/
def Body.ReadWhole (d : NumericDict) (b : Body py) : Prop :=
  ∀ conditions selected, b.read N.toArithmetic d.toFilteredDict = some conditions →
    select N d conditions = some selected →
    ∀ row, d.IsRow row → (∀ c, row c ∈ samples (b.numbers N ++ conditions.flatMap (Condition.numbers N d))) →
      (selected row = true ↔ b.truth N d row = some true)

end meaning

section alike

variable {N : NumericPython py} {d : NumericDict} {row row' : Row}

theorem CompareOp.holds_congr (op : CompareOp) {numbers : List ℚ} {v w : ℚ} (h : Alike numbers v w) {n : Number}
    (hn : ∀ q ∈ n.finite, q ∈ numbers) : op.holds v n = op.holds w n := by
  cases n with
  | rational q =>
    obtain ⟨hlt, heq⟩ := h q (hn q (by simp [Number.finite]))
    have hle : v ≤ q ↔ w ≤ q := by rw [le_iff_lt_or_eq, le_iff_lt_or_eq, hlt, heq]
    have hgt : q < v ↔ q < w := by rw [← not_le, ← not_le, hle]
    have hge : q ≤ v ↔ q ≤ w := by rw [← not_lt, ← not_lt, hlt]
    cases op <;> simp [holds, hlt, heq, hle, hgt, hge]
  | infinite negative => rfl
  | nan => rfl

theorem Comparison.truth_congr {c : Comparison py} (h : ∀ col, Alike (c.numbers N) (row col) (row' col)) :
    c.truth N d row = c.truth N d row' := by
  have harith {a : Arith} (hc : c.numbers N = (N.number a).toList.flatMap Number.finite) (op : CompareOp) (col : Str) :
      (N.number a).map (op.holds (row col)) = (N.number a).map (op.holds (row' col)) := by
    refine Option.map_congr fun n hn => op.holds_congr (h col) fun q hq => ?_
    simpa [hc, hn] using hq
  have hany {l : List Arith} (hc : c.numbers N = (l.filterMap N.number).flatMap Number.finite) (col : Str) :
      ((l.mapM N.number).map fun ns => ns.any (CompareOp.eq.holds (row col))) =
        (l.mapM N.number).map fun ns => ns.any (CompareOp.eq.holds (row' col)) := by
    refine Option.map_congr fun ns hns => any_congr_mem fun n hn => ?_
    obtain ⟨a, ha, hna⟩ := exists_of_mem_mapM_option hns hn
    refine CompareOp.eq.holds_congr (h col) fun q hq => ?_
    rw [hc]
    exact List.mem_flatMap.mpr ⟨n, List.mem_filterMap.mpr ⟨a, ha, hna⟩, hq⟩
  cases c with
  | left col op a => simp only [truth, harith rfl]
  | right a op col => simp only [truth, harith rfl]
  | inList col l => simp only [truth, hany rfl]
  | inTuple col l => simp only [truth, hany rfl]

theorem Alike.left {l m : List ℚ} {v w : ℚ} (h : Alike (l ++ m) v w) : Alike l v w := fun q hq => h q (by simp [hq])

theorem Alike.right {l m : List ℚ} {v w : ℚ} (h : Alike (l ++ m) v w) : Alike m v w := fun q hq => h q (by simp [hq])

theorem Body.truth_congr {b : Body py} (h : ∀ col, Alike (b.numbers N) (row col) (row' col)) :
    b.truth N d row = b.truth N d row' := by
  induction b with
  | comparison c => exact c.truth_congr h
  | not a ih => simp only [truth, ih h]
  | and a b iha ihb => simp only [truth, iha fun col => Alike.left (h col), ihb fun col => Alike.right (h col)]
  | or a b iha ihb => simp only [truth, iha fun col => Alike.left (h col), ihb fun col => Alike.right (h col)]
  | paren a ih => exact ih h

theorem Condition.test_congr {c : Condition F} {t : Row → Bool} (ht : c.test N d = some t)
    (h : ∀ col, Alike (c.numbers N d) (row col) (row' col)) : t row = t row' := by
  have hfinite {q : ℚ} {l : List ℚ} (hq : q ∈ l) : ∀ q' ∈ (Number.rational q).finite, q' ∈ l := by
    simpa [Number.finite] using hq
  cases c with
  | comp col op value =>
    cases value with
    | scalar v =>
      obtain ⟨o, -, ho⟩ := Option.bind_eq_some_iff.mp ht
      obtain ⟨q, hq, rfl⟩ := Option.map_eq_some_iff.mp ho
      exact o.holds_congr (h col) (hfinite (by simp [numbers, hq]))
    | sequence m vs => simp [test] at ht
  | inside col values =>
    by_cases hv : values.isEmpty
    · simp [test, hv] at ht
    · simp only [test, hv, Bool.false_eq_true, if_false] at ht
      obtain ⟨qs, hqs, rfl⟩ := Option.map_eq_some_iff.mp ht
      refine any_congr_mem fun q hq => CompareOp.eq.holds_congr (h col) (hfinite ?_)
      obtain ⟨v, hv, hqv⟩ := exists_of_mem_mapM_option hqs hq
      exact List.mem_filterMap.mpr ⟨v, hv, hqv⟩

theorem select_congr {conditions : List (Condition F)} {selected : Row → Bool}
    (hs : select N d conditions = some selected)
    (h : ∀ col, Alike (conditions.flatMap (Condition.numbers N d)) (row col) (row' col)) :
    selected row = selected row' := by
  obtain ⟨tests, htests, rfl⟩ := Option.map_eq_some_iff.mp hs
  refine all_congr_mem fun t ht => ?_
  obtain ⟨c, hc, hct⟩ := exists_of_mem_mapM_option htests ht
  exact Condition.test_congr hct fun col q hq => h col q (List.mem_flatMap.mpr ⟨c, hc, hq⟩)

/-- A row has another one of samples that compares with the numbers as it does. -/
theorem exists_sample_row (numbers : List ℚ) (hrow : d.IsRow row) :
    ∃ row', d.IsRow row' ∧ (∀ c, row' c ∈ samples numbers) ∧ ∀ c, Alike numbers (row c) (row' c) := by
  have hsample (c : Str) : ∃ w ∈ samples numbers, (d.integral c = true → ∃ n : ℤ, w = n) ∧ Alike numbers (row c) w := by
    by_cases hc : d.integral c = true
    · obtain ⟨n, hn⟩ := hrow c hc
      obtain ⟨w, hw, halike⟩ := exists_integer_sample numbers n
      exact ⟨w, hw, fun _ => ⟨w, rfl⟩, hn ▸ halike⟩
    · obtain ⟨w, hw, halike⟩ := exists_sample numbers (row c)
      exact ⟨w, hw, fun h => absurd h hc, halike⟩
  choose row' hmem hint halike using hsample
  exact ⟨row', hint, hmem, halike⟩

end alike

/-- The filter preserves the meaning of a body exactly when it reads all of it. -/
theorem preserves_iff_readWhole [DecidableEq F] (N : NumericPython py) (d : NumericDict) (row : Name py)
    (b : Body py) (func : Lambda F) (text : Str) (hsource : funcToStr func.source = ([row.text], text))
    (htext : findall py text = b.tokens row) (hcaptured : func.captured = []) : Preserves N d b func ↔ b.ReadWhole N d := by
  have hread := hfilter_toOption N.toArithmetic d.toFilteredDict row b hsource htext hcaptured
  constructor
  · intro h conditions selected hc hs r hr _
    exact h conditions selected (toOption_eq_some_iff.mp (hread.trans hc)) hs r hr
  · intro h conditions selected hc hs r hr
    have hc' := hread.symm.trans (toOption_eq_some_iff.mpr hc)
    obtain ⟨r', hr', hmem, halike⟩ := exists_sample_row (b.numbers N ++ conditions.flatMap (Condition.numbers N d)) hr
    have hiff := h conditions selected hc' hs r' hr' hmem
    rwa [← select_congr hs fun c => Alike.right (halike c), ← Body.truth_congr fun c => Alike.left (halike c)] at hiff

section integers

/-- A number of digits; nothing else is arithmetic here. -/
def integerValue (s : Str) : Except PyException (Scalar Empty) :=
  if s ≠ [] ∧ s.all Char.isDigit then .ok (.int (Nat.ofDigitChars 10 s 0))
  else .error ⟨"SyntaxError", "invalid syntax".toList⟩

def integerItems (items : List Str) (mutable : Bool) : Except PyException (Item Empty) :=
  (items.mapM integerValue).map (.sequence mutable)

/-- The lists and the tuples of such numbers, and a number between parentheses. -/
def integerGroup : Str → Except PyException (Item Empty)
  | '[' :: rest => if rest.dropLast = [] then integerItems [] true else integerItems (rest.dropLast.splitOn ',') true
  | '(' :: rest =>
    let items := rest.dropLast.splitOn ','
    if rest.dropLast = [] then integerItems [] false
    else if rest.dropLast.contains '(' then .error ⟨"SyntaxError", "'(' was never closed".toList⟩
    else if items.length = 1 then (integerValue rest.dropLast).map .scalar
    else integerItems (if items.getLast? = some [] then items.dropLast else items) false
  | _ => .error ⟨"SyntaxError", "invalid syntax".toList⟩

/-- Python on ASCII texts with integers of digits only. -/
def integerPython : FilterPython Empty where
  toInterpreter := asciiPython
  wideDecimal _ := false
  wideDigit _ := false
  toInt s :=
    if s ≠ [] ∧ s.all Char.isDigit then .ok (Nat.ofDigitChars 10 s 0)
    else .error ⟨"ValueError", "invalid literal for int()".toList⟩
  toFloat _ := .error ⟨"ValueError", "could not convert string to float".toList⟩
  formatFloat := nofun
  formatSequence _ _ := []
  eval := integerGroup
  identifier_keyword s h := by
    simp only [asciiPython, Bool.and_eq_true, Bool.not_eq_true', decide_eq_true_eq] at h
    simpa using h.2
  identifier_start s h := by
    simp only [asciiPython, Bool.and_eq_true, Bool.not_eq_true', decide_eq_true_eq] at h
    obtain ⟨⟨⟨hne, -⟩, hdigit⟩, -⟩ := h
    cases s with
    | nil => simp at hne
    | cons c rest => exact ⟨c, rest, rfl, by simpa using fun _ => hdigit⟩
  toInt_digits s hne h := by
    have hall : s.all Char.isDigit = true := List.all_eq_true.mpr h
    simp [hne, hall]

theorem Arith.comma_not_mem (a : Arith) : ',' ∉ a.text := fun h => by
  obtain ⟨t, ht, hc⟩ := List.mem_flatten.mp h
  exact a.forall_mem_tokens (p := (',' ∉ ·)) (fun n => n.not_mem (by decide)) (by decide) (by decide) t ht hc

theorem Arith.text_ne_nil (a : Arith) : a.text ≠ [] := by
  have hnumber (n : IntegerText) : n.text ≠ [] := by
    obtain ⟨c, rest, hn, -, -⟩ := n.exists_head
    simp [hn]
  induction a with
  | number n => simpa [text, tokens] using hnumber n
  | unary op a ih => cases op <;> simp [text, tokens, UnaryOp.symbol]
  | binary a op b iha _ => simp_all [text, tokens]
  | power a n _ => simp [text, tokens]
  | paren a _ => simp [text, tokens]

theorem separated_flatten (items : List Arith) :
    (separated items).flatten = [','].intercalate (items.map Arith.text) := by
  induction items with
  | nil => rfl
  | cons a items ih =>
    cases items with
    | nil => simp [separated, List.intercalate, Arith.text]
    | cons b items =>
      rw [separated_cons, List.map_cons, List.intercalate_cons_of_ne_nil (by simp), ← ih]
      simp [Arith.text]

theorem splitOn_separated {items : List Arith} (h : items ≠ []) :
    (separated items).flatten.splitOn ',' = items.map Arith.text := by
  rw [separated_flatten]
  exact List.splitOn_intercalate ',' (by simpa using fun a _ => a.comma_not_mem) (by simpa using h)

theorem integerItems_map (items : List Arith) (mutable : Bool) :
    integerItems (items.map Arith.text) mutable =
      (items.mapM fun a => integerValue a.text).map (.sequence mutable) := by
  rw [integerItems, List.mapM_map]
  rfl

theorem integerGroup_bracket (s : Str) :
    integerGroup ('[' :: s ++ [']']) = if s = [] then integerItems [] true else integerItems (s.splitOn ',') true := by
  simp [integerGroup]

theorem integerGroup_paren (s : Str) : integerGroup ('(' :: s ++ [')']) =
    if s = [] then integerItems [] false
    else if s.contains '(' then .error ⟨"SyntaxError", "'(' was never closed".toList⟩
    else if (s.splitOn ',').length = 1 then (integerValue s).map .scalar
    else integerItems (if (s.splitOn ',').getLast? = some [] then (s.splitOn ',').dropLast else s.splitOn ',')
      false := by
  simp only [integerGroup, List.cons_append, List.dropLast_concat]

theorem tupleContent_cons (a b : Arith) (items : List Arith) :
    tupleContent (a :: b :: items) = separated (a :: b :: items) := rfl

theorem separated_ne_nil {items : List Arith} (h : items ≠ []) : (separated items).flatten ≠ [] := by
  have hsplit := splitOn_separated h
  intro hnil
  obtain ⟨a, items, rfl⟩ := List.exists_cons_of_ne_nil h
  rw [hnil] at hsplit
  have ha := a.text_ne_nil
  simp_all

theorem integerValue_digits {s : Str} {v : Scalar Empty} (h : integerValue s = .ok v) :
    ∃ n, v = .int n ∧ ∀ c ∈ s, c.isDigit = true := by
  by_cases hs : s ≠ [] ∧ s.all Char.isDigit
  · rw [integerValue, if_pos hs] at h
    exact ⟨_, (Except.ok.inj h).symm, List.all_eq_true.mp hs.2⟩
  · rw [integerValue, if_neg hs] at h
    cases h

theorem integerValue_no_length {s : Str} {v : Item Empty} (h : (integerValue s).map Item.scalar = .ok v) (n : Nat) :
    Item.length v ≠ .ok n := by
  cases hs : integerValue s with
  | error e =>
    rw [hs] at h
    cases h
  | ok w =>
    obtain ⟨k, rfl, -⟩ := integerValue_digits hs
    rw [hs] at h
    obtain rfl : Item.scalar (.int k) = v := Except.ok.inj h
    exact nofun

theorem integerItems_chars {s : Str} {v : Item Empty}
    (h : integerItems (if (s.splitOn ',').getLast? = some [] then (s.splitOn ',').dropLast else s.splitOn ',')
      false = .ok v) :
    ∀ c ∈ s, c.isDigit = true ∨ c = ',' := by
  have hitems (items : List Str) (h : integerItems items false = .ok v) : ∀ t ∈ items, ∀ c ∈ t, c.isDigit = true := by
    intro t ht
    have hr : ∃ r, items.mapM integerValue = .ok r := by
      cases hr : items.mapM integerValue with
      | ok r => exact ⟨r, rfl⟩
      | error e => simp [integerItems, hr, Except.map] at h
    obtain ⟨w, hw⟩ := mapM_returns_iff.mp hr t ht
    obtain ⟨n, -, hdigits⟩ := integerValue_digits hw
    exact hdigits
  have hpieces : ∀ t ∈ s.splitOn ',', ∀ c ∈ t, c.isDigit = true := by
    by_cases hlast : (s.splitOn ',').getLast? = some []
    · obtain ⟨before, hbefore⟩ := List.getLast?_eq_some_iff.mp hlast
      rw [if_pos hlast, hbefore, List.dropLast_concat] at h
      rw [hbefore]
      simpa [or_imp, forall_and] using hitems before h
    · exact hitems _ (by rwa [if_neg hlast] at h)
  intro c hc
  by_cases hcomma : c = ','
  · exact .inr hcomma
  · obtain ⟨t, ht, hct⟩ := exists_mem_splitOnP (p := (· == ',')) hc (by simpa using hcomma)
    exact .inl (hpieces t ht c hct)

/-- An element has a character that no tuple has here. -/
theorem Elem.exists_char (row : Name integerPython) (e : Elem integerPython) :
    ∃ c ∈ (e.simplified row).flatten, c.isDigit = false ∧ c ≠ ',' := by
  have hcolumn (column : Name integerPython) : '.' ∈ columnText row column := by simp [columnText]
  cases e with
  | comparison c =>
    refine ⟨'.', ?_, by decide, by decide⟩
    cases c <;> simp [simplified, Comparison.simplified, hcolumn]
  | not => exact ⟨'n', by simp [simplified, tokens], by decide, by decide⟩
  | and => exact ⟨'a', by simp [simplified, tokens], by decide, by decide⟩
  | or => exact ⟨'o', by simp [simplified, tokens], by decide, by decide⟩
  | opening => exact ⟨'(', by simp [simplified, tokens], by decide, by decide⟩
  | closing => exact ⟨')', by simp [simplified, tokens], by decide, by decide⟩

def integerNumbers : NumericPython integerPython where
  value := integerValue
  eval_list items := by
    have htext : (listTokens items).flatten = '[' :: (separated items).flatten ++ [']'] := by simp [listTokens]
    change integerGroup (listTokens items).flatten = _
    rw [htext, integerGroup_bracket]
    by_cases h : items = []
    · subst h
      rfl
    · rw [if_neg (separated_ne_nil h), splitOn_separated h, integerItems_map]
  eval_tuple items hbare := by
    have htext : (tupleTokens items).flatten = '(' :: (tupleContent items).flatten ++ [')'] := by simp [tupleTokens]
    have hopen : (tupleContent items).flatten.contains '(' = false := by
      have hbare' := List.all_eq_true.mp hbare
      have hmem : ∀ t ∈ tupleContent items, '(' ∉ t :=
        forall_mem_tupleContent (by decide) fun a ha =>
          Arith.forall_mem_tokens_of_bare (p := ('(' ∉ ·)) (fun n => n.not_mem (by decide)) (by decide) (hbare' a ha)
      simpa using hmem
    change integerGroup (tupleTokens items).flatten = _
    rw [htext, integerGroup_paren, hopen]
    match items with
    | [] => rfl
    | [a] =>
      have hsplit : (tupleContent [a]).flatten.splitOn ',' = [a.text, []] := by
        have := List.splitOn_append_cons_self_of_not_mem a.comma_not_mem ([] : Str)
        simpa [tupleContent, Arith.text] using this
      have hne : (tupleContent [a]).flatten ≠ [] := by simp [tupleContent]
      simpa [hsplit, hne] using integerItems_map [a] false
    | a :: b :: items =>
      have hcons : a :: b :: items ≠ [] := by simp
      have hne := separated_ne_nil hcons
      have hsplit := splitOn_separated hcons
      have hlast : ((a :: b :: items).map Arith.text).getLast? ≠ some [] := by
        intro h
        obtain ⟨c, -, hc⟩ := List.mem_map.mp (List.mem_of_getLast? h)
        exact c.text_ne_nil hc
      have hlen : ((a :: b :: items).map Arith.text).length ≠ 1 := by simp
      rw [tupleContent_cons, if_neg hne, hsplit, if_neg (by simp), if_neg hlen, if_neg hlast, integerItems_map]
  eval_unclosed s v hmem _ := by
    have hne : s ≠ [] := List.ne_nil_of_mem hmem
    change integerGroup ('(' :: s ++ [')']) ≠ .ok v
    rw [integerGroup_paren, if_neg hne, if_pos (by simpa using hmem)]
    simp
  eval_arith a v n := by
    change integerGroup ('(' :: a.text ++ [')']) = .ok v → _
    rw [integerGroup_paren, if_neg a.text_ne_nil, List.splitOn_eq_singleton a.comma_not_mem]
    by_cases hopen : a.text.contains '(' = true
    · rw [if_pos hopen]
      exact nofun
    · rw [if_neg hopen, if_pos List.length_singleton]
      exact fun h => integerValue_no_length h n
  eval_condition row l v n hl := by
    have hchar : ∃ c ∈ (l.flatMap (Elem.simplified row)).flatten, c.isDigit = false ∧ c ≠ ',' := by
      obtain ⟨e, l, rfl⟩ := List.exists_cons_of_ne_nil hl
      obtain ⟨c, hc, hne⟩ := e.exists_char row
      exact ⟨c, by simp only [List.flatMap_cons, List.flatten_append, List.mem_append]; exact .inl hc, hne⟩
    obtain ⟨c, hc, hdigit, hcomma⟩ := hchar
    change integerGroup ('(' :: (l.flatMap (Elem.simplified row)).flatten ++ [')']) = .ok v → _
    generalize (l.flatMap (Elem.simplified row)).flatten = content at hc
    rw [integerGroup_paren, if_neg (List.ne_nil_of_mem hc)]
    by_cases hopen : content.contains '(' = true
    · rw [if_pos hopen]
      exact nofun
    · rw [if_neg hopen]
      by_cases hlen : (content.splitOn ',').length = 1
      · rw [if_pos hlen]
        exact fun h => integerValue_no_length h n
      · rw [if_neg hlen]
        intro h
        exact absurd (integerItems_chars h c hc) (by simp [hdigit, hcomma])
  float := nofun

/-- A StorageDict with two columns of integers. -/
def integerDict : NumericDict where
  primaryKeys := [['k']]
  columns := [['a'], ['b']]
  integral _ := true

def rowName : Name integerPython := ⟨['x'], by decide, by simp; decide⟩

def columnA : Name integerPython := ⟨['a'], by decide, by simp; decide⟩

def columnB : Name integerPython := ⟨['b'], by decide, by simp; decide⟩

def digit (c : Char) (h : c.isDigit = true) : IntegerText :=
  ⟨[c], by simp [IsWordChar, Char.isAlphanum, h], by simpa using h⟩

def conjunction : Body integerPython :=
  .and (.comparison (.left columnA .ge (.number (digit '3' rfl))))
    (.comparison (.right (.number (digit '5' rfl)) .gt columnB))

def disjunction : Body integerPython :=
  .or (.comparison (.left columnA .gt (.number (digit '1' rfl))))
    (.comparison (.left columnB .lt (.number (digit '2' rfl))))

theorem conjunction_preserved :
    Preserves integerNumbers integerDict conjunction ⟨"r = filter(lambda x: x.a >= 3 and 5 > x.b, d)".toList, []⟩ := by
  refine (preserves_iff_readWhole integerNumbers integerDict rowName conjunction _ " x.a >= 3 and 5 > x.b".toList
    (by decide) (by decide) rfl).mpr ?_
  have hread : conjunction.read integerNumbers.toArithmetic integerDict.toFilteredDict =
      some [.comp ['a'] ['>', '='] (.scalar (.int 3)), .comp ['b'] ['<'] (.scalar (.int 5))] := by decide
  intro conditions selected hc hs row _ _
  obtain rfl := Option.some.inj (hread.symm.trans hc)
  obtain rfl := Option.some.inj hs
  have htruth : conjunction.truth integerNumbers integerDict row =
      match some (CompareOp.ge.holds (row ['a']) (.rational 3)) with
      | some true => some (CompareOp.lt.holds (row ['b']) (.rational 5))
      | t => t := rfl
  rw [htruth]
  change (CompareOp.ge.holds (row ['a']) (.rational 3) &&
    (CompareOp.lt.holds (row ['b']) (.rational 5) && true)) = true ↔ _
  cases CompareOp.ge.holds (row ['a']) (.rational 3) <;> simp

theorem disjunction_not_preserved : ¬ ∀ (row : Name integerPython) (b : Body integerPython)
    (func : Lambda Empty) (text : Str),
    funcToStr func.source = ([row.text], text) → findall integerPython text = b.tokens row → func.captured = [] →
      Preserves integerNumbers integerDict b func := by
  intro h
  have hor := h rowName disjunction ⟨"r = filter(lambda x: x.a > 1 or x.b < 2, d)".toList, []⟩
    " x.a > 1 or x.b < 2".toList (by decide) (by decide) rfl
  have hfilter : hfilter integerPython integerDict.toFilteredDict
      ⟨"r = filter(lambda x: x.a > 1 or x.b < 2, d)".toList, []⟩ =
      .ok [.comp ['a'] ['>'] (.scalar (.int 1))] := by decide
  have htruth : disjunction.truth integerNumbers integerDict (fun _ => 0) = some true := by decide
  have hselected := (hor _ _ hfilter rfl (fun _ => 0) fun _ _ => ⟨0, rfl⟩).mpr htruth
  exact absurd hselected (by decide)

end integers

end LambdaFilter

end Hecuba
