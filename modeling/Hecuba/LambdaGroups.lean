import Hecuba.LambdaBodies
import Mathlib.Data.List.Chain

/-! The lists, the tuples and the parentheses of a body, as the filter combines them. -/

namespace Hecuba

namespace LambdaFilter

variable {F : Type} {py : FilterPython F}

/-- What Python makes of arithmetic of integer literals: its value, the lists and the tuples of it, and
the parentheses that are no tuple. -/
structure Arithmetic (py : FilterPython F) where
  value : Str → Except PyException (Scalar F)
  eval_list : ∀ items : List Arith,
    py.eval (listTokens items).flatten = (items.mapM fun a => value a.text).map (.sequence true)
  eval_tuple : ∀ items : List Arith, items.all Arith.bare = true →
    py.eval (tupleTokens items).flatten = (items.mapM fun a => value a.text).map (.sequence false)
  eval_unclosed : ∀ s v, '(' ∈ s → (∀ c ∈ s, c ≠ ')' ∧ c ≠ '"' ∧ c ≠ '\'' ∧ c ≠ '#') →
    py.eval ('(' :: s ++ [')']) ≠ .ok v
  eval_arith : ∀ (a : Arith) v n, py.eval ('(' :: a.text ++ [')']) = .ok v → Item.length v ≠ .ok n
  eval_condition : ∀ (row : Name py) (l : List (Elem py)) v n, l ≠ [] →
    py.eval ('(' :: (l.flatMap (Elem.simplified row)).flatten ++ [')']) = .ok v → Item.length v ≠ .ok n

/-- The values of the items of a list. -/
def Arithmetic.values (A : Arithmetic py) (items : List Arith) : Option (List (Scalar F)) :=
  items.mapM fun a => (A.value a.text).toOption

/-- The elements of the filter that a comparison becomes, with `name` of its column; none when the code raises. -/
def Comparison.items (A : Arithmetic py) (name : Name py → Str) : Comparison py → Option (List (Item F))
  | left column op a =>
    if a.bare then some (.str (name column) :: (op.simplified ++ a.tokens).map .str) else none
  | right a op column =>
    if a.bare then some ((a.tokens ++ op.simplified).map .str ++ [.str (name column)]) else none
  | inList column l => (A.values l).map fun vs => [.str (name column), .str ['i', 'n'], .sequence true vs]
  | inTuple column l =>
    if l.all Arith.bare then
      (A.values l).map fun vs =>
        if l.isEmpty then [.str (name column), .str ['i', 'n', '(', ')']]
        else [.str (name column), .str ['i', 'n'], .sequence false vs]
    else none

def Elem.items (A : Arithmetic py) (name : Name py → Str) : Elem py → Option (List (Item F))
  | comparison c => c.items A name
  | not => some [.str ['n', 'o', 't']]
  | and => some [.str ['a', 'n', 'd']]
  | or => some [.str ['o', 'r']]
  | opening => none
  | closing => some [.str [')']]

/-- Whether an operand may start with an element. -/
def Elem.starts : Elem py → Bool
  | comparison _ => true
  | not => true
  | opening => true
  | _ => false

/-- Whether an operand may end with an element. -/
def Elem.ends : Elem py → Bool
  | comparison _ => true
  | closing => true
  | _ => false

/-- After an operand there is no other one, and there is one after anything else. -/
def Follows (e e' : Elem py) : Prop := e.ends ≠ e'.starts

section combine

/-- No token of a group, a parenthesis. -/
def IsPlain (t : Str) : Prop := t ≠ ['['] ∧ t ≠ [']'] ∧ t ≠ ['('] ∧ t ≠ [')']

/-- In a text without quotes and comments, the closing parenthesis is a token of its own. -/
def IsClean (t : Str) : Prop := (')' ∈ t → t = [')']) ∧ '"' ∉ t ∧ '\'' ∉ t ∧ '#' ∉ t

theorem combineFrom_push {ts : List Str} (h : ∀ t ∈ ts, IsPlain t) (done : List (Item F)) (rest : List Str) :
    combineFrom py [] .plain done (ts ++ rest) = combineFrom py [] .plain ((ts.map Item.str).reverse ++ done) rest := by
  induction ts generalizing done with
  | nil => rfl
  | cons t ts ih =>
    obtain ⟨ht, hts⟩ := List.forall_mem_cons.mp h
    simp [combineFrom, ht.1, ht.2.2.1, ih hts]

theorem combineFrom_paren {ts : List Str} (h : [')'] ∉ ts) (group : List Str) (done : List (Item F)) (rest : List Str) :
    combineFrom py [] (.paren group) done (ts ++ rest) = combineFrom py [] (.paren (group ++ ts)) done rest := by
  induction ts generalizing group with
  | nil => simp
  | cons t ts ih =>
    rw [List.mem_cons, not_or] at h
    simp [combineFrom, Ne.symm h.1, ih h.2]

theorem combineFrom_bracket {ts : List Str} (h : [']'] ∉ ts) (group : List Str) (done : List (Item F))
    (rest : List Str) :
    combineFrom py [] (.bracket group) done (ts ++ rest) = combineFrom py [] (.bracket (group ++ ts)) done rest := by
  induction ts generalizing group with
  | nil => simp
  | cons t ts ih =>
    rw [List.mem_cons, not_or] at h
    simp [combineFrom, Ne.symm h.1, ih h.2]

/-- A group without length makes the code raise. -/
theorem combineFrom_no_length {ts : List Str} (h : [')'] ∉ ts)
    (hlen : ∀ v n, py.eval ('(' :: ts.flatten ++ [')']) = .ok v → Item.length v ≠ .ok n) (done : List (Item F))
    (rest : List Str) : (combineFrom py [] (.paren [['(']]) done (ts ++ [')'] :: rest)).toOption = none := by
  rw [combineFrom_paren h, toOption_eq_none_iff]
  intro r hr
  simp only [combineFrom, List.append_nil, ite_self, if_true] at hr
  obtain ⟨joined, hjoined, hr⟩ := bind_ok_iff.mp hr
  obtain ⟨n, hn, -⟩ := bind_ok_iff.mp hr
  exact hlen joined n (by simpa using hjoined) hn

/-- A parenthesis inside of the group makes the code raise. -/
theorem combineFrom_unclosed (A : Arithmetic py) {ts : List Str} (hclean : ∀ t ∈ ts, IsClean t)
    {before after : List Str} (hts : ts = before ++ ['('] :: after) (hbefore : [')'] ∉ before) (done : List (Item F)) :
    (combineFrom py [] (.paren [['(']]) done ts).toOption = none := by
  by_cases hclose : [')'] ∈ ts
  · obtain ⟨content, rest, rfl, hcontent⟩ := List.eq_append_cons_of_mem hclose
    refine combineFrom_no_length hcontent (fun v n hv => absurd hv (A.eval_unclosed _ _ ?_ ?_)) done rest
    · have hopen : ['('] ∈ content := mem_of_append_cons_eq hts (by decide) hbefore
      exact List.mem_flatten.mpr ⟨_, hopen, by simp⟩
    · intro c hc
      obtain ⟨t, ht, hct⟩ := List.mem_flatten.mp hc
      have htclean := hclean t (by simp [ht])
      refine ⟨?_, ?_, ?_, ?_⟩
      · rintro rfl
        exact hcontent (htclean.1 hct ▸ ht)
      all_goals
        rintro rfl
        simp_all [IsClean]
  · rw [toOption_eq_none_iff, ← List.append_nil ts, combineFrom_paren hclose]
    simp [combineFrom]

/-- There is a parenthesis that is opened before any is closed. -/
def Opens (ts : List Str) : Prop := ∃ before after, ts = before ++ ['('] :: after ∧ [')'] ∉ before

theorem Opens.append {ts : List Str} (h : Opens ts) (us : List Str) : Opens (ts ++ us) := by
  obtain ⟨before, after, rfl, hbefore⟩ := h
  exact ⟨before, after ++ us, by simp, hbefore⟩

theorem Opens.prepend {ts us : List Str} (h : Opens ts) (hus : [')'] ∉ us) : Opens (us ++ ts) := by
  obtain ⟨before, after, rfl, hbefore⟩ := h
  exact ⟨us ++ before, after, by simp, by simp [hus, hbefore]⟩

theorem combineFrom_opens (A : Arithmetic py) {ts : List Str} (h : Opens ts) (hclean : ∀ t ∈ ts, IsClean t)
    (done : List (Item F)) : (combineFrom py [] (.paren [['(']]) done ts).toOption = none := by
  obtain ⟨before, after, hts, hbefore⟩ := h
  exact combineFrom_unclosed A hclean hts hbefore done

section words

theorem isClean_of_word {t : Str} {p : Char → Bool} (h : ∀ c ∈ t, p c = true)
    (hp : p ')' = false ∧ p '"' = false ∧ p '\'' = false ∧ p '#' = false) : IsClean t := by
  have hne : ∀ c, p c = false → c ∉ t := fun c hc hmem => by simp [h c hmem] at hc
  exact ⟨fun hmem => absurd hmem (hne _ hp.1), hne _ hp.2.1, hne _ hp.2.2.1, hne _ hp.2.2.2⟩

theorem isPlain_of_word {t : Str} {p : Char → Bool} (h : ∀ c ∈ t, p c = true)
    (hp : p '[' = false ∧ p ']' = false ∧ p '(' = false ∧ p ')' = false) : IsPlain t := by
  have hne : ∀ c, p c = false → t ≠ [c] := fun c hc ht => by simp [h c (by simp [ht])] at hc
  exact ⟨hne _ hp.1, hne _ hp.2.1, hne _ hp.2.2.1, hne _ hp.2.2.2⟩

theorem IntegerText.isClean (n : IntegerText) : IsClean n.text :=
  isClean_of_word (p := fun c => decide (IsWordChar c)) (fun c hc => by simpa using n.word c hc) (by decide)

theorem IntegerText.isPlain (n : IntegerText) : IsPlain n.text :=
  isPlain_of_word (p := fun c => decide (IsWordChar c)) (fun c hc => by simpa using n.word c hc) (by decide)

theorem columnText_isWord (row column : Name py) : ∀ c ∈ columnText row column, (py.isWord c || c == '.') = true := by
  intro c hc
  simp only [columnText, List.mem_append, List.mem_cons] at hc
  rcases hc with hc | rfl | hc
  · simp [row.word c hc]
  · simp
  · simp [column.word c hc]

theorem columnText_isClean (row column : Name py) : IsClean (columnText row column) :=
  isClean_of_word (columnText_isWord row column) ⟨rfl, rfl, rfl, rfl⟩

theorem columnText_isPlain (row column : Name py) : IsPlain (columnText row column) :=
  isPlain_of_word (columnText_isWord row column) ⟨rfl, rfl, rfl, rfl⟩

theorem symbols_isPlain : ∀ t ∈ Arith.symbols, IsPlain t := by
  simp [Arith.symbols, IsPlain]

theorem CompareOp.simplified_isPlain (op : CompareOp) : ∀ t ∈ op.simplified, IsPlain t ∧ IsClean t := by
  cases op <;> simp [CompareOp.simplified, IsPlain, IsClean]

end words

theorem Arith.tokens_isClean (a : Arith) : ∀ t ∈ a.tokens, IsClean t :=
  a.forall_mem_tokens IntegerText.isClean (by simp [symbols, IsClean]) (by simp [IsClean])

theorem Arith.tokens_isPlain {a : Arith} (h : a.bare = true) : ∀ t ∈ a.tokens, IsPlain t :=
  forall_mem_tokens_of_bare IntegerText.isPlain symbols_isPlain h

theorem Arith.bracket_not_mem (a : Arith) : [']'] ∉ a.tokens := fun h =>
  a.forall_mem_tokens (p := (· ≠ [']'])) (fun n => n.isPlain.2.1) (by decide) (by decide) _ h rfl

theorem Arith.exists_paren {a : Arith} (h : a.bare = false) :
    ∃ before inner after, a.tokens = before ++ ['('] :: (Arith.tokens inner ++ [')'] :: after) ∧
      ∀ t ∈ before, IsPlain t := by
  induction a with
  | number n => exact absurd h (by simp [bare])
  | unary op a ih =>
    obtain ⟨before, inner, after, htokens, hbefore⟩ := ih h
    refine ⟨op.symbol :: before, inner, after, by simp [tokens, htokens], ?_⟩
    simpa [symbols_isPlain _ op.symbol_mem] using hbefore
  | binary a op b iha ihb =>
    by_cases ha : a.bare
    · obtain ⟨before, inner, after, htokens, hbefore⟩ := ihb (by simpa [bare, ha] using h)
      refine ⟨a.tokens ++ op.tokens ++ before, inner, after, by simp [tokens, htokens], ?_⟩
      simp only [List.mem_append]
      rintro t ((ht | ht) | ht)
      · exact tokens_isPlain ha t ht
      · exact symbols_isPlain t (op.tokens_mem t ht)
      · exact hbefore t ht
    · obtain ⟨before, inner, after, htokens, hbefore⟩ := iha (by simpa using ha)
      exact ⟨before, inner, after ++ op.tokens ++ b.tokens, by simp [tokens, htokens], hbefore⟩
  | power a n ih =>
    obtain ⟨before, inner, after, htokens, hbefore⟩ := ih h
    exact ⟨before, inner, after ++ [['*'], ['*'], n.text], by simp [tokens, htokens], hbefore⟩
  | paren a _ => exact ⟨[], a, [], by simp [tokens], by simp⟩

theorem Arith.opens {a : Arith} (h : a.bare = false) : Opens a.tokens := by
  obtain ⟨before, inner, after, htokens, hbefore⟩ := exists_paren h
  exact ⟨before, _, htokens, fun hmem => (hbefore _ hmem).2.2.2 rfl⟩

/-- Arithmetic with a parenthesis makes the code raise. -/
theorem combineFrom_paren_arith (A : Arithmetic py) {a : Arith} (h : a.bare = false) {rest : List Str}
    (hrest : ∀ t ∈ rest, IsClean t) (done : List (Item F)) :
    (combineFrom py [] .plain done (a.tokens ++ rest)).toOption = none := by
  obtain ⟨before, inner, after, htokens, hbefore⟩ := Arith.exists_paren h
  have hclean : ∀ t ∈ inner.tokens ++ [')'] :: (after ++ rest), IsClean t := by
    intro t ht
    have hmem : t ∈ a.tokens ∨ t ∈ rest := by
      rw [htokens]
      simp only [List.mem_append, List.mem_cons] at ht ⊢
      tauto
    exact hmem.elim (a.tokens_isClean t) (hrest t)
  have hstep : combineFrom py [] .plain done (a.tokens ++ rest) =
      combineFrom py [] (.paren [['(']]) ((before.map Item.str).reverse ++ done)
        (inner.tokens ++ [')'] :: (after ++ rest)) := by
    rw [htokens, List.append_assoc, combineFrom_push hbefore]
    simp [combineFrom]
  rw [hstep]
  by_cases hinner : inner.bare
  · have hclose : [')'] ∉ inner.tokens := fun hmem => (Arith.tokens_isPlain hinner _ hmem).2.2.2 rfl
    exact combineFrom_no_length hclose (fun v n => A.eval_arith inner v n) _ _
  · exact combineFrom_opens A ((Arith.opens (by simpa using hinner)).append _) hclean _

theorem separated_cons (a b : Arith) (items : List Arith) :
    separated (a :: b :: items) = a.tokens ++ [','] :: separated (b :: items) := by
  simp [separated, List.intercalate]

theorem forall_mem_separated {p : Str → Prop} (hcomma : p [',']) {items : List Arith}
    (h : ∀ a ∈ items, ∀ t ∈ a.tokens, p t) : ∀ t ∈ separated items, p t := by
  induction items with
  | nil => simp [separated]
  | cons a items ih =>
    cases items with
    | nil => simpa [separated, List.intercalate] using h
    | cons b items =>
      rw [separated_cons]
      simp only [List.mem_append, List.mem_cons]
      rintro t (ht | rfl | ht)
      · exact h a (by simp) t ht
      · exact hcomma
      · exact ih (fun a' ha' => h a' (by simp [ha'])) t ht

theorem forall_mem_tupleContent {p : Str → Prop} (hcomma : p [',']) {items : List Arith}
    (h : ∀ a ∈ items, ∀ t ∈ a.tokens, p t) : ∀ t ∈ tupleContent items, p t := by
  match items with
  | [] => exact forall_mem_separated hcomma h
  | [a] =>
    simp only [tupleContent, List.mem_append, List.mem_singleton]
    rintro t (ht | rfl)
    · exact h a (by simp) t ht
    · exact hcomma
  | a :: b :: items => exact forall_mem_separated hcomma h

theorem separated_opens {items : List Arith} (h : items.all Arith.bare = false) : Opens (separated items) := by
  induction items with
  | nil => simp at h
  | cons a items ih =>
    cases items with
    | nil => simpa [separated, List.intercalate] using Arith.opens (by simpa using h)
    | cons b items =>
      rw [separated_cons]
      by_cases ha : a.bare
      · have hclose : [')'] ∉ a.tokens ++ [[',']] := by
          simpa using fun hmem => (Arith.tokens_isPlain ha _ hmem).2.2.2 rfl
        have := (ih (by simpa [ha] using h)).prepend hclose
        simpa using this
      · exact (Arith.opens (by simpa using ha)).append _

theorem tupleContent_opens {items : List Arith} (h : items.all Arith.bare = false) : Opens (tupleContent items) := by
  match items with
  | [] => simp at h
  | [a] => exact (Arith.opens (by simpa using h)).append _
  | a :: b :: items => exact separated_opens h

theorem Comparison.simplified_isClean (row : Name py) (c : Comparison py) : ∀ t ∈ c.simplified row, IsClean t := by
  have hsymbol (c : Char) (h : [c] ≠ ['"'] ∧ [c] ≠ ['\''] ∧ [c] ≠ ['#']) : IsClean [c] := by
    simp_all [IsClean, eq_comm]
  have hin : IsClean ['i', 'n'] := by simp [IsClean]
  have hcontent (items : List Arith) : ∀ a ∈ items, ∀ t ∈ a.tokens, IsClean t := fun a _ => a.tokens_isClean
  have hcomma := hsymbol ',' (by decide)
  cases c with
  | left column op a =>
    simp only [simplified, List.mem_append, List.mem_cons]
    rintro t ((rfl | ht) | ht)
    · exact columnText_isClean row column
    · exact (op.simplified_isPlain t ht).2
    · exact a.tokens_isClean t ht
  | right a op column =>
    simp only [simplified, List.mem_append, List.mem_singleton]
    rintro t ((ht | ht) | rfl)
    · exact a.tokens_isClean t ht
    · exact (op.simplified_isPlain t ht).2
    · exact columnText_isClean row column
  | inList column items =>
    simp only [simplified, listTokens, List.mem_append, List.mem_cons, List.cons_append, List.not_mem_nil, or_false]
    rintro t (rfl | rfl | rfl | ht | rfl)
    · exact columnText_isClean row column
    · exact hin
    · exact hsymbol '[' (by decide)
    · exact forall_mem_separated hcomma (hcontent items) t ht
    · exact hsymbol ']' (by decide)
  | inTuple column items =>
    simp only [simplified, tupleTokens, List.mem_append, List.mem_cons, List.cons_append, List.not_mem_nil, or_false]
    rintro t (rfl | rfl | rfl | ht | rfl)
    · exact columnText_isClean row column
    · exact hin
    · exact hsymbol '(' (by decide)
    · exact forall_mem_tupleContent hcomma (hcontent items) t ht
    · exact hsymbol ')' (by decide)

theorem Elem.simplified_isClean (row : Name py) (e : Elem py) : ∀ t ∈ e.simplified row, IsClean t := by
  cases e with
  | comparison c => exact c.simplified_isClean row
  | not => simp [simplified, tokens, IsClean]
  | and => simp [simplified, tokens, IsClean]
  | or => simp [simplified, tokens, IsClean]
  | opening => simp [simplified, tokens, IsClean]
  | closing => simp [simplified, tokens, IsClean]

/-- A parenthesis is closed in an element only after it is opened there. -/
theorem Elem.simplified_parens (row : Name py) (e : Elem py) :
    e = .closing ∨ [')'] ∉ e.simplified row ∨ Opens (e.simplified row) := by
  have hcolumn (column : Name py) : [')'] ≠ columnText row column := (columnText_isPlain row column).2.2.2.symm
  have hop (op : CompareOp) : [')'] ∉ op.simplified := fun h => (op.simplified_isPlain _ h).1.2.2.2 rfl
  have harith (a : Arith) : [')'] ∉ a.tokens ∨ Opens a.tokens := by
    by_cases h : a.bare
    · exact .inl fun hmem => (Arith.tokens_isPlain h _ hmem).2.2.2 rfl
    · exact .inr (Arith.opens (by simpa using h))
  cases e with
  | closing => exact .inl rfl
  | opening => simp [simplified, tokens]
  | not => simp [simplified, tokens]
  | and => simp [simplified, tokens]
  | or => simp [simplified, tokens]
  | comparison c =>
    refine .inr ?_
    cases c with
    | left column op a =>
      rcases harith a with h | h
      · simp [simplified, Comparison.simplified, hcolumn, hop, h]
      · exact .inr (h.prepend (by simp [hcolumn, hop]))
    | right a op column =>
      rcases harith a with h | h
      · simp [simplified, Comparison.simplified, hcolumn, hop, h]
      · exact .inr ((h.append _).append _)
    | inList column items =>
      by_cases h : items.all Arith.bare
      · have hplain := forall_mem_separated (p := (· ≠ [')'])) (by decide) fun a ha t ht =>
          (Arith.tokens_isPlain (List.all_eq_true.mp h a ha) t ht).2.2.2
        refine .inl ?_
        simpa [simplified, Comparison.simplified, listTokens, hcolumn] using fun hmem => hplain _ hmem rfl
      · have hstart : [')'] ∉ [columnText row column, ['i', 'n'], ['[']] := by simp [hcolumn]
        have hopens := ((separated_opens (by simpa using h)).append [[']']]).prepend hstart
        exact .inr hopens
    | inTuple column items =>
      exact .inr ⟨[columnText row column, ['i', 'n']], tupleContent items ++ [[')']], rfl, by simp [hcolumn]⟩

/-- What comes before the first parenthesis, when that one closes, is a list of elements. -/
theorem exists_elems_before (row : Name py) {l : List (Elem py)} {content rest : List Str}
    (h : l.flatMap (Elem.simplified row) = content ++ [')'] :: rest) (hclose : [')'] ∉ content)
    (hopen : ['('] ∉ content) :
    ∃ l' : List (Elem py), content = l'.flatMap (Elem.simplified row) ∧ (l' = [] → l.head? = some .closing) := by
  induction l generalizing content with
  | nil => simp at h
  | cons e l ih =>
    rw [List.flatMap_cons] at h
    rcases List.append_eq_append_iff.mp h with ⟨us, rfl, hus⟩ | ⟨us, hus, hxs⟩
    · simp only [List.mem_append, not_or] at hclose hopen
      obtain ⟨l', rfl, -⟩ := ih hus hclose.2 hopen.2
      exact ⟨e :: l', rfl, by simp⟩
    · cases us with
      | nil => exact ⟨[e], by simpa using hus.symm, by simp⟩
      | cons t us =>
        obtain ⟨rfl, -⟩ := List.cons.inj hxs
        rcases Elem.simplified_parens row e with rfl | hno | ⟨before, after, hopens, hbefore⟩
        · cases content with
          | nil => exact ⟨[], rfl, fun _ => rfl⟩
          | cons t' content => simp [Elem.simplified, Elem.tokens] at hus
        · exact absurd (hus ▸ by simp) hno
        · exact absurd (mem_of_append_cons_eq (hus.symm.trans hopens) (by decide) hbefore) hopen

/-- A parenthesis that groups conditions makes the code raise. -/
theorem combineFrom_opening (A : Arithmetic py) (row : Name py) {l : List (Elem py)}
    (hstart : ∀ e ∈ l.head?, e.starts = true) (done : List (Item F)) :
    (combineFrom py [] (.paren [['(']]) done (l.flatMap (Elem.simplified row))).toOption = none := by
  have hclean : ∀ t ∈ l.flatMap (Elem.simplified row), IsClean t := by
    intro t ht
    obtain ⟨e, -, hte⟩ := List.mem_flatMap.mp ht
    exact e.simplified_isClean row t hte
  by_cases hclose : [')'] ∈ l.flatMap (Elem.simplified row)
  · obtain ⟨content, rest, hl, hcontent⟩ := List.eq_append_cons_of_mem hclose
    by_cases hopen : ['('] ∈ content
    · obtain ⟨before, after, rfl, -⟩ := List.eq_append_cons_of_mem hopen
      have hbefore : [')'] ∉ before := fun hmem => hcontent (by simp [hmem])
      exact combineFrom_unclosed A hclean (by simpa using hl) hbefore done
    · obtain ⟨l', rfl, hclosing⟩ := exists_elems_before row hl hcontent hopen
      have hne : l' ≠ [] := fun h => by simpa [Elem.starts] using hstart _ (hclosing h)
      rw [hl]
      exact combineFrom_no_length hcontent (fun v n => A.eval_condition row l' v n hne) done rest
  · rw [toOption_eq_none_iff, ← List.append_nil (l.flatMap _), combineFrom_paren hclose]
    simp [combineFrom]

theorem combineFrom_left (A : Arithmetic py) (row column : Name py) (op : CompareOp) (a : Arith) {rest : List Str}
    (hclean : ∀ t ∈ rest, IsClean t) (done : List (Item F)) :
    (combineFrom py [] .plain done (Comparison.simplified row (.left column op a) ++ rest)).toOption =
      ((Comparison.left column op a).items A (columnText row)).bind fun g =>
        (combineFrom py [] .plain (g.reverse ++ done) rest).toOption := by
  have hcolumn : ∀ t ∈ columnText row column :: op.simplified, IsPlain t := by
    simpa [columnText_isPlain row column] using fun t ht => (op.simplified_isPlain t ht).1
  by_cases h : a.bare
  · have hall : ∀ t ∈ Comparison.simplified row (.left column op a), IsPlain t := by
      intro t ht
      exact (List.mem_append.mp ht).elim (hcolumn t) (Arith.tokens_isPlain h t)
    rw [combineFrom_push hall]
    simp [Comparison.items, Comparison.simplified, h]
  · have hstep : combineFrom py [] .plain done (columnText row column :: op.simplified ++ (a.tokens ++ rest)) = _ :=
      combineFrom_push hcolumn done _
    rw [← List.append_assoc] at hstep
    rw [Comparison.simplified, hstep, combineFrom_paren_arith A (by simpa using h) hclean]
    simp [Comparison.items, h]

theorem combineFrom_right (A : Arithmetic py) (row column : Name py) (op : CompareOp) (a : Arith) {rest : List Str}
    (hclean : ∀ t ∈ rest, IsClean t) (done : List (Item F)) :
    (combineFrom py [] .plain done (Comparison.simplified row (.right a op column) ++ rest)).toOption =
      ((Comparison.right a op column).items A (columnText row)).bind fun g =>
        (combineFrom py [] .plain (g.reverse ++ done) rest).toOption := by
  have hop : ∀ t ∈ op.simplified, IsPlain t := fun t ht => (op.simplified_isPlain t ht).1
  have hcolumn : ∀ t ∈ op.simplified ++ [columnText row column], IsPlain t := by
    simpa [or_imp, forall_and, columnText_isPlain row column] using hop
  by_cases h : a.bare
  · have hall : ∀ t ∈ Comparison.simplified row (.right a op column), IsPlain t := by
      intro t ht
      rw [Comparison.simplified, List.append_assoc] at ht
      exact (List.mem_append.mp ht).elim (Arith.tokens_isPlain h t) (hcolumn t)
    rw [combineFrom_push hall]
    simp [Comparison.items, Comparison.simplified, h]
  · have hrest : ∀ t ∈ op.simplified ++ [columnText row column] ++ rest, IsClean t := by
      simp only [List.mem_append, List.mem_singleton]
      rintro t ((ht | rfl) | ht)
      · exact (op.simplified_isPlain t ht).2
      · exact columnText_isClean row column
      · exact hclean t ht
    have hstep := combineFrom_paren_arith A (by simpa using h) hrest done
    simp only [← List.append_assoc] at hstep
    simpa [Comparison.items, Comparison.simplified, h] using hstep

theorem toOption_values (A : Arithmetic py) (items : List Arith) :
    (items.mapM fun a => A.value a.text).toOption = A.values items := toOption_mapM _ _

theorem combineFrom_inList (A : Arithmetic py) (row column : Name py) (items : List Arith) (rest : List Str)
    (done : List (Item F)) :
    (combineFrom py [] .plain done (Comparison.simplified row (.inList column items) ++ rest)).toOption =
      ((Comparison.inList column items).items A (columnText row)).bind fun g =>
        (combineFrom py [] .plain (g.reverse ++ done) rest).toOption := by
  have hbracket : [']'] ∉ separated items := fun hmem =>
    forall_mem_separated (p := (· ≠ [']'])) (by decide) (fun a _ t ht h => a.bracket_not_mem (h ▸ ht)) _ hmem rfl
  have hstep : combineFrom py [] .plain done (Comparison.simplified row (.inList column items) ++ rest) =
      combineFrom py [] (.bracket ([['[']] ++ separated items))
        (.str ['i', 'n'] :: .str (columnText row column) :: done) ([']'] :: rest) := by
    rw [← combineFrom_bracket hbracket]
    simp [Comparison.simplified, listTokens, combineFrom, (columnText_isPlain row column).1,
      (columnText_isPlain row column).2.2.1]
  rw [hstep]
  simp only [combineFrom, List.append_nil, ite_self, if_true, toOption_bind]
  rw [show ([['[']] ++ separated items ++ [[']']]) = listTokens items from rfl, A.eval_list, toOption_map,
    toOption_values]
  simp only [Comparison.items]
  cases A.values items <;> simp

/-- Nothing but a plain element or a closing bracket is skipped behind an empty tuple. -/
theorem combineFrom_skipping {rest : List Str} (hplain : ∀ t ∈ rest.head?, IsPlain t ∨ t = [')']) (done : List (Item F)) :
    combineFrom py [] .skipping done rest = combineFrom py [] .plain done rest := by
  cases rest with
  | nil => rfl
  | cons t rest =>
    have ht : t ≠ ['['] ∧ t ≠ ['('] := by
      rcases hplain t rfl with ht | rfl
      · exact ⟨ht.1, ht.2.2.1⟩
      · decide
    simp [combineFrom, ht]

/-- A tuple of values is joined; without values it leaves its brackets with the operator. -/
theorem combineFrom_tuple (A : Arithmetic py) (column : Str) {items : List Arith} (h : items.all Arith.bare)
    {rest : List Str} (hplain : ∀ t ∈ rest.head?, IsPlain t ∨ t = [')']) (done : List (Item F)) :
    (combineFrom py [] (.paren [['(']]) (.str ['i', 'n'] :: .str column :: done)
        (tupleContent items ++ [')'] :: rest)).toOption =
      (A.values items).bind fun vs => (combineFrom py [] .plain
        ((if items.isEmpty then [.str ['i', 'n', '(', ')']] else [.sequence false vs, .str ['i', 'n']]) ++
          .str column :: done) rest).toOption := by
  have hclose : [')'] ∉ tupleContent items := fun hmem =>
    forall_mem_tupleContent (p := (· ≠ [')'])) (by decide)
      (fun a ha t ht => (Arith.tokens_isPlain (List.all_eq_true.mp h a ha) t ht).2.2.2) _ hmem rfl
  rw [combineFrom_paren hclose]
  simp only [combineFrom, List.append_nil, ite_self, if_true, toOption_bind]
  rw [show ([['(']] ++ tupleContent items ++ [[')']]) = tupleTokens items from rfl, A.eval_tuple items h,
    toOption_map, toOption_values]
  cases hv : A.values items with
  | none => rfl
  | some vs =>
    cases items with
    | nil =>
      obtain rfl : [] = vs := by simpa [Arithmetic.values] using hv
      exact congrArg Except.toOption (combineFrom_skipping hplain _)
    | cons a items =>
      have hpos : 0 < vs.length := by
        have := (mapM_some_iff.mp hv).length_eq
        simp [← this]
      simp [Item.length, Except.toOption, hpos]

theorem combineFrom_inTuple (A : Arithmetic py) (row column : Name py) (items : List Arith) {rest : List Str}
    (hclean : ∀ t ∈ rest, IsClean t) (hplain : ∀ t ∈ rest.head?, IsPlain t ∨ t = [')']) (done : List (Item F)) :
    (combineFrom py [] .plain done (Comparison.simplified row (.inTuple column items) ++ rest)).toOption =
      ((Comparison.inTuple column items).items A (columnText row)).bind fun g =>
        (combineFrom py [] .plain (g.reverse ++ done) rest).toOption := by
  have hstep : combineFrom py [] .plain done (Comparison.simplified row (.inTuple column items) ++ rest) =
      combineFrom py [] (.paren [['(']]) (.str ['i', 'n'] :: .str (columnText row column) :: done)
        (tupleContent items ++ [')'] :: rest) := by
    simp [Comparison.simplified, tupleTokens, combineFrom, (columnText_isPlain row column).1,
      (columnText_isPlain row column).2.2.1]
  rw [hstep]
  by_cases h : items.all Arith.bare
  · rw [combineFrom_tuple A (columnText row column) h hplain done]
    simp only [Comparison.items, h, if_true]
    cases A.values items with
    | none => rfl
    | some vs => cases items <;> rfl
  · have hopens := (tupleContent_opens (by simpa using h)).append ([')'] :: rest)
    have hcontent : ∀ t ∈ tupleContent items ++ [')'] :: rest, IsClean t := by
      simp only [List.mem_append, List.mem_cons]
      rintro t (ht | rfl | ht)
      · exact forall_mem_tupleContent (by simp [IsClean]) (fun a _ => a.tokens_isClean) t ht
      · simp [IsClean]
      · exact hclean t ht
    simp [Comparison.items, h, combineFrom_opens A hopens hcontent]

/-- What combining a comparison that is followed by `rest` comes to. -/
theorem combineFrom_comparison (A : Arithmetic py) (row : Name py) (c : Comparison py) {rest : List Str}
    (hclean : ∀ t ∈ rest, IsClean t) (hplain : ∀ t ∈ rest.head?, IsPlain t ∨ t = [')']) (done : List (Item F)) :
    (combineFrom py [] .plain done (c.simplified row ++ rest)).toOption =
      (c.items A (columnText row)).bind fun g => (combineFrom py [] .plain (g.reverse ++ done) rest).toOption := by
  cases c with
  | left column op a => exact combineFrom_left A row column op a hclean done
  | right a op column => exact combineFrom_right A row column op a hclean done
  | inList column items => exact combineFrom_inList A row column items rest done
  | inTuple column items => exact combineFrom_inTuple A row column items hclean hplain done

/-- The elements of the combined filter, or the code raises. -/
theorem combineFrom_elems (A : Arithmetic py) (row : Name py) {l : List (Elem py)} (hchain : l.IsChain Follows)
    (done : List (Item F)) :
    (combineFrom py [] .plain done (l.flatMap (Elem.simplified row))).toOption =
      (l.mapM (Elem.items A (columnText row))).map fun gs => done.reverse ++ gs.flatten := by
  induction l generalizing done with
  | nil => simp [combineFrom, Except.toOption]
  | cons e l ih =>
    obtain ⟨hhead, htail⟩ := List.isChain_cons.mp hchain
    have hstep (g : List (Item F)) (he : e.items A (columnText row) = some g)
        (h : combineFrom py [] .plain done ((e :: l).flatMap (Elem.simplified row)) =
          combineFrom py [] .plain (g.reverse ++ done) (l.flatMap (Elem.simplified row))) :
        (combineFrom py [] .plain done ((e :: l).flatMap (Elem.simplified row))).toOption =
          ((e :: l).mapM (Elem.items A (columnText row))).map fun gs => done.reverse ++ gs.flatten := by
      rw [h, ih htail]
      cases hl : l.mapM (Elem.items A (columnText row)) <;> simp [he, hl]
    cases e with
    | comparison c =>
      have hclean : ∀ t ∈ l.flatMap (Elem.simplified row), IsClean t := by
        intro t ht
        obtain ⟨e, -, hte⟩ := List.mem_flatMap.mp ht
        exact e.simplified_isClean row t hte
      have hplain : ∀ t ∈ (l.flatMap (Elem.simplified row)).head?, IsPlain t ∨ t = [')'] := by
        cases l with
        | nil => simp
        | cons e' l =>
          have hstarts : e'.starts = false := by simpa [Follows, Elem.ends] using hhead e' rfl
          cases e' <;> simp_all [Elem.starts, Elem.simplified, Elem.tokens, IsPlain]
      rw [List.flatMap_cons, Elem.simplified, combineFrom_comparison A row c hclean hplain]
      simp only [ih htail, List.mapM_cons, Elem.items]
      cases c.items A (columnText row) with
      | none => rfl
      | some g => cases l.mapM (Elem.items A (columnText row)) <;> simp
    | not => exact hstep _ rfl (by simp [Elem.simplified, Elem.tokens, combineFrom])
    | and => exact hstep _ rfl (by simp [Elem.simplified, Elem.tokens, combineFrom])
    | or => exact hstep _ rfl (by simp [Elem.simplified, Elem.tokens, combineFrom])
    | closing => exact hstep _ rfl (by simp [Elem.simplified, Elem.tokens, combineFrom])
    | opening =>
      have hstart : ∀ e ∈ l.head?, e.starts = true := fun e he => by simpa [Follows, Elem.ends] using hhead e he
      have hopen : combineFrom py [] .plain done ((.opening :: l).flatMap (Elem.simplified row)) =
          combineFrom py [] (.paren [['(']]) done (l.flatMap (Elem.simplified row)) := by
        simp [Elem.simplified, Elem.tokens, combineFrom]
      rw [hopen, combineFrom_opening A row hstart]
      simp [Elem.items]

end combine

section formed

/-- A list of elements in which the operands and the operators alternate. -/
structure Formed (l : List (Elem py)) : Prop where
  chain : l.IsChain Follows
  starts : ∃ e ∈ l.head?, e.starts = true
  ends : ∃ e ∈ l.getLast?, e.ends = true

theorem Formed.append {l m : List (Elem py)} (hl : Formed l) (hm : Formed m) {e : Elem py}
    (he : e.starts = false ∧ e.ends = false) : Formed (l ++ e :: m) := by
  obtain ⟨a, ha, hstarts⟩ := hl.starts
  obtain ⟨b, hb, hends⟩ := hl.ends
  obtain ⟨c, hc, hstarts'⟩ := hm.starts
  obtain ⟨d, hd, hends'⟩ := hm.ends
  refine ⟨List.isChain_append.mpr ⟨hl.chain, List.isChain_cons.mpr ⟨?_, hm.chain⟩, ?_⟩, ⟨a, ?_, hstarts⟩,
    ⟨d, ?_, hends'⟩⟩
  · intro c' hc'
    obtain rfl := Option.mem_unique hc hc'
    simp [Follows, he.2, hstarts']
  · intro b' hb' e' he'
    obtain rfl := Option.mem_unique hb hb'
    obtain rfl : e = e' := by simpa using he'
    simp [Follows, he.1, hends]
  · simp_all [List.head?_append]
  · simp_all [List.getLast?_append, List.getLast?_cons]

theorem Formed.cons {l : List (Elem py)} (hl : Formed l) {e : Elem py} (he : e.starts = true ∧ e.ends = false) :
    Formed (e :: l) := by
  obtain ⟨c, hc, hstarts⟩ := hl.starts
  obtain ⟨d, hd, hends⟩ := hl.ends
  refine ⟨List.isChain_cons.mpr ⟨?_, hl.chain⟩, ⟨e, rfl, he.1⟩, ⟨d, ?_, hends⟩⟩
  · intro c' hc'
    obtain rfl := Option.mem_unique hc hc'
    simp [Follows, he.2, hstarts]
  · simp_all [List.getLast?_cons]

theorem Formed.wrap {l : List (Elem py)} (hl : Formed l) (needed : Bool) : Formed (Body.elems.wrap needed l) := by
  by_cases h : needed = true
  · obtain ⟨b, hb, hends⟩ := hl.ends
    obtain ⟨c, hc, hstarts⟩ := hl.starts
    rw [Body.elems.wrap, if_pos h]
    refine ⟨?_, ⟨.opening, rfl, rfl⟩, ⟨.closing, by simp [List.getLast?_cons], rfl⟩⟩
    refine List.isChain_cons.mpr ⟨?_, List.isChain_append.mpr ⟨hl.chain, by simp, ?_⟩⟩
    · intro c' hc'
      obtain rfl : c = c' := by simp_all [List.head?_append]
      simp [Follows, Elem.ends, hstarts]
    · intro b' hb' e' he'
      obtain rfl := Option.mem_unique hb hb'
      obtain rfl : .closing = e' := by simpa using he'
      simp [Follows, Elem.starts, hends]
  · simpa [Body.elems.wrap, h] using hl

theorem Body.elems_formed (b : Body py) (level : Level) : Formed (b.elems level) := by
  induction b generalizing level with
  | comparison c => exact ⟨by simp [elems], ⟨_, rfl, rfl⟩, ⟨_, rfl, rfl⟩⟩
  | not a ih => exact (ih _).cons ⟨rfl, rfl⟩
  | and a b iha ihb => exact ((iha _).append (ihb _) ⟨rfl, rfl⟩).wrap _
  | or a b iha ihb => exact ((iha _).append (ihb _) ⟨rfl, rfl⟩).wrap _
  | paren a ih => exact (ih _).wrap _

/-- What is closed has been opened. -/
theorem Body.opening_mem_elems (b : Body py) (level : Level) (h : .closing ∈ b.elems level) :
    .opening ∈ b.elems level := by
  have hwrap (needed : Bool) (l : List (Elem py)) (hl : .closing ∈ l → .opening ∈ l)
      (h : .closing ∈ elems.wrap needed l) : .opening ∈ elems.wrap needed l := by
    by_cases hn : needed = true <;> simp_all [elems.wrap]
  induction b generalizing level with
  | comparison c => simp [elems] at h
  | not a ih => exact List.mem_cons_of_mem _ (ih _ (by simpa [elems] using h))
  | and a b iha ihb =>
    refine hwrap _ _ (fun hmem => ?_) h
    simp only [List.mem_append, List.mem_cons, reduceCtorEq, false_or] at hmem ⊢
    exact hmem.imp (iha _) (ihb _)
  | or a b iha ihb =>
    refine hwrap _ _ (fun hmem => ?_) h
    simp only [List.mem_append, List.mem_cons, reduceCtorEq, false_or] at hmem ⊢
    exact hmem.imp (iha _) (ihb _)
  | paren a ih => exact hwrap _ _ (ih _) h

def Elem.isAnd : Elem py → Bool
  | and => true
  | _ => false

theorem Elem.isAnd_eq_false {e : Elem py} (h : e ≠ .and) : e.isAnd = false := by
  cases e <;> simp_all [isAnd]

/-- An operator has an operand before it and one after it. -/
theorem Formed.split {before after : List (Elem py)} {e : Elem py} (h : Formed (before ++ e :: after))
    (he : e.starts = false ∧ e.ends = false) : Formed before ∧ Formed after := by
  obtain ⟨hbefore, hcons, hlast⟩ := List.isChain_append.mp h.chain
  obtain ⟨hhead, hafter⟩ := List.isChain_cons.mp hcons
  obtain ⟨a, ha, hstarts⟩ := h.starts
  obtain ⟨b, hb, hends⟩ := h.ends
  constructor
  · cases hl : before.getLast? with
    | none =>
      obtain rfl : before = [] := by simpa using hl
      obtain rfl : e = a := by simpa using ha
      simp [he.1] at hstarts
    | some c =>
      have hc : c.ends = true := by simpa [Follows, he.1] using hlast c hl e rfl
      refine ⟨hbefore, ⟨a, ?_, hstarts⟩, ⟨c, hl, hc⟩⟩
      cases before <;> simp_all
  · cases after with
    | nil =>
      obtain rfl : e = b := by simpa using hb
      simp [he.2] at hends
    | cons c after =>
      have hc : c.starts = true := by simpa [Follows, he.2] using hhead c rfl
      exact ⟨hafter, ⟨c, rfl, hc⟩, ⟨b, by simpa [List.getLast?_append, List.getLast?_cons] using hb, hends⟩⟩

theorem Formed.pieces {l : List (Elem py)} (h : Formed l) : ∀ p ∈ l.splitOnP Elem.isAnd, Formed p := by
  induction hn : l.length using Nat.strong_induction_on generalizing l with
  | _ n ih =>
    have hpiece (before : List (Elem py)) (hbefore : .and ∉ before) : ∀ e ∈ before, e.isAnd = false :=
      fun e he => Elem.isAnd_eq_false fun hand => hbefore (hand ▸ he)
    by_cases hand : .and ∈ l
    · obtain ⟨before, after, rfl, hbefore⟩ := List.eq_append_cons_of_mem hand
      obtain ⟨hfirst, hrest⟩ := h.split ⟨rfl, rfl⟩
      rw [List.splitOnP_append_cons_of_forall_mem (hpiece before hbefore) .and rfl]
      have hlen : after.length < n := by
        simp only [List.length_append, List.length_cons] at hn
        omega
      simpa [hfirst] using ih _ hlen hrest rfl
    · rw [List.splitOnP_eq_singleton (hpiece l hand)]
      simpa using h

end formed

end LambdaFilter

end Hecuba
