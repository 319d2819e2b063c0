import Hecuba.LiteralsKept

/-! What the filter makes of a text between quotes that is no single word. -/

namespace Hecuba

namespace LambdaFilter

variable {F : Type} [DecidableEq F] {py : FilterPython F}

section quotes

omit [DecidableEq F] in
theorem isPlain_head {a : Char} {t : Str} (h : t.head? = some a) (ha : (a ≠ '[' ∧ a ≠ ']') ∧ a ≠ '(' ∧ a ≠ ')') : IsPlain t := by
  have hne (b : Char) (hb : a ≠ b) : t ≠ [b] := fun ht => hb (by simpa [ht] using h.symm)
  exact ⟨hne _ ha.1.1, hne _ ha.1.2, hne _ ha.2.1, hne _ ha.2.2⟩

theorem StringLiteral.isPlain (s : StringLiteral) (t : Str) : IsPlain (s.quote :: t) := by
  have hquote : (s.quote ≠ '[' ∧ s.quote ≠ ']') ∧ s.quote ≠ '(' ∧ s.quote ≠ ')' := by
    rcases s.quote_eq with h | h <;> rw [h] <;> decide
  exact isPlain_head rfl hquote

theorem StringLiteral.ne_and (s : StringLiteral) (t : Str) : s.quote :: t ≠ ['a', 'n', 'd'] := by
  rcases s.quote_eq with h | h <;> rw [h] <;> simp

omit [DecidableEq F] in
theorem isChain_eraseAll {q : Char} : ∀ (a : Char) (s : Str), (a :: s).IsChain (fun a b => b = q → a = '\\') →
    (a :: eraseAll "\\n".toList s).IsChain fun a b => b = q → a = '\\'
  | a, [], h => h
  | a, [c], h => by
    have hkept : eraseAll "\\n".toList [c] = [c] := by simp [eraseAll, eraseFrom]
    rwa [hkept]
  | a, c :: c' :: t, h => by
    obtain ⟨hc, hrest⟩ := List.isChain_cons_cons.mp h
    by_cases hpair : c = '\\' ∧ c' = 'n'
    · have hkept : eraseAll "\\n".toList (c :: c' :: t) = eraseAll "\\n".toList t := by
        simp [eraseAll, eraseFrom, hpair]
      have ih := isChain_eraseAll c' t (List.isChain_cons_cons.mp hrest).2
      rw [hkept]
      cases ht : eraseAll "\\n".toList t with
      | nil => simp
      | cons b more =>
        rw [ht, hpair.2] at ih
        obtain ⟨hb, hmore⟩ := List.isChain_cons_cons.mp ih
        exact List.isChain_cons_cons.mpr ⟨fun h => absurd (hb h) (by decide), hmore⟩
    · have hkept : eraseAll "\\n".toList (c :: c' :: t) = c :: eraseAll "\\n".toList (c' :: t) := by
        have hprefix : "\\n".toList.isPrefixOf (c :: c' :: t) = false := by
          rw [Bool.eq_false_iff]
          intro h
          obtain ⟨hslash, hn⟩ : '\\' = c ∧ 'n' = c' := by simpa [List.isPrefixOf] using h
          exact hpair ⟨hslash.symm, hn.symm⟩
        rw [eraseAll, eraseFrom, hprefix]
        rfl
      rw [hkept]
      exact List.isChain_cons_cons.mpr ⟨hc, isChain_eraseAll c (c' :: t) hrest⟩

omit [DecidableEq F] in
/-- The quote of a text of several words stands alone before them. -/
theorem StringLiteral.findall_parts {s : StringLiteral} (hword : ¬s.IsWord py) :
    findall py (s.quote :: (s.cleaned ++ [s.quote])) = [s.quote] :: findall py (s.cleaned ++ [s.quote]) := by
  refine findall_quote s.quote_eq ?_
  rintro w more hsplit hne hwords
  cases more using List.reverseRecOn with
  | nil =>
    obtain rfl : s.cleaned = w := by simpa using hsplit
    exact hword ⟨hne, hwords⟩
  | append_singleton more c =>
    have hcleaned : s.cleaned = w ++ s.quote :: more := by
      have hsplit' : s.cleaned ++ [s.quote] = (w ++ s.quote :: more) ++ [c] := by simpa using hsplit
      exact (List.append_inj' hsplit' rfl).1
    obtain ⟨w', a, rfl⟩ := (List.eq_nil_or_concat' w).resolve_left hne
    have hchain := isChain_eraseAll s.quote s.content s.closed
    change (s.quote :: s.cleaned).IsChain _ at hchain
    rw [hcleaned] at hchain
    have hpair : (s.quote :: w' ++ a :: s.quote :: more).IsChain fun a b => b = s.quote → a = '\\' := by
      simpa using hchain
    obtain rfl : a = '\\' := (List.isChain_append_cons_cons.mp hpair).2.1 rfl
    have hslash := hwords '\\' (by simp)
    have hnot : py.isWord '\\' = false := rfl
    rw [hnot] at hslash
    cases hslash

end quotes

section pointed

variable {line : FilterLine py} {d : NamedDict py} {c : LiteralComparison py}

omit [DecidableEq F] in
theorem endsWord_quote {q : Char} (hq : q = '"' ∨ q = '\'') : EndsWord py [q] := by
  obtain ⟨⟨hword, -⟩, hdecimal⟩ := quote_chars py hq
  have hpoint : q ≠ '.' := by rcases hq with rfl | rfl <;> decide
  exact ⟨by simp [hword, hdecimal, hpoint], by simp [roundLength, hword, hdecimal]⟩

omit [DecidableEq F] in
theorem findall_single_quote {q : Char} (hq : q = '"' ∨ q = '\'') : findall py [q] = [[q]] := by
  have hclosed : ∀ w more, [] = w ++ q :: more → w ≠ [] → (∀ c ∈ w, py.isWord c = true) → False := by simp
  rw [findall_quote hq hclosed]
  rfl

omit [DecidableEq F] in
/-- Words behind points stay with the quote before them. -/
theorem StringLiteral.elements_pointed {s : StringLiteral} (hword : ¬s.IsWord py) (h : s.IsPointed py) :
    ∃ u rest, (Operand.string s : Operand py).elements = (s.quote :: u) :: rest ∧
      unquoted (s.quote :: u) = s.cleaned ∧ ∀ t ∈ rest, t = [s.quote] := by
  have hmark (c : Char) (hc : py.isWord c = false ∧ c ≠ '.') : c ∉ s.cleaned := fun hmem => by
    rcases h.1 c hmem with hw | hw
    · simp [hw] at hc
    · exact hc.2 hw
  have hquotes := unquoted_quoted s.quote_eq (hmark '"' ⟨rfl, by decide⟩) (hmark '\'' ⟨rfl, by decide⟩)
  have hfold : (findall py (s.cleaned ++ [s.quote])).foldl mergeToken [[s.quote]] =
      mergeToken [s.quote :: s.cleaned] [s.quote] := by
    rw [mergeTokens_append h.1 (endsWord_quote s.quote_eq) (.inr h.2), findall_single_quote s.quote_eq]
    rfl
  have helements : (Operand.string s : Operand py).elements = (mergeToken [s.quote :: s.cleaned] [s.quote]).reverse := by
    have hstart : mergeToken [] [s.quote] = [[s.quote]] := rfl
    rw [Operand.elements, List.cons_append, s.findall_parts hword, simplify, List.foldl_cons, hstart, hfold]
  have hne : [s.quote] ≠ ['='] ∧ [s.quote] ≠ ['.'] := by rcases s.quote_eq with h | h <;> simp [h]
  by_cases hpoint : (s.quote :: s.cleaned).getLast? = some '.'
  · refine ⟨s.cleaned ++ [s.quote], [], ?_, hquotes.2, by simp⟩
    simp [helements, mergeToken, hne.1, hpoint]
  · refine ⟨s.cleaned, [[s.quote]], ?_, hquotes.1, by simp⟩
    rw [helements, mergeToken_push (undotted_cons.mpr hpoint) hne.1 hne.2]
    rfl

theorem LiteralComparison.kept_pointed_left {s : StringLiteral} (ho : c.operand = .string s)
    (hfirst : c.operandFirst = false) (hword : ¬s.IsWord py) (h : s.IsPointed py) :
    c.Kept d.toFilteredDict line ↔ c.op = .ne ∨ ¬c.KnownColumn d ∨ s.value = s.cleaned := by
  have hjoins : ¬c.operand.Joins := by simp [ho, Operand.Joins]
  obtain ⟨u, rest, helements, hunquoted, hrest⟩ := s.elements_pointed hword h
  have hquoted : ∀ t ∈ (s.quote :: u) :: rest, ∃ u, t = s.quote :: u := by
    rintro t ht
    rcases List.mem_cons.mp ht with rfl | ht
    · exact ⟨u, rfl⟩
    · exact ⟨[], hrest t ht⟩
  have hplain : ∀ t ∈ (s.quote :: u) :: rest, IsPlain t := fun t ht => by
    obtain ⟨u, rfl⟩ := hquoted t ht
    exact s.isPlain u
  have hand : ∀ t ∈ (s.quote :: u) :: rest, t ≠ ['a', 'n', 'd'] := fun t ht => by
    obtain ⟨u, rfl⟩ := hquoted t ht
    exact s.ne_and u
  have hread : ¬∃ t ∈ (s.quote :: u) :: rest, line.typed (.str t) = none := by
    rintro ⟨t, ht, hnone⟩
    obtain ⟨u, rfl⟩ := hquoted t ht
    simp [line.typed_quote s.quote_eq] at hnone
  have hconstant : '\'' ∉ s.cleaned := fun hmem => by
    rcases h.1 _ hmem with hw | hw
    · simp [(quote_chars py (.inr rfl)).1.1] at hw
    · cases hw
  rw [c.kept_plain_iff hfirst hjoins (ho ▸ helements) hplain hand, or_iff_right hread, line.typed_quote s.quote_eq,
    hunquoted, ho]
  simp only [Operand.value, Option.some.injEq, Item.scalar.injEq, Scalar.str.injEq, IsConstant]
  exact or_congr_right (or_congr_right ⟨fun h => h.1.symm, fun h => ⟨h.symm, h ▸ hconstant⟩⟩)

end pointed

section prose

variable {line : FilterLine py} {d : NamedDict py} {c : LiteralComparison py}

omit [DecidableEq F] in
theorem mem_simplify {tokens : List Str} {e : Str} (he : e ∈ simplify tokens) :
    (e ∈ tokens ∨ '.' ∈ e ∨ e = ['<', '='] ∨ e = ['>', '=']) ∧ ∀ c ∈ e, ∃ t ∈ tokens, c ∈ t := by
  rw [simplify, List.mem_reverse] at he
  induction tokens using List.reverseRecOn generalizing e with
  | nil => simp at he
  | append_singleton tokens t ih =>
    rw [List.foldl_concat] at he
    have hkept {e : Str} (he : e ∈ tokens.foldl mergeToken []) :
        (e ∈ tokens ++ [t] ∨ '.' ∈ e ∨ e = ['<', '='] ∨ e = ['>', '=']) ∧ ∀ c ∈ e, ∃ t' ∈ tokens ++ [t], c ∈ t' := by
      obtain ⟨hclass, hchars⟩ := ih he
      refine ⟨hclass.imp_left (List.mem_append_left _), fun c hc => ?_⟩
      obtain ⟨t', ht', hct⟩ := hchars c hc
      exact ⟨t', List.mem_append_left _ ht', hct⟩
    cases hacc : tokens.foldl mergeToken [] with
    | nil =>
      obtain rfl : e = t := by simpa [hacc, mergeToken] using he
      exact ⟨.inl (by simp), fun c hc => ⟨e, by simp, hc⟩⟩
    | cons last done =>
      rw [hacc] at he hkept
      have hlonger (hclass : '.' ∈ last ++ t ∨ last ++ t = ['<', '='] ∨ last ++ t = ['>', '=']) :
          (last ++ t ∈ tokens ++ [t] ∨ '.' ∈ last ++ t ∨ last ++ t = ['<', '='] ∨ last ++ t = ['>', '=']) ∧
            ∀ c ∈ last ++ t, ∃ t' ∈ tokens ++ [t], c ∈ t' := by
        refine ⟨.inr hclass, fun c hc => ?_⟩
        rcases List.mem_append.mp hc with hc | hc
        · exact (hkept List.mem_cons_self).2 c hc
        · exact ⟨t, by simp, hc⟩
      have hdone (he : e ∈ done) := hkept (List.mem_cons_of_mem last he)
      simp only [mergeToken] at he
      split_ifs at he with heq hangle hlast hpoint
      · exact hkept he
      · rcases List.mem_cons.mp he with rfl | he
        · obtain ⟨rfl, hlast⟩ := hangle
          refine hlonger (.inr ?_)
          rcases hlast with rfl | rfl <;> simp
        · exact hdone he
      · rcases List.mem_cons.mp he with rfl | he
        · exact hlonger (.inl (List.mem_append_left _ (List.mem_of_getLast? hlast)))
        · exact hdone he
      · rcases List.mem_cons.mp he with rfl | he
        · exact hlonger (.inl (by simp [hpoint]))
        · exact hdone he
      · rcases List.mem_cons.mp he with rfl | he
        · exact ⟨.inl (by simp), fun c hc => ⟨e, by simp, hc⟩⟩
        · exact hkept he

omit [DecidableEq F] in
/-- A point is the first token only when it comes first, blanks aside. -/
theorem findall_point_first {s : Str} {rest : List Str} (h : findall py s = ['.'] :: rest) :
    (s.dropWhile py.isSpace).head? = some '.' := by
  induction s with
  | nil => simp [findall, findallFrom] at h
  | cons a s ih =>
    cases hm : matchLength py (a :: s) with
    | zero =>
      have hfind : findall py (a :: s) = findall py s := by simp [findall, findallFrom, hm]
      have hspace : py.isSpace a = true := by
        by_contra hspace
        have hzero : wordLength py 0 (a :: s) = 0 := by
          rcases @matchLength_eq F py (a :: s) with hzero | ⟨hzero, -⟩
          · exact hzero ▸ hm
          · exact hzero
        have hword := isWord_of_wordLength hzero
        simp [matchLength, hzero, hspace, hword] at hm
      rw [List.dropWhile_cons_of_pos hspace]
      exact ih (hfind ▸ h)
    | succ n =>
      rw [findall_cons hm] at h
      obtain rfl : a = '.' := by simpa using congrArg (fun l => l.head?.bind List.head?) h
      have hspace : py.isSpace '.' = false := rfl
      simp [hspace]

/-- A text that is taken for a number, which Python may refuse. -/
def IsRefusable (py : FilterPython F) (u : Str) : Prop :=
  ('"' ∉ u ∧ '\'' ∉ u) ∧
    (isDigits py u = true ∧ (py.toInt u).toOption = none ∨ isDigits py u = false ∧ isFloat py u = true)

theorem correctType_none {vars : List (Str × Item F)} {u : Str} (h : (correctType py vars (.str u)).toOption = none) :
    IsRefusable py u ∧ .str u ∉ vars.map Prod.snd := by
  simp only [correctType] at h
  split_ifs at h with hdouble hsingle hdigits hfloat
  · simp [Except.toOption] at h
  · simp [Except.toOption] at h
  · have hquotes : '"' ∉ u ∧ '\'' ∉ u := ⟨by simpa using hdouble, by simpa using hsingle⟩
    have hnumber : (py.toInt u).toOption = none := by
      cases hu : py.toInt u with
      | error e => rfl
      | ok n => simp [hu, Except.map, Except.toOption] at h
    exact ⟨⟨hquotes, .inl ⟨hdigits.1, hnumber⟩⟩, by simpa using hdigits.2⟩
  · have hquotes : '"' ∉ u ∧ '\'' ∉ u := ⟨by simpa using hdouble, by simpa using hsingle⟩
    have hother : isDigits py u = false := by
      by_contra htrue
      exact hdigits ⟨by simpa using htrue, hfloat.2⟩
    exact ⟨⟨hquotes, .inr ⟨hother, hfloat.1⟩⟩, by simpa using hfloat.2⟩
  all_goals simp [Except.toOption] at h

/-- An element is refused only for a number at its end, behind the name of the row if not alone. -/
theorem FilterLine.typed_none {e : Str} (h : line.typed (.str e) = none) :
    ∃ u, u <:+ e ∧ (u = e ∨ '.' ∈ e) ∧ IsRefusable py u := by
  have hself (hnone : (correctType py line.dictv (.str e)).toOption = none) :
      ∃ u, u <:+ e ∧ (u = e ∨ '.' ∈ e) ∧ IsRefusable py u :=
    ⟨e, List.suffix_rfl, .inl rfl, (correctType_none hnone).1⟩
  have hlookup (hnone : (correctType py line.dictv ((line.dictv.lookup e).getD (.str e))).toOption = none) :
      ∃ u, u <:+ e ∧ (u = e ∨ '.' ∈ e) ∧ IsRefusable py u := by
    cases hv : line.dictv.lookup e with
    | none => exact hself (by simpa [hv] using hnone)
    | some v =>
      have hmem : v ∈ line.dictv.map Prod.snd := by
        obtain ⟨before, after, hsplit, -⟩ := List.lookup_eq_some_iff.mp hv
        simp [hsplit]
      rw [hv, Option.getD_some] at hnone
      cases v with
      | scalar v =>
        cases v with
        | str s => exact absurd hmem (correctType_none hnone).2
        | _ => simp [correctType, Except.toOption] at hnone
      | sequence => simp [correctType, Except.toOption] at hnone
  rw [FilterLine.typed, typedItem] at h
  simp only [substitVar] at h
  split_ifs at h with helem hvar hrow
  · have hpoint : '.' ∈ e := by simpa using hvar.1
    exact ⟨_, List.drop_suffix _ e, .inr hpoint, (correctType_none h).1⟩
  · cases hcaptured : line.dictv.lookup (e.drop (e.takeWhile (· ≠ '.')).length) with
    | none =>
      rw [hcaptured] at h
      exact hself h
    | some v =>
      rw [hcaptured] at h
      exact hlookup h
  · exact hlookup h
  · exact hself h

section elements

variable {s : StringLiteral}

omit [DecidableEq F] in
theorem StringLiteral.IsProse.cleaned_eq (h : s.IsProse py) : s.cleaned = s.content :=
  eraseFrom_of_not_mem (by decide) h.unescaped

omit [DecidableEq F] in
theorem StringLiteral.IsProse.elements_eq (h : s.IsProse py) (hword : ¬s.IsWord py) :
    (Operand.string s : Operand py).elements = [s.quote] :: simplify (findall py (s.content ++ [s.quote])) := by
  have hstart : mergeToken [] [s.quote] = [[s.quote]] := rfl
  rw [Operand.elements, List.cons_append, s.findall_parts hword, h.cleaned_eq, simplify, List.foldl_cons, hstart]
  cases hfind : findall py (s.content ++ [s.quote]) with
  | nil => rfl
  | cons t ts =>
    have hpoint : t ≠ ['.'] := by
      rintro rfl
      have hhead := findall_point_first hfind
      have hspace : py.isSpace s.quote = false := (quote_chars py s.quote_eq).1.2
      have hquote : s.quote ≠ '.' := by rcases s.quote_eq with hq | hq <;> rw [hq] <;> decide
      rw [List.dropWhile_append] at hhead
      split at hhead
      · rw [List.dropWhile_cons_of_neg (by simp [hspace])] at hhead
        exact hquote (by simpa using hhead)
      · rename_i hne
        rw [List.head?_append_of_ne_nil _ (by simpa using hne)] at hhead
        exact h.start _ hhead rfl
    have hquote : [s.quote] ≠ ['='] ∧ [s.quote] ≠ ['<'] ∧ [s.quote] ≠ ['>'] ∧ s.quote ≠ '.' := by
      rcases s.quote_eq with hq | hq <;> simp [hq]
    have hpush : mergeToken [[s.quote]] t = [t] ++ [[s.quote]] := by
      simp [mergeToken, hquote, hpoint]
    rw [List.foldl_cons, hpush, mergeTokens_before (List.cons_ne_nil t [])]
    simp [simplify, mergeToken]

omit [DecidableEq F] in
theorem StringLiteral.IsProse.mem_elements (h : s.IsProse py) {e : Str}
    (he : e ∈ (Operand.string s : Operand py).elements) :
    (e ∈ findall py s.text ∨ '.' ∈ e ∨ e = ['<', '='] ∨ e = ['>', '=']) ∧ ∀ c ∈ e, c = s.quote ∨ c ∈ s.content := by
  have htext : s.quote :: s.cleaned ++ [s.quote] = s.text := by rw [h.cleaned_eq, StringLiteral.text]
  rw [Operand.elements, htext] at he
  obtain ⟨hclass, hchars⟩ := mem_simplify he
  refine ⟨hclass, fun c hc => ?_⟩
  obtain ⟨t, ht, hct⟩ := hchars c hc
  have hmem : c ∈ s.text := (infix_of_mem_findall ht).subset hct
  simpa [StringLiteral.text, or_comm, or_assoc] using hmem

omit [DecidableEq F] in
theorem StringLiteral.IsProse.ne_and (h : s.IsProse py) {e : Str} (he : e ∈ (Operand.string s : Operand py).elements) :
    e ≠ "and".toList := by
  rintro rfl
  have hwords : ∀ c ∈ "and".toList, py.isWord c = true := by
    have hascii : ∀ c ∈ "and".toList, IsWordChar c := by simp [IsWordChar]
    exact fun c hc => isWord_of_isWordChar py (hascii c hc)
  have htoken : "and".toList ∈ findall py s.text := (h.mem_elements he).1.resolve_right (by decide)
  obtain ⟨before, after, htext, hbefore, hafter⟩ := word_of_mem_findall htoken hwords
  cases before with
  | nil =>
    have hhead := congrArg List.head? htext
    rcases s.quote_eq with hq | hq <;> simp [StringLiteral.text, hq] at hhead
  | cons q before =>
    cases after using List.reverseRecOn with
    | nil =>
      have hlast : some s.quote = some 'd' := by
        have hleft : s.text.getLast? = some s.quote := List.getLast?_concat
        have hright : (q :: before ++ "an".toList ++ ['d']).getLast? = some 'd' := List.getLast?_concat
        rw [← hleft, htext, ← hright]
        simp
      rcases s.quote_eq with hq | hq <;> simp [hq] at hlast
    | append_singleton after q' =>
      have hcontent : s.content = before ++ "and".toList ++ after := by
        have hsplit : s.quote :: (s.content ++ [s.quote]) = q :: ((before ++ "and".toList ++ after) ++ [q']) := by
          simpa [StringLiteral.text] using htext
        exact (List.append_inj' (List.cons.inj hsplit).2 rfl).1
      rcases h.ands before after hcontent with ⟨c, hc, hword⟩ | ⟨c, hc, hword⟩
      · have hmem : c ∈ (q :: before).getLast? := by
          rw [List.getLast?_cons, Option.mem_def.mp hc]
          rfl
        simp [hbefore c hmem] at hword
      · have hmem : c ∈ (after ++ [q']).head? := by
          rw [List.head?_append, Option.mem_def.mp hc]
          rfl
        simp [hafter c hmem] at hword

omit [DecidableEq F] in
theorem StringLiteral.IsProse.isPlain (h : s.IsProse py) {e : Str} (he : e ∈ (Operand.string s : Operand py).elements) :
    IsPlain e := by
  have hne (b : Char) (hb : b ∈ "[]()".toList) : e ≠ [b] := by
    rintro rfl
    rcases (h.mem_elements he).2 b (by simp) with hq | hmem
    · have hmark : s.quote ∉ "[]()".toList := by rcases s.quote_eq with hq | hq <;> rw [hq] <;> decide
      exact hmark (hq ▸ hb)
    · exact h.brackets b hb hmem
  exact ⟨hne _ (by decide), hne _ (by decide), hne _ (by decide), hne _ (by decide)⟩

omit [DecidableEq F] in
/-- Of the digits, a text of prose has those of ASCII only. -/
theorem StringLiteral.IsProse.isDigit (h : s.IsProse py) {c : Char} (hmem : c = s.quote ∨ c ∈ s.content)
    (hquotes : c ≠ '"' ∧ c ≠ '\'') :
    c ∈ s.content ∧ (isDecimal py c = true → c.isDigit = true) ∧
      ((if c.toNat < 128 then c.isDigit else py.wideDigit c) = true → c.isDigit = true) := by
  have hcontent : c ∈ s.content := by
    refine hmem.resolve_left fun hq => ?_
    rcases s.quote_eq with hs | hs
    · exact hquotes.1 (hq.trans hs)
    · exact hquotes.2 (hq.trans hs)
  refine ⟨hcontent, ?_⟩
  rcases h.ascii c hcontent with hascii | ⟨hdecimal, hdigit⟩
  · simp [isDecimal, hascii]
  · by_cases hascii : c.toNat < 128 <;> simp [isDecimal, hascii, hdecimal, hdigit]

omit [DecidableEq F] in
theorem StringLiteral.IsProse.isChain (h : s.IsProse py) :
    s.text.IsChain fun a b => a.isDigit = true → py.isWord b = true → b.isDigit = true := by
  have hword : py.isWord s.quote = false := (quote_chars py s.quote_eq).1.1
  have hdigit : s.quote.isDigit = false := (quote_ascii s.quote_eq).2
  have hcontent : (s.content ++ [s.quote]).IsChain fun a b => a.isDigit = true → py.isWord b = true → b.isDigit = true :=
    List.isChain_append.mpr ⟨h.numbers, by simp, by simp [hword]⟩
  exact List.isChain_cons.mpr ⟨by simp [hdigit], hcontent⟩

omit [DecidableEq F] in
theorem digits_of_isChain {c : Char} {rest : Str}
    (h : (c :: rest).IsChain fun a b => a.isDigit = true → py.isWord b = true → b.isDigit = true)
    (hc : c.isDigit = true) (hwords : ∀ b ∈ rest, py.isWord b = true) : ∀ b ∈ rest, b.isDigit = true := by
  induction rest generalizing c with
  | nil => simp
  | cons b rest ih =>
    obtain ⟨hnext, hrest⟩ := List.isChain_cons_cons.mp h
    have hb : b.isDigit = true := hnext hc (hwords b List.mem_cons_self)
    exact List.forall_mem_cons.mpr ⟨hb, ih hrest hb fun b hb => hwords b (List.mem_cons_of_mem _ hb)⟩

omit [DecidableEq F] in
/-- A token that starts with a digit is a number. -/
theorem StringLiteral.IsProse.token_digits (h : s.IsProse py) {c : Char} {rest : Str}
    (htoken : c :: rest ∈ findall py s.text) (hpoint : '.' ∉ s.content)
    (hquotes : '"' ∉ c :: rest ∧ '\'' ∉ c :: rest) (hc : c.isDigit = true) : ∀ b ∈ rest, b.isDigit = true := by
  have hinfix := infix_of_mem_findall htoken
  have hchain := List.IsChain.infix h.isChain hinfix
  refine digits_of_isChain hchain hc fun b hb => ?_
  have hne : b ≠ '"' ∧ b ≠ '\'' :=
    ⟨fun hq => hquotes.1 (hq ▸ List.mem_cons_of_mem _ hb), fun hq => hquotes.2 (hq ▸ List.mem_cons_of_mem _ hb)⟩
  have hmem : b = s.quote ∨ b ∈ s.content := by
    have htext : b ∈ s.text := hinfix.subset (List.mem_cons_of_mem _ hb)
    simpa [StringLiteral.text, or_comm, or_assoc] using htext
  obtain ⟨hcontent, hdecimal, -⟩ := h.isDigit hmem hne
  rcases chars_of_mem_findall htoken with ⟨a, hone⟩ | hchars
  · obtain rfl : rest = [] := (List.cons.inj hone).2
    simp at hb
  · rcases hchars b (List.mem_cons_of_mem _ hb) with (hword | hdigit) | rfl | hq
    · exact hword
    · exact isWord_of_isWordChar py (isWordChar_of_isDigit (hdecimal hdigit))
    · exact absurd hcontent hpoint
    · exact absurd hq (not_or.mpr hne)

theorem StringLiteral.IsProse.typed_ne_none (h : s.IsProse py) {e : Str}
    (he : e ∈ (Operand.string s : Operand py).elements) : line.typed (.str e) ≠ none := by
  intro hnone
  obtain ⟨u, hsuffix, hwhole, hquotes, hrefused⟩ := FilterLine.typed_none hnone
  obtain ⟨hclass, hchars⟩ := h.mem_elements he
  -- a number at the end of the element starts with a digit of ASCII
  obtain ⟨c, rest, rfl, hcontent, hdigit⟩ : ∃ c rest, u = c :: rest ∧ c ∈ s.content ∧ c.isDigit = true := by
    cases u with
    | nil => simp [isDigits, isFloat] at hrefused
    | cons c rest =>
      have hne : c ≠ '"' ∧ c ≠ '\'' := by
        constructor <;> rintro rfl <;> simp at hquotes
      obtain ⟨hcontent, hdecimal, hwide⟩ := h.isDigit (hchars c (hsuffix.subset List.mem_cons_self)) hne
      refine ⟨c, rest, rfl, hcontent, ?_⟩
      rcases hrefused with ⟨hdigits, -⟩ | ⟨-, hfloat⟩
      · simp only [isDigits, Bool.and_eq_true, List.all_eq_true] at hdigits
        exact hwide (hdigits.2 c List.mem_cons_self)
      · exact hdecimal (by simpa [isFloat] using hfloat)
  by_cases hpoint : '.' ∈ s.content
  · simp [h.points hpoint c hcontent] at hdigit
  · have hundotted : '.' ∉ e := fun hmem => by
      rcases hchars '.' hmem with hq | hmem
      · rcases s.quote_eq with hs | hs <;> rw [hs] at hq <;> cases hq
      · exact hpoint hmem
    obtain rfl : c :: rest = e := hwhole.resolve_right hundotted
    have htoken : c :: rest ∈ findall py s.text := by
      rcases hclass with htoken | hdot | hless | hmore
      · exact htoken
      · exact absurd hdot hundotted
      · obtain rfl : c = '<' := (List.cons.inj hless).1
        simp at hdigit
      · obtain rfl : c = '>' := (List.cons.inj hmore).1
        simp at hdigit
    have hall : ∀ b ∈ c :: rest, b.isDigit = true :=
      List.forall_mem_cons.mpr ⟨hdigit, h.token_digits htoken hpoint hquotes hdigit⟩
    have hdigits : isDigits py (c :: rest) = true := by
      simp only [isDigits, ne_eq, reduceCtorEq, not_false_eq_true, decide_true, Bool.true_and, List.all_eq_true]
      intro b hb
      rw [if_pos (isWordChar_of_isDigit (hall b hb)).bounds.2, hall b hb]
    simp [hdigits, py.toInt_digits _ (List.cons_ne_nil c rest) hall, Except.toOption] at hrefused

end elements

theorem LiteralComparison.kept_prose_left {s : StringLiteral} (ho : c.operand = .string s)
    (hfirst : c.operandFirst = false) (hword : ¬s.IsWord py) (hpointed : ¬s.IsPointed py) (h : s.IsProse py) :
    c.Kept d.toFilteredDict line ↔ c.op = .ne ∨ ¬c.KnownColumn d := by
  have hjoins : ¬c.operand.Joins := by simp [ho, Operand.Joins]
  have helements := h.elements_eq hword
  have hmem : ∀ t ∈ [s.quote] :: simplify (findall py (s.content ++ [s.quote])),
      t ∈ (Operand.string s : Operand py).elements := fun t ht => helements ▸ ht
  have hread : ¬∃ t ∈ [s.quote] :: simplify (findall py (s.content ++ [s.quote])), line.typed (.str t) = none := by
    rintro ⟨t, ht, hnone⟩
    exact h.typed_ne_none (hmem t ht) hnone
  have hne : s.content ≠ [] := by
    rintro hnil
    refine hpointed ⟨?_, ?_⟩ <;> simp [h.cleaned_eq, hnil, IsDotted, PointNext]
  have hvalue : unquoted [s.quote] ≠ s.value := by
    have hempty : unquoted [s.quote] = [] := by rcases s.quote_eq with hq | hq <;> rw [hq] <;> rfl
    rw [hempty, s.value_plain h.unescaped]
    exact hne.symm
  rw [c.kept_plain_iff hfirst hjoins (ho ▸ helements) (fun t ht => h.isPlain (hmem t ht))
    (fun t ht => h.ne_and (hmem t ht)), or_iff_right hread, line.typed_quote s.quote_eq, ho]
  simp [Operand.value, hvalue]

end prose

end LambdaFilter

end Hecuba
