import Hecuba.PythonSpec

/-! Specifications written out and read back: keys and values with or without a name, of
simple types and of tuples and sets of them. -/

namespace Hecuba

namespace Parser

/-- The characters of names and types. The five others have a meaning to the parser, or are no
`.` of its regular expression. -/
def IsPlainChar (c : Char) : Prop := c ∉ ['<', '>', ':', ',', '\n']

instance (c : Char) : Decidable (IsPlainChar c) := inferInstanceAs (Decidable (_ ∉ _))

abbrev PlainName := { s : Str // s ≠ [] ∧ ∀ c ∈ s, IsPlainChar c }

/-- An identifier or a dotted path of two characters or more. -/
abbrev SimpleType := { s : Str // 2 ≤ s.length ∧ ∀ c ∈ s, IsPlainChar c }

inductive ElementType where
  | simple (type : SimpleType)
  | tuple (types : List SimpleType)
  | set (types : List SimpleType)

structure SpecElement where
  name : Option PlainName
  type : ElementType

/-- `','.join(items)` -/
def commaJoin (items : List Str) : Str := [','].intercalate items

namespace ElementType

def mark : ElementType → Dtype
  | .simple _ => .simple
  | .tuple _ => .tuple
  | .set _ => .set

/-- The type itself, or the types inside the brackets. -/
def inner : ElementType → Str
  | .simple type => type.1
  | .tuple types | .set types => commaJoin (types.map Subtype.val)

def render : ElementType → Str
  | .simple type => type.1
  | .tuple types => "tuple<".toList ++ (ElementType.tuple types).inner ++ ['>']
  | .set types => "set<".toList ++ (ElementType.set types).inner ++ ['>']

end ElementType

def SpecElement.render (e : SpecElement) : Str :=
  match e.name with
  | some name => name.1 ++ ':' :: e.type.render
  | none => e.type.render

/-- `dict<<k1,...>,v1,...>` -/
def renderDict (keys values : List SpecElement) : Str :=
  "dict<<".toList ++ commaJoin (keys.map SpecElement.render) ++ ">,".toList ++
    commaJoin (values.map SpecElement.render) ++ ['>']

/-- What is to be read for the elements of one of the lists. -/
def expectedFields (stem : String) (offset : Nat) (elements : List SpecElement) : List Field :=
  elements.zipIdx.map fun e =>
    ((e.1.name.map Subtype.val).getD (stem.toList ++ Nat.toDigits 10 (e.2 + offset)), e.1.type.mark, e.1.type.inner)

theorem commaJoin_concat (items : List Str) (last : Str) :
    commaJoin (items ++ [last]) = items.flatMap (· ++ [',']) ++ last := by
  induction items with
  | nil => simp [commaJoin]
  | cons s items ih =>
    cases items with
    | nil => simp [commaJoin, List.intercalate, List.intersperse]
    | cons s' items =>
      have hcons : commaJoin (s :: s' :: items ++ [last]) = s ++ ',' :: commaJoin (s' :: items ++ [last]) := by
        simp [commaJoin, List.intercalate, List.intersperse]
      rw [hcons, ih]
      simp

section characters

variable {c : Char} {s : Str}

theorem IsPlainChar.ne (h : IsPlainChar c) : c ≠ '<' ∧ c ≠ '>' ∧ c ≠ ':' ∧ c ≠ ',' ∧ c ≠ '\n' := by
  simpa [IsPlainChar, not_or, and_assoc] using h

theorem mem_commaJoin {items : List Str} (hc : c ∈ commaJoin items) : c = ',' ∨ ∃ s ∈ items, c ∈ s := by
  rcases List.eq_nil_or_concat items with rfl | ⟨items, last, rfl⟩
  · simp [commaJoin] at hc
  · rw [List.concat_eq_append, commaJoin_concat] at hc
    simp only [List.mem_append, List.mem_flatMap, List.mem_singleton] at hc
    rcases hc with ⟨s, hs, hc | hc⟩ | hc
    · exact .inr ⟨s, by simp [hs], hc⟩
    · exact .inl hc
    · exact .inr ⟨last, by simp, hc⟩

theorem inner_chars {types : List SimpleType} (hc : c ∈ commaJoin (types.map Subtype.val)) :
    c = ',' ∨ IsPlainChar c := by
  rcases mem_commaJoin hc with rfl | ⟨s, hs, hc⟩
  · exact .inl rfl
  · obtain ⟨type, -, rfl⟩ := List.mem_map.mp hs
    exact .inr (type.2.2 c hc)

end characters

section brackets

variable {word inner : Str} (hword : ∀ c ∈ word, IsPlainChar c) (hinner : ∀ c ∈ inner, c = ',' ∨ IsPlainChar c)

theorem isElement_plain (hword : ∀ c ∈ word, IsPlainChar c) : IsElement word :=
  isElement_of_flat fun c hc => ⟨(hword c hc).ne.1, (hword c hc).ne.2.1, (hword c hc).ne.2.2.2.1⟩

theorem isBalanced_plain (hword : ∀ c ∈ word, IsPlainChar c) : IsBalanced word :=
  isBalanced_of_flat fun c hc => ⟨(hword c hc).ne.1, (hword c hc).ne.2.1⟩

include hinner

theorem inner_flat : ∀ c ∈ inner, c ≠ '<' ∧ c ≠ '>' := by
  intro c hc
  rcases hinner c hc with hcomma | hplain
  · rw [hcomma]
    decide
  · exact ⟨hplain.ne.1, hplain.ne.2.1⟩

theorem isElement_brackets : IsElement ('<' :: inner ++ ['>']) := by
  intro elements current
  have hflat := inner_flat hinner
  have hopen : elementStep ⟨elements, current, 0⟩ '<' = ⟨elements, current ++ ['<'], 1⟩ := by
    simp [elementStep]
  have hinside : inner.foldl elementStep ⟨elements, current ++ ['<'], 1⟩ =
      ⟨elements, current ++ ['<'] ++ inner, 1⟩ :=
    foldl_elementStep (fun c hc => ⟨(hflat c hc).1, (hflat c hc).2, fun _ => by decide⟩) _ _
  rw [List.cons_append, List.foldl_cons, hopen, List.foldl_append, hinside]
  simp [elementStep]

theorem isBalanced_brackets : IsBalanced ('<' :: inner ++ ['>']) := by
  intro n pos rest hn
  have hopen : splitPosition n pos ('<' :: inner ++ ['>'] ++ rest) =
      splitPosition (n + 1) (pos + 1) (inner ++ '>' :: rest) := by
    simp [splitPosition]
  have hclose : n + 1 - 1 ≠ 1 := by omega
  rw [hopen, splitPosition_append (inner_flat hinner), splitPosition, if_neg (by decide), if_pos rfl, if_neg hclose]
  simp [Nat.add_comm, Nat.add_left_comm]

end brackets

theorem IsElement.append {s t : Str} (hs : IsElement s) (ht : IsElement t) : IsElement (s ++ t) := by
  intro elements current
  rw [List.foldl_append, hs, ht, List.append_assoc]

namespace ElementType

/-- A type is a plain text, or a keyword and brackets around its inner types. -/
theorem render_cases (t : ElementType) :
    (∃ type : SimpleType, t = .simple type) ∨
      ∃ word, t.render = word ++ ('<' :: t.inner ++ ['>']) ∧ (∀ c ∈ word, IsPlainChar c) ∧
        ∀ c ∈ t.inner, c = ',' ∨ IsPlainChar c := by
  cases t with
  | simple type => exact .inl ⟨type, rfl⟩
  | tuple types =>
    exact .inr ⟨"tuple".toList, rfl, forall_mem_of_all (by decide), fun c hc => inner_chars hc⟩
  | set types =>
    exact .inr ⟨"set".toList, rfl, forall_mem_of_all (by decide), fun c hc => inner_chars hc⟩

theorem isElement_render (t : ElementType) : IsElement t.render := by
  rcases t.render_cases with ⟨type, rfl⟩ | ⟨word, hrender, hword, hinner⟩
  · exact isElement_plain type.2.2
  · rw [hrender]
    exact (isElement_plain hword).append (isElement_brackets hinner)

theorem isBalanced_render (t : ElementType) : IsBalanced t.render := by
  rcases t.render_cases with ⟨type, rfl⟩ | ⟨word, hrender, hword, hinner⟩
  · exact isBalanced_plain type.2.2
  · rw [hrender]
    exact (isBalanced_plain hword).append (isBalanced_brackets hinner)

theorem two_le_length_render (t : ElementType) : 2 ≤ t.render.length := by
  rcases t.render_cases with ⟨type, rfl⟩ | ⟨word, hrender, -, -⟩
  · exact type.2.1
  · rw [hrender]
    simp
    omega

theorem colon_not_mem_render (t : ElementType) : ':' ∉ t.render := by
  have hplain : ∀ s : Str, (∀ c ∈ s, IsPlainChar c) → ':' ∉ s := fun s hs hc => (hs _ hc).ne.2.2.1 rfl
  rcases t.render_cases with ⟨type, rfl⟩ | ⟨word, hrender, hword, hinner⟩
  · exact hplain _ type.2.2
  · have hmem : ':' ∉ t.inner := fun hc => absurd (hinner _ hc) (by decide)
    rw [hrender]
    simp [hplain word hword, hmem]

theorem splitDtype_render (t : ElementType) : splitDtype t.render = (t.mark, t.inner) := by
  cases t with
  | simple type =>
    exact splitDtype_simple fun hc => (type.2.2 _ hc).ne.1 rfl
  | tuple types =>
    have htuple : "tuple<".toList.isPrefixOf (ElementType.tuple types).render = true := rfl
    have hrest : (ElementType.tuple types).render.drop 6 = (ElementType.tuple types).inner ++ ['>'] := rfl
    have hlength : "tuple<".toList.length = 6 := rfl
    simp only [splitDtype, htuple, hlength, hrest, List.getLast?_concat, List.dropLast_concat, true_and, if_true, mark]
  | set types =>
    have htuple : "tuple<".toList.isPrefixOf (ElementType.set types).render = false := rfl
    have hset : "set<".toList.isPrefixOf (ElementType.set types).render = true := rfl
    have hrest : (ElementType.set types).render.drop 4 = (ElementType.set types).inner ++ ['>'] := rfl
    have hlength : "set<".toList.length = 4 := rfl
    simp only [splitDtype, htuple, hset, hlength, hrest, List.getLast?_concat, List.dropLast_concat, true_and, if_true,
      Bool.false_eq_true, false_and, if_false, mark]

end ElementType

namespace SpecElement

variable (e : SpecElement)

theorem isElement_render : IsElement e.render := by
  rcases e with ⟨_ | name, type⟩
  · exact type.isElement_render
  · have hcolon : IsElement [':'] := isElement_of_flat (by simp)
    exact (isElement_plain name.2.2).append (hcolon.append type.isElement_render)

theorem isBalanced_render : IsBalanced e.render := by
  rcases e with ⟨_ | name, type⟩
  · exact type.isBalanced_render
  · have hcolon : IsBalanced [':'] := isBalanced_of_flat (by simp)
    exact (isBalanced_plain name.2.2).append (hcolon.append type.isBalanced_render)

theorem two_le_length_render : 2 ≤ e.render.length := by
  rcases e with ⟨_ | name, type⟩
  · exact type.two_le_length_render
  · have htype := type.two_le_length_render
    simp only [SpecElement.render, List.length_append, List.length_cons]
    omega

theorem getNameAndType_render : getNameAndType e.render = .ok (e.name.map Subtype.val, e.type.render) := by
  have htype : e.type.render ≠ [] := List.ne_nil_of_length_pos (by have := e.type.two_le_length_render; omega)
  rcases e with ⟨_ | name, type⟩
  · have hsplit : type.render.splitOn ':' = [type.render] := List.splitOn_eq_singleton type.colon_not_mem_render
    simp [getNameAndType, SpecElement.render, hsplit, htype]
  · have hname : ':' ∉ name.1 := fun hc => (name.2.2 _ hc).ne.2.2.1 rfl
    have hsplit : (name.1 ++ ':' :: type.render).splitOn ':' = [name.1, type.render] := by
      rw [List.splitOn_append_cons_self_of_not_mem hname, List.splitOn_eq_singleton type.colon_not_mem_render]
    simp [getNameAndType, SpecElement.render, hsplit, htype, name.2.1]

end SpecElement

section lists

variable {elements : List SpecElement}

theorem getElements_render (h : elements ≠ []) :
    getElements (commaJoin (elements.map SpecElement.render)) = elements.map SpecElement.render := by
  rcases List.eq_nil_or_concat elements with rfl | ⟨first, last, rfl⟩
  · exact absurd rfl h
  · have hfirst : ∀ s ∈ first.map SpecElement.render, IsElement s := by
      intro s hs
      obtain ⟨e, -, rfl⟩ := List.mem_map.mp hs
      exact e.isElement_render
    rw [List.concat_eq_append, List.map_append, List.map_singleton, commaJoin_concat,
      getElements_join hfirst last.isElement_render last.two_le_length_render]

theorem isBalanced_commaJoin (elements : List SpecElement) :
    IsBalanced (commaJoin (elements.map SpecElement.render)) := by
  have hcomma : IsBalanced [','] := isBalanced_of_flat (by simp)
  induction elements with
  | nil => exact isBalanced_of_flat (by simp [commaJoin])
  | cons e elements ih =>
    cases elements with
    | nil => simpa [commaJoin] using e.isBalanced_render
    | cons e' elements => simpa [commaJoin] using e.isBalanced_render.append (hcomma.append ih)

theorem commaJoin_ne_nil (h : elements ≠ []) : commaJoin (elements.map SpecElement.render) ≠ [] := by
  intro hnil
  have hone := getElements_render h
  rw [hnil] at hone
  cases elements with
  | nil => exact h rfl
  | cons e elements => simp [getElements] at hone

/-- The fields before their types are taken apart. -/
def namedTypes (stem : String) (offset : Nat) (elements : List SpecElement) : List (Str × Str) :=
  elements.zipIdx.map fun e =>
    ((e.1.name.map Subtype.val).getD (stem.toList ++ Nat.toDigits 10 (e.2 + offset)), e.1.type.render)

theorem namesAndTypes_render (stem : String) (offset : Nat) (elements : List SpecElement) :
    namesAndTypes stem.toList offset (elements.map SpecElement.render) = .ok (namedTypes stem offset elements) := by
  rw [namesAndTypes, List.zipIdx_map, List.mapM_map]
  refine mapM_eq_map fun e _ => ?_
  simp only [Function.comp_apply, Prod.map_fst, Prod.map_snd, SpecElement.getNameAndType_render]
  rfl

theorem map_splitDtype_namedTypes (stem : String) (offset : Nat) (elements : List SpecElement) :
    (namedTypes stem offset elements).map (fun e => (e.1, splitDtype e.2)) = expectedFields stem offset elements := by
  rw [namedTypes, expectedFields, List.map_map]
  refine List.map_congr_left fun e _ => ?_
  simp only [Function.comp_apply, ElementType.splitDtype_render]

end lists

/-- The fields that are read back are those that were written. -/
theorem fields_of_renderDict (py : Interpreter) {keys values : List SpecElement} (hkeys : keys ≠ [])
    (hvalues : values ≠ []) :
    getStrPrimaryKeysValues py (renderDict keys values) =
      .ok (expectedFields "key_" 0 keys, expectedFields "val_" keys.length values) := by
  have hbody : renderDict keys values = "dict<<".toList ++
      specBody (commaJoin (keys.map SpecElement.render)) (commaJoin (values.map SpecElement.render)) := by
    have happend : ∀ a b c d e : Str, a ++ b ++ c ++ d ++ e = a ++ (b ++ c ++ d ++ e) := by simp
    exact happend _ _ _ _ _
  have hlength : (namedTypes "key_" 0 keys).length = keys.length := by simp [namedTypes]
  rw [hbody, getStrPrimaryKeysValues_body py (isBalanced_commaJoin keys) _ (commaJoin_ne_nil hkeys),
    getElements_render hkeys, getElements_render hvalues, ← map_splitDtype_namedTypes, ← map_splitDtype_namedTypes,
    ← hlength]
  simp only [namesAndTypes_render, bind, Except.bind]
  rfl

def intType : SimpleType := ⟨"int".toList, by decide, forall_mem_of_all (by decide)⟩

def dottedType : SimpleType := ⟨"a.b".toList, by decide, forall_mem_of_all (by decide)⟩

def namedAndTuple : List SpecElement :=
  [⟨some ⟨"k1".toList, by decide, forall_mem_of_all (by decide)⟩, .simple intType⟩,
    ⟨none, .tuple [intType, dottedType]⟩]

theorem fields_of_renderDict_sample :
    getStrPrimaryKeysValues asciiPython "dict<<k1:int,tuple<int,a.b>>,set<a.b,int>>".toList =
      .ok ([("k1".toList, .simple, "int".toList), ("key_1".toList, .tuple, "int,a.b".toList)],
        [("val_2".toList, .set, "a.b,int".toList)]) := by
  exact @fields_of_renderDict asciiPython namedAndTuple [⟨none, .set [dottedType, intType]⟩] (by simp [namedAndTuple])
    (by simp)

end Parser

end Hecuba
