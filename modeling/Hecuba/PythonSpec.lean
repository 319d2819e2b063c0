import Hecuba.TypeSpecParser

/-! The Python specification that the C++ interface writes for a StorageDict, as the Python
parser reads it. -/

namespace Hecuba

/-- The types of attributes that have a Cassandra type. -/
inductive AttributeType where
  | bool
  | int
  | long
  | float
  | double
  | string
  deriving DecidableEq, Repr

namespace ObjSpec

/-- The texts that `typeid` gives are `b`, `i`, `l`, `f` and `d`; the one of a string has
`basic_string` in its name. -/
def cToCass : AttributeType → Str
  | .bool => "boolean".toList
  | .int => "int".toList
  | .long => "bigint".toList
  | .float => "float".toList
  | .double => "double".toList
  | .string => "text".toList

def cassToHecubaConversion : List (Str × Str) :=
  [("boolean", "bool"), ("double", "double"), ("int", "int"), ("float", "float"), ("text", "str")].map
    fun e => (e.1.toList, e.2.toList)

def cassToHecuba (type : Str) : Str := (cassToHecubaConversion.lookup type).getD type

end ObjSpec

/-- Names and Cassandra types, `generateAttrDescr`. -/
def attrDescr (attrBaseName : String) (types : List AttributeType) : List (Str × Str) :=
  types.zipIdx.map fun e => (attrBaseName.toList ++ Nat.toDigits 10 e.2, ObjSpec.cToCass e.1)

/-- What a StorageDict registers: the first key is the partition key. -/
structure RegisteredDict where
  partitionKeys : List (Str × Str)
  clusteringKeys : List (Str × Str)
  valuesDesc : List (Str × Str)

def RegisteredDict.initObjSpec (keys values : List AttributeType) : RegisteredDict where
  partitionKeys := (attrDescr "keyname" keys).take 1
  clusteringKeys := (attrDescr "keyname" keys).drop 1
  valuesDesc := attrDescr "valuename" values

def specItem (e : Str × Str) : Str := e.1 ++ ':' :: ObjSpec.cassToHecuba e.2

/-- `itemSpec`, the last comma included. -/
def itemSpec (descr : List (Str × Str)) : Str := descr.flatMap fun e => specItem e ++ [',']

/-- The documentation of the class that `generatePythonSpec` writes. -/
def RegisteredDict.pythonDoc (d : RegisteredDict) : Str :=
  "\n   @TypeSpec dict <<".toList ++ (itemSpec d.partitionKeys ++ itemSpec d.clusteringKeys).dropLast ++ ">,".toList ++
    (itemSpec d.valuesDesc).dropLast ++ ">\n   ".toList

/-- Python accepts the documentation, and reads the columns that were registered. -/
def RegisteredDict.ReadBack (py : Interpreter) (parseAttribute : Parser.AttributeParser) (d : RegisteredDict) : Prop :=
  ∃ spec, Parser.parseComments py parseAttribute d.pythonDoc = .ok spec ∧
    spec.lookup "primary_keys".toList =
      some (.columns ((d.partitionKeys ++ d.clusteringKeys).map fun e => .plain e.1 e.2)) ∧
    spec.lookup "columns".toList = some (.columns (d.valuesDesc.map fun e => .plain e.1 e.2))

section characters

/-- The characters of the items and of the commas between them. -/
def IsItemChar (c : Char) : Prop := IsWordChar c ∨ c = ':' ∨ c = ','

instance (c : Char) : Decidable (IsItemChar c) := inferInstanceAs (Decidable (_ ∨ _))

/-- A name or a type: a word that is not empty. -/
structure IsWord (s : Str) : Prop where
  ne_nil : s ≠ []
  chars : ∀ c ∈ s, IsWordChar c

theorem IsItemChar.bounds {c : Char} (h : IsItemChar c) : 44 ≤ c.toNat ∧ c.toNat < 128 := by
  rcases h with h | rfl | rfl
  · have := h.bounds
    omega
  · decide
  · decide

theorem IsItemChar.isSpace {c : Char} (h : IsItemChar c) (py : Interpreter) : py.isSpace c = false := by
  have hb := h.bounds
  have hne : c ≠ ' ' := by
    rintro rfl
    simp at hb
  simp [Interpreter.isSpace, hb.2, hne]
  omega

end characters

/-- The specification after `dict <<`, with the items of the keys and of the values. -/
def specBody (keys values : Str) : Str := keys ++ ">,".toList ++ values ++ ['>']

section reading

open Hecuba.Parser

theorem starSpaces_of_not_mem {s : Str} (h : ' ' ∉ s) (inRun : Bool) : starSpaces inRun s = s := by
  induction s generalizing inRun with
  | nil => rfl
  | cons c s ih =>
    have hc : c ≠ ' ' ∧ ' ' ∉ s := by simpa [eq_comm] using h
    simp [starSpaces, hc.1, ih hc.2]

theorem strip_body (py : Interpreter) (keys values : Str) :
    strip py ("<<".toList ++ specBody keys values) = "<<".toList ++ specBody keys values := by
  have hopen : py.isSpace '<' = false := by simp [Interpreter.isSpace]
  have hclose : py.isSpace '>' = false := by simp [Interpreter.isSpace]
  simp [strip, specBody, hopen, hclose]

theorem isBalanced_items {s : Str} (h : ∀ c ∈ s, IsItemChar c) : IsBalanced s :=
  isBalanced_of_flat fun c hc =>
    ⟨fun he => absurd (h c hc) (he ▸ by decide), fun he => absurd (h c hc) (he ▸ by decide)⟩

theorem splitPosition_body {keys : Str} (hkeys : IsBalanced keys) (values : Str) :
    splitPosition 0 0 ("<<".toList ++ specBody keys values) = 2 + keys.length := by
  have hscan : splitPosition 0 0 ("<<".toList ++ specBody keys values) =
      splitPosition 2 2 (keys ++ '>' :: (',' :: values ++ ['>'])) := by
    simp [splitPosition, specBody]
  rw [hscan, hkeys 2 2 _ (Int.le_refl 2)]
  simp [splitPosition]

theorem getStrPrimaryKeysValues_body (py : Interpreter) {keys : Str} (hkeys : IsBalanced keys)
    (values : Str) (hne : keys ≠ []) :
    getStrPrimaryKeysValues py ("dict<<".toList ++ specBody keys values) = (do
      let keyList ← namesAndTypes "key_".toList 0 (getElements keys)
      let valueList ← namesAndTypes "val_".toList keyList.length (getElements values)
      return (keyList.map fun e => (e.1, splitDtype e.2), valueList.map fun e => (e.1, splitDtype e.2))) := by
  have hpk : replaceFirst "dict".toList [] ("dict<<".toList ++ specBody keys values) =
      "<<".toList ++ specBody keys values := rfl
  have htake : (("<<".toList ++ specBody keys values).take (2 + keys.length)).drop 2 = keys := by
    have hbody : "<<".toList ++ specBody keys values = ("<<".toList ++ keys) ++ (">,".toList ++ values ++ ['>']) := by
      simp [specBody]
    rw [hbody, List.take_left' (by simp; omega)]
    rfl
  have hdrop : (("<<".toList ++ specBody keys values).take (("<<".toList ++ specBody keys values).length - 1)).drop
      (2 + keys.length + 2) = values := by
    have hbody : "<<".toList ++ specBody keys values = ("<<".toList ++ keys ++ ">,".toList ++ values) ++ ['>'] := by
      simp [specBody]
    rw [← List.dropLast_eq_take, hbody, List.dropLast_concat, List.drop_left' (by simp; omega)]
  rw [getStrPrimaryKeysValues, hpk, strip_body, splitPosition_body hkeys]
  simp only [htake, hdrop, if_neg hne]

variable {keys values : Str} (hkeys : ∀ c ∈ keys, IsItemChar c) (hvalues : ∀ c ∈ values, IsItemChar c)
include hkeys hvalues

theorem not_mem_specBody {c : Char} (h : ¬ IsItemChar c) (hc : c ≠ '>') : c ∉ specBody keys values := by
  have hcomma : c ≠ ',' := fun h' => h (.inr (.inr h'))
  have hk : c ∉ keys := fun hm => h (hkeys c hm)
  have hv : c ∉ values := fun hm => h (hvalues c hm)
  simp [specBody, hc, hcomma, hk, hv]

theorem count_close : (specBody keys values).count '>' = 2 := by
  have hk : '>' ∉ keys := fun hm => absurd (hkeys _ hm) (by decide)
  have hv : '>' ∉ values := fun hm => absurd (hvalues _ hm) (by decide)
  simp [specBody, List.count_append, List.count_eq_zero.mpr hk, List.count_eq_zero.mpr hv]

theorem detectErrorsBefore_line :
    detectErrorsBefore ("   @TypeSpec dict <<".toList ++ specBody keys values) = .ok () := by
  have hbad : ("   @TypeSpec dict <<".toList ++ specBody keys values).filter (· ∈ badCharacters) = [] := by
    rw [List.filter_append, List.append_eq_nil_iff]
    refine ⟨by decide, List.filter_eq_nil_iff.mpr fun c hc hmem => ?_⟩
    have hnot : ∀ d ∈ badCharacters, ¬ IsItemChar d ∧ d ≠ '>' := forall_mem_of_all (by decide)
    have hd := hnot c (by simpa using hmem)
    exact not_mem_specBody hkeys hvalues hd.1 hd.2 hc
  have hline : '\n' ∉ "   @TypeSpec dict <<".toList ++ specBody keys values := by
    simpa using not_mem_specBody hkeys hvalues (c := '\n') (by decide) (by decide)
  have hopen : 2 ≤ occurrences ['<'] ("   @TypeSpec dict <<".toList ++ specBody keys values) := by
    rw [occurrences_singleton, List.count_append]
    exact Nat.le_add_right_of_le (by decide)
  have hclose : 2 ≤ occurrences ['>'] ("   @TypeSpec dict <<".toList ++ specBody keys values) := by
    rw [occurrences_singleton, List.count_append, count_close hkeys hvalues]
    exact Nat.le_add_left _ _
  rw [detectErrorsBefore, if_neg (by simpa using hbad), List.splitOn_eq_singleton hline, if_neg (by simp),
    if_neg (by omega)]

theorem removeSpacesFromLine_line (py : Interpreter) :
    removeSpacesFromLine py ("   @TypeSpec dict <<".toList ++ specBody keys values) =
      .ok ("TypeSpec dict<<".toList ++ specBody keys values) := by
  have hspace : ' ' ∉ specBody keys values := not_mem_specBody hkeys hvalues (by decide) (by decide)
  have hat : '@' ∉ specBody keys values := not_mem_specBody hkeys hvalues (by decide) (by decide)
  have hmark : '*' ∉ specBody keys values := not_mem_specBody hkeys hvalues (by decide) (by decide)
  have hstar : starSpaces false ("   @TypeSpec dict <<".toList ++ specBody keys values) =
      "*@TypeSpec*dict*<<".toList ++ specBody keys values := by
    simp [starSpaces, starSpaces_of_not_mem hspace]
  have hrest : '@' ∉ "TypeSpec*dict*<<".toList ++ specBody keys values := by simpa using hat
  have hline : "*@TypeSpec*dict*<<".toList ++ specBody keys values =
      '*' :: '@' :: ("TypeSpec*dict*<<".toList ++ specBody keys values) := rfl
  have hindex : dropUntil "@Index_on".toList ("*@TypeSpec*dict*<<".toList ++ specBody keys values) = none := by
    rw [hline, dropUntil_cons _ rfl, dropUntil_cons _ rfl, dropUntil_of_not_mem (a := '@') (by decide) hrest]
  have hstream : dropUntil "@stream".toList ("*@TypeSpec*dict*<<".toList ++ specBody keys values) = none := by
    rw [hline, dropUntil_cons _ rfl, dropUntil_cons _ rfl, dropUntil_of_not_mem (a := '@') (by decide) hrest]
  have htype : dropUntil "TypeSpec".toList ("*@TypeSpec*dict*<<".toList ++ specBody keys values) =
      some ("TypeSpec*dict*<<".toList ++ specBody keys values) := rfl
  have hdict : occurrences "dict".toList ("TypeSpec*dict*<<".toList ++ specBody keys values) ≠ 0 := by
    have : occurrences "dict".toList ("TypeSpec*dict*<<".toList ++ specBody keys values) =
        1 + occurrencesFrom "dict".toList 0 ("*<<".toList ++ specBody keys values) := rfl
    omega
  have hword : 0 < occurrences "*dict".toList ("TypeSpec*dict*<<".toList ++ specBody keys values) := by
    have : occurrences "*dict".toList ("TypeSpec*dict*<<".toList ++ specBody keys values) =
        1 + occurrencesFrom "*dict".toList 0 ("*<<".toList ++ specBody keys values) := rfl
    omega
  have hpos : wordPosition py "dict".toList false 0 ("TypeSpec*dict*<<".toList ++ specBody keys values) =
      some 9 := by
    simp [wordPosition, Interpreter.isWord]
  have hstreams : occurrences "@stream".toList ("TypeSpec*dict*<<".toList ++ specBody keys values) = 0 :=
    occurrences_of_not_mem (by decide) hrest
  have hindexes : occurrences "@Index_on".toList ("TypeSpec*dict*<<".toList ++ specBody keys values) = 0 :=
    occurrences_of_not_mem (by decide) hrest
  simp only [removeSpacesFromLine, hstar, hindex, hstream, htype, hdict, hword, hpos, hstreams, hindexes, and_self,
    if_true, and_false, if_false, Option.getD_some, Nat.zero_ne_one]
  simpa using fun c hc => ne_of_mem_of_not_mem hc hmark

theorem inputType_line (py : Interpreter) (parseAttribute : AttributeParser) (this : Spec)
    (hindex : occurrences "Index_on".toList ("TypeSpec dict<<".toList ++ specBody keys values) ≠ 1) :
    inputType py parseAttribute ("TypeSpec dict<<".toList ++ specBody keys values) this =
      parseDict py ("TypeSpec dict<<".toList ++ specBody keys values) this := by
  have hat : '@' ∉ "TypeSpec dict<<".toList ++ specBody keys values := by
    simpa using not_mem_specBody hkeys hvalues (c := '@') (by decide) (by decide)
  have hdot : '.' ∉ "TypeSpec dict<<".toList ++ specBody keys values := by
    simpa using not_mem_specBody hkeys hvalues (c := '.') (by decide) (by decide)
  have hopen : occurrences "<".toList ("TypeSpec dict<<".toList ++ specBody keys values) = 2 := by
    have hbody : '<' ∉ specBody keys values := not_mem_specBody hkeys hvalues (by decide) (by decide)
    have : occurrences ['<'] ("TypeSpec dict<<".toList ++ specBody keys values) = 2 := by
      rw [occurrences_singleton, List.count_append, List.count_eq_zero.mpr hbody]
      rfl
    exact this
  have hnumpy : occurrences "numpy.ndarray".toList ("TypeSpec dict<<".toList ++ specBody keys values) = 0 :=
    occurrences_of_not_mem (by decide) hdot
  have hdots : occurrences ".".toList ("TypeSpec dict<<".toList ++ specBody keys values) = 0 :=
    occurrences_of_not_mem (by decide) hdot
  have hstream : occurrences "@stream".toList ("TypeSpec dict<<".toList ++ specBody keys values) = 0 :=
    occurrences_of_not_mem (by decide) hat
  simp only [inputType, hopen, hnumpy, hdots, hstream]
  rw [if_neg (by decide), if_neg (by simp), if_neg hindex, if_neg (by simp), if_neg (by decide)]

theorem words_line (py : Interpreter) :
    words py ("TypeSpec dict<<".toList ++ specBody keys values) =
      ["TypeSpec".toList, "dict<<".toList ++ specBody keys values] := by
  have hsplit : "TypeSpec dict<<".toList ++ specBody keys values =
      "TypeSpec".toList ++ ' ' :: ("dict<<".toList ++ specBody keys values) := rfl
  have hfirst : ∀ c ∈ "TypeSpec".toList, py.isSpace c = false := by
    have : ∀ c ∈ "TypeSpec".toList, IsItemChar c := forall_mem_of_all (by decide)
    exact fun c hc => (this c hc).isSpace py
  have hsecond : ∀ c ∈ "dict<<".toList ++ specBody keys values, py.isSpace c = false := by
    have hfirst : ∀ c ∈ "dict<<".toList, IsItemChar c ∨ c = '<' := forall_mem_of_all (by decide)
    intro c hc
    by_cases hitem : IsItemChar c
    · exact hitem.isSpace py
    · by_cases hclose : c = '>'
      · simp [hclose, Interpreter.isSpace]
      · rcases List.mem_append.mp hc with hc | hc
        · simp [(hfirst c hc).resolve_left hitem, Interpreter.isSpace]
        · exact absurd hc (not_mem_specBody hkeys hvalues hitem hclose)
  rw [words, hsplit, List.splitOnP_append_cons _ _ (by simp [Interpreter.isSpace]), List.splitOnP_eq_singleton hfirst,
    List.splitOnP_eq_singleton hsecond]
  simp

end reading

section items

open Hecuba.Parser

/-- A name of word characters, and a registered type. -/
structure IsAttribute (e : Str × Str) : Prop where
  name : IsWord e.1
  type : ∃ t, e.2 = ObjSpec.cToCass t

theorem isWord_cassToHecuba (t : AttributeType) : IsWord (ObjSpec.cassToHecuba (ObjSpec.cToCass t)) := by
  cases t <;> exact ⟨by decide, forall_mem_of_all (by decide)⟩

variable {e : Str × Str} {d : List (Str × Str)}

theorem IsAttribute.hecuba (h : IsAttribute e) : IsWord (ObjSpec.cassToHecuba e.2) := by
  obtain ⟨t, ht⟩ := h.type
  rw [ht]
  exact isWord_cassToHecuba t

theorem IsAttribute.item_chars (h : IsAttribute e) : ∀ c ∈ specItem e, IsItemChar c := by
  intro c hc
  rcases List.mem_append.mp hc with hc | hc
  · exact .inl (h.name.chars c hc)
  · rcases List.mem_cons.mp hc with rfl | hc
    · exact .inr (.inl rfl)
    · exact .inl (h.hecuba.chars c hc)

theorem IsAttribute.isElement (h : IsAttribute e) : IsElement (specItem e) := by
  refine isElement_of_flat fun c hc => ?_
  have hword : ∀ c, IsWordChar c → c ≠ '<' ∧ c ≠ '>' ∧ c ≠ ',' := fun c hc =>
    ⟨fun h => absurd hc (h ▸ by decide), fun h => absurd hc (h ▸ by decide), fun h => absurd hc (h ▸ by decide)⟩
  rcases List.mem_append.mp hc with hc | hc
  · exact hword c (h.name.chars c hc)
  · rcases List.mem_cons.mp hc with rfl | hc
    · decide
    · exact hword c (h.hecuba.chars c hc)

theorem IsAttribute.two_le_length (h : IsAttribute e) : 2 ≤ (specItem e).length := by
  have := List.length_pos_iff.mpr h.name.ne_nil
  simp [specItem]
  omega

theorem itemSpec_chars (h : ∀ e ∈ d, IsAttribute e) : ∀ c ∈ (itemSpec d).dropLast, IsItemChar c := by
  intro c hc
  obtain ⟨e, he, hc⟩ := List.mem_flatMap.mp (List.dropLast_subset _ hc)
  rcases List.mem_append.mp hc with hc | hc
  · exact (h e he).item_chars c hc
  · exact .inr (.inr (by simpa using hc))

theorem itemSpec_concat (d : List (Str × Str)) (e : Str × Str) :
    (itemSpec (d ++ [e])).dropLast = (d.map specItem).flatMap (· ++ [',']) ++ specItem e := by
  simp [itemSpec, List.flatMap_append, List.flatMap_map, ← List.append_assoc]

theorem getElements_itemSpec (h : ∀ e ∈ d, IsAttribute e) (hd : d ≠ []) :
    getElements (itemSpec d).dropLast = d.map specItem := by
  obtain ⟨d, e, rfl⟩ := (List.eq_nil_or_concat d).resolve_left hd
  rw [List.concat_eq_append] at *
  have hitems : ∀ s ∈ d.map specItem, IsElement s := by
    simp only [List.forall_mem_map]
    exact fun a ha => (h a (by simp [ha])).isElement
  rw [itemSpec_concat, getElements_join hitems (h e (by simp)).isElement (h e (by simp)).two_le_length]
  simp

theorem itemSpec_ne_nil (h : ∀ e ∈ d, IsAttribute e) (hd : d ≠ []) : (itemSpec d).dropLast ≠ [] := by
  obtain ⟨d, e, rfl⟩ := (List.eq_nil_or_concat d).resolve_left hd
  rw [List.concat_eq_append] at *
  have := (h e (by simp)).two_le_length
  rw [itemSpec_concat]
  intro hnil
  simp [(List.append_eq_nil_iff.mp hnil).2] at this

theorem IsAttribute.getNameAndType (h : IsAttribute e) :
    getNameAndType (specItem e) = .ok (some e.1, ObjSpec.cassToHecuba e.2) := by
  have hcolon : ∀ s, IsWord s → ':' ∉ s := fun s hs hm => absurd (hs.chars _ hm) (by decide)
  have hsplit : (specItem e).splitOn ':' = [e.1, ObjSpec.cassToHecuba e.2] := by
    rw [specItem, List.splitOn_append_cons_self_of_not_mem (hcolon _ h.name),
      List.splitOn_eq_singleton (hcolon _ h.hecuba)]
  simp [Parser.getNameAndType, hsplit, h.name.ne_nil, h.hecuba.ne_nil]

theorem namesAndTypes_items (h : ∀ e ∈ d, IsAttribute e) (stem : Str) (offset : Nat) :
    namesAndTypes stem offset (d.map specItem) = .ok (d.map fun e => (e.1, ObjSpec.cassToHecuba e.2)) := by
  refine mapM_zipIdx_map fun e he i => ?_
  rw [(h e he).getNameAndType]
  rfl

theorem splitDtype_simple {s : Str} (hopen : '<' ∉ s) : splitDtype s = (.simple, s) := by
  have htuple : "tuple<".toList.isPrefixOf s = false := not_isPrefixOf (a := '<') (by decide) hopen
  have hset : "set<".toList.isPrefixOf s = false := not_isPrefixOf (a := '<') (by decide) hopen
  simp only [splitDtype, htuple, hset]
  simp

theorem splitDtype_word {s : Str} (h : IsWord s) : splitDtype s = (.simple, s) :=
  splitDtype_simple fun hm => absurd (h.chars _ hm) (by decide)

/-- The fields that the parser finds in the items. -/
def itemFields (d : List (Str × Str)) : List Field := d.map fun e => (e.1, .simple, ObjSpec.cassToHecuba e.2)

theorem getStrPrimaryKeysValues_items (py : Interpreter) {k v : List (Str × Str)} (hk : ∀ e ∈ k, IsAttribute e)
    (hv : ∀ e ∈ v, IsAttribute e) (hkne : k ≠ []) (hvne : v ≠ []) :
    getStrPrimaryKeysValues py ("dict<<".toList ++ specBody (itemSpec k).dropLast (itemSpec v).dropLast) =
      .ok (itemFields k, itemFields v) := by
  have hfields : ∀ d : List (Str × Str), (∀ e ∈ d, IsAttribute e) →
      (d.map fun e => (e.1, ObjSpec.cassToHecuba e.2)).map (fun e => (e.1, splitDtype e.2)) = itemFields d := by
    intro d hd
    rw [List.map_map, itemFields]
    exact List.map_congr_left fun e he => by simp [splitDtype_word (hd e he).hecuba]
  rw [getStrPrimaryKeysValues_body py (isBalanced_items (itemSpec_chars hk)) _ (itemSpec_ne_nil hk hkne), getElements_itemSpec hk hkne,
    getElements_itemSpec hv hvne, namesAndTypes_items hk, ← hfields k hk, ← hfields v hv]
  simp only [namesAndTypes_items hv]
  rfl

/-- The types that Python does not have under the name that C++ writes. -/
theorem lookup_cassToHecuba (t : AttributeType) :
    conversions.lookup (ObjSpec.cassToHecuba (ObjSpec.cToCass t)) =
      if t = .long then none else some (ObjSpec.cToCass t) := by
  cases t <;> decide

theorem cToCass_eq_bigint {t : AttributeType} : ObjSpec.cToCass t = "bigint".toList ↔ t = .long := by
  cases t <;> decide

theorem IsAttribute.getColumn (h : IsAttribute e) (py : Interpreter) (hlong : e.2 ≠ "bigint".toList) :
    getColumn py (e.1, .simple, ObjSpec.cassToHecuba e.2) = .ok (.plain e.1 e.2) := by
  obtain ⟨t, ht⟩ := h.type
  have hlookup : conversions.lookup (ObjSpec.cassToHecuba e.2) = some e.2 := by
    rw [ht, lookup_cassToHecuba, if_neg fun hl => hlong (ht.trans (cToCass_eq_bigint.mpr hl))]
  simp [Parser.getColumn, hlookup]

/-- Python takes `bigint` for a class `igint` of a module without a name. -/
theorem getColumn_bigint (py : Interpreter) (name : Str) (column : Column) :
    getColumn py (name, .simple, ObjSpec.cassToHecuba "bigint".toList) ≠ .ok column := by
  have hlookup : conversions.lookup (ObjSpec.cassToHecuba "bigint".toList) = none := by decide
  have hpath : processPath (ObjSpec.cassToHecuba "bigint".toList) = ("igint".toList, []) := by decide
  have hclass : (conversions.lookup "igint".toList).isSome = false := by decide
  simp only [Parser.getColumn, hlookup, hpath, py.imports_empty, hclass]
  simp

theorem IsAttribute.evaluate (h : IsAttribute e) (py : Interpreter) :
    Column.evaluate py (.plain e.1 e.2) = .ok (.plain e.1 e.2) := by
  obtain ⟨t, ht⟩ := h.type
  have hname : py.quoted e.1 = .ok e.1 := py.quoted_literal _ fun c hc => (h.name.chars c hc).isLiteral
  have htype : py.quoted e.2 = .ok e.2 := by
    have hchars : ∀ c ∈ ObjSpec.cToCass t, IsWordChar c := by
      cases t <;> exact forall_mem_of_all (by decide)
    exact py.quoted_literal _ fun c hc => (hchars c (ht ▸ hc)).isLiteral
  rw [Column.evaluate, hname, htype]
  rfl

theorem getDictStr_items (py : Interpreter) (h : ∀ e ∈ d, IsAttribute e) {columns : List Column} :
    getDictStr py (itemFields d) = .ok columns ↔
      (∀ e ∈ d, e.2 ≠ "bigint".toList) ∧ columns = d.map fun e => .plain e.1 e.2 := by
  have hok (hlong : ∀ e ∈ d, e.2 ≠ "bigint".toList) :
      getDictStr py (itemFields d) = .ok (d.map fun e => .plain e.1 e.2) := by
    rw [getDictStr, itemFields, List.mapM_map]
    exact mapM_eq_map fun e he => (h e he).getColumn py (hlong e he)
  constructor
  · intro hcolumns
    have hlong : ∀ e ∈ d, e.2 ≠ "bigint".toList := by
      intro e he hbigint
      obtain ⟨column, hcolumn⟩ := mapM_returns_iff.mp ⟨columns, hcolumns⟩ _ (List.mem_map_of_mem he)
      rw [hbigint] at hcolumn
      exact getColumn_bigint py _ _ hcolumn
    exact ⟨hlong, Except.ok.inj (hcolumns.symm.trans (hok hlong))⟩
  · rintro ⟨hlong, rfl⟩
    exact hok hlong

theorem evaluate_items (py : Interpreter) (h : ∀ e ∈ d, IsAttribute e) :
    (d.map fun e => Column.plain e.1 e.2).mapM (Column.evaluate py) = .ok (d.map fun e => .plain e.1 e.2) := by
  rw [List.mapM_map]
  exact mapM_eq_map fun e he => (h e he).evaluate py

end items

theorem RegisteredDict.pythonDoc_eq (d : RegisteredDict) :
    d.pythonDoc = '\n' :: ("   @TypeSpec dict <<".toList ++
      specBody (itemSpec (d.partitionKeys ++ d.clusteringKeys)).dropLast (itemSpec d.valuesDesc).dropLast) ++
      '\n' :: "   ".toList := by
  have happend : ∀ a b c d e : Str, '\n' :: a ++ b ++ c ++ d ++ (['>'] ++ '\n' :: e) =
      '\n' :: (a ++ (b ++ c ++ d ++ ['>'])) ++ '\n' :: e := by simp
  have hitems : itemSpec (d.partitionKeys ++ d.clusteringKeys) =
      itemSpec d.partitionKeys ++ itemSpec d.clusteringKeys := List.flatMap_append
  rw [hitems]
  exact happend _ _ _ _ _

section registered

open Hecuba.Parser

variable {py : Interpreter} {k v : List (Str × Str)} (hk : ∀ e ∈ k, IsAttribute e) (hv : ∀ e ∈ v, IsAttribute e)
  (hkne : k ≠ []) (hvne : v ≠ [])
include hk hv hkne hvne

theorem parseColumns_iff {result : List Column × List Column} :
    parseColumns py ("dict<<".toList ++ specBody (itemSpec k).dropLast (itemSpec v).dropLast) = .ok result ↔
      (∀ e ∈ k ++ v, e.2 ≠ "bigint".toList) ∧
        result = (k.map fun e => .plain e.1 e.2, v.map fun e => .plain e.1 e.2) := by
  rw [parseColumns, getStrPrimaryKeysValues_items py hk hv hkne hvne, List.forall_mem_append]
  simp only [bind_ok_iff, Except.ok.injEq, exists_eq_left', getDictStr_items py hk, getDictStr_items py hv]
  constructor
  · rintro ⟨pks, ⟨hklong, rfl⟩, columns, ⟨hvlong, rfl⟩, pks', hpks, columns', hcolumns, hresult⟩
    rw [evaluate_items py hk] at hpks
    rw [evaluate_items py hv] at hcolumns
    cases hpks
    cases hcolumns
    exact ⟨⟨hklong, hvlong⟩, (Except.ok.inj hresult).symm⟩
  · rintro ⟨⟨hklong, hvlong⟩, rfl⟩
    exact ⟨_, ⟨hklong, rfl⟩, _, ⟨hvlong, rfl⟩, _, evaluate_items py hk, _, evaluate_items py hv, rfl⟩

/-- The dict that the parser makes of the documentation. -/
def readSpec (k v : List (Str × Str)) : Spec :=
  [("primary_keys".toList, .columns (k.map fun e => .plain e.1 e.2)),
    ("columns".toList, .columns (v.map fun e => .plain e.1 e.2)), ("type".toList, .text "StorageDict".toList)]

omit hk hv hkne hvne in
theorem lookup_readSpec :
    (readSpec k v).lookup "primary_keys".toList = some (.columns (k.map fun e => .plain e.1 e.2)) ∧
      (readSpec k v).lookup "columns".toList = some (.columns (v.map fun e => .plain e.1 e.2)) := by
  have hne : ("columns".toList == "primary_keys".toList) = false := by decide
  simp only [readSpec, List.lookup_cons, hne, beq_self_eq_true, and_self]

omit hk hv hkne hvne in
theorem detectErrorsAfter_readSpec : detectErrorsAfter (readSpec k v) = .ok () := by
  simp only [detectErrorsAfter, lookup_readSpec.1, lookup_readSpec.2]
  simp

theorem parseComments_items (parseAttribute : AttributeParser) {spec : Spec}
    (hindex : occurrences "Index_on".toList
      ("TypeSpec dict<<".toList ++ specBody (itemSpec k).dropLast (itemSpec v).dropLast) ≠ 1) :
    parseComments py parseAttribute ('\n' :: ("   @TypeSpec dict <<".toList ++
      specBody (itemSpec k).dropLast (itemSpec v).dropLast) ++ '\n' :: "   ".toList) = .ok spec ↔
      (∀ e ∈ k ++ v, e.2 ≠ "bigint".toList) ∧ spec = readSpec k v := by
  have hkc := itemSpec_chars hk
  have hvc := itemSpec_chars hv
  have hlines : beforeLast '\n' (afterFirst '\n' ('\n' :: ("   @TypeSpec dict <<".toList ++
      specBody (itemSpec k).dropLast (itemSpec v).dropLast) ++ '\n' :: "   ".toList)) =
      "   @TypeSpec dict <<".toList ++ specBody (itemSpec k).dropLast (itemSpec v).dropLast := by
    have hfirst := afterFirst_append (a := '\n') (l := []) (by simp) ("   @TypeSpec dict <<".toList ++
      specBody (itemSpec k).dropLast (itemSpec v).dropLast ++ '\n' :: "   ".toList)
    rw [List.cons_append, ← List.nil_append ('\n' :: _), hfirst, beforeLast_append (by decide)]
  have hline : '\n' ∉ "   @TypeSpec dict <<".toList ++ specBody (itemSpec k).dropLast (itemSpec v).dropLast := by
    simpa using not_mem_specBody hkc hvc (c := '\n') (by decide) (by decide)
  have hdict : parseDict py ("TypeSpec dict<<".toList ++ specBody (itemSpec k).dropLast (itemSpec v).dropLast) [] = (do
      let result ← parseColumns py ("dict<<".toList ++ specBody (itemSpec k).dropLast (itemSpec v).dropLast)
      return [("primary_keys".toList, .columns result.1), ("columns".toList, .columns result.2),
        ("type".toList, .text "StorageDict".toList)]) := by
    simp only [parseDict, words_line hkc hvc]
  simp only [parseComments, hlines, detectErrorsBefore_line hkc hvc, List.splitOn_eq_singleton hline, List.foldlM_cons,
    List.foldlM_nil, removeSpacesFromLine_line hkc hvc, bind_ok_iff, pure_eq_ok_iff, Except.ok.injEq, exists_eq_left',
    inputType_line hkc hvc py parseAttribute [] hindex, hdict, parseColumns_iff hk hv hkne hvne]
  constructor
  · rintro ⟨_, -, this, ⟨_, ⟨_, ⟨hlong, rfl⟩, rfl⟩, rfl⟩, -, -, rfl⟩
    exact ⟨hlong, rfl⟩
  · rintro ⟨hlong, rfl⟩
    exact ⟨(), trivial, _, ⟨_, ⟨_, ⟨hlong, rfl⟩, rfl⟩, rfl⟩, (), detectErrorsAfter_readSpec, rfl⟩

theorem readBack_items {d : RegisteredDict} (hd : d.partitionKeys ++ d.clusteringKeys = k) (hd' : d.valuesDesc = v)
    (parseAttribute : AttributeParser)
    (hindex : occurrences "Index_on".toList
      ("TypeSpec dict<<".toList ++ specBody (itemSpec k).dropLast (itemSpec v).dropLast) ≠ 1) :
    d.ReadBack py parseAttribute ↔ ∀ e ∈ k ++ v, e.2 ≠ "bigint".toList := by
  simp only [RegisteredDict.ReadBack, d.pythonDoc_eq, hd, hd',
    parseComments_items hk hv hkne hvne parseAttribute hindex]
  constructor
  · rintro ⟨_, ⟨hlong, -⟩, -⟩
    exact hlong
  · intro hlong
    exact ⟨_, ⟨hlong, rfl⟩, lookup_readSpec⟩

end registered

section attributes

open Hecuba.Parser

variable {attrBaseName : String} {types : List AttributeType}

theorem exists_of_mem_attrDescr {e : Str × Str} (h : e ∈ attrDescr attrBaseName types) :
    ∃ t ∈ types, ∃ i, e = (attrBaseName.toList ++ Nat.toDigits 10 i, ObjSpec.cToCass t) := by
  obtain ⟨⟨t, i⟩, ht, rfl⟩ := List.mem_map.mp h
  exact ⟨t, by simpa using List.mem_map_of_mem (f := Prod.fst) ht, i, rfl⟩

theorem attrDescr_ne_nil (h : types ≠ []) : attrDescr attrBaseName types ≠ [] := by
  simpa [attrDescr] using h

theorem isAttribute_attrDescr (types : List AttributeType) (hbase : IsWord attrBaseName.toList) :
    ∀ e ∈ attrDescr attrBaseName types, IsAttribute e := by
  intro e he
  obtain ⟨t, -, i, rfl⟩ := exists_of_mem_attrDescr he
  refine ⟨⟨by simp [hbase.ne_nil], fun c hc => ?_⟩, t, rfl⟩
  rcases List.mem_append.mp hc with hc | hc
  · exact hbase.chars c hc
  · have hdigit := Nat.isDigit_of_mem_toDigits (by decide) (by decide) hc
    exact .inl (by simp [Char.isAlphanum, hdigit])

theorem underscore_not_mem_itemSpec (hbase : '_' ∉ attrBaseName.toList) :
    '_' ∉ itemSpec (attrDescr attrBaseName types) := by
  intro hm
  obtain ⟨e, he, hc⟩ := List.mem_flatMap.mp hm
  obtain ⟨t, -, i, rfl⟩ := exists_of_mem_attrDescr he
  have htype : '_' ∉ ObjSpec.cassToHecuba (ObjSpec.cToCass t) := by cases t <;> decide
  have hdigits : '_' ∉ Nat.toDigits 10 i := Nat.underscore_not_in_toDigits
  simp [specItem, hbase, htype, hdigits] at hc

theorem forall_attrDescr_ne_bigint :
    (∀ e ∈ attrDescr attrBaseName types, e.2 ≠ "bigint".toList) ↔ AttributeType.long ∉ types := by
  constructor
  · intro h hlong
    rw [← List.zipIdx_map_fst 0 types] at hlong
    obtain ⟨⟨_, i⟩, hi, rfl⟩ := List.mem_map.mp hlong
    exact h _ (List.mem_map_of_mem hi) rfl
  · intro hlong e he hbigint
    obtain ⟨t, ht, i, rfl⟩ := exists_of_mem_attrDescr he
    exact hlong (cToCass_eq_bigint.mp hbigint ▸ ht)

/-- Python reads what C++ has registered, unless a key or a value is a `long`. -/
theorem readBack_iff (py : Interpreter) (parseAttribute : AttributeParser) {keys values : List AttributeType}
    (hkeys : keys ≠ []) (hvalues : values ≠ []) :
    (RegisteredDict.initObjSpec keys values).ReadBack py parseAttribute ↔ AttributeType.long ∉ keys ++ values := by
  have hkeyname : IsWord "keyname".toList := ⟨by decide, forall_mem_of_all (by decide)⟩
  have hvaluename : IsWord "valuename".toList := ⟨by decide, forall_mem_of_all (by decide)⟩
  have hk := isAttribute_attrDescr keys hkeyname
  have hv := isAttribute_attrDescr values hvaluename
  have hindex : occurrences "Index_on".toList ("TypeSpec dict<<".toList ++ specBody
      (itemSpec (attrDescr "keyname" keys)).dropLast (itemSpec (attrDescr "valuename" values)).dropLast) ≠ 1 := by
    have hkey : '_' ∉ (itemSpec (attrDescr "keyname" keys)).dropLast := fun hm =>
      underscore_not_mem_itemSpec (by decide) (List.dropLast_subset _ hm)
    have hvalue : '_' ∉ (itemSpec (attrDescr "valuename" values)).dropLast := fun hm =>
      underscore_not_mem_itemSpec (by decide) (List.dropLast_subset _ hm)
    rw [occurrences_of_not_mem (a := '_') (by decide) (by simp [specBody, hkey, hvalue])]
    decide
  rw [readBack_items hk hv (attrDescr_ne_nil hkeys) (attrDescr_ne_nil hvalues) (List.take_append_drop 1 _) rfl
    parseAttribute hindex, List.forall_mem_append, forall_attrDescr_ne_bigint, forall_attrDescr_ne_bigint]
  simp

theorem readBack_without_long :
    (RegisteredDict.initObjSpec [.int, .string] [.bool]).ReadBack asciiPython fun _ _ this => .ok this :=
  (readBack_iff asciiPython _ (by simp) (by simp)).mpr (by simp)

/-- A dict with a key of type `long` is registered, and Python does not accept its class. -/
theorem long_key_not_read :
    ¬ (RegisteredDict.initObjSpec [.long] [.int]).ReadBack asciiPython fun _ _ this => .ok this := by
  rintro ⟨spec, hspec, -⟩
  have hraised : (parseComments asciiPython (fun _ _ this => .ok this)
      (RegisteredDict.initObjSpec [.long] [.int]).pythonDoc) =
        .error ⟨"ImportError", "Can't import class igint from module ".toList⟩ := rfl
  rw [hraised] at hspec
  cases hspec

end attributes

end Hecuba
