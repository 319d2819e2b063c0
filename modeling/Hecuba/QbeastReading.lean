import Hecuba.QbeastScan

/-! What Cassandra reads from the condition of an indexed filter: its words, its relations, and
nothing where a text follows the bounds. -/

namespace Hecuba

namespace LambdaFilter

variable {F : Type} {py : FilterPython F}

/-- What Cassandra makes of the text of a constant that is compared with a column of numbers: the
number that it is of, and nothing of a name. -/
structure CqlConstants (N : NumericPython py) (d : IndexedDict) where
  constant : Str → Str → Option ℚ
  constant_scalar : ∀ col v, (∀ s, v ≠ .str s) → constant col (scalarText py v) = N.constant d.toNumericDict col v
  constant_none : ∀ col, constant col "None".toList = none
  float_word : ∀ x, ' ' ∉ py.formatFloat x

/-- A relation of a condition in CQL. -/
structure Relation where
  column : Str
  op : CompareOp
  value : ℚ

theorem CompareOp.find_comparator {op : CompareOp} {text : Str} (h : op.comparator = some text) :
    ([CompareOp.eq, .lt, .le, .gt, .ge].find? fun o => o.comparator = some text) = some op := by
  cases op <;> cases h <;> rfl

variable {N : NumericPython py} {d : IndexedDict}

section reading

variable (cql : CqlConstants N d)

/-- A column of the table, an operator and a constant. -/
def readRelation (col op value : Str) : Option Relation :=
  if (d.columns ++ d.primaryKeys).contains col then
    ([CompareOp.eq, .lt, .le, .gt, .ge].find? fun o => o.comparator = some op).bind fun o =>
      (cql.constant col value).map fun q => ⟨col, o, q⟩
  else none

/-- A conjunction of relations. -/
def readConjunction : List Str → Option (List Relation)
  | [col, op, value] => (readRelation cql col op value).map fun r => [r]
  | col :: op :: value :: and :: rest =>
    if and = "AND".toList then
      (readRelation cql col op value).bind fun r => (readConjunction rest).map fun rs => r :: rs
    else none
  | _ => none

/-- A condition whose words are set apart by blanks; none when it is not well formed. -/
def readCondition (text : Str) : Option (List Relation) := readConjunction cql (text.splitOn ' ')

end reading

section words

variable {w rest : Str}

theorem splitOn_word (h : ' ' ∉ w) : w.splitOn ' ' = [w] := by
  rw [List.splitOn_eq_splitOnP]
  exact List.splitOnP_eq_singleton fun c hc => by
    have hne : c ≠ ' ' := fun heq => h (heq ▸ hc)
    simpa using hne

theorem splitOn_word_append (h : ' ' ∉ w) : (w ++ ' ' :: rest).splitOn ' ' = w :: rest.splitOn ' ' := by
  rw [List.splitOn_eq_splitOnP, List.splitOn_eq_splitOnP]
  refine List.splitOnP_append_cons_of_forall_mem (fun c hc => ?_) ' ' (by simp) rest
  have hne : c ≠ ' ' := fun heq => h (heq ▸ hc)
  simpa using hne

theorem intText_word (n : Int) : ' ' ∉ intText n := by
  have hdigits (m : Nat) : ' ' ∉ Nat.toDigits 10 m := fun h => by
    have hdigit := Nat.isDigit_of_mem_toDigits (by decide) (by decide) h
    exact absurd hdigit (by decide)
  cases n with
  | ofNat m => exact hdigits m
  | negSucc m =>
    intro h
    rcases List.mem_cons.mp h with heq | hin
    · cases heq
    · exact hdigits _ hin

/-- What a driver packs as a double is no text and no sequence. -/
theorem packed_scalar {driver : QbeastDriver F} {v : Item F} (h : driver.packsDouble v = true) :
    ∃ x, v = .scalar x ∧ ∀ s, x ≠ .str s := by
  cases v with
  | sequence mutable items =>
    rw [driver.numbers_sequence] at h
    cases h
  | scalar x =>
    refine ⟨x, rfl, ?_⟩
    rintro s rfl
    rw [driver.numbers_str] at h
    cases h

theorem plainText_scalar {x : Scalar F} (h : ∀ s, x ≠ .str s) : plainText py (.scalar x) = scalarText py x := by
  cases x with
  | str s => exact absurd rfl (h s)
  | int n => rfl
  | float x => rfl
  | bool b => rfl

end words

section bounds

variable (cql : CqlConstants N d) {driver : QbeastDriver F}

theorem boundText_word (cql : CqlConstants N d) {b : Option (Item F)}
    (h : ∀ v, b = some v → driver.packsDouble v = true) : ' ' ∉ boundText py b := by
  have hnone : ' ' ∉ "None".toList := by decide
  have hfalse : ' ' ∉ "False".toList := by decide
  have htrue : ' ' ∉ "True".toList := by decide
  cases b with
  | none => exact hnone
  | some v =>
    obtain ⟨x, rfl, hx⟩ := packed_scalar (h v rfl)
    rw [boundText, plainText_scalar hx]
    cases x with
    | str s => exact absurd rfl (hx s)
    | int n => exact intText_word n
    | float x => exact cql.float_word x
    | bool b =>
      cases b with
      | false => exact hfalse
      | true => exact htrue

/-- The number that a bound is. -/
def boundNumber (N : NumericPython py) (d : IndexedDict) (col : Str) : Option (Item F) → Option ℚ
  | some (.scalar v) => N.constant d.toNumericDict col v
  | _ => none

theorem constant_boundText (col : Str) {b : Option (Item F)} (h : ∀ v, b = some v → driver.packsDouble v = true) :
    cql.constant col (boundText py b) = boundNumber N d col b := by
  cases b with
  | none => exact cql.constant_none col
  | some v =>
    obtain ⟨x, rfl, hx⟩ := packed_scalar (h v rfl)
    rw [boundText, plainText_scalar hx]
    exact cql.constant_scalar col x hx

/-- The two relations of a column with its bounds. -/
def boundRelations (N : NumericPython py) (d : IndexedDict) (e : Str × Option (Item F) × Option (Item F)) :
    Option (List Relation) :=
  (boundNumber N d e.1 e.2.1).bind fun lower => (boundNumber N d e.1 e.2.2).map fun upper =>
    [⟨e.1, .gt, lower⟩, ⟨e.1, .lt, upper⟩]

theorem readRelation_of_comparator {col op : Str} {o : CompareOp} (hcol : col ∈ d.columns ++ d.primaryKeys)
    (hop : o.comparator = some op) (value : Str) :
    readRelation cql col op value = (cql.constant col value).map fun q => ⟨col, o, q⟩ := by
  rw [readRelation, if_pos (by simpa using hcol), CompareOp.find_comparator hop, Option.bind_some]

theorem readConjunction_and (col op value : Str) (rest : List Str) :
    readConjunction cql (col :: op :: value :: "AND".toList :: rest) =
      (readRelation cql col op value).bind fun r => (readConjunction cql rest).map fun rs => r :: rs := by
  rw [readConjunction.eq_def]
  rfl

theorem boundsText_words {col lower : Str} (upper rest : Str) (hcol : ' ' ∉ col) (hlower : ' ' ∉ lower) :
    (col ++ " > ".toList ++ lower ++ " AND ".toList ++ col ++ " < ".toList ++ (upper ++ rest)).splitOn ' ' =
      col :: ['>'] :: lower :: "AND".toList :: col :: ['<'] :: (upper ++ rest).splitOn ' ' := by
  have hgt : ' ' ∉ ['>'] := by decide
  have hlt : ' ' ∉ ['<'] := by decide
  have hand : ' ' ∉ "AND".toList := by decide
  have htext : col ++ " > ".toList ++ lower ++ " AND ".toList ++ col ++ " < ".toList ++ (upper ++ rest) =
      col ++ ' ' :: (['>'] ++ ' ' :: (lower ++ ' ' :: ("AND".toList ++ ' ' :: (col ++ ' ' :: (['<'] ++ ' ' :: (upper ++ rest)))))) := by
    simp
  rw [htext, splitOn_word_append hcol, splitOn_word_append hgt, splitOn_word_append hlower, splitOn_word_append hand,
    splitOn_word_append hcol, splitOn_word_append hlt]

theorem dropLast_and (s : Str) : dropLast 5 (s ++ " AND ".toList) = s := by
  have hlen : " AND ".toList.length = 5 := by decide
  rw [dropLast, List.length_append, hlen, Nat.add_sub_cancel, List.take_left]

theorem dropLast_append (a : Str) {s : Str} (h : 5 ≤ s.length) : dropLast 5 (a ++ s) = a ++ dropLast 5 s := by
  rw [dropLast, dropLast, List.length_append, Nat.add_sub_assoc h, List.take_length_add_append]

/-- A column with the bounds that the points have for it. -/
structure Piece (driver : QbeastDriver F) (d : IndexedDict) (e : Str × Option (Item F) × Option (Item F)) : Prop where
  column : e.1 ∈ d.columns ++ d.primaryKeys
  lower : ∀ v, e.2.1 = some v → driver.packsDouble v = true
  upper : ∀ v, e.2.2 = some v → driver.packsDouble v = true

section piece

variable {e : Str × Option (Item F) × Option (Item F)} (h : Piece driver d e)

include h

theorem read_last : readCondition cql (dropLast 5 (boundsText py e.1 e.2.1 e.2.2)) = boundRelations N d e := by
  have hgt : CompareOp.comparator .gt = some ['>'] := rfl
  have hlt : CompareOp.comparator .lt = some ['<'] := rfl
  have hwords := boundsText_words (boundText py e.2.2) [] (d.words _ h.column) (boundText_word cql h.lower)
  rw [List.append_nil, splitOn_word (boundText_word cql h.upper)] at hwords
  rw [boundsText, dropLast_and, readCondition, hwords, readConjunction_and, readConjunction,
    readRelation_of_comparator cql h.column hgt, readRelation_of_comparator cql h.column hlt,
    constant_boundText cql _ h.lower, constant_boundText cql _ h.upper, boundRelations]
  cases boundNumber N d e.1 e.2.1 with
  | none => rfl
  | some lower =>
    cases boundNumber N d e.1 e.2.2 with
    | none => rfl
    | some upper => rfl

theorem read_next (rest : Str) : readCondition cql (boundsText py e.1 e.2.1 e.2.2 ++ rest) =
    (boundRelations N d e).bind fun rs => (readCondition cql rest).map fun rs' => rs ++ rs' := by
  have hgt : CompareOp.comparator .gt = some ['>'] := rfl
  have hlt : CompareOp.comparator .lt = some ['<'] := rfl
  have hand : ' ' ∉ "AND".toList := by decide
  have hwords := boundsText_words (boundText py e.2.2) (" AND ".toList ++ rest) (d.words _ h.column)
    (boundText_word cql h.lower)
  have hupper : (boundText py e.2.2 ++ (" AND ".toList ++ rest)).splitOn ' ' =
      boundText py e.2.2 :: "AND".toList :: rest.splitOn ' ' := by
    have htext : boundText py e.2.2 ++ (" AND ".toList ++ rest) =
        boundText py e.2.2 ++ ' ' :: ("AND".toList ++ ' ' :: rest) := by simp
    rw [htext, splitOn_word_append (boundText_word cql h.upper), splitOn_word_append hand]
  have htext : boundsText py e.1 e.2.1 e.2.2 ++ rest = e.1 ++ " > ".toList ++ boundText py e.2.1 ++ " AND ".toList ++ e.1 ++
      " < ".toList ++ (boundText py e.2.2 ++ (" AND ".toList ++ rest)) := by
    simp [boundsText]
  rw [hupper] at hwords
  rw [readCondition, htext, hwords, readConjunction_and, readConjunction_and,
    readRelation_of_comparator cql h.column hgt, readRelation_of_comparator cql h.column hlt,
    constant_boundText cql _ h.lower, constant_boundText cql _ h.upper, boundRelations]
  cases boundNumber N d e.1 e.2.1 with
  | none => rfl
  | some lower =>
    cases boundNumber N d e.1 e.2.2 with
    | none => rfl
    | some upper =>
      rw [readCondition]
      cases readConjunction cql (rest.splitOn ' ') with
      | none => rfl
      | some rs => rfl

/-- A text right behind the last bound: an operator stands where a conjunction would go on. -/
theorem read_junction {name op : Str} (hname : ' ' ∉ name) (hop : ' ' ∉ op) (hand : op ≠ "AND".toList) (rest : Str) :
    readCondition cql (dropLast 5 (boundsText py e.1 e.2.1 e.2.2) ++ (name ++ ' ' :: (op ++ ' ' :: rest))) = none := by
  have hwords := boundsText_words (boundText py e.2.2) (name ++ ' ' :: (op ++ ' ' :: rest)) (d.words _ h.column)
    (boundText_word cql h.lower)
  have hjoined : ' ' ∉ boundText py e.2.2 ++ name := fun hin =>
    (List.mem_append.mp hin).elim (boundText_word cql h.upper) hname
  have hupper : (boundText py e.2.2 ++ (name ++ ' ' :: (op ++ ' ' :: rest))).splitOn ' ' =
      (boundText py e.2.2 ++ name) :: op :: rest.splitOn ' ' := by
    rw [← List.append_assoc, splitOn_word_append hjoined, splitOn_word_append hop]
  have htext : dropLast 5 (boundsText py e.1 e.2.1 e.2.2) ++ (name ++ ' ' :: (op ++ ' ' :: rest)) =
      e.1 ++ " > ".toList ++ boundText py e.2.1 ++ " AND ".toList ++ e.1 ++ " < ".toList ++
        (boundText py e.2.2 ++ (name ++ ' ' :: (op ++ ' ' :: rest))) := by
    rw [boundsText, dropLast_and]
    simp only [List.append_assoc]
  rw [hupper] at hwords
  rw [readCondition, htext, hwords, readConjunction_and]
  have hnone : readConjunction cql (e.1 :: ['<'] :: (boundText py e.2.2 ++ name) :: op :: rest.splitOn ' ') = none := by
    rw [readConjunction.eq_def]
    exact if_neg hand
  rw [hnone]
  cases readRelation cql e.1 ['>'] (boundText py e.2.1) with
  | none => rfl
  | some r => rfl

end piece

/-- The bounds of the indexed columns, before the last connective is cut off. -/
def piecesText (py : FilterPython F) (es : List (Str × Option (Item F) × Option (Item F))) : Str :=
  es.flatMap fun e => boundsText py e.1 e.2.1 e.2.2

def relationsOf (N : NumericPython py) (d : IndexedDict) :
    List (Str × Option (Item F) × Option (Item F)) → Option (List Relation)
  | [] => some []
  | e :: es => (boundRelations N d e).bind fun rs => (relationsOf N d es).map fun rs' => rs ++ rs'

theorem dropLast_pieces (py : FilterPython F) (e e' : Str × Option (Item F) × Option (Item F))
    (es : List (Str × Option (Item F) × Option (Item F))) :
    dropLast 5 (piecesText py (e :: e' :: es)) = boundsText py e.1 e.2.1 e.2.2 ++ dropLast 5 (piecesText py (e' :: es)) := by
  have hlen : " AND ".toList.length = 5 := by decide
  rw [piecesText, List.flatMap_cons, ← piecesText]
  apply dropLast_append
  simp only [piecesText, List.flatMap_cons, boundsText, List.length_append, hlen]
  omega

variable {e : Str × Option (Item F) × Option (Item F)} {es : List (Str × Option (Item F) × Option (Item F))}

theorem read_pieces (h : ∀ p ∈ e :: es, Piece driver d p) :
    readCondition cql (dropLast 5 (piecesText py (e :: es))) = relationsOf N d (e :: es) := by
  induction es generalizing e with
  | nil =>
    have hone : piecesText py [e] = boundsText py e.1 e.2.1 e.2.2 := by rw [piecesText, List.flatMap_singleton]
    rw [hone, read_last cql (h e List.mem_cons_self), relationsOf, relationsOf]
    cases boundRelations N d e with
    | none => rfl
    | some rs => exact congrArg some (List.append_nil rs).symm
  | cons e' es ih =>
    have hrest : ∀ p ∈ e' :: es, Piece driver d p := fun p hp => h p (List.mem_cons_of_mem e hp)
    rw [dropLast_pieces, read_next cql (h e List.mem_cons_self), ih hrest]
    rfl

theorem read_pieces_junction (h : ∀ p ∈ e :: es, Piece driver d p) {name op : Str} (hname : ' ' ∉ name) (hop : ' ' ∉ op)
    (hand : op ≠ "AND".toList) (rest : Str) :
    readCondition cql (dropLast 5 (piecesText py (e :: es)) ++ (name ++ ' ' :: (op ++ ' ' :: rest))) = none := by
  induction es generalizing e with
  | nil =>
    have hone : piecesText py [e] = boundsText py e.1 e.2.1 e.2.2 := by rw [piecesText, List.flatMap_singleton]
    rw [hone, read_junction cql (h e List.mem_cons_self) hname hop hand]
  | cons e' es ih =>
    have hrest : ∀ p ∈ e' :: es, Piece driver d p := fun p hp => h p (List.mem_cons_of_mem e hp)
    rw [dropLast_pieces, List.append_assoc, read_next cql (h e List.mem_cons_self), ih hrest]
    cases boundRelations N d e with
    | none => rfl
    | some rs => rfl

end bounds

end LambdaFilter

end Hecuba
