import Hecuba.QbeastReading

/-! The condition of an indexed filter is never sent, and what the text would select that `__iter__` makes. -/

namespace Hecuba

namespace LambdaFilter

variable {F : Type} {py : FilterPython F} {N : NumericPython py} {d : IndexedDict}

/-- The rows of a table, and the comparisons that are true of them. On an indexed column, with a
number, a comparison is that of numbers. -/
structure IndexedRows (N : NumericPython py) (d : IndexedDict) where
  Row : Type
  number : Row → Str → ℚ
  Satisfies : Row → Expression F → Prop
  satisfies_iff : ∀ row e v q (op : CompareOp), e.column ∈ d.indexedOn → e.value = .scalar v →
    N.constant d.toNumericDict e.column v = some q → op.comparator = some e.op →
      (Satisfies row e ↔ op.holds (number row e.column) (.rational q) = true)

def Relation.Holds (rows : IndexedRows N d) (row : rows.Row) (r : Relation) : Prop :=
  r.op.holds (rows.number row r.column) (.rational r.value) = true

def SelectsExactly (cql : CqlConstants N d) (rows : IndexedRows N d) (f : IndexedFilter F d) (condition : Str) : Prop :=
  ∃ relations, readCondition cql condition = some relations ∧
    ∀ row, (∀ r ∈ relations, r.Holds rows row) ↔
      ∀ e ∈ f.expressions, e.column ∈ d.columns ++ d.primaryKeys → rows.Satisfies row e

/-- The filter gives an iterator, and the condition that it sends selects the rows that satisfy the filter. -/
def KeepsConditions {Id : Type} (world : IStorageWorld Id) (driver : QbeastDriver F) (cql : CqlConstants N d)
    (rows : IndexedRows N d) (f : IndexedFilter F d) : Prop :=
  ∃ it : QbeastIterator F Id, hfilterIndexed world py driver d f.expressions = .ok it ∧
    SelectsExactly cql rows f (iterConditions py d it.qbeastMeta)

/-- No indexed filter keeps its conditions, since none is ever sent: the iterator is made persistent a
second time when it is made, and that raises. -/
theorem keepsConditions_never {Id : Type} (world : IStorageWorld Id) (driver : QbeastDriver F) (cql : CqlConstants N d)
    (rows : IndexedRows N d) (f : IndexedFilter F d) :
    (∃ e, hfilterIndexed world py driver d f.expressions = .error e) ∧ ¬ KeepsConditions world driver cql rows f := by
  obtain ⟨e, he, -⟩ := hfilterIndexed_raises (d := d) world driver py f.expressions
  refine ⟨⟨e, he⟩, ?_⟩
  rintro ⟨it, hit, -⟩
  rw [he] at hit
  cases hit

section kept

variable {driver : QbeastDriver F} (cql : CqlConstants N d) (rows : IndexedRows N d)

/-- No comparison goes to the text, each indexed column has two bounds that are numbers, and what
is lost does not matter: the rows within the last bounds satisfy the bounds before them, and the
comparisons that are taken for the precision. -/
structure WellBounded (rows : IndexedRows N d) (es : List (Expression F)) : Prop where
  no_text : ∀ e ∈ es, inText d e = false
  lower : ∀ col ∈ d.indexedOn, (boundNumber N d col (lastBound ['>'] es col)).isSome = true
  upper : ∀ col ∈ d.indexedOn, (boundNumber N d col (lastBound ['<'] es col)).isSome = true
  lost : ∀ row, (∀ col ∈ d.indexedOn, ∀ e, lastExpression ['>'] es col = some e ∨ lastExpression ['<'] es col = some e →
    rows.Satisfies row e) → ∀ e ∈ es, e.column ∈ d.columns ++ d.primaryKeys → rows.Satisfies row e

theorem lastExpression_spec {op : Str} {es : List (Expression F)} {col : Str} {e : Expression F}
    (h : lastExpression op es col = some e) : e ∈ es ∧ e.column = col ∧ e.op = op := by
  have hmem := List.mem_of_find?_eq_some h
  have hfound := List.find?_some h
  simp only [decide_eq_true_eq] at hfound
  exact ⟨by simpa using hmem, hfound⟩

theorem satisfies_last {op : Str} {c : CompareOp} (hc : c.comparator = some op) {es : List (Expression F)} {col : Str}
    (hcol : col ∈ d.indexedOn) {q : ℚ} (hq : boundNumber N d col (lastBound op es col) = some q) (row : rows.Row) :
    c.holds (rows.number row col) (.rational q) = true ↔
      ∀ e, lastExpression op es col = some e → rows.Satisfies row e := by
  cases hlast : lastExpression op es col with
  | none =>
    rw [lastBound, hlast] at hq
    cases hq
  | some e =>
    rw [lastBound, hlast] at hq
    obtain ⟨-, hcolumn, hop⟩ := lastExpression_spec hlast
    cases hvalue : e.value with
    | sequence mutable items =>
      rw [Option.map_some, hvalue] at hq
      cases hq
    | scalar v =>
      rw [Option.map_some, hvalue] at hq
      have hconstant : N.constant d.toNumericDict e.column v = some q := by
        rw [hcolumn]
        exact hq
      have hindexed : e.column ∈ d.indexedOn := hcolumn ▸ hcol
      have hiff := rows.satisfies_iff row e v q c hindexed hvalue hconstant (hc.trans (congrArg some hop.symm))
      rw [hcolumn] at hiff
      rw [← hiff]
      constructor
      · rintro hs _ ⟨⟩
        exact hs
      · exact fun hall => hall e rfl

theorem relationsOf_some {es : List (Expression F)} {cols : List Str} (hcols : ∀ col ∈ cols, col ∈ d.indexedOn)
    {relations : List Relation}
    (h : relationsOf N d (cols.map fun col => (col, lastBound ['>'] es col, lastBound ['<'] es col)) = some relations)
    (row : rows.Row) :
    (∀ r ∈ relations, r.Holds rows row) ↔ ∀ col ∈ cols, ∀ e,
      lastExpression ['>'] es col = some e ∨ lastExpression ['<'] es col = some e → rows.Satisfies row e := by
  induction cols generalizing relations with
  | nil =>
    obtain rfl := Option.some.inj h
    simp
  | cons col cols ih =>
    rw [List.map_cons, relationsOf] at h
    obtain ⟨rs, hrs, hrest⟩ := Option.bind_eq_some_iff.mp h
    obtain ⟨rs', hrs', rfl⟩ := Option.map_eq_some_iff.mp hrest
    obtain ⟨lower, hlower, hmap⟩ := Option.bind_eq_some_iff.mp hrs
    obtain ⟨upper, hupper, rfl⟩ := Option.map_eq_some_iff.mp hmap
    have hcol := hcols col List.mem_cons_self
    have hgt := satisfies_last rows (c := .gt) rfl hcol hlower row
    have hlt := satisfies_last rows (c := .lt) rfl hcol hupper row
    have htail := ih (fun c hc => hcols c (List.mem_cons_of_mem col hc)) hrs'
    have hhead : (∀ r ∈ [(⟨col, .gt, lower⟩ : Relation), ⟨col, .lt, upper⟩], r.Holds rows row) ↔ ∀ e,
        lastExpression ['>'] es col = some e ∨ lastExpression ['<'] es col = some e → rows.Satisfies row e := by
      have hpair : (∀ r ∈ [(⟨col, .gt, lower⟩ : Relation), ⟨col, .lt, upper⟩], r.Holds rows row) ↔
          CompareOp.gt.holds (rows.number row col) (.rational lower) = true ∧
            CompareOp.lt.holds (rows.number row col) (.rational upper) = true := by
        simp [Relation.Holds]
      rw [hpair, hgt, hlt]
      constructor
      · rintro ⟨hfrom, hto⟩ e he
        exact he.elim (hfrom e) (hto e)
      · exact fun hall => ⟨fun e he => hall e (.inl he), fun e he => hall e (.inr he)⟩
    rw [List.forall_mem_append, hhead, htail, List.forall_mem_cons]

theorem relationsOf_isSome {es : List (Expression F)} {cols : List Str} :
    (relationsOf N d (cols.map fun col => (col, lastBound ['>'] es col, lastBound ['<'] es col))).isSome = true ↔
      ∀ col ∈ cols, (boundNumber N d col (lastBound ['>'] es col)).isSome = true ∧
        (boundNumber N d col (lastBound ['<'] es col)).isSome = true := by
  induction cols with
  | nil => simp [relationsOf]
  | cons col cols ih =>
    rw [List.map_cons, relationsOf, List.forall_mem_cons, ← ih, boundRelations]
    cases boundNumber N d col (lastBound ['>'] es col) with
    | none => simp
    | some lower =>
      cases boundNumber N d col (lastBound ['<'] es col) with
      | none => simp
      | some upper => simp

theorem memFilter_text (py : FilterPython F) {f : IndexedFilter F d} {e : Expression F} (he : e ∈ f.expressions)
    (htext : inText d e = true) : ∃ name op rest, ' ' ∉ name ∧ ' ' ∉ op ∧ op ≠ "AND".toList ∧
      (metaOf py d f.expressions).memFilter = name ++ ' ' :: (op ++ ' ' :: rest) := by
  cases hfilter : f.expressions.filter (inText d) with
  | nil => exact absurd (List.mem_filter.mpr ⟨he, htext⟩) (hfilter ▸ List.not_mem_nil)
  | cons first others =>
    have hfirst : first ∈ f.expressions.filter (inText d) := hfilter ▸ List.mem_cons_self
    obtain ⟨hin, hinText⟩ := List.mem_filter.mp hfirst
    have hname : first.column ∈ d.columns ++ d.primaryKeys := by
      by_cases hindexed : first.column ∈ d.indexedOn
      · exact d.columns_of _ hindexed
      · refine (f.known first hin).resolve_right fun hrandom => ?_
        have hisRandom : isRandom first = true := decide_eq_true hrandom
        simp [inText, hindexed, hisRandom] at hinText
    have hops : ∀ op ∈ "in".toList :: comparators, ' ' ∉ op ∧ op ≠ "AND".toList := by decide
    have hop : first.op ∈ "in".toList :: comparators := by
      rcases first.accepted with hcomparator | hmember
      · exact List.mem_cons_of_mem _ (by simpa using hcomparator)
      · exact hmember ▸ List.mem_cons_self
    have hlen : " AND ".toList.length = 5 := by decide
    refine ⟨first.column, first.op, dropLast 5 (plainText py first.value ++ " AND ".toList ++ others.flatMap (argument py)),
      d.words _ hname, (hops _ hop).1, (hops _ hop).2, ?_⟩
    have hargument : (first :: others).flatMap (argument py) = first.column ++ ' ' :: (first.op ++ [' ']) ++
        (plainText py first.value ++ " AND ".toList ++ others.flatMap (argument py)) := by
      simp [argument]
    rw [metaOf, hfilter, hargument, dropLast_append _ (by simp only [List.length_append, hlen]; omega)]
    simp

/-- The text that `__iter__` would make of stored metadata selects the rows of the filter when all its
comparisons are bounds, two for each indexed column at least, and the last of them are the tightest. -/
theorem iterConditions_select_iff {driver : QbeastDriver F} (cql : CqlConstants N d) (rows : IndexedRows N d)
    {f : IndexedFilter F d} (hstored : storeMeta driver (metaOf py d f.expressions) = .ok ()) :
    SelectsExactly cql rows f (iterConditions py d (metaOf py d f.expressions)) ↔ WellBounded rows f.expressions := by
  obtain ⟨hbounds, -⟩ := (storeMeta_metaOf py driver f.expressions).mp hstored
  let piece (col : Str) := (col, lastBound ['>'] f.expressions col, lastBound ['<'] f.expressions col)
  have hpieces : ∀ p ∈ d.indexedOn.map piece, Piece driver d p := by
    intro p hp
    obtain ⟨col, hcol, rfl⟩ := List.mem_map.mp hp
    exact ⟨d.columns_of col hcol, fun v hv => hbounds col hcol v (.inl hv), fun v hv => hbounds col hcol v (.inr hv)⟩
  have hconditions : iterConditions py d (metaOf py d f.expressions) =
      dropLast 5 (piecesText py (d.indexedOn.map piece)) ++ (metaOf py d f.expressions).memFilter := by
    have hzip : d.indexedOn.zip (d.indexedOn.map fun col =>
        (lastBound ['>'] f.expressions col, lastBound ['<'] f.expressions col)) = d.indexedOn.map piece := by
      have hh : (d.indexedOn.map id).zip (d.indexedOn.map fun col =>
          (lastBound ['>'] f.expressions col, lastBound ['<'] f.expressions col)) = d.indexedOn.map piece := List.zip_map'
      rwa [List.map_id] at hh
    simp only [iterConditions, metaOf, List.zip_map', hzip]
    rfl
  rw [hconditions]
  unfold SelectsExactly
  obtain ⟨col, cols, hcols⟩ := List.exists_cons_of_ne_nil d.indexed
  by_cases htext : ∀ e ∈ f.expressions, inText d e = false
  · -- the bounds are the whole condition
    have hempty : (metaOf py d f.expressions).memFilter = [] := by
      have hnone : f.expressions.filter (inText d) = [] := List.filter_eq_nil_iff.mpr fun e he => by simp [htext e he]
      rw [metaOf, hnone]
      rfl
    have hread : readCondition cql (dropLast 5 (piecesText py (d.indexedOn.map piece))) =
        relationsOf N d (d.indexedOn.map piece) := by
      rw [hcols] at hpieces ⊢
      exact read_pieces cql hpieces
    rw [hempty, List.append_nil, hread]
    constructor
    · rintro ⟨relations, hrelations, hrows⟩
      have hnumbers := relationsOf_isSome.mp (Option.isSome_iff_exists.mpr ⟨relations, hrelations⟩)
      refine ⟨htext, fun c hc => (hnumbers c hc).1, fun c hc => (hnumbers c hc).2, fun row hlast => ?_⟩
      exact (hrows row).mp ((relationsOf_some rows (fun _ hc => hc) hrelations row).mpr hlast)
    · intro h
      obtain ⟨relations, hrelations⟩ := Option.isSome_iff_exists.mp
        (relationsOf_isSome.mpr fun c hc => ⟨h.lower c hc, h.upper c hc⟩)
      refine ⟨relations, hrelations, fun row => ?_⟩
      rw [relationsOf_some rows (fun _ hc => hc) hrelations row]
      refine ⟨h.lost row, fun hall c hc e he => ?_⟩
      have hmem : e ∈ f.expressions ∧ e.column = c := by
        rcases he with he | he
        · exact ⟨(lastExpression_spec he).1, (lastExpression_spec he).2.1⟩
        · exact ⟨(lastExpression_spec he).1, (lastExpression_spec he).2.1⟩
      exact hall e hmem.1 (hmem.2 ▸ d.columns_of c hc)
  · -- the text stands behind the last bound, with no connective
    obtain ⟨e, he, hinText⟩ : ∃ e ∈ f.expressions, inText d e = true := by simpa using htext
    obtain ⟨name, op, rest, hname, hop, hand, hmem⟩ := memFilter_text py he hinText
    have hread : readCondition cql (dropLast 5 (piecesText py (d.indexedOn.map piece)) ++
        (metaOf py d f.expressions).memFilter) = none := by
      rw [hcols] at hpieces ⊢
      rw [hmem]
      exact read_pieces_junction cql hpieces hname hop hand rest
    rw [hread]
    constructor
    · rintro ⟨relations, hrelations, -⟩
      cases hrelations
    · exact fun h => absurd h.no_text htext

theorem wellBounded_of_tightest {es : List (Expression F)}
    (hbounds : ∀ e ∈ es, e.column ∈ d.indexedOn ∧ (e.op = ['>'] ∨ e.op = ['<']))
    (hnumbers : ∀ e ∈ es, ∃ v q, e.value = .scalar v ∧ N.constant d.toNumericDict e.column v = some q ∧
      (e.op = ['>'] → ∃ lower, boundNumber N d e.column (lastBound ['>'] es e.column) = some lower ∧ q ≤ lower) ∧
      (e.op = ['<'] → ∃ upper, boundNumber N d e.column (lastBound ['<'] es e.column) = some upper ∧ upper ≤ q))
    (hboth : ∀ col ∈ d.indexedOn, (lastBound ['>'] es col).isSome = true ∧ (lastBound ['<'] es col).isSome = true) :
    WellBounded rows es := by
  have hnumber {op : Str} {col : Str} (hlast : (lastBound op es col).isSome = true) :
      ∃ e ∈ es, e.column = col ∧ e.op = op := by
    rw [lastBound, Option.isSome_map] at hlast
    obtain ⟨e, he⟩ := Option.isSome_iff_exists.mp hlast
    exact ⟨e, lastExpression_spec he⟩
  refine ⟨fun e he => ?_, fun col hcol => ?_, fun col hcol => ?_, fun row hlast e he _ => ?_⟩
  · obtain ⟨hcol, hop⟩ := hbounds e he
    rcases hop with hop | hop
    · simp [inText, hcol, hop]
    · simp [inText, hcol, hop]
  · obtain ⟨e, he, rfl, hop⟩ := hnumber (hboth col hcol).1
    obtain ⟨v, q, -, -, hgt, -⟩ := hnumbers e he
    obtain ⟨lower, hlower, -⟩ := hgt hop
    exact Option.isSome_iff_exists.mpr ⟨lower, hlower⟩
  · obtain ⟨e, he, rfl, hop⟩ := hnumber (hboth col hcol).2
    obtain ⟨v, q, -, -, -, hlt⟩ := hnumbers e he
    obtain ⟨upper, hupper, -⟩ := hlt hop
    exact Option.isSome_iff_exists.mpr ⟨upper, hupper⟩
  · obtain ⟨hcol, hop⟩ := hbounds e he
    obtain ⟨v, q, hvalue, hq, hgt, hlt⟩ := hnumbers e he
    rcases hop with hop | hop
    · obtain ⟨lower, hlower, hle⟩ := hgt hop
      have hlowest := (satisfies_last rows (c := .gt) rfl hcol hlower row).mpr fun e' he' => hlast _ hcol e' (.inl he')
      refine (rows.satisfies_iff row e v q .gt hcol hvalue hq (congrArg some hop.symm)).mpr ?_
      simp only [CompareOp.holds, decide_eq_true_eq] at hlowest ⊢
      exact lt_of_le_of_lt hle hlowest
    · obtain ⟨upper, hupper, hle⟩ := hlt hop
      have hhighest := (satisfies_last rows (c := .lt) rfl hcol hupper row).mpr fun e' he' => hlast _ hcol e' (.inr he')
      refine (rows.satisfies_iff row e v q .lt hcol hvalue hq (congrArg some hop.symm)).mpr ?_
      simp only [CompareOp.holds, decide_eq_true_eq] at hhighest ⊢
      exact lt_of_lt_of_le hhighest hle

end kept

section integers

def readInteger : Str → Option ℚ
  | '-' :: digits => if digits ≠ [] ∧ digits.all Char.isDigit then some (-(Nat.ofDigitChars 10 digits 0 : ℤ)) else none
  | digits => if digits ≠ [] ∧ digits.all Char.isDigit then some (Nat.ofDigitChars 10 digits 0 : ℤ) else none

theorem readInteger_intText (n : Int) : readInteger (intText n) = some n := by
  have hdigits (m : Nat) : Nat.toDigits 10 m ≠ [] ∧ (Nat.toDigits 10 m).all Char.isDigit = true :=
    ⟨Nat.toDigits_ne_nil, List.all_eq_true.mpr fun c hc => Nat.isDigit_of_mem_toDigits (by decide) (by decide) hc⟩
  cases n with
  | ofNat m =>
    rw [intText, readInteger, if_pos (hdigits m), Nat.ofDigitChars_ten_toDigits]
    · rfl
    · intro rest hrest
      have hminus := (List.all_eq_true.mp (hdigits m).2) '-' (hrest ▸ List.mem_cons_self)
      cases hminus
  | negSucc m =>
    rw [intText, readInteger, if_pos (hdigits (m + 1)), Nat.ofDigitChars_ten_toDigits]
    rfl

def indexedDict : IndexedDict where
  toNumericDict := integerDict
  ksp := "k".toList
  table := "t".toList
  indexedOn := [['a']]
  indexed := by decide
  distinct := by decide
  columns_of := by decide
  words := by decide

def integerConstants : CqlConstants integerNumbers indexedDict where
  constant _ := readInteger
  constant_scalar col v hv := by
    cases v with
    | str s => exact absurd rfl (hv s)
    | int n => exact readInteger_intText n
    | float x => exact x.elim
    | bool b =>
      cases b with
      | false => rfl
      | true => rfl
  constant_none _ := rfl
  float_word := nofun

def integerRows : IndexedRows integerNumbers indexedDict where
  Row := Str → ℤ
  number row col := row col
  Satisfies row e := ∃ v q op, e.value = .scalar v ∧ integerNumbers.constant indexedDict.toNumericDict e.column v = some q ∧
    CompareOp.comparator op = some e.op ∧ op.holds (row e.column) (.rational q) = true
  satisfies_iff row e v q op _ hv hq hop := by
    constructor
    · rintro ⟨v', q', op', hv', hq', hop', hholds⟩
      obtain rfl := Item.scalar.inj (hv.symm.trans hv')
      obtain rfl := Option.some.inj (hq.symm.trans hq')
      rwa [Option.some.inj ((CompareOp.find_comparator hop).symm.trans (CompareOp.find_comparator hop'))]
    · exact fun hholds => ⟨v, q, op, hv, hq, hop, hholds⟩

def boundedFilter : IndexedFilter Empty indexedDict where
  expressions := [⟨['a'], ['>'], .scalar (.int 1), .inl rfl⟩, ⟨['a'], ['<'], .scalar (.int 5), .inl rfl⟩]
  known := by decide

def integerDriver : QbeastDriver Empty where
  packsDouble v := match v with
    | .scalar (.int _) => true
    | _ => false
  packsFloat _ := false
  refusal := []
  numbers_str _ := rfl
  numbers_sequence _ _ := rfl

/-- The row of the StorageDict, under the hash of its name. -/
def indexedWorld : IStorageWorld Str where
  executionName := "my_app".toList
  storageIdFromName name := name
  getIstorageAttrs id := if id = "k.t".toList then [⟨some "k.t".toList, "k.t".toList, [(-9, 9)]⟩] else []
  ring := [(-9, 9)]

/-- No condition is sent for two bounds of an indexed column. -/
theorem bounded_filter_not_sent : ¬ ∀ f : IndexedFilter Empty indexedDict,
    KeepsConditions indexedWorld integerDriver integerConstants integerRows f := by
  intro h
  obtain ⟨it, hit, -⟩ := h boundedFilter
  have hraises : hfilterIndexed indexedWorld integerPython integerDriver indexedDict boundedFilter.expressions =
      .error ⟨"AlreadyPersistentError",
        "This Object is already persistent [Before:k.t][After:k.t]".toList⟩ := by rfl
  rw [hraises] at hit
  cases hit

def mixedFilter : IndexedFilter Empty indexedDict where
  expressions := [⟨['a'], ['>'], .scalar (.int 1), .inl rfl⟩, ⟨['a'], ['<'], .scalar (.int 5), .inl rfl⟩,
    ⟨['b'], ['>', '='], .scalar (.int 2), .inl rfl⟩]
  known := by decide

example : iterConditions integerPython indexedDict (metaOf integerPython indexedDict mixedFilter.expressions) =
    "a > 1 AND a < 5b >= 2".toList := by decide

end integers

end LambdaFilter

end Hecuba
