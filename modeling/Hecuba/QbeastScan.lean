import Hecuba.QbeastFilter

/-! The loop over the comparisons of an indexed filter: the points keep the last bound of each
column, and the text keeps the others. -/

namespace Hecuba

namespace LambdaFilter

variable {F : Type} {py : FilterPython F} {d : IndexedDict}

/-- The last comparison of a column with an operator. -/
def lastExpression (op : Str) (es : List (Expression F)) (col : Str) : Option (Expression F) :=
  es.reverse.find? fun e => e.column = col ∧ e.op = op

/-- The bound that the points keep. -/
def lastBound (op : Str) (es : List (Expression F)) (col : Str) : Option (Item F) :=
  (lastExpression op es col).map Expression.value

def isRandom (e : Expression F) : Bool := -1 < firstIndex "random".toList e.column

def lastPrecision (d : IndexedDict) (es : List (Expression F)) : Option (Item F) :=
  (es.reverse.find? fun e => !d.indexedOn.contains e.column && isRandom e).map Expression.value

/-- A comparison that goes to the text. -/
def inText (d : IndexedDict) (e : Expression F) : Bool :=
  if d.indexedOn.contains e.column then e.op ≠ ['>'] && e.op ≠ ['<'] else !isRandom e

/-- What the loop has after some expressions. -/
def scanned (py : FilterPython F) (d : IndexedDict) (es : List (Expression F)) : QbeastScan F where
  nonIndexArguments := (es.filter (inText d)).flatMap (argument py)
  fromP := d.indexedOn.map (lastBound ['>'] es)
  toP := d.indexedOn.map (lastBound ['<'] es)
  precision := lastPrecision d es

/-- A comparison that the filter raises on. -/
def Excluded (d : IndexedDict) (e : Expression F) : Prop := e.column ∈ d.indexedOn ∧ e.op = "in".toList

theorem lastExpression_append (op : Str) (es : List (Expression F)) (e : Expression F) (col : Str) :
    lastExpression op (es ++ [e]) col = if e.column = col ∧ e.op = op then some e else lastExpression op es col := by
  rw [lastExpression, List.reverse_append, List.reverse_singleton, List.singleton_append, List.find?_cons]
  by_cases h : e.column = col ∧ e.op = op
  · simp only [h, and_self, decide_true, if_true]
  · simp only [h, decide_false, if_false]
    rfl

/-- The value of a comparison takes the place of the last one. -/
theorem set_lastBound (d : IndexedDict) {op : Str} (es : List (Expression F)) {e : Expression F}
    (hop : e.op = op) :
    (d.indexedOn.map (lastBound op es)).set (d.indexedOn.idxOf e.column) (some e.value) =
      d.indexedOn.map (lastBound op (es ++ [e])) := by
  apply List.ext_getElem
  · simp
  intro i hi hi'
  have hlt : i < d.indexedOn.length := by simpa using hi'
  rw [List.getElem_set, List.getElem_map, List.getElem_map, lastBound, lastBound, lastExpression_append]
  by_cases h : d.indexedOn.idxOf e.column = i
  · have hget : d.indexedOn[i] = e.column := by
      subst h
      exact List.getElem_idxOf hlt
    rw [if_pos h, if_pos ⟨hget.symm, hop⟩]
    rfl
  · have hget : ¬ (e.column = d.indexedOn[i] ∧ e.op = op) := by
      rintro ⟨heq, -⟩
      apply h
      rw [heq]
      exact d.distinct.idxOf_getElem i hlt
    rw [if_neg h, if_neg hget]

theorem map_lastBound (d : IndexedDict) {op : Str} (es : List (Expression F)) {e : Expression F}
    (h : e.column ∉ d.indexedOn ∨ e.op ≠ op) :
    d.indexedOn.map (lastBound op (es ++ [e])) = d.indexedOn.map (lastBound op es) := by
  apply List.map_congr_left
  intro col hcol
  have hother : ¬ (e.column = col ∧ e.op = op) := by
    rintro ⟨rfl, hop⟩
    exact h.elim (fun hh => hh hcol) fun hh => hh hop
  rw [lastBound, lastBound, lastExpression_append, if_neg hother]

theorem lastPrecision_append (d : IndexedDict) (es : List (Expression F)) (e : Expression F) :
    lastPrecision d (es ++ [e]) =
      if (!d.indexedOn.contains e.column && isRandom e) = true then some e.value else lastPrecision d es := by
  rw [lastPrecision, List.reverse_append, List.reverse_singleton, List.singleton_append, List.find?_cons]
  cases h : !d.indexedOn.contains e.column && isRandom e with
  | true => rfl
  | false => rfl

theorem scanExpression_scanned (py : FilterPython F) (es : List (Expression F)) {e : Expression F} (h : ¬ Excluded d e) :
    scanExpression py d (scanned py d es) e = .ok (scanned py d (es ++ [e])) := by
  have hfilter : (es ++ [e]).filter (inText d) = es.filter (inText d) ++ if inText d e = true then [e] else [] := by
    rw [List.filter_append, List.filter_cons, List.filter_nil]
  unfold scanExpression
  by_cases hcol : e.column ∈ d.indexedOn
  · have hcontains : d.indexedOn.contains e.column = true := by simpa using hcol
    have hprecision : lastPrecision d (es ++ [e]) = lastPrecision d es := by
      rw [lastPrecision_append, hcontains]
      rfl
    rw [if_pos hcontains]
    by_cases hgt : e.op = ['>']
    · have hlt : e.op ≠ ['<'] := by rw [hgt]; decide
      have htext : inText d e = false := by simp [inText, hcol, hgt]
      rw [if_pos hgt]
      simp only [scanned, hfilter, htext, Bool.false_eq_true, if_false, List.append_nil, hprecision,
        set_lastBound d es hgt, map_lastBound d es (.inr hlt)]
    · rw [if_neg hgt]
      by_cases hlt : e.op = ['<']
      · have htext : inText d e = false := by simp [inText, hcol, hlt]
        rw [if_pos hlt]
        simp only [scanned, hfilter, htext, Bool.false_eq_true, if_false, List.append_nil, hprecision,
          set_lastBound d es hlt, map_lastBound d es (.inr hgt)]
      · have hin : e.op ≠ "in".toList := fun hin => h ⟨hcol, hin⟩
        have htext : inText d e = true := by simp [inText, hcol, hlt, hgt]
        rw [if_neg hlt, if_neg hin]
        simp only [scanned, hfilter, htext, if_true, List.flatMap_append, List.flatMap_singleton, hprecision,
          map_lastBound d es (.inr hlt), map_lastBound d es (.inr hgt)]
  · have hcontains : d.indexedOn.contains e.column = false := by simpa using hcol
    rw [if_neg (by rw [hcontains]; exact Bool.false_ne_true)]
    by_cases hrandom : -1 < firstIndex "random".toList e.column
    · have hisRandom : isRandom e = true := decide_eq_true hrandom
      have htext : inText d e = false := by simp [inText, hcol, hisRandom]
      have hprecision : lastPrecision d (es ++ [e]) = some e.value := by
        rw [lastPrecision_append, hcontains, hisRandom]
        rfl
      rw [if_pos hrandom]
      simp only [scanned, hfilter, htext, Bool.false_eq_true, if_false, List.append_nil, hprecision,
        map_lastBound d es (.inl hcol)]
    · have hisRandom : isRandom e = false := decide_eq_false hrandom
      have htext : inText d e = true := by simp [inText, hcol, hisRandom]
      have hprecision : lastPrecision d (es ++ [e]) = lastPrecision d es := by
        rw [lastPrecision_append, hcontains, hisRandom]
        rfl
      rw [if_neg hrandom]
      simp only [scanned, hfilter, htext, if_true, List.flatMap_append, List.flatMap_singleton, hprecision,
        map_lastBound d es (.inl hcol)]

theorem foldlM_scanned (py : FilterPython F) {es : List (Expression F)} (h : ∀ e ∈ es, ¬ Excluded d e) :
    es.foldlM (scanExpression py d) (scanned py d []) = .ok (scanned py d es) := by
  induction es using List.reverseRecOn with
  | nil => rfl
  | append_singleton es e ih =>
    rw [List.foldlM_append, ih fun e' he => h e' (List.mem_append_left _ he)]
    have hstep := scanExpression_scanned py es (h e (List.mem_append_right _ List.mem_cons_self))
    change ([e].foldlM (scanExpression py d) (scanned py d es)) = _
    rw [List.foldlM_cons, hstep]
    rfl

theorem scanExpression_excluded (py : FilterPython F) (s : QbeastScan F) {e : Expression F} (h : Excluded d e) :
    scanExpression py d s e = .error ⟨"Exception", "Cannot use <in> on a QbeastIterator".toList⟩ := by
  obtain ⟨hcol, hop⟩ := h
  have hgt : e.op ≠ ['>'] := by rw [hop]; decide
  have hlt : e.op ≠ ['<'] := by rw [hop]; decide
  rw [scanExpression, if_pos (by simpa using hcol), if_neg hgt, if_neg hlt, if_pos hop]

theorem not_excluded (py : FilterPython F) {es : List (Expression F)} {s s' : QbeastScan F}
    (h : es.foldlM (scanExpression py d) s = .ok s') : ∀ e ∈ es, ¬ Excluded d e := by
  induction es generalizing s with
  | nil => exact fun _ he => by cases he
  | cons e es ih =>
    rw [List.foldlM_cons] at h
    cases hstep : scanExpression py d s e with
    | error exception =>
      rw [hstep] at h
      cases h
    | ok t =>
      rw [hstep] at h
      have hnow : ¬ Excluded d e := fun hex => by
        rw [scanExpression_excluded py s hex] at hstep
        cases hstep
      exact List.forall_mem_cons.mpr ⟨hnow, ih h⟩

/-- The metadata of the iterator of these expressions. -/
def metaOf (py : FilterPython F) (d : IndexedDict) (es : List (Expression F)) : QbeastMeta F :=
  ⟨dropLast 5 ((es.filter (inText d)).flatMap (argument py)), d.indexedOn.map (lastBound ['>'] es),
    d.indexedOn.map (lastBound ['<'] es), lastPrecision d es⟩

/-- The bounds and the precision are stored. -/
def Stored (driver : QbeastDriver F) (d : IndexedDict) (es : List (Expression F)) : Prop :=
  (∀ col ∈ d.indexedOn, ∀ v, lastBound ['>'] es col = some v ∨ lastBound ['<'] es col = some v →
    driver.packsDouble v = true) ∧
    ∀ v, lastPrecision d es = some v → driver.packsFloat v = true

theorem storeMeta_metaOf (py : FilterPython F) (driver : QbeastDriver F) (es : List (Expression F)) :
    storeMeta driver (metaOf py d es) = .ok () ↔ Stored driver d es := by
  have hall : ∀ b : Option (Item F), b.all driver.packsDouble = true ↔ ∀ v, b = some v → driver.packsDouble v = true := by
    intro b
    cases b with
    | none => simp
    | some v => simp
  have hpoints : ((metaOf py d es).fromPoint ++ (metaOf py d es).toPoint).all (fun b => b.all driver.packsDouble) = true ↔
      ∀ col ∈ d.indexedOn, ∀ v, lastBound ['>'] es col = some v ∨ lastBound ['<'] es col = some v →
        driver.packsDouble v = true := by
    simp only [metaOf, List.all_append, Bool.and_eq_true, List.all_eq_true, List.forall_mem_map, hall]
    constructor
    · rintro ⟨hfrom, hto⟩ col hcol v hv
      exact hv.elim (hfrom col hcol v) (hto col hcol v)
    · intro h
      exact ⟨fun col hcol v hv => h col hcol v (.inl hv), fun col hcol v hv => h col hcol v (.inr hv)⟩
  have hprecision : (metaOf py d es).precision.all driver.packsFloat = true ↔
      ∀ v, lastPrecision d es = some v → driver.packsFloat v = true := by
    change (lastPrecision d es).all driver.packsFloat = true ↔ _
    cases lastPrecision d es with
    | none => simp
    | some v => simp
  unfold storeMeta Stored
  rw [← hpoints, ← hprecision, ← Bool.and_eq_true]
  split
  · rename_i h
    exact ⟨fun _ => h, fun _ => rfl⟩
  · rename_i h
    exact ⟨fun hok => (by cases hok), fun hh => absurd hh h⟩

variable {Id : Type} (world : IStorageWorld Id) (driver : QbeastDriver F)

/-- Without `in` on an indexed column, the constructor of the iterator is called with what the loop kept. -/
theorem hfilterIndexed_eq (py : FilterPython F) {es : List (Expression F)} (h : ∀ e ∈ es, ¬ Excluded d e) :
    hfilterIndexed world py driver d es =
      QbeastIterator.init world driver (some (d.ksp ++ '.' :: d.table)) none (metaOf py d es) := by
  have hstart : (⟨[], List.replicate d.indexedOn.length none, List.replicate d.indexedOn.length none, none⟩ : QbeastScan F) =
      scanned py d [] := by
    simp [scanned, lastBound, lastExpression, lastPrecision, ← List.map_const']
  have hfold := foldlM_scanned py h
  rw [← hstart] at hfold
  simp only [hfilterIndexed, hfold]
  rfl

theorem IStorage.makePersistent_named {self : IStorage Id} (hself : self.isPersistent = false) {name : Str}
    (hname : given (some name) = some name) :
    ∃ s, self.makePersistent world (some name) = .ok s ∧ s.isPersistent = true := by
  unfold IStorage.makePersistent
  rw [if_neg (by rw [hself]; exact Bool.false_ne_true), hname]
  exact ⟨_, rfl, rfl⟩

theorem given_given {name : Option Str} {text : Str} (h : given name = some text) : given (some text) = some text := by
  obtain ⟨-, hne⟩ := Option.filter_eq_some_iff.mp h
  exact Option.filter_eq_some_iff.mpr ⟨rfl, hne⟩

theorem IStorage.lookup_spec (name : Option Str) (storageId : Option Id) :
    (IStorage.lookup world name storageId).1.isPersistent = false ∧ (IStorage.lookup world name storageId).1.ksp = none ∧
      ((given name).isSome || storageId.isSome || (IStorage.lookup world name storageId).2.isNone) = true := by
  unfold IStorage.lookup
  cases given name with
  | some text =>
    dsimp only
    split <;> exact ⟨rfl, rfl, rfl⟩
  | none =>
    cases storageId with
    | none => exact ⟨rfl, rfl, rfl⟩
    | some id =>
      dsimp only
      split <;> exact ⟨rfl, rfl, rfl⟩

/-- The constructor of IStorage makes each object persistent that it gives a name. -/
theorem IStorage.init_spec (name : Option Str) (storageId : Option Id) : ∃ s, IStorage.init world name storageId = .ok s ∧
    (s.ksp = none ∨ s.isPersistent = true ∧ ((given name).isSome || storageId.isSome) = true) := by
  obtain ⟨hpersistent, hksp, hgiven⟩ := IStorage.lookup_spec world name storageId
  unfold IStorage.init
  cases hlookup : IStorage.lookup world name storageId with
  | mk self givenName =>
    rw [hlookup] at hpersistent hksp hgiven
    cases hname : given givenName with
    | none => exact ⟨self, by simp only [hname], .inl hksp⟩
    | some text =>
      obtain ⟨s, hs, hnamed⟩ := IStorage.makePersistent_named world hpersistent (given_given hname)
      refine ⟨s, by simpa only [hname] using hs, .inr ⟨hnamed, ?_⟩⟩
      obtain ⟨hsome, -⟩ := Option.filter_eq_some_iff.mp hname
      rwa [hsome, Option.isNone_some, Bool.or_false] at hgiven

theorem IStorage.makePersistent_again {s : IStorage Id} (hpersistent : s.isPersistent = true) (name : Option Str) :
    ∃ e, s.makePersistent world name = .error e ∧ e.cls = "AlreadyPersistentError" :=
  ⟨_, if_pos hpersistent, rfl⟩

/-- The second make_persistent always raises: no iterator is ever made. -/
theorem QbeastIterator.init_raises (name : Option Str) (storageId : Option Id) (m : QbeastMeta F) :
    ∃ e, QbeastIterator.init world driver name storageId m = .error e ∧
      (e.cls = "AlreadyPersistentError" ∨ e.cls = "TypeError") := by
  obtain ⟨s, hs, hspec⟩ := IStorage.init_spec world name storageId
  cases hksp : s.ksp with
  | none =>
    refine ⟨⟨"TypeError", "unsupported operand type(s) for +: 'NoneType' and 'str'".toList⟩, ?_, .inr rfl⟩
    simp only [QbeastIterator.init, hs, bind, Except.bind, hksp]
  | some ksp =>
    obtain ⟨hpersistent, hgiven⟩ := hspec.resolve_left (by rw [hksp]; exact Option.some_ne_none ksp)
    obtain ⟨e, hagain, hcls⟩ := IStorage.makePersistent_again world hpersistent name
    refine ⟨e, ?_, .inl hcls⟩
    simp only [QbeastIterator.init, hs, bind, Except.bind, hksp, hgiven, if_true, QbeastIterator.makePersistent, hagain]

theorem scanExpression_error (py : FilterPython F) {s : QbeastScan F} {x : Expression F} {e : PyException}
    (h : scanExpression py d s x = .error e) : e = ⟨"Exception", "Cannot use <in> on a QbeastIterator".toList⟩ := by
  unfold scanExpression at h
  split at h
  · dsimp only at h
    split at h
    · cases h
    · split at h
      · cases h
      · split at h
        · exact (Except.error.inj h).symm
        · cases h
  · split at h
    · cases h
    · cases h

theorem scan_error (py : FilterPython F) {es : List (Expression F)} {s : QbeastScan F} {e : PyException}
    (h : es.foldlM (scanExpression py d) s = .error e) :
    e = ⟨"Exception", "Cannot use <in> on a QbeastIterator".toList⟩ := by
  induction es generalizing s with
  | nil => cases h
  | cons x es ih =>
    rw [List.foldlM_cons] at h
    cases hstep : scanExpression py d s x with
    | ok t =>
      rw [hstep] at h
      exact ih h
    | error e' =>
      rw [hstep] at h
      obtain rfl : e' = e := Except.error.inj h
      exact scanExpression_error py hstep

/-- A filter on a StorageDict with index always raises, at `in` or when its iterator is made. -/
theorem hfilterIndexed_raises (py : FilterPython F) (es : List (Expression F)) :
    ∃ e, hfilterIndexed world py driver d es = .error e ∧
      (e = ⟨"Exception", "Cannot use <in> on a QbeastIterator".toList⟩ ∧ (∃ x ∈ es, Excluded d x) ∨
        e.cls = "AlreadyPersistentError" ∨ e.cls = "TypeError") := by
  by_cases hexcluded : ∀ e ∈ es, ¬ Excluded d e
  · obtain ⟨e, he, hcls⟩ := QbeastIterator.init_raises world driver (some (d.ksp ++ '.' :: d.table)) none (metaOf py d es)
    exact ⟨e, (hfilterIndexed_eq world driver py hexcluded).trans he, .inr hcls⟩
  · cases hfold : es.foldlM (scanExpression py d) ⟨[], List.replicate d.indexedOn.length none,
        List.replicate d.indexedOn.length none, none⟩ with
    | ok s => exact absurd (not_excluded py hfold) hexcluded
    | error e =>
      refine ⟨e, ?_, .inl ⟨scan_error py hfold, by simpa using hexcluded⟩⟩
      simp only [hfilterIndexed, hfold]
      rfl

end LambdaFilter

end Hecuba
