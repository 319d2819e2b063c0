import Hecuba.FaithfulValues

/-! The tuples that come back from a column as they went in, and with them the values of any
column. -/

namespace Hecuba

namespace ScalarType

variable {type : ScalarType} {v : PyValue}

theorem Overruns.not_rejects (h : type.Overruns v) : ¬ type.Rejects v := by
  obtain ⟨rfl, n, hn, hfits⟩ := h
  exact fun hr => hr n hn hfits

theorem Keeps.not_overruns (h : type.Keeps v) : ¬ type.Overruns v := by
  rintro ⟨rfl, -⟩
  exact h

theorem Keeps.not_rejects (h : type.Keeps v) : ¬ type.Rejects v := by
  intro hr
  cases type with
  | tinyInt => exact h
  | smallInt =>
    obtain ⟨n, rfl, hfits⟩ := h
    exact hr n rfl hfits
  | int =>
    obtain ⟨n, rfl, hfits⟩ := h
    exact hr n rfl hfits
  | bigint =>
    obtain ⟨n, rfl, -⟩ := h
    cases hr
  | boolean =>
    obtain ⟨b, rfl⟩ := h
    exact hr b rfl
  | text =>
    obtain ⟨chars, rfl, -⟩ := h
    obtain ⟨n, hn⟩ := hr _ _ rfl
    simp at hn
  | blob => exact h
  | time =>
    obtain ⟨t, rfl, -⟩ := h
    exact hr t rfl

end ScalarType

namespace Component

/-- The component is inside a payload of `n` bytes. -/
def Inside (n : Nat) (c : Component) : Prop := c.position + c.type.size ≤ n

def Covers (c : Component) (p : Nat) : Prop := c.position ≤ p ∧ p < c.position + c.type.size

def Rejects (n : Nat) (c : Component) (v : PyValue) : Prop := v ≠ .none ∧ c.Inside n ∧ c.type.Rejects v

def Overruns (n : Nat) (c : Component) (v : PyValue) : Prop := v ≠ .none ∧ (¬ c.Inside n ∨ c.type.Overruns v)

def Keeps (n : Nat) (c : Component) (v : PyValue) : Prop := v = .none ∨ c.Inside n ∧ c.type.Keeps v

/-- The parser of the component stores the value, as itself or not. -/
def Stores (n : Nat) (c : Component) (v : PyValue) : Prop :=
  v = .none ∨ c.Inside n ∧ ¬ c.type.Rejects v ∧ ¬ c.type.Overruns v

end Component

/-- A component rejects its element, and none before it writes outside its memory. -/
def RejectsFrom (n : Nat) : List Component → List PyValue → Prop
  | c :: components, v :: elements => c.Rejects n v ∨ ¬ c.Overruns n v ∧ RejectsFrom n components elements
  | _, _ => False

/-- No byte belongs to two elements, unless one of them is None. -/
def ElementsApart (entries : List (Component × PyValue)) : Prop :=
  entries.Pairwise fun a b => a.2 = .none ∨ b.2 = .none ∨ ∀ p, a.1.Covers p → ¬ b.1.Covers p

namespace TupleParser

/-- What the loop has left in the row. -/
structure Filled (n i : Nat) (components : List Component) (elements : List PyValue) (heap new : Heap)
    (row row' : TupleRowData) : Prop where
  metadatas : row'.metadatas = row.metadatas
  words : row'.nullValues.length = row.nullValues.length
  length : row'.data.length = n
  stores : List.Forall₂ (Component.Stores n) components elements
  null : ∀ j, j / 32 < row.nullValues.length →
    (row'.isNull j = true ↔ row.isNull j = true ∨ i ≤ j ∧ elements[j - i]? = some .none)
  frame : ∀ p, (∀ e ∈ components.zip elements, e.2 = .none ∨ ¬ e.1.Covers p) → row'.data[p]? = row.data[p]?
  read : ElementsApart (components.zip elements) → ∀ e ∈ components.zip elements, e.2 ≠ .none →
    ∃ cells, load row'.data e.1.position e.1.type.size = .ok cells ∧
      (e.1.type.Keeps e.2 → ∀ H, heap ++ new <+: H → e.1.type.cToPy H cells = .ok e.2)

/-- How the loop ends. -/
inductive LoopEnds (n i : Nat) (components : List Component) (elements : List PyValue) (heap : Heap)
    (row : TupleRowData) : Except ParserFault (Heap × TupleRowData) → Prop
  | rejected {e : ParserFault} (h : RejectsFrom n components elements) (he : e ≠ .fault .outOfBounds) :
      LoopEnds n i components elements heap row (.error e)
  | overrun (h : ¬ List.Forall₂ (Component.Stores n) components elements) (h' : ¬ RejectsFrom n components elements) :
      LoopEnds n i components elements heap row (.error (.fault .outOfBounds))
  | filled {new : Heap} {row' : TupleRowData} (h : Filled n i components elements heap new row row') :
      LoopEnds n i components elements heap row (.ok (heap ++ new, row'))

section loop

variable {n i : Nat} {c : Component} {components : List Component} {elements : List PyValue} {heap new new' : Heap}
  {row row' : TupleRowData}

theorem none_cons_iff {v : PyValue} {j : Nat} : (i ≤ j ∧ (v :: elements)[j - i]? = some .none) ↔
    (j = i ∧ v = .none) ∨ i + 1 ≤ j ∧ elements[j - (i + 1)]? = some .none := by
  by_cases hji : j = i
  · subst hji
    simp
  · by_cases hle : i + 1 ≤ j
    · rw [show j - i = j - (i + 1) + 1 by omega, List.getElem?_cons_succ]
      simp [hji, hle, show i ≤ j by omega]
    · simp [hji, hle, show ¬ i ≤ j by omega]

theorem Filled.nil (hlen : row.data.length = n) : Filled n i [] [] heap [] row row where
  metadatas := rfl
  words := rfl
  length := hlen
  stores := .nil
  null j _ := by simp
  frame _ _ := rfl
  read _ e he := by simp at he

theorem Filled.cons_none (h : Filled n (i + 1) components elements heap new (row.setNull i) row') :
    Filled n i (c :: components) (.none :: elements) heap new row row' := by
  obtain ⟨hwords, hmetas⟩ := setNull_shape row i
  have hdata : (row.setNull i).data = row.data := by
    unfold TupleRowData.setNull
    split
    · rfl
    · rfl
  refine ⟨h.metadatas.trans hmetas, h.words.trans hwords, h.length, .cons (.inl rfl) h.stores, fun j hj => ?_,
    fun p hp => ?_, fun hapart e he hne => ?_⟩
  · have hone : (row.setNull i).isNull j = (row.isNull j || decide (j ∈ [i])) :=
      @isNull_foldl_setNull [i] row j hj
    rw [h.null j (hwords ▸ hj), hone, Bool.or_eq_true, decide_eq_true_eq, List.mem_singleton, or_assoc, none_cons_iff]
    simp only [and_true]
  · rw [h.frame p fun e he => hp e (List.mem_cons_of_mem _ he), hdata]
  · rcases List.mem_cons.mp he with rfl | he
    · exact absurd rfl hne
    · exact h.read (List.pairwise_cons.mp hapart).2 e he hne

theorem Filled.cons_value {v : PyValue} {payload : List Cell} {data : List Cell} (hv : v ≠ .none)
    (hinside : c.Inside n) (hrejects : ¬ c.type.Rejects v) (hoverruns : ¬ c.type.Overruns v)
    (hpayload : payload.length = c.type.size) (hstore : store row.data c.position payload = .ok data)
    (hread : c.type.Keeps v → ∀ H, heap ++ new <+: H → c.type.cToPy H payload = .ok v)
    (h : Filled n (i + 1) components elements (heap ++ new) new' { row with data } row') :
    Filled n i (c :: components) (v :: elements) heap (new ++ new') row row' := by
  obtain ⟨-, -, hget⟩ := store_getElem? hstore
  refine ⟨h.metadatas, h.words, h.length, .cons (.inr ⟨hinside, hrejects, hoverruns⟩) h.stores, fun j hj => ?_,
    fun p hp => ?_, fun hapart e he hne => ?_⟩
  · have hsame : ({ row with data } : TupleRowData).isNull j = row.isNull j := rfl
    rw [h.null j hj, hsame, none_cons_iff]
    simp only [hv, and_false, false_or]
  · rw [h.frame p fun e he => hp e (List.mem_cons_of_mem _ he), hget, if_neg]
    rintro ⟨hle, hlt⟩
    rcases hp (c, v) List.mem_cons_self with hnone | hcovers
    · exact hv hnone
    · exact hcovers ⟨hle, hpayload ▸ hlt⟩
  · obtain ⟨hfirst, hrest⟩ := List.pairwise_cons.mp hapart
    rcases List.mem_cons.mp he with rfl | he
    · refine ⟨payload, ?_, fun hkeeps H hH => hread hkeeps H (.trans (List.prefix_append _ _) (List.append_assoc _ _ _ ▸ hH))⟩
      dsimp only
      rw [← hpayload]
      have hroom : c.position + payload.length ≤ row'.data.length := by
        rw [h.length, hpayload]
        exact hinside
      refine load_of_getElem? (fun k hk => ?_) hroom
      have hcovers : c.Covers (c.position + k) := ⟨by omega, by omega⟩
      rw [h.frame _ fun e he => ?_, hget, if_pos ⟨by omega, by omega⟩, Nat.add_sub_cancel_left]
      rcases hfirst e he with hnone | hnone | hdisjoint
      · exact absurd hnone hv
      · exact .inl hnone
      · exact .inr (hdisjoint _ hcovers)
    · obtain ⟨cells, hload, hback⟩ := h.read hrest e he hne
      exact ⟨cells, hload, fun hkeeps H hH => hback hkeeps H (by rwa [List.append_assoc])⟩

theorem LoopEnds.cons_none {run : Except ParserFault (Heap × TupleRowData)}
    (h : LoopEnds n (i + 1) components elements heap (row.setNull i) run) :
    LoopEnds n i (c :: components) (.none :: elements) heap row run := by
  have hno : ¬ c.Overruns n .none := fun h => h.1 rfl
  cases h with
  | rejected h he => exact .rejected (.inr ⟨hno, h⟩) he
  | overrun h h' =>
    refine .overrun (fun hall => h (List.forall₂_cons.mp hall).2) ?_
    rintro (hrejects | ⟨-, hrest⟩)
    · exact hrejects.1 rfl
    · exact h' hrest
  | filled h => exact .filled h.cons_none

theorem LoopEnds.cons_outside {v : PyValue} (hv : v ≠ .none) (hinside : ¬ c.Inside n) :
    LoopEnds n i (c :: components) (v :: elements) heap row (.error (.fault .outOfBounds)) := by
  refine .overrun (fun hall => ?_) ?_
  · rcases (List.forall₂_cons.mp hall).1 with hnone | ⟨hin, -⟩
    · exact hv hnone
    · exact hinside hin
  · rintro (hrejects | ⟨hoverruns, -⟩)
    · exact hinside hrejects.2.1
    · exact hoverruns ⟨hv, .inl hinside⟩

theorem LoopEnds.cons_overrun {v : PyValue} (hv : v ≠ .none) (h : c.type.Overruns v) :
    LoopEnds n i (c :: components) (v :: elements) heap row (.error (.fault .outOfBounds)) := by
  refine .overrun (fun hall => ?_) ?_
  · rcases (List.forall₂_cons.mp hall).1 with hnone | ⟨-, -, hoverruns⟩
    · exact hv hnone
    · exact hoverruns h
  · rintro (hrejects | ⟨hoverruns, -⟩)
    · exact h.not_rejects hrejects.2.2
    · exact hoverruns ⟨hv, .inr h⟩

theorem LoopEnds.cons_value {v : PyValue} {payload : List Cell} {data : List Cell} (hv : v ≠ .none)
    (hinside : c.Inside n) (hrejects : ¬ c.type.Rejects v) (hoverruns : ¬ c.type.Overruns v)
    (hpayload : payload.length = c.type.size) (hstore : store row.data c.position payload = .ok data)
    (hread : c.type.Keeps v → ∀ H, heap ++ new <+: H → c.type.cToPy H payload = .ok v)
    {run : Except ParserFault (Heap × TupleRowData)}
    (h : LoopEnds n (i + 1) components elements (heap ++ new) { row with data } run) :
    LoopEnds n i (c :: components) (v :: elements) heap row run := by
  cases h with
  | rejected h he =>
    refine .rejected (.inr ⟨?_, h⟩) he
    rintro ⟨-, hout | hover⟩
    · exact hout hinside
    · exact hoverruns hover
  | overrun h h' =>
    refine .overrun (fun hall => h (List.forall₂_cons.mp hall).2) ?_
    rintro (hr | ⟨-, hrest⟩)
    · exact hrejects hr.2.2
    · exact h' hrest
  | @filled new' row' h =>
    have hfilled := Filled.cons_value hv hinside hrejects hoverruns hpayload hstore hread h
    rw [List.append_assoc]
    exact .filled hfilled

theorem elementsToC_ends (junk : Nat → Nat → UInt8) (hlen : components.length = elements.length) (i : Nat) (heap : Heap)
    (hdata : row.data.length = n) :
    LoopEnds n i components elements heap row (elementsToC junk components elements i heap row) := by
  induction elements generalizing components i heap row with
  | nil =>
    obtain rfl := List.eq_nil_of_length_eq_zero hlen
    have hnil : LoopEnds n i [] [] heap row (.ok (heap ++ [], row)) := .filled (.nil hdata)
    rwa [List.append_nil] at hnil
  | cons v elements ih =>
    obtain ⟨c, components, rfl⟩ := List.exists_cons_of_length_eq_add_one hlen
    have hlen' : components.length = elements.length := Nat.succ.inj hlen
    by_cases hv : v = .none
    · subst hv
      have hset : (row.setNull i).data.length = n := by
        unfold TupleRowData.setNull
        split
        · exact hdata
        · exact hdata
      rw [elementsToC]
      exact (ih hlen' (i + 1) heap hset).cons_none
    · by_cases hinside : c.Inside n
      · obtain ⟨destiny, hload⟩ : ∃ destiny, load row.data c.position c.type.size = .ok destiny :=
          ⟨_, if_pos (hdata.symm ▸ hinside)⟩
        have hparser := c.type.pyToC_ends junk heap hv (load_spec hload).2.2
        rw [elementsToC, hload, access_ok, ParserFault.ok_bind]
        · generalize c.type.pyToC junk heap v destiny = parsed at hparser ⊢
          cases hparser with
          | rejected h he => exact .rejected (.inl ⟨hv, hinside, h⟩) he
          | overrun h => exact .cons_overrun hv h
          | @stored new payload hrejects hoverruns hpayload hread =>
            obtain ⟨data, hstore⟩ : ∃ data, store row.data c.position payload = .ok data :=
              ⟨_, if_pos (by rw [hdata, hpayload]; exact hinside)⟩
            have hlength : data.length = n := (store_getElem? hstore).2.1.trans hdata
            have hrest := @ih components { row with data } hlen' (i + 1) (heap ++ new) hlength
            rw [ParserFault.ok_bind, hstore, access_ok, ParserFault.ok_bind]
            exact hrest.cons_value hv hinside hrejects hoverruns hpayload hstore hread
        · exact hv
      · have hload : load row.data c.position c.type.size = .error .outOfBounds := if_neg (hdata.symm ▸ hinside)
        rw [elementsToC, hload, access_error, ParserFault.error_bind]
        · exact .cons_outside hv hinside
        · exact hv

theorem elementsToPy_ok (hlen : components.length = elements.length)
    (h : ∀ k c v, components[k]? = some c → elements[k]? = some v → (v = .none ∧ row.getElement (i + k) = none) ∨
      ∃ cells, row.getElement (i + k) = some c.position ∧ load row.data c.position c.type.size = .ok cells ∧
        c.type.cToPy heap cells = .ok v) : elementsToPy heap row components i = .ok elements := by
  induction elements generalizing components i with
  | nil =>
    obtain rfl := List.eq_nil_of_length_eq_zero hlen
    rfl
  | cons v elements ih =>
    obtain ⟨c, components, rfl⟩ := List.exists_cons_of_length_eq_add_one hlen
    have hrest := ih (Nat.succ.inj hlen) fun k c' v' hc' hv' => by
      have hh := h (k + 1) c' v' (by simpa using hc') (by simpa using hv')
      rwa [show i + (k + 1) = i + 1 + k by omega] at hh
    rcases h 0 c v rfl rfl with ⟨rfl, hnull⟩ | ⟨cells, hplace, hload, hread⟩
    · rw [Nat.add_zero] at hnull
      rw [elementsToPy, elementToPy, hnull]
      dsimp only
      rw [ParserFault.ok_bind, hrest]
      rfl
    · rw [Nat.add_zero] at hplace
      rw [elementsToPy, elementToPy, hplace]
      dsimp only
      rw [hload, access_ok, ParserFault.ok_bind, hread, ParserFault.ok_bind, hrest]
      rfl

theorem of_elementsToPy (h : elementsToPy heap row components i = .ok elements) :
    List.Forall₂ (fun c v => v = .none ∨ ∃ cells, c.type.cToPy heap cells = .ok v) components elements := by
  induction components generalizing i elements with
  | nil =>
    obtain rfl := Except.ok.inj h
    exact .nil
  | cons c components ih =>
    rw [elementsToPy] at h
    obtain ⟨v, hv, hothers⟩ := bind_ok_iff.mp h
    obtain ⟨rest, hrest, hcons⟩ := bind_ok_iff.mp hothers
    obtain rfl := Except.ok.inj hcons
    refine .cons ?_ (ih hrest)
    unfold elementToPy at hv
    split at hv
    · exact .inl (Except.ok.inj hv).symm
    · obtain ⟨cells, -, hread⟩ := bind_ok_iff.mp hv
      exact .inr ⟨cells, hread⟩

end loop

theorem componentsFrom_length (types : List ScalarType) (offset : Nat) :
    (componentsFrom offset types).length = types.length := by
  induction types generalizing offset with
  | nil => rfl
  | cons type types ih => rw [componentsFrom, List.length_cons, ih, List.length_cons]

end TupleParser

namespace ColumnType

/-- The parser of the column reports an error. -/
def Rejects : ColumnType → PyValue → Prop
  | .scalar type, v => v = .none ∨ type.Rejects v
  | .tuple types, v => ∀ elements exact, v = .tuple elements exact → elements.length = types.length →
      RejectsFrom (TupleParser.totalMalloc types) (componentsFrom 0 types) elements

/-- The column can give the value back as it is. -/
def Keeps : ColumnType → PyValue → Prop
  | .scalar type, v => type.Keeps v
  | .tuple types, v => ∃ elements, v = .tuple elements true ∧
      List.Forall₂ (Component.Keeps (TupleParser.totalMalloc types)) (componentsFrom 0 types) elements

/-- The elements of a tuple have bytes of their own. -/
def Apart : ColumnType → PyValue → Prop
  | .scalar _, _ => True
  | .tuple types, v => ∀ elements exact, v = .tuple elements exact →
      ElementsApart ((componentsFrom 0 types).zip elements)

end ColumnType

/-- The value is rejected, or it comes back from the payload as it was, with no write outside the
memory of the parser. -/
def StoredFaithfully (type : ColumnType) (v : PyValue) : Prop :=
  ∀ (junk : Nat → Nat → UInt8) (heap : Heap) (payload : List Cell), payload.length = type.size →
    match type.pyToC junk heap v payload with
    | .error e => e ≠ .fault .outOfBounds
    | .ok parsed => parsed.code ≠ 0 ∨ type.cToPy parsed.heap parsed.payload = .ok v

theorem scalar_storedFaithfully_iff (type : ScalarType) (v : PyValue) :
    StoredFaithfully (.scalar type) v ↔ v = .none ∨ type.Rejects v ∨ type.Keeps v := by
  by_cases hv : v = .none
  · subst hv
    refine iff_of_true (fun junk heap payload _ => ?_) (.inl rfl)
    rw [ColumnType.pyToC, type.pyToC_none junk heap payload]
    exact .inl (by simp)
  · constructor
    · intro h
      have hlen : (List.replicate type.size (Cell.byte 0)).length = type.size := List.length_replicate
      have hparser := type.pyToC_ends (fun _ _ => 0) [] hv hlen
      have hfaithful := h (fun _ _ => 0) [] _ hlen
      rw [ColumnType.pyToC] at hfaithful
      generalize type.pyToC _ _ _ _ = parsed at hparser hfaithful
      cases hparser with
      | rejected hrejects => exact .inr (.inl hrejects)
      | overrun => exact absurd rfl hfaithful
      | stored hrejects hoverruns =>
        rcases hfaithful with hcode | hread
        · exact absurd rfl hcode
        · exact .inr (.inr (ScalarType.keeps_of_read hread hrejects hoverruns))
    · intro h junk heap payload hlen
      have hparser := type.pyToC_ends junk heap hv hlen
      rw [ColumnType.pyToC]
      generalize type.pyToC junk heap v payload = parsed at hparser
      cases hparser with
      | rejected _ he => exact he
      | overrun hover =>
        rcases h with hnone | hrej | hkeeps
        · exact absurd hnone hv
        · exact absurd hrej hover.not_rejects
        · exact absurd hover hkeeps.not_overruns
      | stored hrejects hoverruns _ hread =>
        rcases h with hnone | hrej | hkeeps
        · exact absurd hnone hv
        · exact absurd hrej hrejects
        · exact .inr (hread hkeeps _ (List.prefix_refl _))

namespace TupleParser

variable {types : List ScalarType} {elements : List PyValue} {exact : Bool}

theorem loop_ends (hlen : elements.length = types.length) (junk : Nat → Nat → UInt8) (heap : Heap) :
    LoopEnds (totalMalloc types) 0 (componentsFrom 0 types) elements heap (newRow junk types heap)
      (elementsToC (fun k => junk (k + 1)) (componentsFrom 0 types) elements 0 heap (newRow junk types heap)) :=
  elementsToC_ends _ (by rw [componentsFrom_length, hlen]) 0 heap (uninitialised_length ..)

theorem pyToC_tuple (hlen : elements.length = types.length) (junk : Nat → Nat → UInt8) (heap : Heap)
    {payload : List Cell} (hpayload : payload.length = 8) :
    pyToC junk types heap (.tuple elements exact) payload = (do
      let (heap, row) ← elementsToC (fun k => junk (k + 1)) (componentsFrom 0 types) elements 0 heap
        (newRow junk types heap)
      return ⟨0, heap ++ [.tupleRow row], pointerCells heap.length⟩) := by
  have hwrite (heap : Heap) : store payload 0 (pointerCells heap.length) = .ok (pointerCells heap.length) :=
    store_whole_cells (by simp [hpayload])
  rw [pyToC, if_neg (by simp [hlen])]
  simp only [hwrite]
  rfl

/-- A tuple that the loop has filled in is read back when it keeps its elements. -/
theorem cToPy_filled {junk : Nat → Nat → UInt8} {heap new : Heap} {row' : TupleRowData}
    (hfilled : Filled (totalMalloc types) 0 (componentsFrom 0 types) elements heap new (newRow junk types heap) row')
    (hkeeps : List.Forall₂ (Component.Keeps (totalMalloc types)) (componentsFrom 0 types) elements)
    (hapart : ElementsApart ((componentsFrom 0 types).zip elements)) :
    cToPy types (heap ++ new ++ [.tupleRow row']) (pointerCells (heap ++ new).length) = .ok (.tuple elements true) := by
  have hrow : (loadPointer (pointerCells (heap ++ new).length) 0 >>= derefRow (heap ++ new ++ [.tupleRow row'])) =
      .ok row' := by
    rw [loadPointer, load_self (pointerCells_length _), ok_bind, addressOf_pointerCells, ok_bind, derefRow]
    simp
  have helements : elementsToPy (heap ++ new ++ [.tupleRow row']) row' (componentsFrom 0 types) 0 = .ok elements := by
    refine elementsToPy_ok hkeeps.length_eq fun k c v hc hv => ?_
    have hk : k < ((componentsFrom 0 types).map Component.meta).length := by
      rw [List.length_map]
      exact (List.getElem?_eq_some_iff.mp hc).1
    have hnull := hfilled.null k (by
      rw [newRow, makeTuple, List.length_replicate]
      exact div_lt_wordsFor hk)
    rw [newRow, isNull_makeTuple _ hk, Nat.sub_zero, hv] at hnull
    have hplace : row'.metadatas[k]?.map ColumnMeta.position = some c.position := by
      rw [hfilled.metadatas, newRow, makeTuple, List.getElem?_map, hc]
      rfl
    rw [Nat.zero_add, TupleRowData.getElement, hplace]
    by_cases hnone : v = .none
    · rw [if_pos (hnull.mpr (.inr ⟨Nat.zero_le k, congrArg some hnone⟩))]
      exact .inl ⟨hnone, rfl⟩
    · have hmem : (c, v) ∈ (componentsFrom 0 types).zip elements := by
        refine List.mem_of_getElem? (i := k) ?_
        rw [List.getElem?_zip_eq_some]
        exact ⟨hc, hv⟩
      have hnull' : row'.isNull k ≠ true := by
        rw [Ne, hnull]
        rintro (hfalse | ⟨-, hsome⟩)
        · cases hfalse
        · exact hnone (Option.some.inj hsome)
      obtain ⟨cells, hload, hread⟩ := hfilled.read hapart _ hmem hnone
      rw [if_neg hnull']
      refine .inr ⟨cells, rfl, hload, hread ?_ _ (List.prefix_append _ _)⟩
      have hboth := List.forall₂_iff_zip.mp hkeeps
      rcases hboth.2 hmem with hv' | ⟨-, hkeep⟩
      · exact absurd hv' hnone
      · exact hkeep
  rw [cToPy, hrow, access_ok, ParserFault.ok_bind, helements]
  rfl

theorem not_rejectsFrom {n : Nat} {components : List Component}
    (h : List.Forall₂ (Component.Stores n) components elements) : ¬ RejectsFrom n components elements := by
  induction h with
  | nil => exact id
  | cons hstores _ ih =>
    rintro (⟨hv, -, hrejects⟩ | ⟨-, hrest⟩)
    · rcases hstores with hnone | ⟨-, hr, -⟩
      · exact hv hnone
      · exact hr hrejects
    · exact ih hrest

theorem stores_of_keeps {n : Nat} {components : List Component}
    (h : List.Forall₂ (Component.Keeps n) components elements) : List.Forall₂ (Component.Stores n) components elements :=
  h.imp fun _ _ hkeeps => hkeeps.imp_right fun ⟨hinside, hk⟩ => ⟨hinside, hk.not_rejects, hk.not_overruns⟩

theorem keeps_of_read {n : Nat} {components : List Component} {heap : Heap}
    (hread : List.Forall₂ (fun c v => v = .none ∨ ∃ cells, c.type.cToPy heap cells = .ok v) components elements)
    (hstores : List.Forall₂ (Component.Stores n) components elements) :
    List.Forall₂ (Component.Keeps n) components elements := by
  induction hread with
  | nil => exact .nil
  | cons hfirst _ ih =>
    obtain ⟨hstore, hothers⟩ := List.forall₂_cons.mp hstores
    refine .cons ?_ (ih hothers)
    rcases hfirst with hnone | ⟨cells, hcells⟩
    · exact .inl hnone
    · exact hstore.imp_right fun ⟨hinside, hr, ho⟩ => ⟨hinside, ScalarType.keeps_of_read hcells hr ho⟩

theorem storedFaithfully_of_rejects {v : PyValue} (h : (ColumnType.tuple types).Rejects v) :
    StoredFaithfully (.tuple types) v := by
  intro junk heap payload hpayload
  rw [ColumnType.pyToC]
  cases v with
  | tuple elements exact =>
    by_cases hlen : elements.length = types.length
    · have hloop := loop_ends hlen junk heap
      rw [pyToC_tuple hlen junk heap hpayload]
      generalize elementsToC _ _ _ _ _ _ = run at hloop
      cases hloop with
      | rejected _ he => exact he
      | overrun _ hno => exact absurd (h elements exact rfl hlen) hno
      | filled hfilled => exact absurd (h elements exact rfl hlen) (not_rejectsFrom hfilled.stores)
    · rw [pyToC, if_pos hlen]
      exact fun he => by cases he
  | _ => exact fun he => by cases he

theorem storedFaithfully_of_keeps {v : PyValue} (h : (ColumnType.tuple types).Keeps v)
    (hapart : (ColumnType.tuple types).Apart v) : StoredFaithfully (.tuple types) v := by
  obtain ⟨elements, rfl, hkeeps⟩ := h
  intro junk heap payload hpayload
  have hlen : elements.length = types.length := by rw [← hkeeps.length_eq, componentsFrom_length]
  have hloop := loop_ends hlen junk heap
  rw [ColumnType.pyToC, pyToC_tuple hlen junk heap hpayload]
  generalize elementsToC _ _ _ _ _ _ = run at hloop
  cases hloop with
  | rejected hrejects => exact absurd hrejects (not_rejectsFrom (stores_of_keeps hkeeps))
  | overrun hno => exact absurd (stores_of_keeps hkeeps) hno
  | filled hfilled => exact .inr (cToPy_filled hfilled hkeeps (hapart elements true rfl))

theorem rejects_or_keeps {v : PyValue} (h : StoredFaithfully (.tuple types) v) :
    (ColumnType.tuple types).Rejects v ∨ (ColumnType.tuple types).Keeps v := by
  by_cases htuple : ∃ elements exact, v = .tuple elements exact ∧ elements.length = types.length
  · obtain ⟨elements, exact, rfl, hlen⟩ := htuple
    have hpayload : (List.replicate 8 (Cell.byte 0)).length = 8 := List.length_replicate
    have hfaithful := h (fun _ _ => 0) [] _ hpayload
    have hloop := loop_ends hlen (fun _ _ => 0) []
    rw [ColumnType.pyToC, pyToC_tuple hlen _ _ hpayload] at hfaithful
    generalize elementsToC _ _ _ _ _ _ = run at hloop hfaithful
    cases hloop with
    | rejected hrejects =>
      left
      rintro elements' exact' ⟨⟩ -
      exact hrejects
    | overrun => exact absurd rfl hfaithful
    | filled hfilled =>
      rcases hfaithful with hcode | hread
      · exact absurd rfl hcode
      · obtain ⟨row, -, hrow⟩ := bind_ok_iff.mp hread
        obtain ⟨elements', hread', helements⟩ := bind_ok_iff.mp hrow
        cases Except.ok.inj helements
        exact .inr ⟨elements, rfl, keeps_of_read (of_elementsToPy hread') hfilled.stores⟩
  · exact .inl fun elements exact hv hlen => absurd ⟨elements, exact, hv, hlen⟩ htuple

end TupleParser

section columns

variable {type : ColumnType} {v : PyValue}

theorem storedFaithfully_of_condition (h : type.Rejects v ∨ type.Keeps v ∧ type.Apart v) : StoredFaithfully type v := by
  cases type with
  | scalar type =>
    refine (scalar_storedFaithfully_iff type v).mpr ?_
    rcases h with (hnone | hrejects) | ⟨hkeeps, -⟩
    · exact .inl hnone
    · exact .inr (.inl hrejects)
    · exact .inr (.inr hkeeps)
  | tuple types =>
    rcases h with hrejects | ⟨hkeeps, hapart⟩
    · exact TupleParser.storedFaithfully_of_rejects hrejects
    · exact TupleParser.storedFaithfully_of_keeps hkeeps hapart

theorem condition_of_storedFaithfully (h : StoredFaithfully type v) : type.Rejects v ∨ type.Keeps v := by
  cases type with
  | scalar type => exact or_assoc.mpr ((scalar_storedFaithfully_iff type v).mp h)
  | tuple types => exact TupleParser.rejects_or_keeps h

end columns

/-- A value is stored faithfully if the column rejects it, or keeps it and has its elements apart;
and only if the column rejects or keeps it. -/
theorem storedFaithfully_iff (type : ColumnType) (v : PyValue) :
    (type.Rejects v ∨ type.Keeps v ∧ type.Apart v → StoredFaithfully type v) ∧
      (StoredFaithfully type v → type.Rejects v ∨ type.Keeps v) :=
  ⟨storedFaithfully_of_condition, condition_of_storedFaithfully⟩

/-- 2⁶³ into a bigint: `PyArg_Parse` refuses it, and the variable goes to the row as it was. -/
theorem wide_int_not_faithful : ¬ ∀ (type : ColumnType) (v : PyValue), StoredFaithfully type v := by
  intro h
  rcases condition_of_storedFaithfully (h (.scalar .bigint) (.int (2 ^ 63) true)) with hrejects | hkeeps
  · rcases hrejects with hnone | hlong
    · cases hnone
    · cases hlong
  · obtain ⟨n, hn, -, hhigh⟩ := hkeeps
    cases hn
    exact absurd hhigh (by decide)

section narrow

theorem componentsFrom_bounds {types : List ScalarType} {offset : Nat}
    (h : offset + (types.map ScalarType.size).sum < 2 ^ 16) :
    (∀ c ∈ componentsFrom offset types, offset ≤ c.position) ∧
      (componentsFrom offset types).Pairwise fun c c' => c.position + c.type.size ≤ c'.position := by
  induction types generalizing offset with
  | nil => exact ⟨by simp [componentsFrom], .nil⟩
  | cons type types ih =>
    rw [List.map_cons, List.sum_cons] at h
    have hoffset : u16 (offset + type.size) = offset + type.size := Nat.mod_eq_of_lt (by omega)
    obtain ⟨hle, hpairs⟩ := @ih (offset + type.size) (by omega)
    rw [componentsFrom, hoffset]
    refine ⟨fun c hc => ?_, .cons hle hpairs⟩
    rcases List.mem_cons.mp hc with rfl | hc
    · exact Nat.le_refl _
    · exact Nat.le_trans (Nat.le_add_right ..) (hle c hc)

theorem elementsApart_of_narrow {types : List ScalarType} (h : (types.map ScalarType.size).sum < 2 ^ 16) (v : PyValue) :
    (ColumnType.tuple types).Apart v := by
  intro elements exact hv
  have hpairs := (@componentsFrom_bounds types 0 (by omega)).2
  clear hv
  generalize componentsFrom 0 types = components at hpairs
  induction hpairs generalizing elements with
  | nil => exact .nil
  | @cons c components hfirst _ ih =>
    cases elements with
    | nil => exact .nil
    | cons v elements =>
      refine .cons (fun e he => .inr (.inr fun p hp hp' => ?_)) (ih elements)
      have hle := hfirst e.1 (List.of_mem_zip he).1
      have hlt := hp.2
      have hge := hp'.1
      dsimp only at hlt
      omega

/-- Where the 16-bit positions cannot wrap, the condition is exact. -/
theorem storedFaithfully_iff_of_narrow {types : List ScalarType} (h : (types.map ScalarType.size).sum < 2 ^ 16)
    (v : PyValue) : StoredFaithfully (.tuple types) v ↔
      (ColumnType.tuple types).Rejects v ∨ (ColumnType.tuple types).Keeps v :=
  ⟨condition_of_storedFaithfully, fun hcond =>
    storedFaithfully_of_condition (hcond.imp_right fun hkeeps => ⟨hkeeps, elementsApart_of_narrow h v⟩)⟩

end narrow

end Hecuba
