import Hecuba.AttributeTuples

/-! The iterator over the keys of a StorageDict: the row that the prefetch has read, the key that
is made of it, and what is asked of the dict with that key. -/

namespace Hecuba

/-- A row of the keys, as TupleRowFactory makes it: `slots` has the values of the columns. -/
def keysPayload (t : NamedColumns) (junk : Nat → UInt8) (slots : List (List Cell)) : Except Fault (List Cell) :=
  (t.columns.zip slots).foldlM (fun payload e => store payload e.1.layout.position e.2)
    (byteCells ((List.range (totalBytes (t.columns.map NamedColumn.layout))).map junk))

/-- A `KeyClass`. Its buffer is a block, or a variable of a function that has returned. -/
structure KeyClass where
  values : List AttributeValue
  totalSize : Nat
  valuesBuffer : Option (List Cell)

/-- The constructor from a buffer; `kept` says that the buffer is still there afterwards. -/
def KeyClass.ofBuffer (heap : Heap) (t : NamedColumns) (types : List AttributeType) (keysBuffer : List Cell)
    (kept : Bool) : Except Fault KeyClass := do
  let values ← AttributeClass.setTupleValues heap keysBuffer (types.map .basic) 0
  return ⟨values.map Prod.snd, t.bufferSize .keys, if kept then some keysBuffer else none⟩

def keysIteratorDeref (heap : Heap) (junk : Nat → UInt8) (attributes : List (Str × Str)) (t : NamedColumns)
    (types : List AttributeType) (valueFromQuery : List Cell) : Except Fault (Heap × KeyClass) := do
  let (heap, returned) ← extractMultiValuesFromQueryResult heap junk attributes t .keys valueFromQuery
  if attributes.length = 1 then
    let valueToReturn ← store (byteCells ((List.range (t.bufferSize .keys)).map junk)) 0 returned
    return (heap, ← KeyClass.ofBuffer heap t types valueToReturn true)
  else
    -- the address is written to the local variable, and the key is made of the variable
    let valueToReturn ← store (byteCells ((List.range 8).map junk)) 0 returned
    return (heap, ← KeyClass.ofBuffer heap t types valueToReturn false)

def keytosend (heap : Heap) (junk : Nat → UInt8) (attributes : List (Str × Str)) (t : NamedColumns) (key : KeyClass) :
    Except Fault (Heap × List Cell) :=
  match key.valuesBuffer with
  | none => .error .outOfBounds
  | some buffer => do
    let pendingKeysBuffer ← load buffer 0 key.totalSize
    deepCopyAttributeBuffer heap junk attributes t pendingKeysBuffer (t.bufferSize .keys) t.columns.length

/-- For every row, given by the values of its columns, the key has them in the order of the program, and
the row is the one that the dict is asked for. -/
def KeysYielded (attributes : List (Str × Str)) (t : NamedColumns) (types : List AttributeType) : Prop :=
  ∀ (heap : Heap) (junk : Nat → UInt8) (row : Str → AttributeValue) (slots : List (List Cell)),
    (∀ a ∈ attributes, (row (lowerName a.1)).OfType a.2) →
    List.Forall₂ (fun c cells => TableSlot heap (row c.name) cells) t.columns slots →
    ∃ heap' key heap'' sent,
      (keysPayload t junk slots >>= keysIteratorDeref heap junk attributes t types) = .ok (heap', key) ∧
      key.values = attributes.map (fun a => row (lowerName a.1)) ∧
      keytosend heap' junk attributes t key = .ok (heap'', sent) ∧
      ∀ c ∈ t.columns, ∃ cells, load sent c.layout.position c.layout.size = .ok cells ∧ TableSlot heap'' (row c.name) cells

structure BasicKeys (attributes : List (Str × Str)) (t : NamedColumns) (types : List AttributeType) : Prop where
  same : SameAttributes attributes t .keys
  declared : attributes.map Prod.snd = types.map ObjSpec.cToCass
  nonempty : types ≠ []

section single

variable {attributes : List (Str × Str)} {t : NamedColumns} {types : List AttributeType}

theorem userSlot_iff_tableSlot {heap : Heap} {type : AttributeType} {value : AttributeValue} {cells : List Cell}
    (hvalue : value.OfType (ObjSpec.cToCass type)) : UserSlot heap value cells ↔ TableSlot heap value cells := by
  cases value with
  | basic bytes => exact Iff.rfl
  | text chars => exact Iff.rfl
  | object storageId =>
    obtain ⟨hclass, -⟩ := hvalue
    rw [isBasicType_cToCass] at hclass
    cases hclass

theorem fits_of_single {c : NamedColumn} (h : t.columns = [c]) : FitsIn16Bits t .keys := by
  have hsize : c.layout.size ≤ 8 := computeSizeOf_le (laidOut_size t.laidOut c.layout (by simp [h]))
  refine ⟨by simp [NamedColumns.sizes, h], fun _ => ?_⟩
  rw [NamedColumns.sizesOf, NamedColumns.sizesOf, h]
  cases hc : c.colType <;> simp [hc] <;> omega

theorem store_whole {cells new : List Cell} (h : new.length = cells.length) : store cells 0 new = .ok new := by
  rw [store_front h.le, List.drop_of_length_le h.ge, List.append_nil]

theorem keysYielded_of_single (h : BasicKeys attributes t types) (hone : types.length = 1) :
    KeysYielded attributes t types := by
  intro heap junk row slots hrow hslots
  obtain ⟨type, rfl⟩ := List.length_eq_one_iff.mp hone
  obtain ⟨a, rfl⟩ : ∃ a, attributes = [a] := List.length_eq_one_iff.mp (by
    simpa using congrArg List.length h.declared)
  obtain ⟨c, hc⟩ : ∃ c, t.columns = [c] := List.length_eq_one_iff.mp h.same.length_eq
  have htype : a.2 = ObjSpec.cToCass type := by simpa using h.declared
  obtain ⟨c', hc', hname, hsingle⟩ := h.same.exists_column (a := a) (by simp)
  obtain rfl : c' = c := by simpa [hc] using hc'
  rw [hc] at hslots
  obtain ⟨cells, _, hslot, hnil, rfl⟩ := List.forall₂_cons_left_iff.mp hslots
  obtain rfl := List.forall₂_nil_left_iff.mp hnil
  have hfits := fits_of_single hc
  have hvalue : (row (lowerName a.1)).OfType a.2 := hrow a (by simp)
  rw [hname] at hslot
  have hlen : cells.length = c'.layout.size :=
    Except.ok.inj ((SlotWith.length hslot hvalue).symm.trans (h.same.size (by simp) hsingle))
  have hbuffer : t.bufferSize .keys = cells.length := by
    rw [hfits.bufferSize h.same.colTypes, NamedColumns.sizes, hc, hlen]
    simp
  have hposition : c'.layout.position = 0 := by
    have := t.laidOut
    rw [hc] at this
    exact this.1
  have hpayload : keysPayload t junk [cells] = .ok cells := by
    have htotal : totalBytes (t.columns.map NamedColumn.layout) = cells.length := by
      have hsize : c'.layout.size ≤ 8 := computeSizeOf_le (laidOut_size t.laidOut c'.layout (by simp [hc]))
      rw [hc, hlen]
      simp only [List.map_cons, List.map_nil, totalBytes, List.getLast?_singleton, hposition, u16]
      omega
    rw [keysPayload, htotal, hc]
    simp only [List.zip_cons_cons, List.zip_nil_left, List.foldlM_cons, List.foldlM_nil, hposition]
    rw [store_whole (by simp)]
    rfl
  let entry : AttributeEntry := ⟨a, c'.layout, row (lowerName a.1)⟩
  have hvalid : ∀ e ∈ [entry], e.Valid t := by
    intro e he
    obtain rfl := List.mem_singleton.mp he
    exact ⟨hsingle, hvalue⟩
  have hload : load cells 0 cells.length = .ok cells := load_self rfl
  have hstored : ∀ e ∈ [entry], e.StoredIn heap cells := by
    intro e he
    obtain rfl := List.mem_singleton.mp he
    exact ⟨cells, by rw [hposition, ← hlen, hload], hslot⟩
  obtain ⟨new, returned, hextract, slots, hvalues, hreturned⟩ := h.same.extract_ok hfits rfl hvalid hstored junk
  obtain ⟨cells', _, hslot', hnil, rfl⟩ := List.forall₂_cons_left_iff.mp hvalues
  obtain rfl := List.forall₂_nil_left_iff.mp hnil
  obtain rfl : returned = cells' := by simpa using hreturned
  have hlen' : returned.length = t.bufferSize .keys := by
    rw [hbuffer]
    exact Except.ok.inj ((SlotWith.length hslot' hvalue).symm.trans (SlotWith.length hslot hvalue))
  have htuple : AttributeClass.setTupleValues (heap ++ new) returned [.basic type] 0 =
      .ok [(0, row (lowerName a.1))] := by
    have hobjects : ObjectsLast ([(ApiType.basic type, row (lowerName a.1))].map Prod.fst) := ⟨by simp, by simp⟩
    have hholds : (ApiType.basic type).Holds (heap ++ new) (row (lowerName a.1)) returned := ⟨htype ▸ hvalue, hslot'⟩
    have hall : List.Forall₂ (fun e cells => e.1.Holds (heap ++ new) e.2 cells)
        [(ApiType.basic type, row (lowerName a.1))] [returned] := .cons hholds .nil
    simpa [offsetsFrom] using AttributeClass.setTupleValues_ok hobjects hall [] []
  have hderef : keysIteratorDeref heap junk [a] t [type] cells =
      .ok (heap ++ new, ⟨[row (lowerName a.1)], t.bufferSize .keys, some returned⟩) := by
    rw [keysIteratorDeref, hextract, ok_bind]
    dsimp only
    rw [if_pos List.length_singleton, store_whole (by simpa using hlen'), ok_bind, KeyClass.ofBuffer, List.map_singleton, htuple]
    rfl
  obtain ⟨new', sent, hcopy, hsent⟩ := h.same.deepCopy_ok hfits rfl hvalid
    (.cons ((userSlot_iff_tableSlot (htype ▸ hvalue)).mpr hslot') .nil) junk
  refine ⟨_, _, heap ++ new ++ new', sent, by rw [hpayload]; exact hderef, rfl, ?_, fun c'' hc'' => ?_⟩
  · have hwhole : load returned 0 (t.bufferSize .keys) = .ok returned := load_self hlen'
    simp only [keytosend, hwhole, ok_bind]
    simpa using hcopy
  · obtain rfl : c'' = c' := by simpa [hc] using hc''
    rw [hname]
    exact hsent entry (by simp)

end single

section several

variable {attributes : List (Str × Str)} {t : NamedColumns} {types : List AttributeType}

theorem extractFromQueryResult_store {heap heap' : Heap} {type : Str} {n pos offset : Nat}
    {query valuetmp valuetmp' : List Cell}
    (h : extractFromQueryResult heap type n query pos valuetmp offset = .ok (heap', valuetmp')) :
    ∃ out, store valuetmp offset out = .ok valuetmp' ∧ (type = "text".toList → ∃ address, out = pointerCells address) := by
  unfold extractFromQueryResult at h
  split at h
  · rename_i hclass
    obtain ⟨_, -, h⟩ := bind_eq_ok h
    obtain ⟨_, -, h⟩ := bind_eq_ok h
    obtain ⟨_, -, h⟩ := bind_eq_ok h
    obtain ⟨_, hstore, h⟩ := bind_eq_ok h
    cases h
    exact ⟨_, hstore, fun _ => ⟨_, rfl⟩⟩
  · split at h
    · obtain ⟨_, -, h⟩ := bind_eq_ok h
      obtain ⟨_, -, h⟩ := bind_eq_ok h
      obtain ⟨_, -, h⟩ := bind_eq_ok h
      obtain ⟨_, -, h⟩ := bind_eq_ok h
      obtain ⟨_, hstore, h⟩ := bind_eq_ok h
      cases h
      exact ⟨_, hstore, fun _ => ⟨_, rfl⟩⟩
    · rename_i htext
      obtain ⟨_, -, h⟩ := bind_eq_ok h
      obtain ⟨_, hstore, h⟩ := bind_eq_ok h
      cases h
      exact ⟨_, hstore, fun h => absurd h htext⟩

theorem extractAttributes_frame {query : List Cell} {attributes : List (Str × Str)} {e e' : Extraction}
    (h : extractAttributes t query attributes e = .ok e') {p : Nat} (hp : p < e.offset) :
    e'.valuetmp[p]? = e.valuetmp[p]? := by
  induction attributes generalizing e with
  | nil =>
    cases h
    rfl
  | cons a attributes ih =>
    obtain ⟨c, -, h⟩ := bind_eq_ok h
    obtain ⟨⟨heap, valuetmp⟩, hextract, h⟩ := bind_eq_ok h
    obtain ⟨out, hstore, -⟩ := extractFromQueryResult_store hextract
    rw [ih h (by dsimp only; omega), (store_getElem? hstore).2.2, if_neg (by omega)]

theorem extractAttributes_text_first {query : List Cell} {name : Str} {later : List (Str × Str)} {heap : Heap}
    {valuetmp : List Cell} {attrSize : Nat} {e' : Extraction} (hsize : ∀ c, t.getSingle name = .ok c → 0 < c.size)
    (h : extractAttributes t query ((name, "text".toList) :: later) ⟨heap, valuetmp, 0, attrSize⟩ = .ok e') :
    ∃ address k, e'.valuetmp[0]? = some (.pointer address k) := by
  obtain ⟨c, hc, h⟩ := bind_eq_ok h
  obtain ⟨⟨heap', valuetmp'⟩, hextract, h⟩ := bind_eq_ok h
  obtain ⟨out, hstore, hout⟩ := extractFromQueryResult_store hextract
  obtain ⟨address, rfl⟩ := hout rfl
  have hfirst := extractAttributes_frame h (p := 0) (by simpa using hsize c hc)
  refine ⟨address, 0, ?_⟩
  rw [hfirst, (store_getElem? hstore).2.2, if_pos (by simp)]
  rfl

/-- The address of a block is no value, and neither is a text where the block begins with an address. -/
theorem setTupleValues_of_pointer {heap : Heap} {address : Nat} {type : AttributeType} {types : List AttributeType}
    {values : List (Nat × AttributeValue)}
    (h : AttributeClass.setTupleValues heap (pointerCells address) ((type :: types).map .basic) 0 = .ok values) :
    type = .string ∧ ∃ str b, derefBlock heap address = .ok str ∧ str[0]? = some (.byte b) := by
  obtain ⟨⟨value, tam⟩, hread, -⟩ := bind_eq_ok h
  rw [AttributeClass.setTupleValue, ApiType.valueType, ApiType.sizeOf, if_pos (isBasicType_cToCass type)] at hread
  by_cases htext : ObjSpec.cToCass type = "text".toList
  · rw [if_pos htext] at hread
    obtain ⟨address', hpointer, hread⟩ := bind_eq_ok hread
    obtain ⟨str, hderef, hread⟩ := bind_eq_ok hread
    obtain ⟨n, hstrlen, -⟩ := bind_eq_ok hread
    obtain rfl : address = address' :=
      Except.ok.inj ((loadPointer_of_load (load_pointerCells address)).2.symm.trans hpointer)
    obtain ⟨text, rest, -, -, hstr⟩ := strlen_spec hstrlen
    have hstring : type = .string := by
      cases type <;> first | rfl | exact absurd htext (by decide)
    refine ⟨hstring, str, (cString text).headD 0, hderef, ?_⟩
    rw [hstr]
    cases text <;> rfl
  · rw [if_neg htext] at hread
    obtain ⟨bytes, hload, -⟩ := bind_eq_ok hread
    obtain ⟨cells, hcells, hbytes⟩ := bind_eq_ok hload
    have hfirst : cells[0]? = some (.pointer address 0) := by
      have hpos : 0 < type.sizeOf := by cases type <;> decide
      rw [← getElem?_of_load hcells hpos]
      rfl
    rw [eq_byteCells hbytes] at hfirst
    cases bytes with
    | nil => cases hfirst
    | cons b bytes => cases hfirst

/-- With more than one attribute no key can be made, whatever the row. -/
theorem keysIteratorDeref_several (h : BasicKeys attributes t types) (hseveral : types.length ≠ 1) {heap heap' : Heap}
    {junk : Nat → UInt8} {payload : List Cell} {key : KeyClass} :
    keysIteratorDeref heap junk attributes t types payload ≠ .ok (heap', key) := by
  intro hderef
  have hlen : attributes.length = types.length := by simpa using congrArg List.length h.declared
  obtain ⟨⟨heap₁, returned⟩, hextract, hderef⟩ := bind_eq_ok hderef
  dsimp only at hderef
  rw [if_neg (by omega)] at hderef
  obtain ⟨valueToReturn, hstore, hderef⟩ := bind_eq_ok hderef
  obtain ⟨key', hkey, -⟩ := bind_eq_ok hderef
  obtain ⟨values, htuple, -⟩ := bind_eq_ok hkey
  rw [extractMultiValuesFromQueryResult, if_pos h.same.length_eq.le, h.same.length_eq, List.take_length] at hextract
  obtain ⟨e, hrun, hextract⟩ := bind_eq_ok hextract
  rw [if_neg (by omega)] at hextract
  cases hextract
  rw [store_whole (by simp)] at hstore
  cases hstore
  cases types with
  | nil => exact h.nonempty rfl
  | cons type types =>
    obtain ⟨rfl, str, b, hblock, hstr⟩ := setTupleValues_of_pointer htuple
    cases attributes with
    | nil => simp at hlen
    | cons a attributes =>
      obtain ⟨name, declared⟩ := a
      obtain rfl : declared = "text".toList := (List.cons.inj h.declared).1
      have htext : "text".toList ≠ "decimal".toList := by decide
      have hsize : ∀ c, t.getSingle name = .ok c → 0 < c.size := fun c hc =>
        computeSizeOf_pos htext (h.same.size (a := (name, "text".toList)) (by simp) hc)
      obtain ⟨address, k, hfirst⟩ := extractAttributes_text_first hsize hrun
      obtain rfl : e.valuetmp = str := by
        have hlast : (e.heap ++ [Object.block e.valuetmp])[e.heap.length]? = some (.block e.valuetmp) := by simp
        rw [derefBlock_of hlast] at hblock
        exact Except.ok.inj hblock
      rw [hfirst] at hstr
      cases hstr

def sampleRow (attributes : List (Str × Str)) (name : Str) : AttributeValue × List Cell :=
  match attributes.find? fun a => lowerName a.1 = name with
  | none => (.text [], [])
  | some a =>
    let n := (computeSizeOf (ObjSpec.getCassandraType a.2)).toOption.getD 0
    (markValue a.2 n false, markSlot a.2 n false)

theorem sampleRow_spec (h : BasicKeys attributes t types) {a : Str × Str} (ha : a ∈ attributes) :
    (sampleRow attributes (lowerName a.1)).1.OfType a.2 ∧
      TableSlot markHeap (sampleRow attributes (lowerName a.1)).1 (sampleRow attributes (lowerName a.1)).2 := by
  obtain ⟨c, -, -, hc⟩ := h.same.exists_column ha
  have hsize := h.same.size ha hc
  have hfind : (attributes.find? fun a' => lowerName a'.1 = lowerName a.1) = some a := by
    obtain ⟨a', ha'⟩ := Option.isSome_iff_exists.mp
      (List.find?_isSome (p := fun a' : Str × Str => lowerName a'.1 = lowerName a.1).mpr ⟨a, ha, by simp⟩)
    rw [ha']
    exact congrArg some (List.inj_on_of_nodup_map h.same.distinct (List.mem_of_find?_eq_some ha') ha
      (by simpa using List.find?_some ha'))
  have hn : (computeSizeOf (ObjSpec.getCassandraType a.2)).toOption.getD 0 = c.layout.size := by
    rw [hsize]
    rfl
  obtain ⟨type, -, htype⟩ : ∃ type ∈ types, ObjSpec.cToCass type = a.2 :=
    List.mem_map.mp (h.declared ▸ List.mem_map_of_mem ha)
  obtain ⟨hvalue, hslot, -⟩ := markValue_spec hsize false
  rw [sampleRow, hfind]
  simp only [hn]
  have hvalue' : (markValue a.2 c.layout.size false).OfType (ObjSpec.cToCass type) := htype.symm ▸ hvalue
  exact ⟨hvalue, (userSlot_iff_tableSlot hvalue').mp hslot⟩

theorem not_keysYielded_of_several (h : BasicKeys attributes t types) (hseveral : types.length ≠ 1) :
    ¬ KeysYielded attributes t types := by
  intro hyielded
  have hslots : List.Forall₂ (fun c cells => TableSlot markHeap (sampleRow attributes c.name).1 cells) t.columns
      (t.columns.map fun c => (sampleRow attributes c.name).2) := by
    rw [List.forall₂_map_right_iff, List.forall₂_same]
    intro c hc
    obtain ⟨a, ha, hname⟩ := List.mem_map.mp (h.same.names.mem_iff.mp (List.mem_map_of_mem hc))
    exact hname ▸ (sampleRow_spec h ha).2
  obtain ⟨heap', key, -, -, hrun, -⟩ := hyielded markHeap (fun _ => 0) (fun name => (sampleRow attributes name).1) _
    (fun a ha => (sampleRow_spec h ha).1) hslots
  obtain ⟨payload, -, hderef⟩ := bind_eq_ok hrun
  exact keysIteratorDeref_several h hseveral hderef

/-- The iterator yields the keys of the rows if and only if a key has one attribute. -/
theorem keysYielded_iff (h : BasicKeys attributes t types) : KeysYielded attributes t types ↔ types.length = 1 :=
  ⟨fun hyielded => by_contra fun hseveral => not_keysYielded_of_several h hseveral hyielded, keysYielded_of_single h⟩

end several

def oneIntKey : NamedColumns where
  columns := [⟨"keyname0".toList, .partitionKey, ⟨0, 4, .int, []⟩⟩]
  laidOut := ⟨rfl, rfl, trivial⟩
  bounded := by decide

theorem oneIntKey_basic : BasicKeys (attrDescr "keyname" [.int]) oneIntKey [.int] where
  same := ⟨by decide, by decide, by decide, by decide, by decide⟩
  declared := by decide
  nonempty := by simp

theorem oneIntKey_yielded : KeysYielded (attrDescr "keyname" [.int]) oneIntKey [.int] :=
  (keysYielded_iff oneIntKey_basic).mpr rfl

def textAndIntKeys : NamedColumns where
  columns := [⟨"keyname0".toList, .partitionKey, ⟨0, 8, .text, []⟩⟩, ⟨"keyname1".toList, .clusteringKey, ⟨8, 4, .int, []⟩⟩]
  laidOut := ⟨rfl, rfl, rfl, rfl, trivial⟩
  bounded := by decide

theorem textAndIntKeys_basic : BasicKeys (attrDescr "keyname" [.string, .int]) textAndIntKeys [.string, .int] where
  same := ⟨by decide, by decide, by decide, by decide, by decide⟩
  declared := by decide
  nonempty := by simp

/-- A key of a text and an integer is made of the address of its buffer. -/
theorem textAndIntKeys_not_yielded : ¬ KeysYielded (attrDescr "keyname" [.string, .int]) textAndIntKeys [.string, .int] :=
  not_keysYielded_of_several textAndIntKeys_basic (by decide)

end Hecuba
