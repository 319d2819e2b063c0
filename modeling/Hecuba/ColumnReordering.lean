import Mathlib.Data.List.Nodup
import Hecuba.AttributeCopies

/-! A buffer of attributes is put in the order of the table, and back in that of the program.
The columns of the table share no cell, unless the 16 bits of a position do not hold it. -/

namespace Hecuba

section layout

variable {metas : List ColumnMeta} {position : Nat}

theorem computeSizeOf_le {type : CassValueType} {n : Nat} (h : computeSizeOf type = .ok n) : n ≤ 8 := by
  cases type <;> simp [computeSizeOf] at h <;> omega

/-- The sizes of the columns that have another one behind them. -/
def innerSize (metas : List ColumnMeta) : Nat := (metas.map ColumnMeta.size).dropLast.sum

theorem laidOut_ordered (hpos : position + innerSize metas < 2 ^ 16) (h : LaidOut position metas) :
    (metas.Pairwise fun m m' => m.position + m.size ≤ m'.position) ∧
      ∀ m ∈ metas, position ≤ m.position ∧ m.position + m.size ≤ position + (metas.map ColumnMeta.size).sum := by
  induction metas generalizing position with
  | nil => exact ⟨.nil, by simp⟩
  | cons m metas ih =>
    obtain ⟨rfl, -, hrest⟩ := h
    cases metas with
    | nil => exact ⟨by simp, by simp⟩
    | cons m' metas =>
      have hinner : innerSize (m :: m' :: metas) = m.size + innerSize (m' :: metas) := rfl
      rw [u16, Nat.mod_eq_of_lt (by omega)] at hrest
      obtain ⟨hpairs, hbounds⟩ := ih (by omega) hrest
      refine ⟨List.pairwise_cons.mpr ⟨fun m'' hm => (hbounds m'' hm).1, hpairs⟩, fun m'' hm => ?_⟩
      rw [List.map_cons, List.sum_cons]
      rcases List.mem_cons.mp hm with rfl | hm
      · omega
      · have hb := hbounds m'' hm
        omega

theorem laidOut_size (h : LaidOut position metas) : ∀ m ∈ metas, computeSizeOf m.type = .ok m.size := by
  induction metas generalizing position with
  | nil => simp
  | cons m metas ih => exact List.forall_mem_cons.mpr ⟨h.2.1, ih h.2.2⟩

theorem laidOut_position (hpos : position < 2 ^ 16) (h : LaidOut position metas) {k : Nat} {m : ColumnMeta}
    (hm : metas[k]? = some m) : m.position = u16 (position + ((metas.map ColumnMeta.size).take k).sum) := by
  induction metas generalizing position k with
  | nil => simp at hm
  | cons m' metas ih =>
    obtain ⟨rfl, -, hrest⟩ := h
    cases k with
    | zero =>
      obtain rfl : m' = m := by simpa using hm
      exact (Nat.mod_eq_of_lt hpos).symm
    | succ k =>
      rw [ih (Nat.mod_lt _ (by decide)) hrest (by simpa using hm), List.map_cons, List.take_succ_cons, List.sum_cons]
      simp only [u16, Nat.mod_add_mod, Nat.add_assoc]

theorem exists_crossing (sum : Nat → Nat) (b : Nat) (hzero : sum 0 < b) (hex : ∃ k, b ≤ sum k) :
    ∃ k, sum k < b ∧ b ≤ sum (k + 1) ∧ ∀ j, b ≤ sum j → k + 1 ≤ j := by
  have hspec := Nat.find_spec hex
  have hne : Nat.find hex ≠ 0 := fun h => by
    rw [h] at hspec
    omega
  obtain ⟨k, hk⟩ := Nat.exists_eq_add_of_le' (Nat.pos_of_ne_zero hne)
  rw [hk] at hspec
  refine ⟨k, Nat.lt_of_not_le (Nat.find_min hex (by omega)), hspec, fun j hj => ?_⟩
  rw [← hk]
  exact Nat.find_min' hex hj

/-- The first position that wraps is that of a cell of another column. -/
theorem exists_overlap (h : LaidOut 0 metas) (hsize : ∀ m ∈ metas, 0 < m.size) (hwrap : 2 ^ 16 ≤ innerSize metas) :
    ∃ (i k : Nat) (m m' : ColumnMeta) (p : Nat), i < k ∧ metas[i]? = some m ∧ metas[k]? = some m' ∧
      m.Covers p ∧ m'.Covers p := by
  let sum (k : Nat) : Nat := ((metas.map ColumnMeta.size).take k).sum
  have hstep (k : Nat) (hk : k < metas.length) : ∃ m, metas[k]? = some m ∧ sum (k + 1) = sum k + m.size ∧
      m.position = u16 (sum k) ∧ 0 < m.size ∧ m.size ≤ 8 := by
    have hm : metas[k]? = some metas[k] := List.getElem?_eq_getElem hk
    have hmem : metas[k] ∈ metas := List.getElem_mem hk
    refine ⟨metas[k], hm, ?_, ?_, hsize _ hmem, computeSizeOf_le (laidOut_size h _ hmem)⟩
    · simp only [sum, List.take_add_one, List.getElem?_map, hm, Option.map_some, Option.toList_some, List.sum_append,
        List.sum_singleton]
    · simpa using laidOut_position (by decide) h hm
  have hlast : 2 ^ 16 ≤ sum (metas.length - 1) := by
    simpa [innerSize, List.dropLast_eq_take, sum] using hwrap
  obtain ⟨k, hlow, hwraps, hfirst⟩ := exists_crossing sum (2 ^ 16) (by simp [sum]) ⟨_, hlast⟩
  have hbound := hfirst _ hlast
  obtain ⟨_, -, hsum, -, -, hle⟩ := hstep k (by omega)
  obtain ⟨m', hm', -, hpos', hpos0', -⟩ := hstep (k + 1) (by omega)
  -- the cell where the column after the wrap begins
  obtain ⟨p, hp⟩ := Nat.exists_eq_add_of_le' hwraps
  have hpos : m'.position = p := by
    rw [hpos', u16, hp, Nat.add_mod_right, Nat.mod_eq_of_lt (by omega)]
  obtain ⟨i, hbefore, hinside, hmin⟩ := exists_crossing sum (p + 1) (by simp [sum]) ⟨k, by omega⟩
  have hik := hmin k (by omega)
  obtain ⟨m, hm, hsum', hposm, -, -⟩ := hstep i (by omega)
  rw [u16, Nat.mod_eq_of_lt (by omega)] at hposm
  exact ⟨i, k + 1, m, m', p, by omega, hm, hm', ⟨by omega, by omega⟩, by omega, by omega⟩

end layout

/-- The attributes are those of the table, in another order, and of the types that their columns
have. A decimal has no bytes in a row, and a blob is only an address. -/
structure SameAttributes (attributes : List (Str × Str)) (t : NamedColumns) (kind : BufferKind) : Prop where
  distinct : (attributes.map fun a => lowerName a.1).Nodup
  names : (t.columns.map NamedColumn.name).Perm (attributes.map fun a => lowerName a.1)
  types : ∀ a ∈ attributes, ∀ c ∈ t.columns, c.name = lowerName a.1 → c.layout.type = ObjSpec.getCassandraType a.2
  plain : ∀ a ∈ attributes, a.2 ≠ "decimal".toList ∧ a.2 ≠ "blob".toList
  colTypes : ∀ c ∈ t.columns, kind = .keys → c.colType ≠ .regular

/-- A buffer that the program fills with values of its attributes. -/
def UserBuffer (heap : Heap) (attributes : List (Str × Str)) (values : List AttributeValue) (src : List Cell) : Prop :=
  List.Forall₂ (fun a value => value.OfType a.2) attributes values ∧
    ∃ slots, List.Forall₂ (UserSlot heap) values slots ∧ src = slots.flatten

/-- What the program gets: the value, if it is only one, and else the address of the values. -/
def ReturnedBuffer (heap : Heap) (values : List AttributeValue) (returned : List Cell) : Prop :=
  ∃ slots, List.Forall₂ (TableSlot heap) values slots ∧
    if values.length = 1 then returned = slots.flatten
    else ∃ address, returned = pointerCells address ∧ BlockAt heap address slots.flatten

/-- Both copies return, so they write inside their buffers, and the values are the same in the end. -/
def ReturnsReordered (attributes : List (Str × Str)) (t : NamedColumns) (kind : BufferKind) : Prop :=
  ∀ (heap : Heap) (junk : Nat → UInt8) values src, UserBuffer heap attributes values src →
    ∃ heap' dst heap'' returned,
      deepCopyAttributeBuffer heap junk attributes t src (t.bufferSize kind) t.columns.length = .ok (heap', dst) ∧
      extractMultiValuesFromQueryResult heap' junk attributes t kind dst = .ok (heap'', returned) ∧
      ReturnedBuffer heap'' values returned

/-- Every column begins below `2^16`, and the lengths that `get_keys_size` returns hold their sums. -/
structure FitsIn16Bits (t : NamedColumns) (kind : BufferKind) : Prop where
  positions : t.sizes.dropLast.sum < 2 ^ 16
  lengths : kind = .keys → (t.sizesOf .partitionKey).sum < 2 ^ 16 ∧ (t.sizesOf .clusteringKey).sum < 2 ^ 16

section attributes

variable {attributes : List (Str × Str)} {t : NamedColumns} {kind : BufferKind}

theorem innerSize_layout (t : NamedColumns) : innerSize (t.columns.map NamedColumn.layout) = t.sizes.dropLast.sum := by
  simp [innerSize, NamedColumns.sizes, List.map_map, Function.comp_def]

theorem NamedColumns.getSingle_eq_ok {name : Str} {m : ColumnMeta} :
    t.getSingle name = .ok m ↔ (t.columns.find? fun c => c.name = lowerName name).map NamedColumn.layout = some m := by
  unfold NamedColumns.getSingle
  split
  · rename_i c hc
    simp [hc]
  · rename_i hc
    simp [hc]

theorem SameAttributes.length_eq (h : SameAttributes attributes t kind) : t.columns.length = attributes.length := by
  simpa using h.names.length_eq

theorem SameAttributes.nodup (h : SameAttributes attributes t kind) : (t.columns.map NamedColumn.name).Nodup :=
  h.names.nodup_iff.mpr h.distinct

theorem SameAttributes.exists_column (h : SameAttributes attributes t kind) {a : Str × Str} (ha : a ∈ attributes) :
    ∃ c ∈ t.columns, c.name = lowerName a.1 ∧ t.getSingle a.1 = .ok c.layout := by
  have hmem : lowerName a.1 ∈ t.columns.map NamedColumn.name := h.names.mem_iff.mpr (List.mem_map_of_mem ha)
  obtain ⟨c, hc, hname⟩ := List.mem_map.mp hmem
  have hsome : (t.columns.find? fun c => c.name = lowerName a.1).isSome = true :=
    List.find?_isSome.mpr ⟨c, hc, by simpa using hname⟩
  obtain ⟨c', hc'⟩ := Option.isSome_iff_exists.mp hsome
  refine ⟨c', List.mem_of_find?_eq_some hc', by simpa using List.find?_some hc', ?_⟩
  rw [NamedColumns.getSingle_eq_ok, hc', Option.map_some]

theorem SameAttributes.exists_entries (h : SameAttributes attributes t kind) {values : List AttributeValue}
    (hvalues : List.Forall₂ (fun a value => value.OfType a.2) attributes values) :
    ∃ entries : List AttributeEntry, entries.map AttributeEntry.declared = attributes ∧
      entries.map AttributeEntry.value = values ∧ ∀ e ∈ entries, e.Valid t := by
  have hcolumn : ∀ a ∈ attributes, ∃ m, t.getSingle a.1 = .ok m := fun a ha => by
    obtain ⟨c, -, -, hc⟩ := h.exists_column ha
    exact ⟨_, hc⟩
  clear h
  induction hvalues with
  | nil => exact ⟨[], rfl, rfl, by simp⟩
  | @cons a value attributes values hvalue _ ih =>
    obtain ⟨m, hm⟩ := hcolumn a (by simp)
    obtain ⟨entries, hdeclared, hvalues, hvalid⟩ := ih fun a' ha' => hcolumn a' (by simp [ha'])
    exact ⟨⟨a, m, value⟩ :: entries, by rw [List.map_cons, hdeclared], by rw [List.map_cons, hvalues],
      List.forall_mem_cons.mpr ⟨⟨hm, hvalue⟩, hvalid⟩⟩

variable {entries : List AttributeEntry}

theorem SameAttributes.size (h : SameAttributes attributes t kind) {a : Str × Str} (ha : a ∈ attributes) {m : ColumnMeta}
    (hm : t.getSingle a.1 = .ok m) : computeSizeOf (ObjSpec.getCassandraType a.2) = .ok m.size := by
  obtain ⟨c, hc, hname, hc'⟩ := h.exists_column ha
  obtain rfl := Except.ok.inj (hm.symm.trans hc')
  rw [← h.types a ha c hc hname]
  exact laidOut_size t.laidOut _ (List.mem_map_of_mem hc)

theorem filterMap_find_name {columns : List NamedColumn} (h : (columns.map NamedColumn.name).Nodup) :
    (columns.map NamedColumn.name).filterMap
      (fun n => (columns.find? fun c => c.name = n).map NamedColumn.layout) = columns.map NamedColumn.layout := by
  have hfind : ∀ c ∈ columns, (columns.find? fun c' => c'.name = c.name) = some c := by
    intro c hc
    obtain ⟨c', hc'⟩ := Option.isSome_iff_exists.mp (List.find?_isSome (p := fun c' => c'.name = c.name).mpr ⟨c, hc, by simp⟩)
    rw [hc']
    exact congrArg some (List.inj_on_of_nodup_map h (List.mem_of_find?_eq_some hc') hc (by simpa using List.find?_some hc'))
  rw [List.filterMap_map, ← List.filterMap_eq_map]
  refine List.filterMap_congr fun c hc => ?_
  rw [Function.comp_apply, hfind c hc, Option.map_some, Function.comp_apply]

theorem SameAttributes.columns_perm (h : SameAttributes attributes t kind)
    (hdeclared : entries.map AttributeEntry.declared = attributes) (hvalid : ∀ e ∈ entries, e.Valid t) :
    (entries.map AttributeEntry.column).Perm (t.columns.map NamedColumn.layout) := by
  have hnames : (attributes.map fun a => lowerName a.1).filterMap
      (fun n => (t.columns.find? fun c => c.name = n).map NamedColumn.layout) = entries.map AttributeEntry.column := by
    rw [← hdeclared, List.map_map, List.filterMap_map, ← List.filterMap_eq_map]
    refine List.filterMap_congr fun e he => ?_
    exact NamedColumns.getSingle_eq_ok.mp (hvalid e he).column
  rw [← filterMap_find_name h.nodup, ← hnames]
  exact (h.names.filterMap _).symm

theorem SameAttributes.sizes_perm (h : SameAttributes attributes t kind)
    (hdeclared : entries.map AttributeEntry.declared = attributes) (hvalid : ∀ e ∈ entries, e.Valid t) :
    (entrySizes entries).Perm t.sizes := by
  have hperm := (h.columns_perm hdeclared hvalid).map ColumnMeta.size
  simpa only [List.map_map, Function.comp_def, entrySizes, NamedColumns.sizes] using hperm

theorem sum_eq_partition_add_clustering (h : ∀ c ∈ t.columns, c.colType ≠ .regular) :
    t.sizes.sum = (t.sizesOf .partitionKey).sum + (t.sizesOf .clusteringKey).sum := by
  unfold NamedColumns.sizes NamedColumns.sizesOf
  revert h
  induction t.columns with
  | nil => simp
  | cons c columns ih =>
    intro h
    have hrest := ih fun c' hc' => h c' (by simp [hc'])
    have hc := h c (by simp)
    cases htype : c.colType <;> simp [htype] at hc ⊢ <;> omega

theorem FitsIn16Bits.sum_lt (h : FitsIn16Bits t kind) : t.sizes.sum < 2 ^ 16 + 8 := by
  have hpositions := h.positions
  rcases List.eq_nil_or_concat t.columns with hnil | ⟨columns, last, hconcat⟩
  · simp [NamedColumns.sizes, hnil]
  · have hlast : last.layout.size ≤ 8 := computeSizeOf_le (laidOut_size t.laidOut last.layout (by simp [hconcat]))
    simp only [NamedColumns.sizes, hconcat, List.concat_eq_append, List.map_append, List.map_cons, List.map_nil,
      List.dropLast_concat, List.sum_append, List.sum_singleton] at hpositions ⊢
    omega

theorem FitsIn16Bits.bufferSize (h : FitsIn16Bits t kind) (hkeys : ∀ c ∈ t.columns, kind = .keys → c.colType ≠ .regular) :
    t.bufferSize kind = t.sizes.sum := by
  cases kind with
  | keys =>
    obtain ⟨hpartition, hclustering⟩ := h.lengths rfl
    rw [sum_eq_partition_add_clustering fun c hc => hkeys c hc rfl, NamedColumns.bufferSize, u16, u16,
      Nat.mod_eq_of_lt hpartition, Nat.mod_eq_of_lt hclustering]
  | columns =>
    have hsum := h.sum_lt
    exact Nat.mod_eq_of_lt (by omega)

theorem FitsIn16Bits.disjoint (h : FitsIn16Bits t kind) :
    (t.columns.map NamedColumn.layout).Pairwise (fun m m' => ∀ p, m.Covers p → ¬ m'.Covers p) ∧
      ∀ m ∈ t.columns.map NamedColumn.layout, m.position + m.size ≤ t.sizes.sum := by
  have hinner : 0 + innerSize (t.columns.map NamedColumn.layout) < 2 ^ 16 := by
    simpa [innerSize_layout] using h.positions
  obtain ⟨hpairs, hbounds⟩ := laidOut_ordered hinner t.laidOut
  refine ⟨hpairs.imp fun {m m'} hle p hp hp' => ?_, fun m hm => ?_⟩
  · have := hp.2
    have := hp'.1
    omega
  · have hbound := (hbounds m hm).2
    simpa [NamedColumns.sizes, List.map_map, Function.comp_def] using hbound

/-- The copy of a buffer that fits: every column has the value of its attribute. -/
theorem SameAttributes.deepCopy_ok (h : SameAttributes attributes t kind) (hfits : FitsIn16Bits t kind)
    (hdeclared : entries.map AttributeEntry.declared = attributes) (hvalid : ∀ e ∈ entries, e.Valid t) {heap : Heap}
    {slots : List (List Cell)} (hslots : List.Forall₂ (fun e cells => UserSlot heap e.value cells) entries slots)
    (junk : Nat → UInt8) :
    ∃ new dst, deepCopyAttributeBuffer heap junk attributes t slots.flatten (t.bufferSize kind) t.columns.length =
      .ok (heap ++ new, dst) ∧ ∀ e ∈ entries, e.StoredIn (heap ++ new) dst := by
  have hcolumns := h.columns_perm hdeclared hvalid
  have hbuffer := hfits.bufferSize h.colTypes
  obtain ⟨hdisjoint, hbounds⟩ := hfits.disjoint
  have hsymm : ∀ {m m' : ColumnMeta}, (∀ p, m.Covers p → ¬ m'.Covers p) → ∀ p, m'.Covers p → ¬ m.Covers p :=
    fun hm p hp hp' => hm p hp' hp
  have hpairs := List.pairwise_map.mp ((hcolumns.pairwise_iff hsymm).mpr hdisjoint)
  have hinside : ∀ e ∈ entries, e.column.position + e.column.size ≤ t.sizes.sum := fun e he =>
    hbounds _ (hcolumns.mem_iff.mp (List.mem_map_of_mem he))
  have hfilled : List.Forall₂ (fun e cells => UserSlot heap e.value cells ∧ cells.length = e.column.size) entries slots := by
    refine ((List.forall₂_and_left entries slots).mpr ⟨fun e he => he, hslots⟩).imp fun e cells ⟨he, hslot⟩ => ?_
    have hsize := h.size (hdeclared ▸ List.mem_map_of_mem he) (hvalid e he).column
    exact ⟨hslot, Except.ok.inj ((SlotWith.length hslot (hvalid e he).value).symm.trans hsize)⟩
  obtain ⟨new, dst, hcopy, -, hstored, -⟩ := deepCopyAttributes_ok hvalid hpairs hfilled []
    (byteCells ((List.range (t.bufferSize kind)).map junk)) fun e he => by simpa [hbuffer] using hinside e he
  refine ⟨new, dst, ?_, hstored⟩
  rw [deepCopyAttributeBuffer, if_pos h.length_eq.le, h.length_eq, List.take_length, ← hdeclared]
  exact hcopy

/-- The extraction from a buffer for Cassandra that has the values. -/
theorem SameAttributes.extract_ok (h : SameAttributes attributes t kind) (hfits : FitsIn16Bits t kind)
    (hdeclared : entries.map AttributeEntry.declared = attributes) (hvalid : ∀ e ∈ entries, e.Valid t) {heap : Heap}
    {dst : List Cell} (hstored : ∀ e ∈ entries, e.StoredIn heap dst) (junk : Nat → UInt8) :
    ∃ new returned, extractMultiValuesFromQueryResult heap junk attributes t kind dst = .ok (heap ++ new, returned) ∧
      ReturnedBuffer (heap ++ new) (entries.map AttributeEntry.value) returned := by
  have hsum : (entrySizes entries).sum = t.sizes.sum := (h.sizes_perm hdeclared hvalid).sum_eq
  have hbuffer := hfits.bufferSize h.colTypes
  have hcount : t.columns.length = entries.length := by rw [h.length_eq, ← hdeclared, List.length_map]
  have hall : attributes.take t.columns.length = entries.map AttributeEntry.declared := by
    rw [h.length_eq, List.take_length, hdeclared]
  obtain ⟨new, slots, hextract, hreturned⟩ := extractAttributes_ok hvalid hstored []
    (byteCells ((List.range (t.bufferSize kind)).map junk)) (t.bufferSize kind) (by simp [hbuffer, hsum])
  have hmulti : extractMultiValuesFromQueryResult heap junk attributes t kind dst = (do
      if t.columns.length = 1 then
        return (heap ++ new, ← load slots.flatten 0 ((entrySizes entries).getLastD (t.bufferSize kind)))
      else return (heap ++ new ++ [.block slots.flatten], pointerCells (heap ++ new).length)) := by
    rw [extractMultiValuesFromQueryResult, if_pos h.length_eq.le, hall]
    exact congrArg (· >>= _) hextract
  by_cases hone : t.columns.length = 1
  · obtain ⟨e, rfl⟩ := List.length_eq_one_iff.mp (hcount.symm.trans hone)
    obtain ⟨cells, _, ⟨hcells, hlen⟩, hnil, rfl⟩ := List.forall₂_cons_left_iff.mp hreturned
    obtain rfl := List.forall₂_nil_left_iff.mp hnil
    have hload : load [cells].flatten 0 ((entrySizes [e]).getLastD (t.bufferSize kind)) = .ok cells := by
      simpa [entrySizes] using load_self hlen
    refine ⟨new, cells, ?_, [cells], .cons hcells .nil, by simp⟩
    rw [hmulti, if_pos hone, hload]
    rfl
  · refine ⟨new ++ [.block slots.flatten], pointerCells (heap ++ new).length, ?_, slots, ?_, ?_⟩
    · rw [hmulti, if_neg hone, List.append_assoc]
      rfl
    · rw [List.forall₂_map_left_iff, ← List.append_assoc]
      exact hreturned.imp fun e cells hcells => hcells.1.mono (List.prefix_append _ _)
    · rw [if_neg (by rwa [List.length_map, ← hcount]), ← List.append_assoc]
      exact ⟨_, rfl, blockAt_new _ _⟩

theorem returnsReordered_of_fits (h : SameAttributes attributes t kind) (hfits : FitsIn16Bits t kind) :
    ReturnsReordered attributes t kind := by
  intro heap junk values src ⟨hvalues, slots, hslots, hsrc⟩
  obtain ⟨entries, hdeclared, rfl, hvalid⟩ := h.exists_entries hvalues
  obtain ⟨new, dst, hcopy, hstored⟩ := h.deepCopy_ok hfits hdeclared hvalid (List.forall₂_map_left_iff.mp hslots) junk
  obtain ⟨new', returned, hextract, hreturned⟩ := h.extract_ok hfits hdeclared hvalid hstored junk
  exact ⟨_, dst, _, returned, hsrc ▸ hcopy, hextract, hreturned⟩

end attributes

section marking

/-- The two texts, the two storage ids and the objects with these. -/
def markHeap : Heap :=
  [.block (byteCells (cString [])), .block (byteCells (cString [1])), .block (byteCells (List.replicate 16 0)),
    .block (byteCells (List.replicate 16 1)), .block (pointerCells 2), .block (pointerCells 3)]

def markByte (marked : Bool) : UInt8 := if marked then 1 else 0

def markValue (type : Str) (n : Nat) (marked : Bool) : AttributeValue :=
  if ObjSpec.isBasicType type = false then .object (List.replicate 16 (markByte marked))
  else if type = "text".toList then .text (if marked then [1] else [])
  else .basic (List.replicate n (markByte marked))

def markSlot (type : Str) (n : Nat) (marked : Bool) : List Cell :=
  if ObjSpec.isBasicType type = false then pointerCells (if marked then 5 else 4)
  else if type = "text".toList then pointerCells (if marked then 1 else 0)
  else byteCells (List.replicate n (markByte marked))

theorem markValue_spec {type : Str} {n : Nat} (hn : computeSizeOf (ObjSpec.getCassandraType type) = .ok n)
    (marked : Bool) : (markValue type n marked).OfType type ∧
      UserSlot markHeap (markValue type n marked) (markSlot type n marked) ∧
      (markValue type n marked).StartsWith (markByte marked) := by
  unfold markValue markSlot
  by_cases hbasic : ObjSpec.isBasicType type = false
  · rw [if_pos hbasic, if_pos hbasic]
    refine ⟨⟨hbasic, by simp⟩, ?_, by simp [AttributeValue.StartsWith, List.replicate]⟩
    cases marked with
    | false => exact ⟨4, rfl, 2, ⟨[], rfl⟩, [], rfl⟩
    | true => exact ⟨5, rfl, 3, ⟨[], rfl⟩, [], rfl⟩
  · rw [if_neg hbasic, if_neg hbasic]
    by_cases htext : type = "text".toList
    · rw [if_pos htext, if_pos htext]
      cases marked with
      | false => exact ⟨⟨htext, by simp⟩, ⟨0, rfl, [], rfl⟩, rfl⟩
      | true => exact ⟨⟨htext, by simp⟩, ⟨1, rfl, [], rfl⟩, rfl⟩
    · rw [if_neg htext, if_neg htext]
      refine ⟨⟨by simpa using hbasic, htext, by rw [hn, List.length_replicate]⟩, rfl, fun b hb => ?_⟩
      exact List.eq_of_mem_replicate hb

theorem computeSizeOf_pos {type : Str} {n : Nat} (hdecimal : type ≠ "decimal".toList)
    (hn : computeSizeOf (ObjSpec.getCassandraType type) = .ok n) : 0 < n := by
  have hbasic : ∀ e ∈ ObjSpec.basicTypes, e.1 = "decimal".toList ∨ computeSizeOf e.2 ≠ .ok 0 :=
    forall_mem_of_all (by decide)
  refine Nat.pos_of_ne_zero fun hzero => ?_
  rw [hzero, ObjSpec.getCassandraType] at hn
  cases hlookup : ObjSpec.basicTypes.lookup type with
  | none =>
    rw [hlookup, Option.getD_none] at hn
    cases hn
  | some cassType =>
    rw [hlookup, Option.getD_some] at hn
    obtain ⟨l₁, l₂, hl, -⟩ := List.lookup_eq_some_iff.mp hlookup
    rcases hbasic (type, cassType) (by simp [hl]) with hd | hd
    · exact hdecimal hd
    · exact hd hn

variable {attributes : List (Str × Str)} {t : NamedColumns} {kind : BufferKind}

theorem slots_eq {ι α : Type} {size : ι → Nat} {l : List ι} {slots slots' : List (List α)} {rest rest' : List α}
    (hlen : List.Forall₂ (fun i s => s.length = size i) l slots)
    (hlen' : List.Forall₂ (fun i s => s.length = size i) l slots')
    (h : slots.flatten ++ rest = slots'.flatten ++ rest') : slots = slots' := by
  induction hlen generalizing slots' with
  | nil => exact (List.forall₂_nil_left_iff.mp hlen').symm
  | cons hs _ ih =>
    obtain ⟨s', slots', hs', hrest, rfl⟩ := List.forall₂_cons_left_iff.mp hlen'
    rw [List.flatten_cons, List.flatten_cons, List.append_assoc, List.append_assoc] at h
    obtain ⟨hfirst, hothers⟩ := List.append_inj h (hs.trans hs'.symm)
    rw [hfirst, ih hrest hothers]

/-- A returned buffer has the slots that the extraction has filled. -/
theorem slots_of_returned {entries : List AttributeEntry} {heap H : Heap} {slots : List (List Cell)}
    {more returned : List Cell} {attrSize : Nat} (hvalid : ∀ e ∈ entries, e.Valid t)
    (hsize : ∀ e ∈ entries, computeSizeOf (ObjSpec.getCassandraType e.declared.2) = .ok e.column.size)
    (hslots : List.Forall₂ (fun e out => out.length = e.column.size) entries slots)
    (hreturned : ReturnedBuffer H (entries.map AttributeEntry.value) returned)
    (hresult : (if entries.length = 1 then
        do return (heap, ← load (slots.flatten ++ more) 0 ((entrySizes entries).getLastD attrSize))
      else return (heap ++ [.block (slots.flatten ++ more)], pointerCells heap.length) : Except Fault (Heap × List Cell)) =
        .ok (H, returned)) :
    heap <+: H ∧ List.Forall₂ (fun e out => TableSlot H e.value out) entries slots := by
  obtain ⟨slots', hvalues, hcells⟩ := hreturned
  rw [List.forall₂_map_left_iff] at hvalues
  rw [List.length_map] at hcells
  have hlen' : List.Forall₂ (fun e out => out.length = e.column.size) entries slots' := by
    refine ((List.forall₂_and_left entries slots').mpr ⟨fun e he => he, hvalues⟩).imp fun e cells ⟨he, hslot⟩ => ?_
    exact Except.ok.inj ((SlotWith.length hslot (hvalid e he).value).symm.trans (hsize e he))
  by_cases hone : entries.length = 1
  · rw [if_pos hone] at hcells hresult
    obtain ⟨out, hload, hout⟩ := bind_eq_ok hresult
    cases hout
    obtain ⟨e, rfl⟩ := List.length_eq_one_iff.mp hone
    obtain ⟨cells, _, hcells', hnil, rfl⟩ := List.forall₂_cons_left_iff.mp hslots
    obtain rfl := List.forall₂_nil_left_iff.mp hnil
    have hload' : load ([cells].flatten ++ more) 0 ((entrySizes [e]).getLastD attrSize) = .ok cells := by
      simpa [entrySizes] using load_zero_append hcells'
    obtain rfl := Except.ok.inj (hload.symm.trans hload')
    have htext : [returned].flatten ++ [] = slots'.flatten ++ [] := by simpa using hcells
    have hsame : [returned] = slots' := slots_eq hslots hlen' htext
    exact ⟨List.prefix_refl _, hsame ▸ hvalues⟩
  · rw [if_neg hone] at hcells hresult
    cases hresult
    obtain ⟨address, hpointer, rest, hblock⟩ := hcells
    have haddress : heap.length = address := by simpa using congrArg addressOf hpointer
    have htext : slots.flatten ++ more = slots'.flatten ++ rest := by
      rw [← haddress] at hblock
      simpa using hblock
    exact ⟨List.prefix_append _ _, slots_eq hslots hlen' htext ▸ hvalues⟩

/-- With a mark on some of the names, each column keeps its mark in the buffer for Cassandra. -/
theorem marks_of_returns (h : SameAttributes attributes t kind) (hreturns : ReturnsReordered attributes t kind)
    (marked : Str → Bool) : t.sizes.sum ≤ t.bufferSize kind ∧ ∃ (H : Heap) (dst : List Cell), ∀ c ∈ t.columns, ∀ p,
      c.layout.Covers p → ∃ cell, dst[p]? = some cell ∧ Marks H (markByte (marked c.name)) cell := by
  let size (a : Str × Str) : Nat := (computeSizeOf (ObjSpec.getCassandraType a.2)).toOption.getD 0
  let value (a : Str × Str) : AttributeValue := markValue a.2 (size a) (marked (lowerName a.1))
  let slot (a : Str × Str) : List Cell := markSlot a.2 (size a) (marked (lowerName a.1))
  have hspec : ∀ a ∈ attributes, (value a).OfType a.2 ∧ UserSlot markHeap (value a) (slot a) ∧
      (value a).StartsWith (markByte (marked (lowerName a.1))) := by
    intro a ha
    obtain ⟨c, -, -, hc⟩ := h.exists_column ha
    have hsize : size a = c.layout.size := by simp only [size, h.size ha hc]; rfl
    exact markValue_spec (by rw [hsize]; exact h.size ha hc) _
  have hvalues : List.Forall₂ (fun a value => value.OfType a.2) attributes (attributes.map value) := by
    rw [List.forall₂_map_right_iff, List.forall₂_same]
    exact fun a ha => (hspec a ha).1
  have hslots : List.Forall₂ (UserSlot markHeap) (attributes.map value) (attributes.map slot) := by
    rw [List.forall₂_map_left_iff, List.forall₂_map_right_iff, List.forall₂_same]
    exact fun a ha => (hspec a ha).2.1
  obtain ⟨heap, dst, H, returned, -, hextract, hreturned⟩ :=
    hreturns markHeap (fun _ => 0) _ _ ⟨hvalues, _, hslots, rfl⟩
  obtain ⟨entries, hdeclared, hentries, hvalid⟩ := h.exists_entries hvalues
  have hdeclares : ∀ e ∈ entries, e.declared ∈ attributes := fun e he => hdeclared ▸ List.mem_map_of_mem he
  have hvalue : ∀ e ∈ entries, e.value = value e.declared := by
    rw [← hdeclared, List.map_map] at hentries
    exact List.map_inj_left.mp hentries
  have hsize : ∀ e ∈ entries, computeSizeOf (ObjSpec.getCassandraType e.declared.2) = .ok e.column.size :=
    fun e he => h.size (hdeclares e he) (hvalid e he).column
  have hall : attributes.take t.columns.length = entries.map AttributeEntry.declared := by
    rw [h.length_eq, List.take_length, hdeclared]
  have hcount : t.columns.length = entries.length := by rw [h.length_eq, ← hdeclared, List.length_map]
  rw [extractMultiValuesFromQueryResult, if_pos h.length_eq.le, hall] at hextract
  obtain ⟨e', hrun, hresult⟩ := bind_eq_ok hextract
  obtain ⟨new, slots, more, hheap, htmp, hattr, hsum, hmarks⟩ := extractAttributes_marks hvalid hsize
    (fun e => markByte (marked (lowerName e.declared.1)))
    (fun e he => hvalue e he ▸ (hspec _ (hdeclares e he)).2.2) [] hrun
  rw [htmp, hattr, hcount, List.nil_append] at hresult
  obtain ⟨hextends, hfinal⟩ := slots_of_returned hvalid hsize (hmarks.imp fun e out hout => hout.1)
    (hentries ▸ hreturned) hresult
  refine ⟨?_, H, dst, fun c hc p hp => ?_⟩
  · have := (h.sizes_perm hdeclared hvalid).sum_eq
    simpa [this] using hsum
  · obtain ⟨a, ha, hname⟩ := List.mem_map.mp (h.names.mem_iff.mp (List.mem_map_of_mem hc))
    obtain ⟨e, he, rfl⟩ := List.mem_map.mp (hdeclared ▸ ha)
    obtain ⟨c', hc', hname', hcolumn⟩ := h.exists_column ha
    obtain rfl : c' = c := List.inj_on_of_nodup_map h.nodup hc' hc (hname'.trans hname)
    have hlayout : e.column = c'.layout := Except.ok.inj ((hvalid e he).column.symm.trans hcolumn)
    obtain ⟨i, hi, rfl⟩ := List.getElem_of_mem he
    obtain ⟨hlen, hmarks⟩ := List.forall₂_iff_get.mp hmarks
    have hcell := (hmarks i hi (hlen ▸ hi)).2 hextends ((List.forall₂_iff_get.mp hfinal).2 i hi (hlen ▸ hi)) p
      (hlayout ▸ hp)
    rw [← hname]
    exact hcell

theorem fits_of_returns (h : SameAttributes attributes t kind) (hreturns : ReturnsReordered attributes t kind) :
    FitsIn16Bits t kind := by
  refine ⟨?_, fun hkeys => ?_⟩
  · by_contra hwrap
    have hsize : ∀ m ∈ t.columns.map NamedColumn.layout, 0 < m.size := by
      intro m hm
      obtain ⟨c, hc, rfl⟩ := List.mem_map.mp hm
      obtain ⟨a, ha, hname⟩ := List.mem_map.mp (h.names.mem_iff.mp (List.mem_map_of_mem hc))
      refine computeSizeOf_pos (h.plain a ha).1 ?_
      rw [← h.types a ha c hc hname.symm]
      exact laidOut_size t.laidOut _ hm
    obtain ⟨i, k, m, m', p, hik, hm, hm', hp, hp'⟩ :=
      exists_overlap t.laidOut hsize (by rw [innerSize_layout]; omega)
    obtain ⟨c, hc, rfl⟩ : ∃ c, t.columns[i]? = some c ∧ c.layout = m := by simpa using hm
    obtain ⟨c', hc', rfl⟩ : ∃ c', t.columns[k]? = some c' ∧ c'.layout = m' := by simpa using hm'
    -- the name of the second column is marked, and that of the first is another one
    obtain ⟨-, H, dst, hmarks⟩ := marks_of_returns h hreturns fun name => name = c'.name
    obtain ⟨cell, hcell, hmark⟩ := hmarks c (List.mem_of_getElem? hc) p hp
    obtain ⟨cell', hcell', hmark'⟩ := hmarks c' (List.mem_of_getElem? hc') p hp'
    obtain rfl : cell = cell' := Option.some.inj (hcell.symm.trans hcell')
    have hne : c.name ≠ c'.name := by
      have hpairs := List.pairwise_iff_getElem.mp h.nodup
      obtain ⟨hi, rfl⟩ := List.getElem?_eq_some_iff.mp hc
      obtain ⟨hk, rfl⟩ := List.getElem?_eq_some_iff.mp hc'
      exact fun hname => hpairs i k (by simpa using hi) (by simpa using hk) hik (by simpa using hname)
    have hbyte := hmark.eq hmark'
    simp [markByte, hne] at hbyte
  · obtain ⟨hroom, -⟩ := marks_of_returns h hreturns fun _ => false
    rw [sum_eq_partition_add_clustering fun c hc => h.colTypes c hc hkeys, hkeys, NamedColumns.bufferSize, u16, u16] at hroom
    omega

end marking

/-- The attributes come back in the order of the program, unless the positions or the lengths wrap. -/
theorem ObjSpec.reordered_iff {spec : ObjSpec} {kind : BufferKind} {t : NamedColumns}
    (h : SameAttributes (spec.attributes kind) t kind) :
    ReturnsReordered (spec.attributes kind) t kind ↔ FitsIn16Bits t kind :=
  ⟨fits_of_returns h, returnsReordered_of_fits h⟩

def ownedFlag : ObjSpec where
  partitionKeys := [("key".toList, "int".toList)]
  clusteringKeys := []
  cols := [("Name".toList, "text".toList), ("flag".toList, "boolean".toList), ("owner".toList, "Person.Person".toList)]

/-- The table has the owner first, and the name in lower case. -/
def ownedFlagColumns : NamedColumns where
  columns := [⟨"owner".toList, .regular, ⟨0, 8, .uuid, []⟩⟩, ⟨"flag".toList, .regular, ⟨8, 1, .boolean, []⟩⟩,
    ⟨"name".toList, .regular, ⟨9, 8, .text, []⟩⟩]
  laidOut := ⟨rfl, rfl, rfl, rfl, rfl, rfl, trivial⟩
  bounded := by decide

theorem ownedFlag_same : SameAttributes (ownedFlag.attributes .columns) ownedFlagColumns .columns where
  distinct := by decide
  names := by decide
  types := by decide
  plain := by decide
  colTypes _ _ := nofun

theorem ownedFlag_reordered : ReturnsReordered (ownedFlag.attributes .columns) ownedFlagColumns .columns :=
  (ObjSpec.reordered_iff ownedFlag_same).mpr ⟨by decide, nofun⟩

section wide

def wideName (i : Nat) : Str := List.replicate (i + 1) 'a'

def wideSpec (n : Nat) : ObjSpec where
  partitionKeys := [("key".toList, "int".toList)]
  clusteringKeys := []
  cols := (List.range n).map fun i => (wideName i, "bigint".toList)

theorem laidOut_wide (start n : Nat) :
    LaidOut (u16 (8 * start)) ((List.range' start n).map fun i => ⟨u16 (8 * i), 8, .bigint, []⟩) := by
  induction n generalizing start with
  | zero => trivial
  | succ n ih =>
    have hnext : u16 (u16 (8 * start) + 8) = u16 (8 * (start + 1)) := by
      simp only [u16]
      omega
    rw [List.range'_succ, List.map_cons]
    exact ⟨rfl, rfl, hnext ▸ ih (start + 1)⟩

/-- Columns of eight bytes. -/
def wideColumns (n : Nat) (h : n < 2 ^ 16) : NamedColumns where
  columns := (List.range n).map fun i => ⟨wideName i, .regular, ⟨u16 (8 * i), 8, .bigint, []⟩⟩
  laidOut := by
    rw [List.map_map, List.range_eq_range']
    exact laidOut_wide 0 n
  bounded := by rwa [List.length_map, List.length_range]

theorem lowerName_wideName (i : Nat) : lowerName (wideName i) = wideName i := by
  rw [lowerName, wideName, List.map_replicate]
  rfl

theorem wide_same (n : Nat) (h : n < 2 ^ 16) :
    SameAttributes ((wideSpec n).attributes .columns) (wideColumns n h) .columns := by
  have hnames : ((wideSpec n).attributes .columns).map (fun a => lowerName a.1) = (List.range n).map wideName := by
    simp [ObjSpec.attributes, wideSpec, lowerName_wideName]
  refine ⟨?_, ?_, fun a ha c hc _ => ?_, fun a ha => ?_, fun _ _ => nofun⟩
  · rw [hnames]
    refine List.nodup_range.map fun i j hij => ?_
    simpa [wideName] using congrArg List.length hij
  · rw [hnames, wideColumns, List.map_map]
    exact .refl _
  · obtain ⟨i, -, rfl⟩ := List.mem_map.mp ha
    obtain ⟨j, -, rfl⟩ := List.mem_map.mp hc
    rfl
  · obtain ⟨i, -, rfl⟩ := List.mem_map.mp ha
    have hbigint : "bigint".toList ≠ "decimal".toList ∧ "bigint".toList ≠ "blob".toList := by decide
    exact hbigint

theorem wideColumns_sizes (n : Nat) (h : n < 2 ^ 16) : (wideColumns n h).sizes = List.replicate n 8 := by
  simp [NamedColumns.sizes, wideColumns, Function.comp_def, List.map_const']

theorem wide_not_fits {n : Nat} (h : n < 2 ^ 16) (hn : 2 ^ 16 ≤ (n - 1) * 8) :
    ¬ FitsIn16Bits (wideColumns n h) .columns := by
  intro hfits
  have hpositions := hfits.positions
  rw [wideColumns_sizes, List.dropLast_replicate, List.sum_replicate_nat] at hpositions
  omega

/-- With 8193 columns of eight bytes, the last one is where the first one is. -/
theorem wide_not_reordered : ¬ ReturnsReordered ((wideSpec 8193).attributes .columns)
    (wideColumns 8193 (by decide)) .columns := by
  intro hreturns
  exact wide_not_fits (by decide) (by decide) (fits_of_returns (wide_same 8193 (by decide)) hreturns)

end wide

end Hecuba
