import Hecuba.RowCodec

/-! The round trip of a row. The decoded buffer holds the columns without gaps, so a null
column moves those after it away from the positions where they are read. -/

namespace Hecuba

/-- What the element of a column that is not null can be. -/
inductive Holds (heap : Heap) : ColumnMeta → List Cell → Prop
  | value {m : ColumnMeta} {cells : List Cell} {value : Bytes}
      (h : readValue heap m.type cells = .ok value) : Holds heap m cells
  | tuple {m : ColumnMeta} {address : Nat} {inner : TupleRowData} {cellsOf : Nat → List Cell}
      (ht : m.type = .tuple) (hrow : heap[address]? = some (.tupleRow inner))
      (hm : inner.metadatas = m.pointer) (hn : ∀ i < m.pointer.length, inner.isNull i = false)
      (hc : ∀ i c, m.pointer[i]? = some c → load inner.data c.position c.size = .ok (cellsOf i))
      (hi : ∀ i c, m.pointer[i]? = some c → Holds heap c (cellsOf i)) :
      Holds heap m (pointerCells address)

/-- A row of a table whose columns that are not null hold values of their types. -/
structure RowOver (heap : Heap) (s : Schema) (row : TupleRowData) : Prop where
  metadatas : row.metadatas = s.columns
  words : row.nullValues.length = wordsFor s.columns.length
  size : row.data.length = totalBytes s.columns
  elements : ∀ i m, s.columns[i]? = some m → row.isNull i = false →
    ∃ cells, load row.data m.position m.size = .ok cells ∧ Holds heap m cells

def sizeSum (metadata : List ColumnMeta) : Nat := (metadata.map ColumnMeta.size).sum

/-- Positions that have not wrapped. -/
def Consecutive (position : Nat) : List ColumnMeta → Prop
  | [] => True
  | m :: metadata => m.position = position ∧ Consecutive (position + m.size) metadata

theorem sizeSum_cons (m : ColumnMeta) (metadata : List ColumnMeta) :
    sizeSum (m :: metadata) = m.size + sizeSum metadata := rfl

theorem consecutive_of_laidOut {metadata : List ColumnMeta} {position : Nat}
    (h : LaidOut position metadata) (hlt : position + sizeSum metadata < 2 ^ 16) :
    Consecutive position metadata := by
  induction metadata generalizing position with
  | nil => trivial
  | cons m metadata ih =>
    obtain ⟨hp, -, hrest⟩ := h
    rw [sizeSum_cons] at hlt
    have hu : u16 (position + m.size) = position + m.size := Nat.mod_eq_of_lt (by omega)
    rw [hu] at hrest
    exact ⟨hp, ih hrest (by omega)⟩

theorem sizes_of_laidOut {metadata : List ColumnMeta} {position : Nat}
    (h : LaidOut position metadata) : ∀ m ∈ metadata, computeSizeOf m.type = .ok m.size := by
  induction metadata generalizing position with
  | nil => exact fun m hm => (List.not_mem_nil hm).elim
  | cons m metadata ih => exact List.forall_mem_cons.mpr ⟨h.2.1, ih h.2.2⟩

theorem totalBytes_eq {metadata : List ColumnMeta} {position : Nat} (hne : metadata ≠ [])
    (h : Consecutive position metadata) : totalBytes metadata = u16 (position + sizeSum metadata) := by
  induction metadata generalizing position with
  | nil => exact (hne rfl).elim
  | cons m metadata ih =>
    cases metadata with
    | nil => simp [totalBytes, sizeSum, h.1]
    | cons m' rest =>
      have hh := ih (by simp) h.2
      rw [sizeSum_cons, ← Nat.add_assoc, ← hh]
      simp [totalBytes]

theorem totalBytes_of_laidOut {metadata : List ColumnMeta} (h : LaidOut 0 metadata)
    (hlt : sizeSum metadata < 2 ^ 16) : totalBytes metadata = sizeSum metadata := by
  by_cases hne : metadata = []
  · subst hne
    rfl
  · rw [totalBytes_eq hne (consecutive_of_laidOut h (by omega)), Nat.zero_add]
    exact Nat.mod_eq_of_lt hlt

/-- No column that is not null comes after a null one. -/
def NoGap (values : List (Option Bytes)) : Prop := values.Pairwise fun a b => a = none → b = none

section

variable {heap : Heap} {row : TupleRowData} {metadata : List ColumnMeta}
  {values : List (Option Bytes)}

theorem PackedAs.length_le {packed : List Cell} (h : PackedAs heap metadata values packed) :
    packed.length ≤ sizeSum metadata := by
  induction metadata generalizing values packed with
  | nil =>
    cases values with
    | nil =>
      rw [show packed = [] from h]
      exact Nat.zero_le _
    | cons => exact h.elim
  | cons m metadata ih =>
    rw [sizeSum_cons]
    match values, h with
    | none :: values, h =>
      have hh := @ih values packed h
      omega
    | some value :: values, h =>
      obtain ⟨cells, rest, rfl, hlen, -, hrest⟩ := h
      have hh := ih hrest
      rw [List.length_append]
      omega

theorem holds_nulls {i : Nat} (hc : ColumnsFrom row i metadata)
    (hlen : metadata.length = values.length) (hall : ∀ v ∈ values, v = none)
    (hn : ∀ k < values.length, row.isNull (i + k) = true) : HoldsFrom heap row i metadata values := by
  induction metadata generalizing i values with
  | nil =>
    cases values with
    | nil => trivial
    | cons => simp at hlen
  | cons m metadata ih =>
    cases values with
    | nil => simp at hlen
    | cons value values =>
      refine ⟨?_, ih hc.tail (by simpa using hlen) (fun v hv => hall v (List.mem_cons_of_mem _ hv))
        fun k hk => ?_⟩
      · have hnull : row.isNull i = true := hn 0 (Nat.succ_pos _)
        rw [elementAt_eq hc.head, if_pos hnull, hall value List.mem_cons_self]
      · have hh := hn (k + 1) (by simpa using hk)
        rwa [show i + (k + 1) = i + 1 + k by omega] at hh

theorem PackedAs.length_eq {packed : List Cell} (h : PackedAs heap metadata values packed) :
    metadata.length = values.length := by
  induction metadata generalizing values packed with
  | nil =>
    cases values with
    | nil => rfl
    | cons => exact h.elim
  | cons m metadata ih =>
    match values, h with
    | none :: values, h => simpa using @ih values packed h
    | some value :: values, h =>
      obtain ⟨cells, rest, -, -, -, hrest⟩ := h
      simpa using ih hrest

/-- Where no null comes before a value, the packed columns are where readers look. -/
theorem holds_of_packed {i : Nat} (hc : ColumnsFrom row i metadata) {before packed after : List Cell}
    (hpos : Consecutive before.length metadata) (hp : PackedAs heap metadata values packed)
    (hgap : NoGap values) (hdata : row.data = before ++ packed ++ after)
    (hn : ∀ k v, values[k]? = some v → row.isNull (i + k) = v.isNone) :
    HoldsFrom heap row i metadata values := by
  induction metadata generalizing i values before packed with
  | nil =>
    cases values with
    | nil => trivial
    | cons => exact hp.elim
  | cons m metadata ih =>
    match values, hp, hgap, hn with
    | none :: values, hp, hgap, hn =>
      have hall := (List.pairwise_cons.mp hgap).1
      refine holds_nulls hc hp.length_eq (fun v hv => ?_) fun k hk => ?_
      · rcases List.mem_cons.mp hv with rfl | hv
        · rfl
        · exact hall v hv rfl
      · have hk' := List.getElem?_eq_getElem hk
        rw [hn k _ hk']
        rcases List.mem_cons.mp (List.getElem_mem hk) with he | he
        · rw [he]
          rfl
        · rw [hall _ he rfl]
          rfl
    | some value :: values, hp, hgap, hn =>
      obtain ⟨cells, rest, rfl, hlen, hread, hrest⟩ := hp
      have hnull : row.isNull i = false := hn 0 _ rfl
      have hpos' : Consecutive (before ++ cells).length metadata := by
        rw [List.length_append, hlen]
        exact hpos.2
      have hdata' : row.data = (before ++ cells) ++ rest ++ after := by
        rw [hdata]
        simp only [List.append_assoc]
      refine ⟨?_, ih hc.tail hpos' hrest (List.pairwise_cons.mp hgap).2 hdata' fun k v hv => ?_⟩
      · have hload : load row.data m.position m.size = .ok cells := by
          rw [hpos.1, hdata, load, if_pos (by simp only [List.length_append]; omega),
            List.append_assoc, List.drop_left, List.append_assoc, ← hlen, List.take_left]
        rw [elementAt_eq hc.head, hnull, if_neg (by decide), hload, ok_bind, hread]
        rfl
      · have hh := hn (k + 1) v hv
        rwa [show i + (k + 1) = i + 1 + k by omega] at hh

end

section row

variable {heap : Heap} {s : Schema} {row : TupleRowData} {values : List (Option Bytes)}

theorem Schema.u16_length (s : Schema) : u16 s.columns.length = s.columns.length :=
  Nat.mod_eq_of_lt s.bounded

theorem RowOver.nElem (h : RowOver heap s row) : row.nElem = s.columns.length := by
  rw [TupleRowData.nElem, h.metadatas, s.u16_length]

theorem RowOver.columns (h : RowOver heap s row) : ColumnsFrom row 0 s.columns :=
  ⟨fun k m hm => by rw [Nat.zero_add, h.metadatas, hm], sizes_of_laidOut s.laidOut⟩

theorem RowOver.elementAt (h : RowOver heap s row) {i : Nat} {m : ColumnMeta}
    (hm : s.columns[i]? = some m) (ht : m.type.isPlain = true) :
    ∃ value, elementAt heap row m i = .ok value := by
  rw [elementAt_eq (by rw [h.metadatas, hm])]
  split
  · exact ⟨none, rfl⟩
  · rename_i hn
    obtain ⟨cells, hload, hc⟩ := h.elements i m hm (by simpa using hn)
    rw [hload, ok_bind]
    cases hc with
    | value hv =>
      rw [hv]
      exact ⟨_, rfl⟩
    | tuple ht' =>
      rw [ht'] at ht
      cases ht

theorem exists_holdsFrom {metadata : List ColumnMeta} {i : Nat}
    (h : ∀ k m, metadata[k]? = some m → ∃ value, elementAt heap row m (i + k) = .ok value) :
    ∃ values, HoldsFrom heap row i metadata values := by
  induction metadata generalizing i with
  | nil => exact ⟨[], trivial⟩
  | cons m metadata ih =>
    obtain ⟨value, hv⟩ := h 0 m rfl
    obtain ⟨values, hvs⟩ := ih (i := i + 1) fun k c hc => by
      have hh := h (k + 1) c hc
      rwa [show i + (k + 1) = i + 1 + k by omega] at hh
    exact ⟨value :: values, hv, hvs⟩

theorem RowOver.exists_values (h : RowOver heap s row) (ht : ∀ m ∈ s.columns, m.type.isPlain = true) :
    ∃ values, HoldsFrom heap row 0 s.columns values :=
  exists_holdsFrom fun k m hm => by
    rw [Nat.zero_add]
    exact h.elementAt hm (ht m (List.mem_of_getElem? hm))

theorem HoldsFrom.get {metadata : List ColumnMeta} {i k : Nat} {m : ColumnMeta}
    (h : HoldsFrom heap row i metadata values) (hm : metadata[k]? = some m) :
    ∃ value, values[k]? = some value ∧ Hecuba.elementAt heap row m (i + k) = .ok value := by
  induction metadata generalizing i k values with
  | nil => cases hm
  | cons c metadata ih =>
    cases values with
    | nil => exact h.elim
    | cons value values =>
      cases k with
      | zero =>
        cases hm
        exact ⟨value, rfl, h.1⟩
      | succ k =>
        obtain ⟨v, hv, he⟩ := ih h.2 hm
        exact ⟨v, hv, by rwa [show i + (k + 1) = i + 1 + k by omega]⟩

theorem HoldsFrom.length {metadata : List ColumnMeta} {i : Nat}
    (h : HoldsFrom heap row i metadata values) : metadata.length = values.length := by
  induction metadata generalizing i values with
  | nil =>
    cases values with
    | nil => rfl
    | cons => exact h.elim
  | cons c metadata ih =>
    cases values with
    | nil => exact h.elim
    | cons value values => simpa using ih h.2

theorem HoldsFrom.valid {metadata : List ColumnMeta} {i : Nat}
    (h : HoldsFrom heap row i metadata values) (hc : ColumnsFrom row i metadata)
    (ht : ∀ m ∈ metadata, m.type.isPlain = true) : ValidFrom metadata values := by
  induction metadata generalizing i values with
  | nil =>
    cases values with
    | nil => trivial
    | cons => exact h.elim
  | cons m metadata ih =>
    cases values with
    | nil => exact h.elim
    | cons value values =>
      refine ⟨fun v hv => ?_, ih h.2 hc.tail fun c hm => ht c (List.mem_cons_of_mem _ hm)⟩
      subst hv
      obtain ⟨pos, cells, hp⟩ := holdsPlain_of_elementAt (ht m List.mem_cons_self)
        (hc.sizes m List.mem_cons_self) h.1
      exact hp.valid

theorem HoldsFrom.isNull {metadata : List ColumnMeta} {i : Nat}
    (h : HoldsFrom heap row i metadata values) (hc : ColumnsFrom row i metadata) {k : Nat}
    {value : Option Bytes} (hv : values[k]? = some value) : row.isNull (i + k) = value.isNone := by
  have hlt : k < metadata.length := by
    rw [h.length]
    exact (List.getElem?_eq_some_iff.mp hv).1
  have hm := List.getElem?_eq_getElem hlt
  obtain ⟨v, hv', he⟩ := h.get hm
  rw [hv] at hv'
  cases hv'
  exact isNull_of_elementAt (hc.metadatas k _ hm) he

theorem contentSizes_plain (hm : row.metadatas = s.columns)
    (ht : ∀ m ∈ s.columns, m.type.isPlain = true) (hv : HoldsFrom heap row 0 s.columns values) :
    getContentSizes heap s.columns row = .ok (List.zipWith encodedSize s.columns values) := by
  have hc : ColumnsFrom row 0 s.columns :=
    ⟨fun k m hk => by rw [Nat.zero_add, hm, hk], sizes_of_laidOut s.laidOut⟩
  rw [getContentSizes, checkSizes, if_pos (by rw [TupleRowData.nElem, hm, s.u16_length])]
  exact (encodeColumns_plain hc ht hv fun _ => 0).1

theorem encode_plain (h : RowOver heap s row) (ht : ∀ m ∈ s.columns, m.type.isPlain = true)
    (hv : HoldsFrom heap row 0 s.columns values) (junk : Nat → UInt8) :
    getContentSizes heap s.columns row = .ok (List.zipWith encodedSize s.columns values) ∧
      encodeChunks heap s.columns row junk = .ok (List.zipWith encodedCells s.columns values) ∧
      encode heap s.columns row junk =
        .ok (byteCells (nullHeader row.nullValues s.columns.length junk) ++
          (List.zipWith encodedCells s.columns values).flatten) := by
  have hsizes := contentSizes_plain h.metadatas ht hv
  have hchunks : encodeChunks heap s.columns row junk =
      .ok (List.zipWith encodedCells s.columns values) := by
    rw [encodeChunks, if_neg (by rw [h.nElem, s.u16_length]; simp), hsizes]
    exact (encodeColumns_plain h.columns ht hv junk).2
  refine ⟨hsizes, hchunks, ?_⟩
  rw [encode, hchunks, h.nElem]
  rfl

theorem nullsMatch_of {words : List (BitVec 32)} {i : Nat}
    (h : ∀ k v, values[k]? = some v → nullAt words (i + k) = v.isNone) :
    NullsMatch words i values := by
  induction values generalizing i with
  | nil => trivial
  | cons value values ih =>
    refine ⟨h 0 value rfl, ih fun k v hv => ?_⟩
    have hh := h (k + 1) v hv
    rwa [show i + (k + 1) = i + 1 + k by omega] at hh

theorem decode_plain (ht : ∀ m ∈ s.columns, m.type.isPlain = true)
    (hsum : sizeSum s.columns < 2 ^ 16) (hv : ValidFrom s.columns values)
    (hlen : s.columns.length = values.length) (hgap : NoGap values) {words : List (BitVec 32)}
    {junk : Nat → UInt8}
    (hn : ∀ k v, values[k]? = some v →
      nullAt (recoveredNulls words s.columns.length junk) k = v.isNone)
    (heap₀ : Heap) (junk' : Nat → UInt8) (rest : List Cell) :
    ∃ d, decode heap₀ s.columns junk' (byteCells (nullHeader words s.columns.length junk) ++
        ((List.zipWith wireCells s.columns values).flatten ++ rest)) = .ok d ∧
      d.row.metadatas = s.columns ∧
      d.row.nullValues = recoveredNulls words s.columns.length junk ∧
      d.sizes = List.zipWith (fun m v => (wireCells m v).length) s.columns values ∧
      d.row.data.length = sizeSum s.columns ∧
      HoldsFrom d.heap d.row 0 s.columns values ∧ heap₀ <+: d.heap := by
  obtain ⟨heap', packed, hdec, hp, hpack⟩ := @decodeColumns_plain junk' _ _ _
    (sizes_of_laidOut s.laidOut) ht hv 0 (nullsMatch_of fun k v hk => by
      rw [Nat.zero_add]
      exact hn k v hk) heap₀ rest
  have htotal := totalBytes_of_laidOut s.laidOut hsum
  have hle := hpack.length_le
  have hbuf : rowBuffer s.columns junk' packed = .ok (packed ++ byteCells
      ((List.range' packed.length (totalBytes s.columns - packed.length)).map junk')) := by
    rw [rowBuffer, if_pos (by rw [htotal]; exact hle)]
  refine ⟨⟨heap', ⟨s.columns, packed ++ byteCells ((List.range' packed.length
    (totalBytes s.columns - packed.length)).map junk'), recoveredNulls words s.columns.length junk⟩, _⟩,
    ?_, rfl, rfl, rfl, ?_, ?_, hp⟩
  · rw [decode, s.u16_length, decodeNulls_append, ok_bind, List.drop_left' (by simp), hdec, ok_bind]
    show (rowBuffer s.columns junk' packed >>= _) = _
    rw [hbuf]
    rfl
  · simp only [List.length_append, byteCells_length, List.length_map, List.length_range', htotal]
    omega
  · have hstart : Consecutive ([] : List Cell).length s.columns :=
      consecutive_of_laidOut s.laidOut (by simpa using hsum)
    refine holds_of_packed ⟨fun k m hm => by rw [Nat.zero_add, hm], sizes_of_laidOut s.laidOut⟩
      hstart hpack hgap rfl fun k v hk => ?_
    have hpos : 0 < (recoveredNulls words s.columns.length junk).length := by
      have hk' : k < s.columns.length := hlen ▸ (List.getElem?_eq_some_iff.mp hk).1
      have hw := div_lt_wordsFor hk'
      rw [recoveredNulls, List.length_map, nullHeader_length]
      omega
    rw [Nat.zero_add, isNull_eq_nullAt hpos]
    exact hn k v hk

end row

end Hecuba
