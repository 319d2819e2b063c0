import Hecuba.ColumnCodec

/-! A whole row through encode and decode. The columns that are not null follow one
another in the message and again in the decoded buffer; readers look for each of them at
the position of the table. -/

namespace Hecuba

/-- The values of the columns from number `i` on. -/
def HoldsFrom (heap : Heap) (row : TupleRowData) : Nat → List ColumnMeta → List (Option Bytes) → Prop
  | _, [], [] => True
  | i, m :: metadata, value :: values =>
    elementAt heap row m i = .ok value ∧ HoldsFrom heap row (i + 1) metadata values
  | _, _, _ => False

def NullsMatch (words : List (BitVec 32)) : Nat → List (Option Bytes) → Prop
  | _, [] => True
  | i, value :: values => nullAt words i = value.isNone ∧ NullsMatch words (i + 1) values

/-- The columns of a row from number `i` on, laid out by a table. -/
structure ColumnsFrom (row : TupleRowData) (i : Nat) (metadata : List ColumnMeta) : Prop where
  metadatas : ∀ k m, metadata[k]? = some m → row.metadatas[i + k]? = some m
  sizes : ∀ m ∈ metadata, computeSizeOf m.type = .ok m.size

theorem ColumnsFrom.head {row : TupleRowData} {i : Nat} {m : ColumnMeta} {metadata : List ColumnMeta}
    (h : ColumnsFrom row i (m :: metadata)) : row.metadatas[i]? = some m :=
  h.metadatas 0 m rfl

theorem ColumnsFrom.tail {row : TupleRowData} {i : Nat} {m : ColumnMeta} {metadata : List ColumnMeta}
    (h : ColumnsFrom row i (m :: metadata)) : ColumnsFrom row (i + 1) metadata :=
  ⟨fun k c hc => by
    have hh := h.metadatas (k + 1) c hc
    rwa [show i + (k + 1) = i + 1 + k by omega] at hh,
    fun c hc => h.sizes c (List.mem_cons_of_mem _ hc)⟩

def encodedSize (m : ColumnMeta) : Option Bytes → Nat
  | none => 0
  | some value => u32 (wire m.type value).length

def encodedCells (m : ColumnMeta) : Option Bytes → List Cell
  | none => []
  | some value => byteCells ((wire m.type value).take (u32 (wire m.type value).length))

/-- A value that a column can hold. -/
structure ValidValue (m : ColumnMeta) (value : Bytes) : Prop where
  inline : m.type.isInline = true → value.length = m.size
  text : m.type.isText = true → ∀ b ∈ value, b ≠ 0
  uuid : m.type = .uuid → value.length = 16

section encoding

variable {heap : Heap} {row : TupleRowData} {i : Nat} {m : ColumnMeta} {metadata : List ColumnMeta}
  {values : List (Option Bytes)}

theorem elementAt_eq (h : row.metadatas[i]? = some m) :
    elementAt heap row m i = if row.isNull i then .ok none
      else do return some (← readValue heap m.type (← load row.data m.position m.size)) := by
  rw [elementAt, TupleRowData.getElement, h]
  cases row.isNull i <;> rfl

theorem isNull_of_elementAt (h : row.metadatas[i]? = some m) {value : Option Bytes}
    (he : elementAt heap row m i = .ok value) : row.isNull i = value.isNone := by
  rw [elementAt_eq h] at he
  split at he
  · rename_i hn
    cases he
    exact hn
  · rename_i hn
    obtain ⟨cells, -, he⟩ := bind_eq_ok he
    obtain ⟨v, -, he⟩ := bind_eq_ok he
    cases he
    simpa using hn

theorem holdsPlain_of_elementAt (ht : m.type.isPlain = true)
    (hsize : computeSizeOf m.type = .ok m.size) {value : Bytes}
    (he : elementAt heap row m i = .ok (some value)) :
    ∃ pos cells, HoldsPlain heap row m i pos value cells := by
  unfold elementAt at he
  split at he
  · cases he
  · rename_i pos hget
    obtain ⟨cells, hload, he⟩ := bind_eq_ok he
    obtain ⟨v, hv, he⟩ := bind_eq_ok he
    cases he
    exact ⟨pos, cells, hget, hload, plain_of_readValue ht hv, hsize⟩

theorem HoldsPlain.valid {pos : Nat} {value : Bytes} {cells : List Cell}
    (h : HoldsPlain heap row m i pos value cells) : ValidValue m value := by
  refine ⟨h.inline_length, fun ht => ?_, fun ht => ?_⟩
  · cases h.plain with
    | inline hi =>
      rw [not_text_of_inline hi] at ht
      cases ht
    | text _ hne => exact hne
    | uuid hu =>
      rw [hu] at ht
      cases ht
  · cases h.plain with
    | inline hi =>
      rw [ht] at hi
      cases hi
    | text hx =>
      rw [ht] at hx
      cases hx
    | uuid _ hlen => exact hlen

theorem encodeColumn_plain (ht : m.type.isPlain = true)
    (hsize : computeSizeOf m.type = .ok m.size) {value : Option Bytes}
    (he : elementAt heap row m i = .ok value) (junk : Nat → UInt8) :
    contentSizeOf heap m row i = .ok (encodedSize m value) ∧
      encodeColumn heap junk m row i (encodedSize m value) = .ok (encodedCells m value) := by
  cases value with
  | none =>
    have hget : row.getElement i = none := by
      unfold elementAt at he
      split at he
      · assumption
      · obtain ⟨cells, -, he⟩ := bind_eq_ok he
        obtain ⟨v, -, he⟩ := bind_eq_ok he
        cases he
    obtain ⟨position, size, type, pointer⟩ := m
    rw [contentSizeOf, encodeColumn, hget]
    exact ⟨rfl, rfl⟩
  | some value =>
    obtain ⟨pos, cells, h⟩ := holdsPlain_of_elementAt ht hsize he
    exact ⟨h.contentSize, h.encodeColumn junk⟩

theorem encodeColumns_plain (hc : ColumnsFrom row i metadata)
    (ht : ∀ m ∈ metadata, m.type.isPlain = true) (hv : HoldsFrom heap row i metadata values)
    (junk : Nat → UInt8) :
    contentSizesFrom heap metadata row i = .ok (List.zipWith encodedSize metadata values) ∧
      encodeColumns heap junk metadata row i (List.zipWith encodedSize metadata values) =
        .ok (List.zipWith encodedCells metadata values) := by
  induction metadata generalizing i values with
  | nil =>
    cases values with
    | nil => exact ⟨rfl, rfl⟩
    | cons => exact hv.elim
  | cons m metadata ih =>
    cases values with
    | nil => exact hv.elim
    | cons value values =>
      obtain ⟨hs, he⟩ := encodeColumn_plain (ht m List.mem_cons_self)
        (hc.sizes m List.mem_cons_self) hv.1 junk
      obtain ⟨hs', he'⟩ := ih hc.tail (fun c hm => ht c (List.mem_cons_of_mem _ hm)) hv.2
      rw [contentSizesFrom, encodeColumns, hs, ok_bind, hs', List.zipWith_cons_cons, List.headD_cons,
        he, ok_bind, List.tail_cons, he']
      exact ⟨rfl, rfl⟩

end encoding

/-- The columns that are not null, one after the other. -/
def PackedAs (heap : Heap) : List ColumnMeta → List (Option Bytes) → List Cell → Prop
  | [], [], packed => packed = []
  | _ :: metadata, none :: values, packed => PackedAs heap metadata values packed
  | m :: metadata, some value :: values, packed => ∃ cells rest, packed = cells ++ rest ∧
    cells.length = m.size ∧ readValue heap m.type cells = .ok value ∧ PackedAs heap metadata values rest
  | _, _, _ => False

def wireCells (m : ColumnMeta) : Option Bytes → List Cell
  | none => []
  | some value => byteCells (wire m.type value)

def ValidFrom : List ColumnMeta → List (Option Bytes) → Prop
  | [], [] => True
  | m :: metadata, value :: values =>
    (∀ v, value = some v → ValidValue m v) ∧ ValidFrom metadata values
  | _, _ => False

section decoding

variable {junk : Nat → UInt8} {metadata : List ColumnMeta} {values : List (Option Bytes)}
  {words : List (BitVec 32)}

theorem PackedAs.mono {heap heap' : Heap} (hp : heap <+: heap') {packed : List Cell}
    (ht : ∀ m ∈ metadata, m.type.isPlain = true) (h : PackedAs heap metadata values packed) :
    PackedAs heap' metadata values packed := by
  induction metadata generalizing values packed with
  | nil => cases values <;> exact h
  | cons m metadata ih =>
    have ih := fun values packed => @ih values packed fun c hc => ht c (List.mem_cons_of_mem _ hc)
    match values, h with
    | none :: values, h => exact ih values packed h
    | some value :: values, h =>
      obtain ⟨cells, rest, hcells, hlen, hread, hrest⟩ := h
      have hplain := plain_of_readValue (ht m List.mem_cons_self) hread
      exact ⟨cells, rest, hcells, hlen, (hplain.mono hp).readValue, ih values rest hrest⟩

section step

variable {m : ColumnMeta} {i : Nat} {heap heap₁ heap' : Heap} {buff cells packed : List Cell}
  {size : Nat} {sizes : List Nat}

theorem decodeColumns_null (hn : nullAt words i = true)
    (h : decodeColumns junk metadata words (i + 1) heap buff = .ok (heap', packed, sizes)) :
    decodeColumns junk (m :: metadata) words i heap buff = .ok (heap', packed, 0 :: sizes) := by
  rw [decodeColumns, if_pos hn, pure_eq_ok, ok_bind]
  show (decodeColumns junk metadata words (i + 1) heap (buff.drop 0) >>= _) = _
  rw [List.drop_zero, h]
  rfl

theorem decodeColumns_some (hn : nullAt words i = false)
    (hc : decodeColumn junk m heap buff = .ok (heap₁, cells, size))
    (h : decodeColumns junk metadata words (i + 1) heap₁ (buff.drop size) =
      .ok (heap', packed, sizes)) :
    decodeColumns junk (m :: metadata) words i heap buff =
      .ok (heap', cells ++ packed, size :: sizes) := by
  rw [decodeColumns, if_neg (by rw [hn]; decide), hc, ok_bind]
  show (decodeColumns junk metadata words (i + 1) heap₁ (buff.drop size) >>= _) = _
  rw [h]
  rfl

theorem decodeColumns_cons
    (h : decodeColumns junk (m :: metadata) words i heap buff = .ok (heap', packed, sizes)) :
    ∃ heap₁ cells size packed₁ sizes₁,
      (if nullAt words i then .ok (heap, [], 0) else decodeColumn junk m heap buff) =
          .ok (heap₁, cells, size) ∧
        decodeColumns junk metadata words (i + 1) heap₁ (buff.drop size) =
          .ok (heap', packed₁, sizes₁) ∧
        packed = cells ++ packed₁ ∧ sizes = size :: sizes₁ := by
  rw [decodeColumns] at h
  by_cases hn : nullAt words i = true
  · rw [if_pos hn] at h ⊢
    rw [pure_eq_ok, ok_bind] at h
    obtain ⟨⟨heap₂, packed₁, sizes₁⟩, hd, h⟩ := bind_eq_ok h
    cases h
    exact ⟨heap, [], 0, packed₁, sizes₁, rfl, hd, rfl, rfl⟩
  · rw [if_neg hn] at h ⊢
    obtain ⟨⟨heap₁, cells, size⟩, hc, h⟩ := bind_eq_ok h
    obtain ⟨⟨heap₂, packed₁, sizes₁⟩, hd, h⟩ := bind_eq_ok h
    cases h
    exact ⟨heap₁, cells, size, packed₁, sizes₁, hc, hd, rfl, rfl⟩

end step

theorem decodeColumns_plain (hs : ∀ m ∈ metadata, computeSizeOf m.type = .ok m.size)
    (ht : ∀ m ∈ metadata, m.type.isPlain = true) (hv : ValidFrom metadata values) {i : Nat}
    (hw : NullsMatch words i values) (heap : Heap) (rest : List Cell) :
    ∃ heap' packed, decodeColumns junk metadata words i heap
        ((List.zipWith wireCells metadata values).flatten ++ rest) =
          .ok (heap', packed, List.zipWith (fun m v => (wireCells m v).length) metadata values) ∧
      heap <+: heap' ∧ PackedAs heap' metadata values packed := by
  induction metadata generalizing values i heap with
  | nil =>
    cases values with
    | nil => exact ⟨heap, [], rfl, List.prefix_refl _, rfl⟩
    | cons => exact hv.elim
  | cons m metadata ih =>
    have ih := fun values => @ih values (fun c hc => hs c (List.mem_cons_of_mem _ hc))
      (fun c hc => ht c (List.mem_cons_of_mem _ hc))
    match values, hv, hw with
    | none :: values, hv, hw =>
      obtain ⟨heap', packed, hdec, hp, hpack⟩ := ih values hv.2 hw.2 heap
      exact ⟨heap', packed, decodeColumns_null hw.1 hdec, hp, hpack⟩
    | some value :: values, hv, hw =>
      have hvalid := hv.1 value rfl
      obtain ⟨heap₁, cells, hcol, hp₁, hlen, hplain⟩ := decodeColumn_wire (ht m List.mem_cons_self)
        (hs m List.mem_cons_self) hvalid.inline hvalid.text hvalid.uuid
        ((List.zipWith wireCells metadata values).flatten ++ rest)
      obtain ⟨heap', packed, hdec, hp, hpack⟩ := ih values hv.2 hw.2 heap₁
      refine ⟨heap', cells ++ packed, ?_, hp₁.trans hp, cells, packed, rfl, hlen,
        (hplain.mono hp).readValue, hpack⟩
      rw [List.zipWith_cons_cons, List.flatten_cons, List.append_assoc, List.zipWith_cons_cons,
        show wireCells m (some value) = byteCells (wire m.type value) from rfl, byteCells_length]
      refine decodeColumns_some hw.1 hcol ?_
      rw [List.drop_left' (byteCells_length _)]
      exact hdec

end decoding

end Hecuba
