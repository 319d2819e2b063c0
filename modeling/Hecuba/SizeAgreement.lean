import Hecuba.StreamMessage

/-! The sizes of a column: the bytes that encode writes for it, those that decode takes and
the content size of what has been decoded. They are the same for the plain types alone. -/

namespace Hecuba

/-- A row whose columns take the same room when written, read and asked for. -/
def SizesAgree (heap : Heap) (s : Schema) (row : TupleRowData) : Prop :=
  ∀ heap₀ junk junk', ∃ chunks buff d sizes, encodeChunks heap s.columns row junk = .ok chunks ∧
    encode heap s.columns row junk = .ok buff ∧ decode heap₀ s.columns junk' buff = .ok d ∧
    getContentSizes d.heap s.columns d.row = .ok sizes ∧
    chunks.map List.length = d.sizes ∧ d.sizes = sizes

section

variable {heap : Heap} {row : TupleRowData} {metadata : List ColumnMeta} {m : ColumnMeta} {i k : Nat}
  {junk : Nat → UInt8}

theorem contentSizesFrom_get {sizes : List Nat} (h : contentSizesFrom heap metadata row i = .ok sizes)
    (hm : metadata[k]? = some m) :
    ∃ size, sizes[k]? = some size ∧ contentSizeOf heap m row (i + k) = .ok size := by
  induction metadata generalizing i k sizes with
  | nil => cases hm
  | cons c metadata ih =>
    rw [contentSizesFrom] at h
    obtain ⟨size, hs, h⟩ := bind_eq_ok h
    obtain ⟨rest, hr, h⟩ := bind_eq_ok h
    cases h
    cases k with
    | zero =>
      cases hm
      exact ⟨size, rfl, hs⟩
    | succ k =>
      obtain ⟨size', hs', hc⟩ := ih hr hm
      exact ⟨size', hs', by rwa [show i + (k + 1) = i + 1 + k by omega]⟩

theorem encodeColumns_get {sizes : List Nat} {chunks : List (List Cell)} {size : Nat}
    (h : encodeColumns heap junk metadata row i sizes = .ok chunks) (hm : metadata[k]? = some m)
    (hs : sizes[k]? = some size) :
    ∃ chunk, chunks[k]? = some chunk ∧ encodeColumn heap junk m row (i + k) size = .ok chunk := by
  induction metadata generalizing i k sizes chunks with
  | nil => cases hm
  | cons c metadata ih =>
    rw [encodeColumns] at h
    obtain ⟨chunk, hc, h⟩ := bind_eq_ok h
    obtain ⟨rest, hr, h⟩ := bind_eq_ok h
    cases h
    cases sizes with
    | nil => cases hs
    | cons s sizes =>
      cases k with
      | zero =>
        cases hm
        cases hs
        exact ⟨chunk, rfl, hc⟩
      | succ k =>
        obtain ⟨chunk', hs', hc'⟩ := ih hr hm hs
        exact ⟨chunk', hs', by rwa [show i + (k + 1) = i + 1 + k by omega]⟩

theorem encodeChunks_get {chunks : List (List Cell)}
    (h : encodeChunks heap metadata row junk = .ok chunks) (hm : metadata[k]? = some m) :
    ∃ size chunk, chunks[k]? = some chunk ∧ contentSizeOf heap m row k = .ok size ∧
      encodeColumn heap junk m row k size = .ok chunk := by
  rw [encodeChunks] at h
  dsimp only at h
  split at h
  · cases h
  obtain ⟨sizes, hs, h⟩ := bind_eq_ok h
  obtain ⟨-, -, hs⟩ := bind_eq_ok hs
  obtain ⟨size, hk, hsize⟩ := contentSizesFrom_get hs hm
  obtain ⟨chunk, hc, he⟩ := encodeColumns_get h hm hk
  rw [Nat.zero_add] at hsize he
  exact ⟨size, chunk, hc, hsize, he⟩

/-- Where decode takes for each column what encode wrote for it, it reads each column from
where it was written. -/
theorem decodeColumns_aligned {words : List (BitVec 32)} {heap heap' : Heap} {packed : List Cell}
    {chunks : List (List Cell)}
    (h : decodeColumns junk metadata words i heap chunks.flatten =
      .ok (heap', packed, chunks.map List.length))
    (hn : ∀ k < metadata.length, nullAt words (i + k) = false) (hm : metadata[k]? = some m) :
    ∃ heap₁ heap₂ cells chunk rest, chunks[k]? = some chunk ∧
      (chunks.drop k).flatten = chunk ++ rest ∧
      decodeColumn junk m heap₁ (chunk ++ rest) = .ok (heap₂, cells, chunk.length) := by
  induction metadata generalizing i k heap packed chunks with
  | nil => cases hm
  | cons c metadata ih =>
    obtain ⟨heap₁, cells, size, packed₁, sizes₁, hc, hd, rfl, hs⟩ := decodeColumns_cons h
    cases chunks with
    | nil => cases hs
    | cons chunk chunks =>
      cases hs
      have hnull : nullAt words i = false := hn 0 (Nat.succ_pos _)
      rw [hnull, if_neg (by decide), List.flatten_cons] at hc
      cases k with
      | zero =>
        cases hm
        exact ⟨heap, heap₁, cells, chunk, chunks.flatten, rfl, rfl, hc⟩
      | succ k =>
        rw [List.flatten_cons, List.drop_left] at hd
        have hn' (j : Nat) (hj : j < metadata.length) : nullAt words (i + 1 + j) = false := by
          have hh := hn (j + 1) (Nat.succ_lt_succ hj)
          rwa [show i + (j + 1) = i + 1 + j by omega] at hh
        obtain ⟨h₁, h₂, out, chunk', rest, hget, hflat, hdec⟩ := @ih _ k _ _ _ hd hn' hm
        exact ⟨h₁, h₂, out, chunk', rest, hget, hflat, hdec⟩

theorem copyElement_length {type : CassValueType} {pos n : Nat} {out : List Cell}
    (h : copyElement heap type row pos n = .ok out) : out.length = n := by
  cases type with
  | varchar | text | ascii | date | time | timestamp | udt | uuid | tuple | blob =>
    obtain ⟨address, -, h⟩ := bind_eq_ok h
    obtain ⟨d, -, h⟩ := bind_eq_ok h
    exact (load_spec h).2.2
  | varint | bigint | boolean | counter | double | float | int | smallInt | tinyInt =>
    exact (load_spec h).2.2
  | decimal | timeuuid | inet | list | map | set | custom | unknown => cases h

theorem encodeColumn_not_tuple (hm : row.metadatas[k]? = some m) (hn : row.isNull k = false)
    (ht : m.type ≠ .tuple) (n : Nat) :
    encodeColumn heap junk m row k n = copyElement heap m.type row m.position n := by
  have hget : row.getElement k = some m.position := by
    rw [TupleRowData.getElement, hn, hm]
    rfl
  obtain ⟨position, size, type, pointer⟩ := m
  rw [encodeColumn, hget]
  exact if_neg ht

end

section types

variable {heap : Heap} {s : Schema} {row : TupleRowData} {k : Nat} {m : ColumnMeta}
  {junk : Nat → UInt8} {size : Nat} {chunk : List Cell}

theorem addressOf_byteCells (bytes : Bytes) : addressOf (byteCells bytes) = .error .outOfBounds := by
  cases bytes <;> rfl

theorem blob_chunk {cells : List Cell} {value : Bytes} {position n : Nat}
    (hload : load row.data position 8 = .ok cells)
    (hv : (do
      let d ← derefBlock heap (← addressOf cells)
      loadBytes d 0 (8 + (← loadWord d 0))) = .ok value)
    (hs : (do
      return u32 ((← loadWord (← derefBlock heap (← loadPointer row.data position)) 0) + 8)) =
        Except.ok (ε := Fault) n)
    (he : (do load (← derefBlock heap (← loadPointer row.data position)) 0 n) = .ok chunk) :
    ∃ bytes, chunk = byteCells bytes := by
  obtain ⟨address, ha, hv⟩ := bind_eq_ok hv
  obtain ⟨d, hd, hv⟩ := bind_eq_ok hv
  obtain ⟨w, hw, hv⟩ := bind_eq_ok hv
  obtain ⟨hlen, rest, rfl⟩ := loadBytes_spec hv
  rw [loadPointer, hload, ok_bind, ha, ok_bind, hd, ok_bind] at hs he
  rw [hw] at hs
  cases hs
  have hle : u32 (w + 8) ≤ w + 8 := Nat.mod_le _ _
  obtain ⟨-, rfl, -⟩ := load_spec he
  refine ⟨value.take (u32 (w + 8)), ?_⟩
  rw [List.drop_zero, List.take_append_of_le_length (by rw [byteCells_length]; omega)]
  exact (List.map_take ..).symm

/-- What encode writes for a column is bytes. A date is a number in the row, and encode
takes it for an address. -/
theorem encoded_type (h : RowOver heap s row) (hn : NoNulls s row) (hm : s.columns[k]? = some m)
    (hs : contentSizeOf heap m row k = .ok size)
    (he : encodeColumn heap junk m row k size = .ok chunk) :
    m.type = .tuple ∨ m.type = .counter ∨
      (m.type.isPlain = true ∨ m.type = .blob ∨ m.type = .udt) ∧ ∃ bytes, chunk = byteCells bytes := by
  have hk : k < s.columns.length := (List.getElem?_eq_some_iff.mp hm).1
  have hget : row.getElement k = some m.position := by
    rw [TupleRowData.getElement, hn k hk, h.metadatas, hm]
    rfl
  have hsize := h.columns.sizes m (List.mem_of_getElem? hm)
  obtain ⟨cells, hload, hc⟩ := h.elements k m hm (hn k hk)
  cases hc with
  | tuple ht => exact .inl ht
  | @value _ _ value hv =>
    by_cases hp : m.type.isPlain = true
    · have hh : HoldsPlain heap row m k m.position value cells :=
        ⟨hget, hload, plain_of_readValue hp hv, hsize⟩
      rw [hh.contentSize] at hs
      cases hs
      rw [hh.encodeColumn junk] at he
      cases he
      exact .inr (.inr ⟨.inl hp, _, rfl⟩)
    · obtain ⟨position, msize, type, pointer⟩ := m
      rw [contentSizeOf, hget] at hs
      rw [encodeColumn, hget] at he
      dsimp only at hp hv hs he hsize hload
      cases type with
      | counter => exact .inr (.inl rfl)
      | blob | udt =>
        cases hsize
        exact .inr (.inr ⟨.inr (by simp), blob_chunk hload hv hs he⟩)
      | date | time | timestamp =>
        cases hsize
        rw [if_neg (by decide)] at he
        obtain ⟨address, ha, -⟩ := bind_eq_ok he
        rw [loadPointer, hload, ok_bind, eq_byteCells hv, addressOf_byteCells] at ha
        cases ha
      | _ => first | exact absurd rfl hp | cases hv

end types

theorem loadPointer_mem {cells : List Cell} {pos address : Nat}
    (h : loadPointer cells pos = .ok address) : Cell.pointer address 0 ∈ cells := by
  obtain ⟨out, ho, ha⟩ := bind_eq_ok h
  obtain ⟨-, rfl, -⟩ := load_spec ho
  have hmem : Cell.pointer address 0 ∈ (cells.drop pos).take 8 := by
    rw [eq_pointerCells ha]
    exact List.mem_cons_self
  exact List.mem_of_mem_drop (List.mem_of_mem_take hmem)

theorem pointer_not_mem_byteCells (address i : Nat) (bytes : Bytes) :
    Cell.pointer address i ∉ byteCells bytes := by
  intro h
  obtain ⟨b, -, hb⟩ := List.mem_map.mp h
  cases hb

section agreement

variable {heap : Heap} {s : Schema} {row : TupleRowData}

/-- One agreeing encode and decode, column by column. -/
structure Agreed (heap : Heap) (s : Schema) (row : TupleRowData) (chunks : List (List Cell))
    (d : Decoded) : Prop where
  written : ∀ (k : Nat) m, s.columns[k]? = some m → ∃ size chunk, chunks[k]? = some chunk ∧
    contentSizeOf heap m row k = .ok size ∧ encodeColumn heap (fun _ => 0) m row k size = .ok chunk
  count : chunks.length = s.columns.length
  taken : ∀ (k : Nat) m, s.columns[k]? = some m → ∃ heap₁ heap₂ cells chunk rest, chunks[k]? = some chunk ∧
    (chunks.drop k).flatten = chunk ++ rest ∧
    decodeColumn (fun _ => 0) m heap₁ (chunk ++ rest) = .ok (heap₂, cells, chunk.length)
  held : ∀ (k : Nat) m, s.columns[k]? = some m → ∃ cells size,
    load d.row.data m.position m.size = .ok cells ∧ DecodedAs d.heap m cells size
  content : ∀ (k : Nat) m, s.columns[k]? = some m → ∃ size, contentSizeOf d.heap m d.row k = .ok size
  element : ∀ (k : Nat) m, s.columns[k]? = some m → d.row.getElement k = some m.position

theorem agreed_of_sizesAgree (h : RowOver heap s row) (hn : NoNulls s row)
    (ha : SizesAgree heap s row) : ∃ chunks d, encodeChunks heap s.columns row (fun _ => 0) = .ok chunks ∧
      Agreed heap s row chunks d := by
  obtain ⟨chunks, buff, d, sizes, hc, hb, hd, hs, hlen, -⟩ := ha [] (fun _ => 0) fun _ => 0
  rw [encode, hc, h.nElem] at hb
  cases hb
  obtain ⟨packed, hcols, hbuf, hwords, hmeta⟩ := decode_spec hd
  rw [← hlen] at hcols
  have hnull (k : Nat) (hk : k < s.columns.length) :
      nullAt (recoveredNulls row.nullValues s.columns.length fun _ => 0) (0 + k) = false := by
    rw [Nat.zero_add]
    exact nullAt_of_noNulls h hn _ hk
  have hsizes := sizes_of_laidOut s.laidOut
  have hstart : Consecutive ([] : List Cell).length s.columns :=
    consecutive_of_laidOut s.laidOut (by simpa using h.sizeSum_lt hn)
  obtain ⟨cellss, rfl, hcells⟩ := decodeColumns_cells hsizes hcols (List.prefix_refl _)
  obtain ⟨rest, hdata⟩ := rowBuffer_eq hbuf
  obtain ⟨-, -, hs⟩ := bind_eq_ok hs
  refine ⟨chunks, d, hc, fun k m hm => encodeChunks_get hc hm, ?_,
    fun k m hm => decodeColumns_aligned hcols hnull hm, fun k m hm => ?_, fun k m hm => ?_,
    fun k m hm => ?_⟩
  · rw [← hcells.sizes_length, List.length_map]
  · have hk : k < s.columns.length := (List.getElem?_eq_some_iff.mp hm).1
    obtain ⟨cells, size, -, hload, hdec⟩ := load_decoded hstart hcells hm
      fun j hj => hnull j (by omega)
    rw [List.nil_append, ← hdata] at hload
    exact ⟨cells, size, hload, hdec⟩
  · obtain ⟨size, -, hsize⟩ := contentSizesFrom_get hs hm
    exact ⟨size, by rwa [Nat.zero_add] at hsize⟩
  · have hk : k < s.columns.length := (List.getElem?_eq_some_iff.mp hm).1
    have hpos : 0 < d.row.nullValues.length := by
      have hw := div_lt_wordsFor hk
      rw [hwords, recoveredNulls, List.length_map, nullHeader_length]
      omega
    have hk0 := hnull k hk
    rw [Nat.zero_add, ← hwords, ← isNull_eq_nullAt hpos] at hk0
    rw [TupleRowData.getElement, hk0, hmeta, hm]
    rfl

variable {chunks : List (List Cell)} {d : Decoded} {k : Nat} {m : ColumnMeta}

/-- A decoded tuple is a pointer to the cells of the tuple, where a row is expected. -/
theorem Agreed.not_tuple (ha : Agreed heap s row chunks d) (hm : s.columns[k]? = some m) :
    m.type ≠ .tuple := by
  intro ht
  obtain ⟨cells, size, hload, hdec⟩ := ha.held k m hm
  obtain ⟨a, b, rfl, hb⟩ := hdec.tuple ht
  have hsize := hdec.length
  obtain ⟨n, hn⟩ := ha.content k m hm
  obtain ⟨position, msize, type, pointer⟩ := m
  dsimp only at ht hload hsize
  subst ht
  rw [contentSizeOf, ha.element k _ hm] at hn
  dsimp only at hn
  rw [loadPointer, show 8 = msize from hsize, hload, ok_bind, addressOf_pointerCells, ok_bind, derefRow,
    hb] at hn
  cases hn

/-- A counter is written in eight bytes and read from four. -/
theorem Agreed.not_counter (h : RowOver heap s row) (hn : NoNulls s row)
    (ha : Agreed heap s row chunks d) (hm : s.columns[k]? = some m) : m.type ≠ .counter := by
  intro ht
  have hk : k < s.columns.length := (List.getElem?_eq_some_iff.mp hm).1
  obtain ⟨size, chunk, hget, hs, he⟩ := ha.written k m hm
  obtain ⟨heap₁, heap₂, cells, chunk', rest, hget', -, hd⟩ := ha.taken k m hm
  rw [hget] at hget'
  cases hget'
  have hsize := h.columns.sizes m (List.mem_of_getElem? hm)
  have hel : row.getElement k = some m.position := by
    rw [TupleRowData.getElement, hn k hk, h.metadatas, hm]
    rfl
  rw [encodeColumn_not_tuple (by rw [h.metadatas, hm]) (hn k hk) (by rw [ht]; decide)] at he
  have hlen := copyElement_length he
  obtain ⟨position, msize, type, pointer⟩ := m
  dsimp only at ht hsize
  subst ht
  cases hsize
  rw [contentSizeOf, hel] at hs
  cases hs
  rw [decodeColumn.eq_def] at hd
  obtain ⟨out, -, hd⟩ := bind_eq_ok hd
  obtain ⟨-, -, hfour⟩ : heap₁ = heap₂ ∧ out = cells ∧ 4 = chunk.length := by simpa using hd
  omega

/-- A blob is written with its size before it, and decode takes the size for an address. -/
theorem Agreed.plain (h : RowOver heap s row) (hn : NoNulls s row) (ha : Agreed heap s row chunks d)
    (hm : s.columns[k]? = some m) : m.type.isPlain = true := by
  have htype (j : Nat) (c : ColumnMeta) (hc : s.columns[j]? = some c) :
      ∃ chunk, chunks[j]? = some chunk ∧
        (c.type.isPlain = true ∨ c.type = .blob ∨ c.type = .udt) ∧ ∃ bytes, chunk = byteCells bytes := by
    obtain ⟨size, chunk, hget, hs, he⟩ := ha.written j c hc
    rcases encoded_type h hn hc hs he with ht | ht | ht
    · exact (ha.not_tuple hc ht).elim
    · exact (ha.not_counter h hn hc ht).elim
    · exact ⟨chunk, hget, ht⟩
  have hbytes (address : Nat) : Cell.pointer address 0 ∉ chunks.flatten := by
    intro hmem
    obtain ⟨chunk, hchunk, hmem⟩ := List.mem_flatten.mp hmem
    obtain ⟨j, hj, rfl⟩ := List.getElem_of_mem hchunk
    obtain ⟨chunk', hget, -, bytes, rfl⟩ := htype j _ (List.getElem?_eq_getElem (ha.count ▸ hj))
    rw [List.getElem?_eq_getElem hj] at hget
    rw [Option.some.inj hget] at hmem
    exact pointer_not_mem_byteCells _ _ _ hmem
  obtain ⟨chunk, hget, ht, -⟩ := htype k m hm
  rcases ht with ht | ht
  · exact ht
  · obtain ⟨heap₁, heap₂, cells, chunk', rest, -, hflat, hd⟩ := ha.taken k m hm
    exfalso
    have hptr : ∃ address, loadPointer (chunk' ++ rest) 0 = .ok address := by
      obtain ⟨position, msize, type, pointer⟩ := m
      rw [decodeColumn.eq_def] at hd
      rcases ht with ht | ht <;>
      · dsimp only at ht
        subst ht
        obtain ⟨address, haddr, -⟩ := bind_eq_ok hd
        exact ⟨address, haddr⟩
    obtain ⟨address, haddr⟩ := hptr
    refine hbytes address ?_
    rw [← List.take_append_drop k chunks, List.flatten_append, List.mem_append]
    exact .inr (hflat ▸ loadPointer_mem haddr)

theorem byteCells_inj {a b : Bytes} (h : byteCells a = byteCells b) : a = b :=
  List.map_injective_iff.mpr (fun _ _ he => Cell.byte.inj he) h

theorem length_of_strlen {v : Bytes} {n l : Nat} {rest : List Cell} (hv : ∀ b ∈ v, b ≠ 0)
    (hle : n ≤ v.length + 1) (h : strlen (byteCells ((cString v).take n) ++ rest) = .ok l)
    (hl : l + 1 = n) : n = v.length + 1 := by
  obtain ⟨text, rest', hlen, -, heq⟩ := strlen_spec h
  have htake : (cString v).take n = cString text := by
    refine byteCells_inj (List.append_inj_left heq ?_)
    simp only [byteCells_length, List.length_take, cString, List.length_append, List.length_singleton]
    omega
  by_contra hne
  have hmem : (0 : UInt8) ∈ (cString v).take n := by
    rw [htake, cString]
    exact List.mem_append_right _ List.mem_cons_self
  rw [cString, List.take_append_of_le_length (by omega)] at hmem
  exact hv 0 (List.mem_of_mem_take hmem) rfl

/-- A text that is cut has lost its terminator, and decode takes more than encode wrote. -/
theorem Agreed.textsFit (h : RowOver heap s row) (ht : ∀ m ∈ s.columns, m.type.isPlain = true)
    (ha : Agreed heap s row chunks d) : TextsFit heap s row := by
  intro k m v hm hx he
  obtain ⟨pos, cells, hp⟩ := holdsPlain_of_elementAt (ht m (List.mem_of_getElem? hm))
    (h.columns.sizes m (List.mem_of_getElem? hm)) he
  obtain ⟨size, chunk, hget, hs, hc⟩ := ha.written k m hm
  rw [hp.contentSize] at hs
  cases hs
  rw [hp.encodeColumn] at hc
  cases hc
  obtain ⟨heap₁, heap₂, out, chunk', rest, hget', -, hd⟩ := ha.taken k m hm
  rw [hget] at hget'
  cases hget'
  have hlen : (cString v).length = v.length + 1 := by simp [cString]
  have hu : u32 (v.length + 1) ≤ v.length + 1 := Nat.mod_le _ _
  rw [wire_of_text hx, byteCells_length, List.length_take, hlen, Nat.min_eq_left hu] at hd
  obtain ⟨l, hl, hone⟩ : ∃ l, strlen (byteCells ((cString v).take (u32 (v.length + 1))) ++ rest) = .ok l ∧
      l + 1 = u32 (v.length + 1) := by
    obtain ⟨position, msize, type, pointer⟩ := m
    rw [decodeColumn.eq_def] at hd
    dsimp only at hx
    cases type with
    | text | varchar | ascii =>
      obtain ⟨l, hl, hd⟩ := bind_eq_ok hd
      exact ⟨l, hl, (allocate_spec hd).1.symm⟩
    | _ => cases hx
  rw [← length_of_strlen (hp.valid.text hx) hu hl hone]
  exact Nat.mod_lt _ (by decide)

theorem zipWith_sizes_of_fits {values : List (Option Bytes)}
    (h : ∀ (k : Nat) m v, s.columns[k]? = some m → values[k]? = some v → Fits m v) :
    List.zipWith encodedSize s.columns values =
      List.zipWith (fun m v => (wireCells m v).length) s.columns values := by
  have hh := congrArg (List.map List.length) (zipWith_encoded_of_fits h)
  rw [List.map_zipWith, List.map_zipWith] at hh
  simpa only [encodedCells_length] using hh

/-- Encode, decode and the content sizes agree on a row without nulls exactly when no column
is a counter, a blob, a UDT, a tuple, a date, a time or a timestamp, and the lengths of the
texts fit in 32 bits. -/
theorem sizes_agree_iff (h : RowOver heap s row) (hn : NoNulls s row) :
    SizesAgree heap s row ↔ (∀ m ∈ s.columns, m.type.isPlain = true) ∧ TextsFit heap s row := by
  constructor
  · intro ha
    obtain ⟨chunks, d, -, hagreed⟩ := agreed_of_sizesAgree h hn ha
    have ht (m : ColumnMeta) (hm : m ∈ s.columns) : m.type.isPlain = true := by
      obtain ⟨k, hk, rfl⟩ := List.getElem_of_mem hm
      exact hagreed.plain h hn (List.getElem?_eq_getElem hk)
    exact ⟨ht, hagreed.textsFit h ht⟩
  · rintro ⟨ht, hfit⟩ heap₀ junk junk'
    obtain ⟨values, hv⟩ := h.exists_values ht
    obtain ⟨-, hchunks, hbuff⟩ := encode_plain h ht hv junk
    obtain ⟨d, hd, hdm, hds, -, hdv, -⟩ := decode_noNulls h hn ht hfit hv heap₀ junk junk' []
    rw [List.append_nil] at hd
    have hsizes := zipWith_sizes_of_fits (fits_of_textsFit hfit h ht hv)
    refine ⟨_, _, d, _, hchunks, hbuff, hd, contentSizes_plain hdm ht hdv, ?_, ?_⟩
    · rw [hds, ← hsizes, List.map_zipWith]
      simp only [encodedCells_length]
    · rw [hds, hsizes]

end agreement

def counterAndInt : Schema where
  columns := [⟨0, 4, .counter, []⟩, ⟨4, 4, .int, []⟩]
  laidOut := by simp [LaidOut, computeSizeOf, u16]
  bounded := by decide

def counterRow : TupleRowData where
  metadatas := counterAndInt.columns
  data := byteCells (List.replicate 8 1)
  nullValues := [0]

theorem counterRow_over : RowOver [] counterAndInt counterRow where
  metadatas := rfl
  words := rfl
  size := rfl
  elements
    | 0, _, rfl, _ => ⟨_, rfl, .value (toBytes_byteCells (List.replicate 4 1))⟩
    | 1, _, rfl, _ => ⟨_, rfl, .value (toBytes_byteCells (List.replicate 4 1))⟩

theorem sizes_agree_numbers : SizesAgree [] (bigints 2 (by decide)) (bigintsRow 2 3) :=
  have h : 8 * 2 < 2 ^ 16 := by decide
  (sizes_agree_iff (bigintsRow_over h) (bigintsRow_noNulls h)).mpr
    ⟨bigints_plain h, bigints_textsFit h _ _⟩

/-- A counter takes eight bytes of the message, of which decode reads four. -/
theorem counter_sizes_differ :
    ¬ ∀ (heap : Heap) (s : Schema) (row : TupleRowData), RowOver heap s row → NoNulls s row →
      SizesAgree heap s row := by
  intro hall
  have hn : NoNulls counterAndInt counterRow
    | 0, _ => rfl
    | 1, _ => rfl
  obtain ⟨chunks, d, -, ha⟩ :=
    agreed_of_sizesAgree counterRow_over hn (hall _ _ _ counterRow_over hn)
  exact ha.not_counter counterRow_over hn (show counterAndInt.columns[0]? = some _ from rfl) rfl

end Hecuba
