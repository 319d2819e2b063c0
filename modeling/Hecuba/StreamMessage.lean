import Hecuba.NullRoundTrip

/-! Rows sent over a stream. A message is an encoded key followed by an encoded value, and
the receiver finds where the value starts from the key that it has decoded. -/

namespace Hecuba

structure TableMetadata where
  keys : Schema
  cols : Schema
  keys_pos : 0 < keys.columns.length
  cols_pos : 0 < cols.columns.length
  bounded : keys.columns.length + cols.columns.length < 2 ^ 16

namespace TableMetadata

/-- The position after the last key. -/
def keysOffset (t : TableMetadata) : Nat := totalBytes t.keys.columns

def moved (t : TableMetadata) (c : ColumnMeta) : ColumnMeta :=
  { c with position := u16 (c.position + t.keysOffset) }

def items (t : TableMetadata) : List ColumnMeta := t.keys.columns ++ t.cols.columns.map t.moved

end TableMetadata

/-- The message that the writer produces for a key and a value. -/
def sendEvent (heap : Heap) (t : TableMetadata) (key value : TupleRowData) (junk : Nat → UInt8) :
    Except Fault (List Cell) := do
  let keySizes ← getContentSizes heap t.keys.columns key
  let valueSizes ← getContentSizes heap t.cols.columns value
  let keySize := keySizes.sum
  let rowSize := keySize + valueSizes.sum + (4 * wordsFor key.nElem + 4 * wordsFor value.nElem)
  let start := keySize + 4 * wordsFor key.nElem
  let rowpayload := byteCells ((List.range rowSize).map junk)
  let rowpayload ← store rowpayload 0 (← encode heap t.keys.columns key junk)
  store rowpayload start (← encode heap t.cols.columns value fun j => junk (start + j))

/-- The words of a null vector with the nulls of a row marked from a position on. -/
def markNulls (row : TupleRowData) (start : Nat) (words : List (BitVec 32)) : List (BitVec 32) :=
  (List.range row.nElem).foldl (fun words i => if row.isNull i then
    words.modify ((start + i) / 32) (· ||| 1#32 <<< ((start + i) % 32)) else words) words

/-- The row that `poll` returns, and the key and value that it adds to the cache. -/
structure Polled where
  heap : Heap
  rows : List TupleRowData
  cached : Option (TupleRowData × TupleRowData)

def poll (heap : Heap) (t : TableMetadata) (junk : Nat → UInt8) (payload : List Cell) :
    Except Fault Polled := do
  let k ← decode heap t.keys.columns junk payload
  let keyslength ← getContentSize k.heap t.keys.columns k.row
  let v ← decode k.heap t.cols.columns junk (payload.drop (keyslength + 4 * wordsFor k.row.nElem))
  let nulls := List.replicate (wordsFor (k.row.nElem + v.row.nElem)) 0
  let nulls := markNulls v.row k.row.nElem (markNulls k.row 0 nulls)
  let isKeyAllNull := (List.range k.row.nElem).all k.row.isNull
  let row : TupleRowData := ⟨t.items, k.row.data ++ v.row.data, nulls⟩
  return ⟨v.heap, [row], if isKeyAllNull then none else some (k.row, v.row)⟩

theorem store_both {cells first second : List Cell} {start : Nat} (hs : start = first.length)
    (h : first.length + second.length = cells.length) :
    (do let cells ← store cells 0 first; let second ← Except.ok (ε := Fault) second
        store cells start second) = .ok (first ++ second) := by
  rw [store_front (by omega), ok_bind, ok_bind, hs]
  exact store_suffix (by rw [List.length_drop]; omega)

def NoNulls (s : Schema) (row : TupleRowData) : Prop :=
  ∀ i < s.columns.length, row.isNull i = false

theorem markNulls_of_none {row : TupleRowData} (h : ∀ i < row.nElem, row.isNull i = false)
    (start : Nat) (words : List (BitVec 32)) : markNulls row start words = words := by
  have hfold (l : List Nat) (hl : ∀ i ∈ l, row.isNull i = false) (words : List (BitVec 32)) :
      l.foldl (fun words i => if row.isNull i then
        words.modify ((start + i) / 32) (· ||| 1#32 <<< ((start + i) % 32)) else words) words =
      words := by
    induction l generalizing words with
    | nil => rfl
    | cons i l ih =>
      rw [List.foldl_cons, hl i List.mem_cons_self, if_neg (by decide)]
      exact ih (fun j hj => hl j (List.mem_cons_of_mem _ hj)) words
  exact hfold _ (fun i hi => h i (List.mem_range.mp hi)) words

section

variable {heap heap' : Heap} {s : Schema} {row row' : TupleRowData} {values : List (Option Bytes)}

/-- Columns whose positions have wrapped would end behind the row. -/
theorem sizeSum_lt_of_fits {metadata : List ColumnMeta} {position : Nat} (hp : position < 2 ^ 16)
    (h : LaidOut position metadata) (hle : ∀ m ∈ metadata, m.position + m.size < 2 ^ 16) :
    position + sizeSum metadata < 2 ^ 16 := by
  induction metadata generalizing position with
  | nil => exact hp
  | cons m metadata ih =>
    obtain ⟨rfl, -, hrest⟩ := h
    have hm := hle m List.mem_cons_self
    rw [show u16 (m.position + m.size) = m.position + m.size from Nat.mod_eq_of_lt hm] at hrest
    have hh := ih hm hrest fun c hc => hle c (List.mem_cons_of_mem _ hc)
    rw [sizeSum_cons]
    omega

theorem totalBytes_lt (metadata : List ColumnMeta) : totalBytes metadata < 2 ^ 16 := by
  unfold totalBytes
  split
  · decide
  · exact Nat.mod_lt _ (by decide)

theorem RowOver.sizeSum_lt (h : RowOver heap s row) (hn : NoNulls s row) :
    sizeSum s.columns < 2 ^ 16 := by
  have hh := sizeSum_lt_of_fits (by decide) s.laidOut fun m hm => by
    obtain ⟨i, hi, rfl⟩ := List.getElem_of_mem hm
    obtain ⟨cells, hload, -⟩ := h.elements i _ (List.getElem?_eq_getElem hi) (hn i hi)
    have hle := (load_spec hload).1
    have hlt := totalBytes_lt s.columns
    rw [h.size] at hle
    omega
  omega

theorem nullAt_of_noNulls (h : RowOver heap s row) (hn : NoNulls s row) (junk : Nat → UInt8)
    {i : Nat} (hi : i < s.columns.length) :
    nullAt (recoveredNulls row.nullValues s.columns.length junk) i = false := by
  have hpos : 0 < row.nullValues.length := by
    rw [h.words]
    exact Nat.lt_of_le_of_lt (Nat.zero_le _) (div_lt_wordsFor hi)
  rw [nullAt_recovered h.words junk hi, ← isNull_eq_nullAt hpos]
  exact hn _ (by split <;> omega)

theorem HoldsFrom.append {i : Nat} {a b : List ColumnMeta} {xs ys : List (Option Bytes)}
    (ha : HoldsFrom heap row i a xs) (hb : HoldsFrom heap row (i + a.length) b ys) :
    HoldsFrom heap row i (a ++ b) (xs ++ ys) := by
  induction a generalizing i xs with
  | nil =>
    cases xs with
    | nil => exact hb
    | cons => exact ha.elim
  | cons m a ih =>
    cases xs with
    | nil => exact ha.elim
    | cons x xs =>
      refine ⟨ha.1, ih ha.2 ?_⟩
      rwa [List.length_cons, show i + (a.length + 1) = i + 1 + a.length by omega] at hb

/-- The columns of a row are found again in a row that has their cells elsewhere. -/
theorem HoldsFrom.moved {f : ColumnMeta → ColumnMeta} {metadata : List ColumnMeta} {i i' : Nat}
    (h : HoldsFrom heap row i metadata values) (hp : heap <+: heap')
    (ht : ∀ m ∈ metadata, m.type.isPlain = true)
    (hf : ∀ m, (f m).type = m.type ∧ (f m).size = m.size)
    (hm : ∀ k m, metadata[k]? = some m → row.metadatas[i + k]? = some m)
    (hm' : ∀ k m, metadata[k]? = some m → row'.metadatas[i' + k]? = some (f m))
    (hnull : ∀ k < metadata.length, row'.isNull (i' + k) = row.isNull (i + k))
    (hload : ∀ m ∈ metadata, ∀ cells, load row.data m.position m.size = .ok cells →
      load row'.data (f m).position m.size = .ok cells) :
    HoldsFrom heap' row' i' (metadata.map f) values := by
  induction metadata generalizing i i' values with
  | nil => cases values <;> exact h
  | cons m metadata ih =>
    cases values with
    | nil => exact h.elim
    | cons value values =>
      refine ⟨?_, @ih values (i + 1) (i' + 1) h.2 (fun c hc => ht c (List.mem_cons_of_mem _ hc))
        (fun k c hc => ?_) (fun k c hc => ?_) (fun k hk => ?_)
        fun c hc => hload c (List.mem_cons_of_mem _ hc)⟩
      · have he := h.1
        have hn : row'.isNull i' = row.isNull i := hnull 0 (Nat.succ_pos _)
        have hrow : row.metadatas[i]? = some m := hm 0 m rfl
        have hrow' : row'.metadatas[i']? = some (f m) := hm' 0 m rfl
        rw [elementAt_eq hrow] at he
        rw [elementAt_eq hrow', hn, (hf m).1, (hf m).2]
        split at he
        · rename_i hnil
          rw [if_pos hnil, he]
        · rename_i hsome
          obtain ⟨cells, hcells, he⟩ := bind_eq_ok he
          obtain ⟨v, hv, he⟩ := bind_eq_ok he
          have hv' := ((plain_of_readValue (ht m List.mem_cons_self) hv).mono hp).readValue
          rw [if_neg hsome, hload m List.mem_cons_self cells hcells, ok_bind, hv']
          exact he
      · have hh := hm (k + 1) c hc
        rwa [show i + (k + 1) = i + 1 + k by omega] at hh
      · have hh := hm' (k + 1) c hc
        rwa [show i' + (k + 1) = i' + 1 + k by omega] at hh
      · have hh := hnull (k + 1) (Nat.succ_lt_succ hk)
        rwa [show i' + (k + 1) = i' + 1 + k by omega,
          show i + (k + 1) = i + 1 + k by omega] at hh

theorem load_append_left {cells rest out : List Cell} {pos n : Nat}
    (h : load cells pos n = .ok out) : load (cells ++ rest) pos n = .ok out := by
  obtain ⟨hle, rfl, -⟩ := load_spec h
  rw [load, if_pos (by rw [List.length_append]; omega), List.drop_append_of_le_length (by omega),
    List.take_append_of_le_length (by rw [List.length_drop]; omega)]

theorem load_append_right {before cells out : List Cell} {pos n : Nat}
    (h : load cells pos n = .ok out) : load (before ++ cells) (pos + before.length) n = .ok out := by
  obtain ⟨hle, rfl, -⟩ := load_spec h
  rw [load, if_pos (by rw [List.length_append]; omega), Nat.add_comm pos,
    List.drop_length_add_append]

end

section message

variable {heap : Heap} {t : TableMetadata} {k v : TupleRowData} {ks vs : List (Option Bytes)}

theorem sendEvent_plain (hk : RowOver heap t.keys k) (hv : RowOver heap t.cols v)
    (htk : ∀ m ∈ t.keys.columns, m.type.isPlain = true)
    (htv : ∀ m ∈ t.cols.columns, m.type.isPlain = true)
    (hks : HoldsFrom heap k 0 t.keys.columns ks) (hvs : HoldsFrom heap v 0 t.cols.columns vs)
    (junk : Nat → UInt8) :
    ∃ junk', sendEvent heap t k v junk =
      .ok (byteCells (nullHeader k.nullValues t.keys.columns.length junk) ++
        ((List.zipWith encodedCells t.keys.columns ks).flatten ++
          (byteCells (nullHeader v.nullValues t.cols.columns.length junk') ++
            (List.zipWith encodedCells t.cols.columns vs).flatten))) := by
  obtain ⟨hsk, -, hek⟩ := encode_plain hk htk hks junk
  obtain ⟨hsv, -, -⟩ := encode_plain hv htv hvs junk
  have hlen := flatten_encoded_length t.keys.columns ks
  refine ⟨fun j => junk ((List.zipWith encodedSize t.keys.columns ks).sum +
    4 * wordsFor t.keys.columns.length + j), ?_⟩
  rw [sendEvent, hsk, ok_bind, hsv, ok_bind, hek, ok_bind, (encode_plain hv htv hvs _).2.2, hk.nElem,
    hv.nElem, ← List.append_assoc]
  refine store_both ?_ ?_
  · simp only [List.length_append, byteCells_length, nullHeader_length, hlen, Nat.add_comm]
  · simp only [List.length_append, byteCells_length, nullHeader_length, List.length_map,
      List.length_range, flatten_encoded_length]
    omega

theorem values_some {heap : Heap} {s : Schema} {row : TupleRowData} {values : List (Option Bytes)}
    (h : RowOver heap s row) (hn : NoNulls s row) (hv : HoldsFrom heap row 0 s.columns values)
    (x : Option Bytes) (hx : x ∈ values) : x.isNone = false := by
  obtain ⟨i, hi, rfl⟩ := List.getElem_of_mem hx
  have hh := hv.isNull h.columns (List.getElem?_eq_getElem hi)
  rw [Nat.zero_add, hn i (hv.length ▸ hi)] at hh
  exact hh.symm

/-- A row without nulls after its message, whatever comes behind it. -/
theorem decode_noNulls {heap : Heap} {s : Schema} {row : TupleRowData} {values : List (Option Bytes)}
    (h : RowOver heap s row) (hn : NoNulls s row) (ht : ∀ m ∈ s.columns, m.type.isPlain = true)
    (hfit : TextsFit heap s row) (hv : HoldsFrom heap row 0 s.columns values) (heap₀ : Heap)
    (junk junk' : Nat → UInt8) (rest : List Cell) :
    ∃ d, decode heap₀ s.columns junk' (byteCells (nullHeader row.nullValues s.columns.length junk) ++
        ((List.zipWith encodedCells s.columns values).flatten ++ rest)) = .ok d ∧
      d.row.metadatas = s.columns ∧
      d.sizes = List.zipWith (fun m v => (wireCells m v).length) s.columns values ∧
      d.row.data.length = totalBytes s.columns ∧
      HoldsFrom d.heap d.row 0 s.columns values ∧ heap₀ <+: d.heap := by
  have hsum := h.sizeSum_lt hn
  have hsome := values_some h hn hv
  have hgap : NoGap values := List.pairwise_iff_getElem.mpr fun i j hi hj _ hnone => by
    have hh := hsome _ (List.getElem_mem hi)
    rw [hnone] at hh
    cases hh
  obtain ⟨d, hd, hm, -, hs, hlen, hvd, hheap⟩ := decode_plain ht hsum (hv.valid h.columns ht) hv.length
    hgap (fun i x hx => by
      rw [nullAt_of_noNulls h hn junk (hv.length ▸ (List.getElem?_eq_some_iff.mp hx).1),
        hsome x (List.mem_of_getElem? hx)]) heap₀ junk' rest
  rw [zipWith_encoded_of_fits (fits_of_textsFit hfit h ht hv)]
  exact ⟨d, hd, hm, hs, hlen.trans (totalBytes_of_laidOut s.laidOut hsum).symm, hvd, hheap⟩

theorem isNull_of_values {heap : Heap} {s : Schema} {row : TupleRowData}
    {values : List (Option Bytes)} (hm : row.metadatas = s.columns)
    (hv : HoldsFrom heap row 0 s.columns values) (hsome : ∀ x ∈ values, x.isNone = false) :
    NoNulls s row := by
  intro i hi
  obtain ⟨x, hx, he⟩ := hv.get (List.getElem?_eq_getElem hi)
  rw [Nat.zero_add] at he
  rw [isNull_of_elementAt (by rw [hm, List.getElem?_eq_getElem hi]) he]
  exact hsome x (List.mem_of_getElem? hx)

theorem poll_eq {heap₀ : Heap} {junk : Nat → UInt8} {payload rest : List Cell} {d e : Decoded}
    {sizes : List Nat} (hd : decode heap₀ t.keys.columns junk payload = .ok d)
    (hs : getContentSizes d.heap t.keys.columns d.row = .ok sizes)
    (hrest : payload.drop (sizes.sum + 4 * wordsFor d.row.nElem) = rest)
    (he : decode d.heap t.cols.columns junk rest = .ok e)
    (hdn : ∀ i < d.row.nElem, d.row.isNull i = false)
    (hen : ∀ i < e.row.nElem, e.row.isNull i = false) (hpos : 0 < d.row.nElem) :
    poll heap₀ t junk payload = .ok ⟨e.heap, [⟨t.items, d.row.data ++ e.row.data,
      List.replicate (wordsFor (d.row.nElem + e.row.nElem)) 0⟩], some (d.row, e.row)⟩ := by
  have hall : (List.range d.row.nElem).all d.row.isNull = false := by
    refine List.all_eq_false.mpr ⟨0, List.mem_range.mpr hpos, ?_⟩
    rw [hdn 0 hpos]
    decide
  rw [poll, hd, ok_bind, getContentSize, hs, ok_bind]
  show (decode d.heap t.cols.columns junk (List.drop _ _) >>= _) = _
  rw [hrest, he, ok_bind]
  dsimp only
  rw [hall, markNulls_of_none hdn, markNulls_of_none hen]
  rfl

theorem nullAt_replicate (n i : Nat) : nullAt (List.replicate n 0) i = false := by
  rw [nullAt, List.getD_eq_getElem?_getD, List.getElem?_replicate]
  split <;> simp

/-- The columns of the key and of the value, in one row over all of them. -/
theorem holds_items {heap heap' : Heap} {d e : TupleRowData}
    (htk : ∀ m ∈ t.keys.columns, m.type.isPlain = true)
    (htv : ∀ m ∈ t.cols.columns, m.type.isPlain = true)
    (hdm : d.metadatas = t.keys.columns) (hem : e.metadatas = t.cols.columns)
    (hdl : d.data.length = t.keysOffset) (hdn : NoNulls t.keys d) (hen : NoNulls t.cols e)
    (hpos : ∀ c ∈ t.cols.columns, c.position + t.keysOffset < 2 ^ 16)
    (hd : HoldsFrom heap d 0 t.keys.columns ks) (he : HoldsFrom heap' e 0 t.cols.columns vs)
    (hp : heap <+: heap') :
    HoldsFrom heap' ⟨t.items, d.data ++ e.data,
      List.replicate (wordsFor (t.keys.columns.length + t.cols.columns.length)) 0⟩ 0 t.items
      (ks ++ vs) := by
  have hnull (i : Nat) : TupleRowData.isNull ⟨t.items, d.data ++ e.data, List.replicate
      (wordsFor (t.keys.columns.length + t.cols.columns.length)) 0⟩ i = false := by
    have hw := div_lt_wordsFor (Nat.lt_add_right t.cols.columns.length t.keys_pos)
    rw [isNull_eq_nullAt (by rw [List.length_replicate]; omega), nullAt_replicate]
  refine HoldsFrom.append ?_ ?_
  · suffices h : HoldsFrom heap' ⟨t.items, d.data ++ e.data, List.replicate
        (wordsFor (t.keys.columns.length + t.cols.columns.length)) 0⟩ 0 (t.keys.columns.map id) ks by
      rwa [List.map_id] at h
    refine hd.moved hp htk (fun _ => ⟨rfl, rfl⟩) (fun i m hm => by rw [Nat.zero_add, hdm, hm])
      (fun i m hm => ?_) (fun i hi => ?_) fun m _ cells hc => load_append_left hc
    · rw [Nat.zero_add]
      show t.items[i]? = some m
      rw [TableMetadata.items, List.getElem?_append_left (List.getElem?_eq_some_iff.mp hm).1, hm]
    · rw [hnull, Nat.zero_add, hdn i hi]
  · refine he.moved (List.prefix_refl _) htv (fun _ => ⟨rfl, rfl⟩)
      (fun i m hm => by rw [Nat.zero_add, hem, hm]) (fun i m hm => ?_) (fun i hi => ?_)
      fun m hm cells hc => ?_
    · show t.items[0 + t.keys.columns.length + i]? = _
      rw [Nat.zero_add, TableMetadata.items, List.getElem?_append_right (by omega),
        Nat.add_sub_cancel_left, List.getElem?_map, hm]
      rfl
    · rw [hnull, Nat.zero_add, hen i hi]
    · have hmod : (t.moved m).position = m.position + d.data.length := by
        rw [hdl]
        exact Nat.mod_eq_of_lt (hpos m hm)
      rw [hmod]
      exact load_append_right hc

/-- A key and a value without nulls come back as one row, when no position of a column
behind the keys wraps in its 16 bits. -/
theorem stream_round_trip (htk : ∀ m ∈ t.keys.columns, m.type.isPlain = true)
    (htv : ∀ m ∈ t.cols.columns, m.type.isPlain = true)
    (hk : RowOver heap t.keys k) (hv : RowOver heap t.cols v)
    (hnk : NoNulls t.keys k) (hnv : NoNulls t.cols v)
    (hfk : TextsFit heap t.keys k) (hfv : TextsFit heap t.cols v)
    (hpos : ∀ c ∈ t.cols.columns, c.position + t.keysOffset < 2 ^ 16)
    (heap₀ : Heap) (junk junk' : Nat → UInt8) :
    ∃ payload p row ks vs, sendEvent heap t k v junk = .ok payload ∧
      poll heap₀ t junk' payload = .ok p ∧ p.rows = [row] ∧ row.metadatas = t.items ∧
      HoldsFrom heap k 0 t.keys.columns ks ∧ HoldsFrom heap v 0 t.cols.columns vs ∧
      HoldsFrom p.heap row 0 t.items (ks ++ vs) ∧ ∀ x ∈ ks ++ vs, x.isSome := by
  obtain ⟨ks, hks⟩ := hk.exists_values htk
  obtain ⟨vs, hvs⟩ := hv.exists_values htv
  have hsk := values_some hk hnk hks
  have hsv := values_some hv hnv hvs
  obtain ⟨junkv, hsend⟩ := sendEvent_plain hk hv htk htv hks hvs junk
  obtain ⟨d, hd, hdm, -, hdl, hdv, hheap⟩ := decode_noNulls hk hnk htk hfk hks heap₀ junk junk' _
  obtain ⟨e, he, hem, -, hel, hev, hheap'⟩ := decode_noNulls hv hnv htv hfv hvs d.heap junkv junk' []
  have hdn : d.row.nElem = t.keys.columns.length := by
    rw [TupleRowData.nElem, hdm, t.keys.u16_length]
  have hen : e.row.nElem = t.cols.columns.length := by
    rw [TupleRowData.nElem, hem, t.cols.u16_length]
  have hsizes := contentSizes_plain hdm htk hdv
  have hdnull := isNull_of_values hdm hdv hsk
  have henull := isNull_of_values hem hev hsv
  have hdrop : List.drop ((List.zipWith encodedSize t.keys.columns ks).sum + 4 * wordsFor d.row.nElem)
      (byteCells (nullHeader k.nullValues t.keys.columns.length junk) ++
        ((List.zipWith encodedCells t.keys.columns ks).flatten ++
          (byteCells (nullHeader v.nullValues t.cols.columns.length junkv) ++
            (List.zipWith encodedCells t.cols.columns vs).flatten))) =
      byteCells (nullHeader v.nullValues t.cols.columns.length junkv) ++
        ((List.zipWith encodedCells t.cols.columns vs).flatten ++ []) := by
    rw [← List.append_assoc, List.drop_left', List.append_nil]
    simp only [List.length_append, byteCells_length, nullHeader_length, flatten_encoded_length, hdn]
    omega
  refine ⟨_, _, _, ks, vs, hsend, poll_eq hd hsizes hdrop he (hdn ▸ hdnull) (hen ▸ henull)
    (hdn ▸ t.keys_pos), rfl, rfl, hks, hvs, ?_, ?_⟩
  · rw [hdn, hen]
    exact holds_items htk htv hdm hem hdl hdnull henull hpos hdv hev hheap'
  · intro x hx
    rcases List.mem_append.mp hx with hx | hx
    · simpa using hsk x hx
    · simpa using hsv x hx

end message

section bigints

def bigintColumn (i : Nat) : ColumnMeta := ⟨8 * i, 8, .bigint, []⟩

theorem bigints_laidOut (n : Nat) {start : Nat} (h : 8 * (start + n) < 2 ^ 16) :
    LaidOut (8 * start) ((List.range' start n).map bigintColumn) := by
  induction n generalizing start with
  | zero => trivial
  | succ n ih =>
    refine ⟨rfl, rfl, ?_⟩
    rw [show u16 (8 * start + (bigintColumn start).size) = 8 * (start + 1) from
      Nat.mod_eq_of_lt (show 8 * start + 8 < 2 ^ 16 by omega)]
    exact ih (by omega)

def bigints (n : Nat) (h : 8 * n < 2 ^ 16) : Schema where
  columns := (List.range' 0 n).map bigintColumn
  laidOut := @bigints_laidOut n 0 (by omega)
  bounded := by
    rw [List.length_map, List.length_range']
    omega

def bigintsRow (n : Nat) (b : UInt8) : TupleRowData where
  metadatas := (List.range' 0 n).map bigintColumn
  data := byteCells (List.replicate (8 * n) b)
  nullValues := List.replicate (wordsFor n) 0

variable {n : Nat} (h : 8 * n < 2 ^ 16) {b : UInt8}

theorem bigints_get {i : Nat} (hi : i < n) : (bigints n h).columns[i]? = some (bigintColumn i) := by
  simp [bigints, List.getElem?_range' hi]

theorem bigintsRow_isNull {i : Nat} (hi : i < n) : (bigintsRow n b).isNull i = false := by
  have hw := div_lt_wordsFor hi
  rw [isNull_eq_nullAt (by rw [bigintsRow, List.length_replicate]; omega)]
  exact nullAt_replicate _ i

theorem bigintsRow_load {i : Nat} (hi : i < n) :
    load (bigintsRow n b).data (8 * i) 8 = .ok (byteCells (List.replicate 8 b)) := by
  rw [load, if_pos (by simp [bigintsRow]; omega)]
  simp only [bigintsRow, byteCells, List.map_replicate, List.drop_replicate, List.take_replicate]
  rw [Nat.min_eq_left (by omega)]

theorem bigintsRow_elementAt {i : Nat} (hi : i < n) :
    elementAt [] (bigintsRow n b) (bigintColumn i) i = .ok (some (List.replicate 8 b)) := by
  rw [elementAt_eq (by simp [bigintsRow, List.getElem?_range' hi]), bigintsRow_isNull hi,
    if_neg (by decide), bigintColumn, bigintsRow_load hi, ok_bind]
  rw [readValue, toBytes_byteCells]
  rfl

theorem bigints_sizeSum : sizeSum (bigints n h).columns = 8 * n := by
  have hsize : ColumnMeta.size ∘ bigintColumn = fun _ => 8 := rfl
  rw [sizeSum, bigints, List.map_map, hsize]
  simp [Nat.mul_comm]

theorem bigintsRow_over : RowOver [] (bigints n h) (bigintsRow n b) where
  metadatas := rfl
  words := by simp [bigintsRow, bigints]
  size := by
    have hlt : sizeSum (bigints n h).columns < 2 ^ 16 := by rwa [bigints_sizeSum h]
    rw [totalBytes_of_laidOut (bigints n h).laidOut hlt, bigints_sizeSum h]
    simp [bigintsRow]
  elements i m hm _ := by
    have hi : i < n := by
      have hlt := (List.getElem?_eq_some_iff.mp hm).1
      simpa [bigints] using hlt
    rw [bigints_get h hi] at hm
    cases hm
    exact ⟨_, bigintsRow_load hi, .value (toBytes_byteCells _)⟩

theorem bigints_plain : ∀ m ∈ (bigints n h).columns, m.type.isPlain = true := by
  intro m hm
  obtain ⟨i, -, rfl⟩ := List.mem_map.mp hm
  rfl

theorem bigintsRow_noNulls : NoNulls (bigints n h) (bigintsRow n b) := fun i hi =>
  bigintsRow_isNull (by simpa [bigints] using hi)

theorem bigints_textsFit (heap : Heap) (row : TupleRowData) : TextsFit heap (bigints n h) row := by
  intro i m v hm ht
  obtain ⟨j, -, rfl⟩ := List.mem_map.mp (List.mem_of_getElem? hm)
  cases ht

end bigints

def oneNumberEach : TableMetadata where
  keys := bigints 1 (by decide)
  cols := bigints 1 (by decide)
  keys_pos := by decide
  cols_pos := by decide
  bounded := by decide

theorem stream_round_trip_numbers : ∃ payload p row ks vs,
    sendEvent [] oneNumberEach (bigintsRow 1 5) (bigintsRow 1 6) (fun _ => 0) = .ok payload ∧
      poll [] oneNumberEach (fun _ => 0) payload = .ok p ∧ p.rows = [row] ∧
      row.metadatas = oneNumberEach.items ∧
      HoldsFrom [] (bigintsRow 1 5) 0 oneNumberEach.keys.columns ks ∧
      HoldsFrom [] (bigintsRow 1 6) 0 oneNumberEach.cols.columns vs ∧
      HoldsFrom p.heap row 0 oneNumberEach.items (ks ++ vs) ∧ ∀ x ∈ ks ++ vs, x.isSome :=
  have h : 8 * 1 < 2 ^ 16 := by decide
  stream_round_trip (bigints_plain h) (bigints_plain h) (bigintsRow_over h) (bigintsRow_over h)
    (bigintsRow_noNulls h) (bigintsRow_noNulls h) (bigints_textsFit h _ _) (bigints_textsFit h _ _)
    (by decide) [] _ _

/-- 8193 columns of eight bytes: the last one gets the position of the first. -/
def wideTable : TableMetadata where
  keys := bigints 2 (by decide)
  cols := bigints 8191 (by decide)
  keys_pos := by decide
  cols_pos := by simp [bigints]
  bounded := by simp [bigints]

theorem wrapped_position_misread :
    ¬ ∀ (heap : Heap) (t : TableMetadata) (k v : TupleRowData),
      (∀ m ∈ t.keys.columns, m.type.isPlain = true) → (∀ m ∈ t.cols.columns, m.type.isPlain = true) →
      RowOver heap t.keys k → RowOver heap t.cols v → NoNulls t.keys k → NoNulls t.cols v →
      ∀ (heap₀ : Heap) (junk junk' : Nat → UInt8), ∃ payload p row ks vs,
        sendEvent heap t k v junk = .ok payload ∧ poll heap₀ t junk' payload = .ok p ∧
        p.rows = [row] ∧ row.metadatas = t.items ∧ HoldsFrom heap k 0 t.keys.columns ks ∧
        HoldsFrom heap v 0 t.cols.columns vs ∧ HoldsFrom p.heap row 0 t.items (ks ++ vs) ∧
        ∀ x ∈ ks ++ vs, x.isSome := by
  intro hall
  have h2 : 8 * 2 < 2 ^ 16 := by decide
  have hn : 8 * 8191 < 2 ^ 16 := by decide
  obtain ⟨payload, p, row, ks, vs, -, -, -, hm, hks, hvs, hrow, -⟩ :=
    hall [] wideTable (bigintsRow 2 1) (bigintsRow 8191 2) (bigints_plain h2) (bigints_plain hn)
      (bigintsRow_over h2) (bigintsRow_over hn) (bigintsRow_noNulls h2) (bigintsRow_noNulls hn) []
      (fun _ => 0) fun _ => 0
  have hlen : ks.length = 2 := hks.length.symm
  have hfirst : ks[0]? = some (some (List.replicate 8 1)) := by
    obtain ⟨x, hx, he⟩ := hks.get (bigints_get h2 (by decide : 0 < 2))
    rw [Nat.zero_add, bigintsRow_elementAt (by decide)] at he
    cases he
    exact hx
  have hlast : vs[8190]? = some (some (List.replicate 8 2)) := by
    obtain ⟨x, hx, he⟩ := hvs.get (bigints_get hn (by decide : 8190 < 8191))
    rw [Nat.zero_add, bigintsRow_elementAt (by decide)] at he
    cases he
    exact hx
  -- both columns of the row are read at position 0
  have hcol (i : Nat) (b : UInt8) (hi : wideTable.items[i]? = some ⟨0, 8, .bigint, []⟩)
      (hv : (ks ++ vs)[i]? = some (some (List.replicate 8 b))) :
      (do return some (← readValue p.heap .bigint (← load row.data 0 8))) =
        Except.ok (ε := Fault) (some (List.replicate 8 b)) := by
    obtain ⟨x, hx, he⟩ := hrow.get hi
    rw [hv] at hx
    cases hx
    rw [Nat.zero_add] at he
    have hnull := isNull_of_elementAt (by rw [hm, hi]) he
    rwa [elementAt_eq (by rw [hm, hi]), hnull, Option.isNone_some, if_neg (by decide)] at he
  have h0 := hcol 0 1 rfl (by rw [List.getElem?_append_left (by omega), hfirst])
  have h1 := hcol 8192 2 (by
    have hk : wideTable.keys.columns.length = 2 := rfl
    rw [TableMetadata.items, List.getElem?_append_right (by omega), hk, List.getElem?_map]
    show Option.map _ (bigints 8191 hn).columns[8190]? = _
    rw [bigints_get hn (by decide)]
    rfl) (by rw [List.getElem?_append_right (by omega), hlen, hlast])
  rw [h0] at h1
  exact absurd h1 (by decide)

end Hecuba
