import Mathlib.Data.Finset.Max
import Hecuba.DecodedRow

/-! The round trip of a row with null columns: it holds when the nulls come last, and in no
other case, since the last value would then be read partly behind the packed columns. -/

namespace Hecuba

def Fits (m : ColumnMeta) (value : Option Bytes) : Prop :=
  ∀ v, value = some v → (wire m.type v).length < 2 ^ 32

theorem encodedSize_eq (m : ColumnMeta) (value : Option Bytes) :
    encodedSize m value = u32 (wireCells m value).length := by
  cases value with
  | none => rfl
  | some v => rw [encodedSize, wireCells, byteCells_length]

theorem encodedCells_length (m : ColumnMeta) (value : Option Bytes) :
    (encodedCells m value).length = encodedSize m value := by
  cases value with
  | none => rfl
  | some v =>
    rw [encodedCells, encodedSize, byteCells_length, List.length_take]
    exact Nat.min_eq_left (Nat.mod_le _ _)

theorem flatten_encoded_length (metadata : List ColumnMeta) (values : List (Option Bytes)) :
    (List.zipWith encodedCells metadata values).flatten.length =
      (List.zipWith encodedSize metadata values).sum := by
  rw [List.length_flatten, List.map_zipWith]
  simp only [encodedCells_length]

theorem encodedCells_of_fits {m : ColumnMeta} {value : Option Bytes} (h : Fits m value) :
    encodedCells m value = wireCells m value := by
  cases value with
  | none => rfl
  | some v =>
    rw [encodedCells, wireCells, show u32 (wire m.type v).length = _ from Nat.mod_eq_of_lt (h v rfl),
      List.take_length]

theorem zipWith_encoded_of_fits {metadata : List ColumnMeta} {values : List (Option Bytes)}
    (h : ∀ (k : Nat) m v, metadata[k]? = some m → values[k]? = some v → Fits m v) :
    List.zipWith encodedCells metadata values = List.zipWith wireCells metadata values := by
  induction metadata generalizing values with
  | nil => rfl
  | cons m metadata ih =>
    cases values with
    | nil => rfl
    | cons v values =>
      rw [List.zipWith_cons_cons, List.zipWith_cons_cons, encodedCells_of_fits (h 0 m v rfl rfl),
        ih fun k c w hc hw => h (k + 1) c w hc hw]

/-- A message as long as the values it stands for has cut none of them. -/
theorem fits_of_sum {metadata : List ColumnMeta} {values : List (Option Bytes)}
    (h : (List.zipWith (fun m v => (wireCells m v).length) metadata values).sum ≤
      (List.zipWith encodedSize metadata values).sum) {k : Nat} {m : ColumnMeta} {v : Option Bytes}
    (hm : metadata[k]? = some m) (hv : values[k]? = some v) : Fits m v := by
  have hle (metadata : List ColumnMeta) (values : List (Option Bytes)) :
      (List.zipWith encodedSize metadata values).sum ≤
        (List.zipWith (fun m v => (wireCells m v).length) metadata values).sum := by
    induction metadata generalizing values with
    | nil => exact Nat.le_refl _
    | cons c metadata ih =>
      cases values with
      | nil => exact Nat.le_refl _
      | cons w values =>
        have hh := ih values
        have hw : encodedSize c w ≤ (wireCells c w).length := by
          rw [encodedSize_eq]
          exact Nat.mod_le _ _
        simp only [List.zipWith_cons_cons, List.sum_cons]
        omega
  induction metadata generalizing values k with
  | nil => cases hm
  | cons c metadata ih =>
    cases values with
    | nil => cases hv
    | cons w values =>
      have hrest := hle metadata values
      have hw : encodedSize c w ≤ (wireCells c w).length := by
        rw [encodedSize_eq]
        exact Nat.mod_le _ _
      simp only [List.zipWith_cons_cons, List.sum_cons] at h
      cases k with
      | zero =>
        cases hm
        cases hv
        intro u hu
        have heq : encodedSize m v = (wireCells m v).length := by omega
        rw [encodedSize_eq] at heq
        have hlt : u32 (wireCells m v).length < 2 ^ 32 := Nat.mod_lt _ (by decide)
        rw [heq] at hlt
        subst hu
        rwa [wireCells, byteCells_length] at hlt
      | succ k => exact ih (by omega) hm hv

section

variable {heap : Heap} {words : List (BitVec 32)} {metadata : List ColumnMeta}

theorem flatten_of_nulls {i : Nat} {cellss : List (List Cell)} {sizes : List Nat}
    (hd : DecodedFrom heap words i metadata cellss sizes)
    (hn : ∀ k < metadata.length, nullAt words (i + k) = true) : cellss.flatten = [] := by
  induction metadata generalizing i cellss sizes with
  | nil =>
    match cellss, sizes, hd with
    | [], [], _ => rfl
  | cons m metadata ih =>
    match cellss, sizes, hd with
    | cells :: cellss, size :: sizes, hd =>
      obtain ⟨hc, hrest⟩ := hd
      have hnull : nullAt words i = true := hn 0 (Nat.succ_pos _)
      rw [if_pos hnull] at hc
      rw [List.flatten_cons, hc.1, List.nil_append]
      refine ih hrest fun k hk => ?_
      have hh := hn (k + 1) (Nat.succ_lt_succ hk)
      rwa [show i + (k + 1) = i + 1 + k by omega] at hh

theorem cells_length_le {i : Nat} {m : ColumnMeta} {cells : List Cell} {size : Nat}
    (hc : if nullAt words i then cells = [] ∧ size = 0 else DecodedAs heap m cells size) :
    cells.length ≤ m.size := by
  split at hc
  · rw [hc.1]
    exact Nat.zero_le _
  · exact Nat.le_of_eq hc.length

/-- The packed columns end no later than the last one that is not null. -/
theorem packed_le {position i j : Nat} {m : ColumnMeta} {cellss : List (List Cell)} {sizes : List Nat}
    (hpos : Consecutive position metadata) (hd : DecodedFrom heap words i metadata cellss sizes)
    (hm : metadata[j]? = some m)
    (hlast : ∀ k, j < k → k < metadata.length → nullAt words (i + k) = true) :
    position + cellss.flatten.length ≤ m.position + m.size := by
  induction metadata generalizing position i j cellss sizes with
  | nil => cases hm
  | cons c metadata ih =>
    match cellss, sizes, hd with
    | cells :: cellss, size :: sizes, hd =>
      obtain ⟨hc, hrest⟩ := hd
      have hlen := cells_length_le hc
      have hlast' (k : Nat) (hk : j < k + 1) (hk' : k < metadata.length) :
          nullAt words (i + 1 + k) = true := by
        have hh := hlast (k + 1) hk (Nat.succ_lt_succ hk')
        rwa [show i + (k + 1) = i + 1 + k by omega] at hh
      rw [List.flatten_cons, List.length_append]
      cases j with
      | zero =>
        cases hm
        rw [flatten_of_nulls hrest fun k hk => hlast' k (Nat.succ_pos k) hk, hpos.1, List.length_nil]
        omega
      | succ j =>
        have hh := ih hpos.2 hrest hm fun k hk => hlast' k (Nat.succ_lt_succ hk)
        omega

theorem packed_lt {position i i' j : Nat} {m : ColumnMeta} {cellss : List (List Cell)}
    {sizes : List Nat} (hsize : ∀ c ∈ metadata, 0 < c.size) (hpos : Consecutive position metadata)
    (hd : DecodedFrom heap words i metadata cellss sizes) (hij : i' < j)
    (hnull : nullAt words (i + i') = true) (hm : metadata[j]? = some m)
    (hlast : ∀ k, j < k → k < metadata.length → nullAt words (i + k) = true) :
    position + cellss.flatten.length < m.position + m.size := by
  induction metadata generalizing position i i' j cellss sizes with
  | nil => cases hm
  | cons c metadata ih =>
    match cellss, sizes, hd with
    | cells :: cellss, size :: sizes, hd =>
      obtain ⟨hc, hrest⟩ := hd
      have hlen := cells_length_le hc
      obtain ⟨j, rfl⟩ : ∃ j', j = j' + 1 := ⟨j - 1, by omega⟩
      have hlast' (k : Nat) (hk : j < k) (hk' : k < metadata.length) :
          nullAt words (i + 1 + k) = true := by
        have hh := hlast (k + 1) (by omega) (Nat.succ_lt_succ hk')
        rwa [show i + (k + 1) = i + 1 + k by omega] at hh
      rw [List.flatten_cons, List.length_append]
      cases i' with
      | zero =>
        rw [Nat.add_zero] at hnull
        rw [if_pos hnull] at hc
        have hh := packed_le hpos.2 hrest hm hlast'
        have hpos0 := hsize c List.mem_cons_self
        rw [hc.1, List.length_nil]
        omega
      | succ i' =>
        have hh := ih (fun d hd => hsize d (List.mem_cons_of_mem _ hd)) hpos.2 hrest
          (Nat.lt_of_succ_lt_succ hij) (by rwa [show i + 1 + i' = i + (i' + 1) by omega]) hm hlast'
        omega

end

theorem plain_size_pos {m : ColumnMeta} (ht : m.type.isPlain = true)
    (hs : computeSizeOf m.type = .ok m.size) : 0 < m.size ∧ m.size ≤ 8 := by
  obtain ⟨position, size, type, pointer⟩ := m
  dsimp only at ht hs ⊢
  cases type <;> first | (cases hs; decide) | cases ht

theorem sizeSum_le {metadata : List ColumnMeta} (ht : ∀ m ∈ metadata, m.type.isPlain = true)
    (hs : ∀ m ∈ metadata, computeSizeOf m.type = .ok m.size) :
    sizeSum metadata ≤ 8 * metadata.length := by
  induction metadata with
  | nil => exact Nat.le_refl _
  | cons m metadata ih =>
    have hm := (plain_size_pos (ht m List.mem_cons_self) (hs m List.mem_cons_self)).2
    have hh := ih (fun c hc => ht c (List.mem_cons_of_mem _ hc))
      fun c hc => hs c (List.mem_cons_of_mem _ hc)
    rw [sizeSum_cons, List.length_cons]
    omega

/-- An element that ends in a byte of the row is a value that ends in it. -/
theorem getLast_of_readValue {heap : Heap} {type : CassValueType} {cells : List Cell} {v : Bytes}
    {b : UInt8} (ht : type.isPlain = true) (h : readValue heap type (cells ++ [.byte b]) = .ok v) :
    v.getLast? = some b := by
  have hp := plain_of_readValue ht h
  generalize hc : cells ++ [Cell.byte b] = all at hp
  cases hp with
  | inline =>
    have hl := congrArg List.getLast? hc
    rw [List.getLast?_concat, byteCells, List.getLast?_map] at hl
    cases hv : v.getLast? with
    | none =>
      rw [hv] at hl
      cases hl
    | some c =>
      rw [hv] at hl
      cases hl
      rfl
  | text | uuid =>
    have hl := congrArg List.getLast? hc
    rw [List.getLast?_concat] at hl
    cases hl

theorem junk_of_rowBuffer {metadata : List ColumnMeta} {junk : Nat → UInt8} {packed data : List Cell}
    (h : rowBuffer metadata junk packed = .ok data) {q : Nat} (hp : packed.length ≤ q)
    (hq : q < data.length) : data[q]? = some (.byte (junk q)) := by
  unfold rowBuffer at h
  split at h
  · cases h
    simp only [List.length_append, byteCells_length, List.length_map, List.length_range'] at hq
    rw [List.getElem?_append_right hp, byteCells, List.getElem?_map, List.getElem?_map,
      List.getElem?_range' (by omega)]
    simp only [Option.map_some, Nat.one_mul]
    rw [Nat.add_sub_cancel' hp]
  · cases h

theorem rowBuffer_eq {metadata : List ColumnMeta} {junk : Nat → UInt8} {packed data : List Cell}
    (h : rowBuffer metadata junk packed = .ok data) : ∃ rest, data = packed ++ rest := by
  unfold rowBuffer at h
  split at h
  · cases h
    exact ⟨_, rfl⟩
  · cases h

theorem load_last {data cells : List Cell} {pos n : Nat} {c : Cell}
    (h : load data pos n = .ok cells) (hn : 0 < n) (hc : data[pos + n - 1]? = some c) :
    ∃ init, cells = init ++ [c] := by
  obtain ⟨hle, rfl, hlen⟩ := load_spec h
  have hlast : ((data.drop pos).take n).getLast? = some c := by
    rw [List.getLast?_eq_getElem?, hlen, List.getElem?_take_of_lt (by omega), List.getElem?_drop,
      show pos + (n - 1) = pos + n - 1 by omega, hc]
  exact ⟨_, (List.dropLast_append_getLast? c hlast).symm⟩

section iff

variable {heap : Heap} {s : Schema} {row : TupleRowData} {values : List (Option Bytes)}

theorem nullAt_of_few (h : RowOver heap s row) (hn : s.columns.length ≤ 7) (junk : Nat → UInt8)
    {k : Nat} (hk : k < s.columns.length) :
    nullAt (recoveredNulls row.nullValues s.columns.length junk) k = row.isNull k := by
  have hpos : 0 < row.nullValues.length := by
    rw [h.words]
    exact Nat.lt_of_le_of_lt (Nat.zero_le _) (div_lt_wordsFor hk)
  rw [nullAt_recovered h.words junk hk, if_pos (by omega), isNull_eq_nullAt hpos]

/-- The last value after a null is read up to a byte that decode never wrote. -/
theorem junk_in_last (ht : ∀ m ∈ s.columns, m.type.isPlain = true) (hn : s.columns.length ≤ 7)
    (h : RowOver heap s row) {i j : Nat} {m : ColumnMeta} (hij : i < j)
    (hi : row.isNull i = true) (hj : row.isNull j = false) (hm : s.columns[j]? = some m)
    (hlast : ∀ k, j < k → k < s.columns.length → row.isNull k = true) {heap₀ : Heap}
    {junk junk' : Nat → UInt8} {body : List Cell} {d : Decoded}
    (hd : decode heap₀ s.columns junk'
      (byteCells (nullHeader row.nullValues s.columns.length junk) ++ body) = .ok d) {v : Bytes}
    (hv : elementAt d.heap d.row m j = .ok (some v)) :
    v.getLast? = some (junk' (m.position + m.size - 1)) := by
  obtain ⟨packed, hdec, hbuf, hwords, hmeta⟩ := decode_spec hd
  have hsizes := sizes_of_laidOut s.laidOut
  have hsum : sizeSum s.columns < 2 ^ 16 := by
    have hle := sizeSum_le ht hsizes
    omega
  have hjlt : j < s.columns.length := (List.getElem?_eq_some_iff.mp hm).1
  have hmem := List.mem_of_getElem? hm
  have hsize := (plain_size_pos (ht m hmem) (hsizes m hmem)).1
  obtain ⟨cellss, rfl, hcells⟩ := decodeColumns_cells hsizes hdec (List.prefix_refl _)
  have hlt := packed_lt (fun c hc => (plain_size_pos (ht c hc) (hsizes c hc)).1)
    (consecutive_of_laidOut s.laidOut (by omega)) hcells hij
    (by rw [Nat.zero_add, nullAt_of_few h hn junk (by omega), hi]) hm fun k hk hk' => by
      rw [Nat.zero_add, nullAt_of_few h hn junk hk', hlast k hk hk']
  have hnull : d.row.isNull j = false := by
    have hpos : 0 < d.row.nullValues.length := by
      have hw := div_lt_wordsFor hjlt
      rw [hwords, recoveredNulls, List.length_map, nullHeader_length]
      omega
    rw [isNull_eq_nullAt hpos, hwords, nullAt_of_few h hn junk hjlt, hj]
  rw [elementAt_eq (by rw [hmeta, hm]), hnull, if_neg (by decide)] at hv
  obtain ⟨cells, hload, hv⟩ := bind_eq_ok hv
  obtain ⟨u, hread, hv⟩ := bind_eq_ok hv
  cases hv
  have hle := (load_spec hload).1
  obtain ⟨init, rfl⟩ := load_last hload hsize (junk_of_rowBuffer hbuf (by omega) (by omega))
  exact getLast_of_readValue (ht m hmem) hread

theorem fits_of_textsFit (hn : ∀ (k : Nat) m v, s.columns[k]? = some m → m.type.isText = true →
      elementAt heap row m k = .ok (some v) → v.length + 1 < 2 ^ 32)
    (h : RowOver heap s row) (ht : ∀ m ∈ s.columns, m.type.isPlain = true)
    (hv : HoldsFrom heap row 0 s.columns values) (k : Nat) (m : ColumnMeta) (v : Option Bytes)
    (hm : s.columns[k]? = some m) (hk : values[k]? = some v) : Fits m v := by
  intro u hu
  subst hu
  have hmem := List.mem_of_getElem? hm
  obtain ⟨w, hw, he⟩ := hv.get hm
  rw [hk] at hw
  cases hw
  rw [Nat.zero_add] at he
  obtain ⟨pos, cells, hp⟩ := holdsPlain_of_elementAt (ht m hmem) (h.columns.sizes m hmem) he
  have hvalid := hp.valid
  by_cases hx : m.type.isText = true
  · have hlt := hn k m u hm hx he
    rw [wire_of_text hx, cString, List.length_append]
    simpa using hlt
  · rw [wire_of_not_text (by simpa using hx)]
    by_cases hi : m.type.isInline = true
    · have hle := (plain_size_pos (ht m hmem) (h.columns.sizes m hmem)).2
      rw [hvalid.inline hi]
      omega
    · have hu : m.type = .uuid := by
        simpa [CassValueType.isPlain, hi, hx] using ht m hmem
      rw [hvalid.uuid hu]
      decide

def RowRoundTrips (heap : Heap) (s : Schema) (row : TupleRowData) : Prop :=
  ∀ heap₀ junk junk', ∃ buff d, encode heap s.columns row junk = .ok buff ∧
    decode heap₀ s.columns junk' buff = .ok d ∧
    ∀ (i : Nat) m, s.columns[i]? = some m →
      elementAt d.heap d.row m i = elementAt heap row m i

def NullsLast (s : Schema) (row : TupleRowData) : Prop :=
  ∀ i j, i < j → j < s.columns.length → row.isNull i = true → row.isNull j = true

/-- The lengths of the texts, with their terminators, fit in 32 bits. -/
def TextsFit (heap : Heap) (s : Schema) (row : TupleRowData) : Prop :=
  ∀ (i : Nat) m v, s.columns[i]? = some m → m.type.isText = true →
    elementAt heap row m i = .ok (some v) → v.length + 1 < 2 ^ 32

theorem nullsLast_of_roundTrips (ht : ∀ m ∈ s.columns, m.type.isPlain = true)
    (hn : s.columns.length ≤ 7) (h : RowOver heap s row) (hr : RowRoundTrips heap s row) :
    NullsLast s row := by
  intro i j hij hj hi
  by_contra hne
  have hj' : row.isNull j = false := by simpa using hne
  -- the last column that is not null also comes after `i`
  obtain ⟨l, hl, hmax⟩ := Finset.exists_max_image
    ((Finset.range s.columns.length).filter fun k => row.isNull k = false) id
    ⟨j, by simp [hj, hj']⟩
  obtain ⟨hlt, hnull⟩ : l < s.columns.length ∧ row.isNull l = false := by simpa using hl
  have hjl : j ≤ l := hmax j (by simp [hj, hj'])
  have hlast (k : Nat) (hk : l < k) (hk' : k < s.columns.length) : row.isNull k = true := by
    by_contra hk0
    have hle : k ≤ l := hmax k (by simp [hk', hk0])
    omega
  have hm := List.getElem?_eq_getElem hlt
  obtain ⟨values, hv⟩ := h.exists_values ht
  obtain ⟨w, hw, he⟩ := hv.get hm
  rw [Nat.zero_add] at he
  have hnw := isNull_of_elementAt (by rw [h.metadatas, hm]) he
  obtain ⟨v, rfl⟩ : ∃ v, w = some v := by
    cases w with
    | none =>
      rw [hnull] at hnw
      cases hnw
    | some v => exact ⟨v, rfl⟩
  have hjunk (b : UInt8) : v.getLast? = some b := by
    obtain ⟨buff, d, hbuff, hdec, hall⟩ := hr [] (fun _ => 0) (fun _ => b)
    rw [(encode_plain h ht hv _).2.2] at hbuff
    cases hbuff
    exact junk_in_last ht hn h (Nat.lt_of_lt_of_le hij hjl) hi hnull hm hlast hdec
      ((hall l _ hm).trans he)
  have hcontra := (hjunk 0).symm.trans (hjunk 1)
  exact absurd (Option.some.inj hcontra) (by decide)

theorem textsFit_of_roundTrips (ht : ∀ m ∈ s.columns, m.type.isPlain = true)
    (hn : s.columns.length ≤ 7) (h : RowOver heap s row) (hr : RowRoundTrips heap s row) :
    TextsFit heap s row := by
  have hlast := nullsLast_of_roundTrips ht hn h hr
  obtain ⟨values, hv⟩ := h.exists_values ht
  obtain ⟨buff, d, hbuff, hdec, hall⟩ := hr [] (fun _ => 0) (fun _ => 0)
  rw [(encode_plain h ht hv _).2.2] at hbuff
  cases hbuff
  obtain ⟨packed, hcols, hbuf, hwords, hmeta⟩ := decode_spec hdec
  have hsizes := sizes_of_laidOut s.laidOut
  have hsum : sizeSum s.columns < 2 ^ 16 := by
    have hle := sizeSum_le ht hsizes
    omega
  have hstart : Consecutive ([] : List Cell).length s.columns :=
    consecutive_of_laidOut s.laidOut (by simpa using hsum)
  obtain ⟨cellss, rfl, hcells⟩ := decodeColumns_cells hsizes hcols (List.prefix_refl _)
  obtain ⟨rest, hdata⟩ := rowBuffer_eq hbuf
  have htook : d.sizes = List.zipWith (fun m v => (wireCells m v).length) s.columns values := by
    refine List.ext_getElem? fun k => ?_
    rw [List.getElem?_zipWith]
    by_cases hk : k < s.columns.length
    · have hm := List.getElem?_eq_getElem hk
      obtain ⟨w, hw, he⟩ := hv.get hm
      rw [Nat.zero_add] at he
      have hnull := isNull_of_elementAt (by rw [h.metadatas, hm]) he
      rw [hm, hw]
      cases w with
      | none =>
        exact hcells.size_of_null hk (by rw [Nat.zero_add, nullAt_of_few h hn _ hk, hnull]; rfl)
      | some v =>
        have hsome (j : Nat) (hj : j ≤ k) : nullAt d.row.nullValues (0 + j) = false := by
          rw [Nat.zero_add, hwords, nullAt_of_few h hn _ (by omega)]
          by_contra hne
          have hk' : row.isNull k = true := by
            rcases Nat.lt_or_eq_of_le hj with hlt | rfl
            · exact hlast j k hlt hk (by simpa using hne)
            · simpa using hne
          rw [hnull] at hk'
          cases hk'
        obtain ⟨cells, size, hsize, hload, hdecoded⟩ :=
          load_decoded hstart (hwords ▸ hcells) hm hsome
        rw [List.nil_append, ← hdata] at hload
        have hread : readValue d.heap s.columns[k].type cells = .ok v := by
          have hv' := (hall k _ hm).trans he
          have hpos : 0 < d.row.nullValues.length := by
            have hwk := div_lt_wordsFor hk
            rw [hwords, recoveredNulls, List.length_map, nullHeader_length]
            omega
          have hnk : d.row.isNull k = false := by
            rw [isNull_eq_nullAt hpos, ← Nat.zero_add k, hsome k (Nat.le_refl _)]
          rw [elementAt_eq (by rw [hmeta, hm]), hnk, if_neg (by decide), hload, ok_bind] at hv'
          obtain ⟨u, hu, hv'⟩ := bind_eq_ok hv'
          cases hv'
          exact hu
        rw [hsize, hdecoded.plain (ht _ (List.mem_of_getElem? hm)) v hread]
        simp [wireCells]
    · rw [List.getElem?_eq_none (by rw [hcells.sizes_length]; omega), List.getElem?_eq_none (by omega)]
  have hle := decodeColumns_sum ht hcols
  intro k m v hm hx he
  obtain ⟨w, hw, he'⟩ := hv.get hm
  rw [Nat.zero_add, he] at he'
  cases he'
  have hfit := fits_of_sum (by
    rw [← htook]
    refine hle.trans (Nat.le_of_eq ?_)
    exact flatten_encoded_length s.columns values) hm hw v rfl
  rw [wire_of_text hx, cString, List.length_append] at hfit
  simpa using hfit

/-- A row comes back from a message exactly when its null columns come after the others
and the lengths of its texts fit in 32 bits. -/
theorem row_round_trip_iff (ht : ∀ m ∈ s.columns, m.type.isPlain = true)
    (hn : s.columns.length ≤ 7) (h : RowOver heap s row) :
    RowRoundTrips heap s row ↔ NullsLast s row ∧ TextsFit heap s row := by
  refine ⟨fun hr => ⟨nullsLast_of_roundTrips ht hn h hr, textsFit_of_roundTrips ht hn h hr⟩, ?_⟩
  rintro ⟨hlast, hfit⟩ heap₀ junk junk'
  obtain ⟨values, hv⟩ := h.exists_values ht
  have hlen := hv.length
  have hsum : sizeSum s.columns < 2 ^ 16 := by
    have hle := sizeSum_le ht (sizes_of_laidOut s.laidOut)
    omega
  have hnull (k : Nat) (v : Option Bytes) (hk : values[k]? = some v) : row.isNull k = v.isNone := by
    have hh := hv.isNull h.columns hk
    rwa [Nat.zero_add] at hh
  have hgap : NoGap values := by
    refine List.pairwise_iff_getElem.mpr fun i j hi hj hij hnone => ?_
    have h1 := hnull i _ (List.getElem?_eq_getElem hi)
    have h2 := hnull j _ (List.getElem?_eq_getElem hj)
    rw [hnone] at h1
    rw [hlast i j hij (hlen ▸ hj) h1] at h2
    simpa using h2.symm
  obtain ⟨d, hd, -, -, -, -, hvd, -⟩ := decode_plain ht hsum (hv.valid h.columns ht) hlen hgap
    (fun k v hk => by
      rw [nullAt_of_few h hn junk (hlen ▸ (List.getElem?_eq_some_iff.mp hk).1)]
      exact hnull k v hk) heap₀ junk' []
  refine ⟨_, d, (encode_plain h ht hv junk).2.2, ?_, fun i m hm => ?_⟩
  · rw [zipWith_encoded_of_fits (fits_of_textsFit hfit h ht hv), ← List.append_nil (List.flatten _)]
    exact hd
  · obtain ⟨v, hvi, he⟩ := hv.get hm
    obtain ⟨v', hvi', he'⟩ := hvd.get hm
    rw [hvi] at hvi'
    cases hvi'
    rw [Nat.zero_add] at he he'
    rw [he, he']

end iff

def twoNumbers : Schema where
  columns := [⟨0, 4, .int, []⟩, ⟨4, 8, .bigint, []⟩]
  laidOut := by simp [LaidOut, computeSizeOf, u16]
  bounded := by decide

def numbersRow (nulls : BitVec 32) : TupleRowData where
  metadatas := twoNumbers.columns
  data := byteCells (List.replicate 12 7)
  nullValues := [nulls]

theorem numbersRow_over (nulls : BitVec 32) : RowOver [] twoNumbers (numbersRow nulls) where
  metadatas := rfl
  words := rfl
  size := rfl
  elements
    | 0, _, rfl, _ => ⟨_, rfl, .value (toBytes_byteCells (List.replicate 4 7))⟩
    | 1, _, rfl, _ => ⟨_, rfl, .value (toBytes_byteCells (List.replicate 8 7))⟩

theorem row_round_trip_last_null : RowRoundTrips [] twoNumbers (numbersRow 2#32) := by
  refine (row_round_trip_iff (by decide) (by decide) (numbersRow_over _)).mpr ⟨?_, ?_⟩
  · intro i j hij hj _
    have hj' : j < 2 := hj
    obtain rfl : j = 1 := by omega
    rfl
  · rintro (_ | _ | i) m v hm ht
    · cases hm
      cases ht
    · cases hm
      cases ht
    · cases hm

/-- A null before another column moves it, and the end of its value is whatever was there. -/
theorem null_before_value_lost :
    ¬ ∀ (heap : Heap) (s : Schema) (row : TupleRowData), (∀ m ∈ s.columns, m.type.isPlain = true) →
      s.columns.length ≤ 7 → RowOver heap s row → RowRoundTrips heap s row := by
  intro h
  have hr := h [] twoNumbers (numbersRow 1#32) (by decide) (by decide) (numbersRow_over _)
  have hlast := nullsLast_of_roundTrips (by decide) (by decide) (numbersRow_over _) hr
  exact absurd (hlast 0 1 (by decide) (by decide) rfl) (by decide)

end Hecuba
