import Hecuba.RowRoundTrip

/-! What a decoded row tells of the message: each column takes from it as many bytes as its
value is long, and fills its cells from the start of the buffer. -/

namespace Hecuba

/-- The cells and the size that decode gives to a column. -/
structure DecodedAs (heap : Heap) (m : ColumnMeta) (cells : List Cell) (size : Nat) : Prop where
  length : cells.length = m.size
  plain : m.type.isPlain = true → ∀ v, readValue heap m.type cells = .ok v →
    size = (wire m.type v).length
  tuple : m.type = .tuple → ∃ a b, cells = pointerCells a ∧ heap[a]? = some (.block b)

theorem allocate_extends {heap heap' : Heap} {buff cells : List Cell} {n size : Nat}
    (h : allocate heap buff n = .ok (heap', cells, size)) : heap <+: heap' ∧ cells.length = 8 := by
  obtain ⟨-, -, rfl, rfl⟩ := allocate_spec h
  exact ⟨List.prefix_append _ _, rfl⟩

mutual

theorem decodeColumns_extends (junk : Nat → UInt8) : ∀ (metadata : List ColumnMeta)
    (words : List (BitVec 32)) (i : Nat) (heap : Heap) (buff : List Cell)
    (r : Heap × List Cell × List Nat), decodeColumns junk metadata words i heap buff = .ok r →
    heap <+: r.1
  | [], _, _, heap, _, _, h => by
    cases h
    exact List.prefix_refl _
  | m :: metadata, words, i, heap, buff, (heap', packed, sizes), h => by
    obtain ⟨heap₁, cells, size, packed₁, sizes₁, hc, hd, -, -⟩ := decodeColumns_cons h
    have htail := decodeColumns_extends junk metadata words (i + 1) heap₁ _ _ hd
    split at hc
    · cases hc
      exact htail
    · exact (decodeColumn_extends junk m heap buff _ hc).trans htail
  termination_by structural metadata => metadata

theorem decodeColumn_extends (junk : Nat → UInt8) : ∀ (m : ColumnMeta) (heap : Heap)
    (buff : List Cell) (r : Heap × List Cell × Nat), decodeColumn junk m heap buff = .ok r →
    heap <+: r.1
  | ⟨position, size, type, pointer⟩, heap, buff, (heap', cells, n), h => by
    have htuple := decodeColumns_extends junk pointer
    rw [decodeColumn.eq_def] at h
    cases type with
    | varchar | text | ascii =>
      obtain ⟨k, -, h⟩ := bind_eq_ok h
      exact (allocate_extends h).1
    | date | time | timestamp | uuid => exact (allocate_extends h).1
    | udt | blob =>
      obtain ⟨a, -, h⟩ := bind_eq_ok h
      obtain ⟨d, -, h⟩ := bind_eq_ok h
      obtain ⟨w, -, h⟩ := bind_eq_ok h
      exact (allocate_extends h).1
    | tuple =>
      obtain ⟨-, -, h⟩ := bind_eq_ok h
      obtain ⟨k, -, h⟩ := bind_eq_ok h
      obtain ⟨words, -, h⟩ := bind_eq_ok h
      obtain ⟨⟨heap₁, packed, sizes⟩, hd, h⟩ := bind_eq_ok h
      obtain ⟨payload, -, h⟩ := bind_eq_ok h
      cases h
      exact (htuple words 0 heap _ _ hd).trans (List.prefix_append _ _)
    | varint | bigint | boolean | counter | double | float | int | smallInt | tinyInt =>
      obtain ⟨out, -, h⟩ := bind_eq_ok h
      cases h
      exact List.prefix_refl _
    | decimal | timeuuid | inet | list | map | set | custom | unknown => cases h
  termination_by structural m => m

end

section

variable {junk : Nat → UInt8} {m : ColumnMeta} {heap heap' H : Heap} {buff cells : List Cell}
  {size : Nat}

theorem decodeColumn_cells (hs : computeSizeOf m.type = .ok m.size)
    (h : decodeColumn junk m heap buff = .ok (heap', cells, size)) (hH : heap' <+: H) :
    DecodedAs H m cells size := by
  have hplain (ht : m.type.isPlain = true) (v : Bytes) (hv : readValue H m.type cells = .ok v) :=
    decodeColumn_size ht h hH hv
  obtain ⟨position, msize, type, pointer⟩ := m
  rw [decodeColumn.eq_def] at h
  dsimp only at hs h hplain
  cases type with
  | varchar | text | ascii =>
    cases hs
    obtain ⟨k, -, h⟩ := bind_eq_ok h
    exact ⟨(allocate_extends h).2, hplain, fun ht => by cases ht⟩
  | date | time | timestamp | uuid =>
    cases hs
    exact ⟨(allocate_extends h).2, hplain, fun ht => by cases ht⟩
  | udt | blob =>
    cases hs
    obtain ⟨a, -, h⟩ := bind_eq_ok h
    obtain ⟨d, -, h⟩ := bind_eq_ok h
    obtain ⟨w, -, h⟩ := bind_eq_ok h
    exact ⟨(allocate_extends h).2, hplain, fun ht => by cases ht⟩
  | tuple =>
    cases hs
    obtain ⟨-, -, h⟩ := bind_eq_ok h
    obtain ⟨k, -, h⟩ := bind_eq_ok h
    obtain ⟨words, -, h⟩ := bind_eq_ok h
    obtain ⟨⟨heap₁, packed, sizes⟩, -, h⟩ := bind_eq_ok h
    obtain ⟨payload, -, h⟩ := bind_eq_ok h
    cases h
    exact ⟨rfl, hplain, fun _ => ⟨_, payload, rfl, getElem?_extends hH (allocated _)⟩⟩
  | varint | bigint | boolean | counter | double | float | int | smallInt | tinyInt =>
    obtain ⟨out, ho, h⟩ := bind_eq_ok h
    cases h
    exact ⟨(load_spec ho).2.2, hplain, fun ht => by cases ht⟩
  | decimal | timeuuid | inet | list | map | set | custom | unknown => cases h

end

def DecodedFrom (heap : Heap) (words : List (BitVec 32)) :
    Nat → List ColumnMeta → List (List Cell) → List Nat → Prop
  | _, [], [], [] => True
  | i, m :: metadata, cells :: cellss, size :: sizes =>
    (if nullAt words i then cells = [] ∧ size = 0 else DecodedAs heap m cells size) ∧
      DecodedFrom heap words (i + 1) metadata cellss sizes
  | _, _, _, _ => False

section

variable {junk : Nat → UInt8} {words : List (BitVec 32)} {metadata : List ColumnMeta}

theorem decodeColumns_cells (hs : ∀ m ∈ metadata, computeSizeOf m.type = .ok m.size) {i : Nat}
    {heap heap' H : Heap} {buff packed : List Cell} {sizes : List Nat}
    (h : decodeColumns junk metadata words i heap buff = .ok (heap', packed, sizes))
    (hH : heap' <+: H) :
    ∃ cellss, packed = cellss.flatten ∧ DecodedFrom H words i metadata cellss sizes := by
  induction metadata generalizing i heap buff packed sizes with
  | nil =>
    cases h
    exact ⟨[], rfl, trivial⟩
  | cons m metadata ih =>
    obtain ⟨heap₁, cells, size, packed₁, sizes₁, hc, hd, rfl, rfl⟩ := decodeColumns_cons h
    obtain ⟨cellss, rfl, hcells⟩ := ih (fun c hm => hs c (List.mem_cons_of_mem _ hm)) hd
    refine ⟨cells :: cellss, rfl, ?_, hcells⟩
    split at hc
    · rename_i hn
      cases hc
      rw [if_pos hn]
      exact ⟨rfl, rfl⟩
    · rename_i hn
      rw [if_neg hn]
      exact decodeColumn_cells (hs m List.mem_cons_self) hc
        ((decodeColumns_extends junk metadata words (i + 1) heap₁ _ _ hd).trans hH)

theorem decodeColumns_sum (ht : ∀ m ∈ metadata, m.type.isPlain = true) {i : Nat}
    {heap heap' : Heap} {buff packed : List Cell} {sizes : List Nat}
    (h : decodeColumns junk metadata words i heap buff = .ok (heap', packed, sizes)) :
    sizes.sum ≤ buff.length := by
  induction metadata generalizing i heap buff packed sizes with
  | nil =>
    cases h
    exact Nat.zero_le _
  | cons m metadata ih =>
    obtain ⟨heap₁, cells, size, packed₁, sizes₁, hc, hd, rfl, rfl⟩ := decodeColumns_cons h
    have hrest := ih (fun c hm => ht c (List.mem_cons_of_mem _ hm)) hd
    rw [List.length_drop] at hrest
    rw [List.sum_cons]
    split at hc
    · cases hc
      omega
    · have hle := decodeColumn_le (ht m List.mem_cons_self) hc
      omega

theorem DecodedFrom.sizes_length {heap : Heap} {i : Nat} {cellss : List (List Cell)} {sizes : List Nat}
    (h : DecodedFrom heap words i metadata cellss sizes) : sizes.length = metadata.length := by
  induction metadata generalizing i cellss sizes with
  | nil =>
    match cellss, sizes, h with
    | [], [], _ => rfl
  | cons m metadata ih =>
    match cellss, sizes, h with
    | cells :: cellss, size :: sizes, h => simpa using ih h.2

theorem DecodedFrom.size_of_null {heap : Heap} {i k : Nat} {cellss : List (List Cell)}
    {sizes : List Nat} (h : DecodedFrom heap words i metadata cellss sizes)
    (hk : k < metadata.length) (hn : nullAt words (i + k) = true) : sizes[k]? = some 0 := by
  induction metadata generalizing i k cellss sizes with
  | nil => cases hk
  | cons m metadata ih =>
    match cellss, sizes, h with
    | cells :: cellss, size :: sizes, h =>
      cases k with
      | zero =>
        rw [Nat.add_zero] at hn
        have hc := h.1
        rw [if_pos hn] at hc
        rw [hc.2]
        rfl
      | succ k =>
        have hlt : k < metadata.length := by simpa using hk
        have hn' : nullAt words (i + 1 + k) = true := by
          rwa [show i + 1 + k = i + (k + 1) by omega]
        simpa using ih h.2 hlt hn'

theorem load_decoded {heap : Heap} {i : Nat} {before after : List Cell} {cellss : List (List Cell)}
    {sizes : List Nat} (hpos : Consecutive before.length metadata)
    (hd : DecodedFrom heap words i metadata cellss sizes) {k : Nat} {m : ColumnMeta}
    (hm : metadata[k]? = some m) (hn : ∀ j ≤ k, nullAt words (i + j) = false) :
    ∃ cells size, sizes[k]? = some size ∧
      load (before ++ cellss.flatten ++ after) m.position m.size = .ok cells ∧
      DecodedAs heap m cells size := by
  induction metadata generalizing i before cellss sizes k with
  | nil => cases hm
  | cons c metadata ih =>
    match cellss, sizes, hd with
    | cells :: cellss, size :: sizes, hd =>
      obtain ⟨hc, hrest⟩ := hd
      have hnull : nullAt words i = false := hn 0 (Nat.zero_le _)
      rw [hnull, if_neg (by decide)] at hc
      cases k with
      | zero =>
        cases hm
        refine ⟨cells, size, rfl, ?_, hc⟩
        have hlen := hc.length
        rw [hpos.1, load, if_pos (by simp only [List.length_append, List.flatten_cons]; omega),
          List.append_assoc, List.drop_left, List.flatten_cons, List.append_assoc, ← hlen,
          List.take_left]
      | succ k =>
        have hpos' : Consecutive (before ++ cells).length metadata := by
          rw [List.length_append, hc.length]
          exact hpos.2
        obtain ⟨cells', size', hsize, hload, hdec⟩ := ih hpos' hrest hm fun j hj => by
          have hh := hn (j + 1) (by omega)
          rwa [show i + (j + 1) = i + 1 + j by omega] at hh
        refine ⟨cells', size', hsize, ?_, hdec⟩
        rw [← hload]
        simp only [List.flatten_cons, List.append_assoc]

end

theorem decode_spec {heap₀ : Heap} {s : Schema} {junk junk' : Nat → UInt8} {words : List (BitVec 32)}
    {body : List Cell} {d : Decoded}
    (h : decode heap₀ s.columns junk' (byteCells (nullHeader words s.columns.length junk) ++ body) =
      .ok d) :
    ∃ packed, decodeColumns junk' s.columns (recoveredNulls words s.columns.length junk) 0 heap₀
        body = .ok (d.heap, packed, d.sizes) ∧
      rowBuffer s.columns junk' packed = .ok d.row.data ∧
      d.row.nullValues = recoveredNulls words s.columns.length junk ∧
      d.row.metadatas = s.columns := by
  rw [decode, s.u16_length, decodeNulls_append, ok_bind, List.drop_left' (by simp)] at h
  obtain ⟨⟨heap, packed, sizes⟩, hd, h⟩ := bind_eq_ok h
  obtain ⟨data, hb, h⟩ := bind_eq_ok h
  cases h
  exact ⟨packed, hd, hb, rfl, rfl⟩

end Hecuba
