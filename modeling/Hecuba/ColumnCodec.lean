import Hecuba.NullVector

/-! One column through encode and decode: what an element of a row denotes, the bytes that
it travels as, and the element that they are decoded to. -/

namespace Hecuba

/-- The types kept inside the row and copied from there. -/
def CassValueType.isInline : CassValueType → Bool
  | .varint | .bigint | .boolean | .double | .float | .int | .smallInt | .tinyInt => true
  | _ => false

def CassValueType.isText : CassValueType → Bool
  | .text | .varchar | .ascii => true
  | _ => false

def CassValueType.isPlain (type : CassValueType) : Bool :=
  type.isInline || type.isText || type = .uuid

/-- The value that the cells of an element denote. -/
def readValue (heap : Heap) (type : CassValueType) (cells : List Cell) : Except Fault Bytes :=
  match type with
  | .text | .varchar | .ascii => do
    let d ← derefBlock heap (← addressOf cells)
    loadBytes d 0 (← strlen d)
  | .uuid => do loadBytes (← derefBlock heap (← addressOf cells)) 0 16
  | .blob | .udt => do
    let d ← derefBlock heap (← addressOf cells)
    loadBytes d 0 (8 + (← loadWord d 0))
  | .varint | .bigint | .boolean | .counter | .double | .float | .int | .smallInt | .tinyInt
  | .date | .time | .timestamp => toBytes cells
  | .tuple | .decimal | .timeuuid | .inet | .list | .map | .set | .custom | .unknown =>
    .error notSupported

/-- The value of a column of a row, or null. -/
def elementAt (heap : Heap) (row : TupleRowData) (m : ColumnMeta) (i : Nat) :
    Except Fault (Option Bytes) :=
  match row.getElement i with
  | none => .ok none
  | some pos => do return some (← readValue heap m.type (← load row.data pos m.size))

/-- What a value of a plain type travels as. -/
def wire (type : CassValueType) (value : Bytes) : Bytes :=
  if type.isText then cString value else value

theorem derefBlock_eq {heap : Heap} {address : Nat} {cells : List Cell}
    (h : derefBlock heap address = .ok cells) : heap[address]? = some (.block cells) := by
  unfold derefBlock at h
  split at h
  · rename_i hb
    cases h
    exact hb
  · cases h

theorem derefBlock_of {heap : Heap} {address : Nat} {cells : List Cell}
    (h : heap[address]? = some (.block cells)) : derefBlock heap address = .ok cells := by
  rw [derefBlock, h]

theorem getElem?_extends {α : Type} {l l' : List α} (h : l <+: l') {i : Nat} {x : α}
    (hx : l[i]? = some x) : l'[i]? = some x := by
  obtain ⟨rest, rfl⟩ := h
  rw [List.getElem?_append_left (List.getElem?_eq_some_iff.mp hx).1, hx]

theorem loadBytes_zero {bytes : Bytes} {n : Nat} (h : bytes.length = n) (rest : List Cell) :
    loadBytes (byteCells bytes ++ rest) 0 n = .ok bytes := by
  rw [loadBytes, load_zero_append (by simpa using h), ok_bind, toBytes_byteCells]

theorem loadBytes_spec {cells : List Cell} {n : Nat} {bytes : Bytes}
    (h : loadBytes cells 0 n = .ok bytes) :
    bytes.length = n ∧ ∃ rest, cells = byteCells bytes ++ rest := by
  obtain ⟨out, ho, hb⟩ := bind_eq_ok h
  obtain ⟨hle, rfl, hlen⟩ := load_spec ho
  rw [List.drop_zero] at hb hlen
  have he := eq_byteCells hb
  refine ⟨by rw [← hlen, he, byteCells_length], cells.drop n, ?_⟩
  rw [← he, List.take_append_drop]

/-- What is behind the element of a plain type that holds a value. -/
inductive Plain (heap : Heap) (type : CassValueType) (value : Bytes) : List Cell → Prop
  | inline (h : type.isInline = true) : Plain heap type value (byteCells value)
  | text {a : Nat} {rest : List Cell} (h : type.isText = true) (hne : ∀ b ∈ value, b ≠ 0)
      (hb : heap[a]? = some (.block (byteCells (cString value) ++ rest))) :
      Plain heap type value (pointerCells a)
  | uuid {a : Nat} {rest : List Cell} (h : type = .uuid) (hlen : value.length = 16)
      (hb : heap[a]? = some (.block (byteCells value ++ rest))) :
      Plain heap type value (pointerCells a)

theorem plain_of_readValue {heap : Heap} {type : CassValueType} {cells : List Cell} {value : Bytes}
    (ht : type.isPlain = true) (h : readValue heap type cells = .ok value) :
    Plain heap type value cells := by
  have htext {type : CassValueType} (ht : type.isText = true)
      (h : (do let d ← derefBlock heap (← addressOf cells); loadBytes d 0 (← strlen d)) = .ok value) :
      Plain heap type value cells := by
    obtain ⟨a, ha, h⟩ := bind_eq_ok h
    obtain ⟨d, hd, h⟩ := bind_eq_ok h
    obtain ⟨n, hn, h⟩ := bind_eq_ok h
    obtain ⟨text, rest, rfl, hne, rfl⟩ := strlen_spec hn
    have hcs : byteCells (cString text) ++ rest = byteCells text ++ (.byte 0 :: rest) := by
      simp [cString, byteCells]
    rw [hcs, loadBytes_zero rfl] at h
    cases h
    rw [eq_pointerCells ha]
    exact .text ht hne (derefBlock_eq hd)
  cases type with
  | text | varchar | ascii => exact htext rfl h
  | uuid =>
    obtain ⟨a, ha, h⟩ := bind_eq_ok h
    obtain ⟨d, hd, h⟩ := bind_eq_ok h
    obtain ⟨hlen, rest, rfl⟩ := loadBytes_spec h
    rw [eq_pointerCells ha]
    exact .uuid rfl hlen (derefBlock_eq hd)
  | varint | bigint | boolean | double | float | int | smallInt | tinyInt =>
    rw [eq_byteCells h]
    exact .inline rfl
  | _ => cases ht

theorem Plain.readValue {heap : Heap} {type : CassValueType} {cells : List Cell} {value : Bytes}
    (h : Plain heap type value cells) : readValue heap type cells = .ok value := by
  cases h with
  | inline h => cases type <;> first | exact toBytes_byteCells value | cases h
  | @text a rest h hne hb =>
    have hcs : byteCells (cString value) ++ rest = byteCells value ++ (.byte 0 :: rest) := by
      simp [cString, byteCells]
    have hread : (do
        let d ← derefBlock heap (← addressOf (pointerCells a))
        loadBytes d 0 (← strlen d)) = .ok value := by
      rw [addressOf_pointerCells, ok_bind, derefBlock_of hb, ok_bind, strlen_cString hne, ok_bind, hcs]
      exact loadBytes_zero rfl _
    cases type <;> first | exact hread | cases h
  | @uuid a rest h hlen hb =>
    subst h
    show (do loadBytes (← derefBlock heap (← addressOf (pointerCells a))) 0 16) = _
    rw [addressOf_pointerCells, ok_bind, derefBlock_of hb, ok_bind, loadBytes_zero hlen]

theorem Plain.mono {heap heap' : Heap} {type : CassValueType} {cells : List Cell} {value : Bytes}
    (h : Plain heap type value cells) (hp : heap <+: heap') : Plain heap' type value cells := by
  cases h with
  | inline h => exact .inline h
  | text h hne hb => exact .text h hne (getElem?_extends hp hb)
  | uuid h hlen hb => exact .uuid h hlen (getElem?_extends hp hb)

theorem wire_of_not_text {type : CassValueType} (h : type.isText = false) (value : Bytes) :
    wire type value = value := by
  rw [wire, h]
  rfl

theorem wire_of_text {type : CassValueType} (h : type.isText = true) (value : Bytes) :
    wire type value = cString value := by
  rw [wire, if_pos h]

theorem not_text_of_inline {type : CassValueType} (h : type.isInline = true) :
    type.isText = false := by
  cases type <;> first | rfl | cases h

/-- A column of a row that is not null and holds a value. -/
structure HoldsPlain (heap : Heap) (row : TupleRowData) (m : ColumnMeta) (i pos : Nat)
    (value : Bytes) (cells : List Cell) : Prop where
  element : row.getElement i = some pos
  stored : load row.data pos m.size = .ok cells
  plain : Plain heap m.type value cells
  size : computeSizeOf m.type = .ok m.size

section

variable {heap : Heap} {row : TupleRowData} {m : ColumnMeta} {i pos : Nat} {value : Bytes}
  {cells : List Cell}

theorem HoldsPlain.inline_length (h : HoldsPlain heap row m i pos value cells)
    (ht : m.type.isInline = true) : value.length = m.size := by
  have hlen := (load_spec h.stored).2.2
  cases h.plain with
  | inline => simpa using hlen
  | text ht' =>
    rw [not_text_of_inline ht] at ht'
    cases ht'
  | uuid hu =>
    rw [hu] at ht
    cases ht

theorem HoldsPlain.contentSize (h : HoldsPlain heap row m i pos value cells) :
    contentSizeOf heap m row i = .ok (u32 (wire m.type value).length) := by
  have hinl := h.inline_length
  obtain ⟨hget, hload, hplain, hsize⟩ := h
  obtain ⟨position, size, type, pointer⟩ := m
  dsimp only at hload hplain hsize hinl ⊢
  rw [contentSizeOf, hget]
  cases hplain with
  | inline ht =>
    rw [wire_of_not_text (not_text_of_inline ht), hinl ht]
    cases type <;> first | (cases hsize; rfl) | cases ht
  | @text a rest ht hne hb =>
    have hs : size = 8 := by cases type <;> first | (cases hsize; rfl) | cases ht
    subst hs
    have hread : (do
        return u32 ((← strlen (← derefBlock heap (← loadPointer row.data pos))) + 1)) =
          Except.ok (ε := Fault) (u32 (cString value).length) := by
      rw [loadPointer, hload, ok_bind, addressOf_pointerCells, ok_bind, derefBlock_of hb, ok_bind,
        strlen_cString hne, ok_bind, cString, List.length_append]
      rfl
    rw [wire_of_text ht]
    cases type <;> first | exact hread | cases ht
  | uuid ht hlen hb =>
    subst ht
    rw [wire_of_not_text rfl, hlen]
    rfl

theorem HoldsPlain.encodeColumn (h : HoldsPlain heap row m i pos value cells) (junk : Nat → UInt8) :
    encodeColumn heap junk m row i (u32 (wire m.type value).length) =
      .ok (byteCells ((wire m.type value).take (u32 (wire m.type value).length))) := by
  have hinl := h.inline_length
  obtain ⟨hget, hload, hplain, hsize⟩ := h
  obtain ⟨position, size, type, pointer⟩ := m
  dsimp only at hload hplain hsize hinl ⊢
  rw [Hecuba.encodeColumn, hget]
  cases hplain with
  | inline ht =>
    have hu : u32 size = size := by cases type <;> first | (cases hsize; rfl) | cases ht
    rw [wire_of_not_text (not_text_of_inline ht), hinl ht, hu, ← hinl ht, List.take_length, ← hload,
      hinl ht]
    cases type <;> first | rfl | cases ht
  | @text a rest ht hne hb =>
    have hs : size = 8 := by cases type <;> first | (cases hsize; rfl) | cases ht
    subst hs
    rw [wire_of_text ht]
    have hle : u32 (cString value).length ≤ (cString value).length := Nat.mod_le _ _
    have hread : (do
        load (← derefBlock heap (← loadPointer row.data pos)) 0 (u32 (cString value).length)) =
          .ok (byteCells ((cString value).take (u32 (cString value).length))) := by
      rw [loadPointer, hload, ok_bind, addressOf_pointerCells, ok_bind, derefBlock_of hb, ok_bind,
        load, if_pos (by simp only [List.length_append, byteCells_length]; omega), List.drop_zero,
        List.take_append_of_le_length (by simpa using hle)]
      simp [byteCells]
    cases type <;> first | exact hread | cases ht
  | @uuid a rest ht hlen hb =>
    subst ht
    have hs : size = 8 := by cases hsize; rfl
    subst hs
    rw [wire_of_not_text rfl, hlen]
    show (do load (← derefBlock heap (← loadPointer row.data pos)) 0 16) = _
    rw [loadPointer, hload, ok_bind, addressOf_pointerCells, ok_bind, derefBlock_of hb, ok_bind,
      load_zero_append (by simpa using hlen), show u32 16 = 16 from rfl, ← hlen, List.take_length]

end

section decoding

variable {junk : Nat → UInt8} {m : ColumnMeta} {heap : Heap} {value : Bytes}

theorem allocate_append {bytes : Bytes} {n : Nat} (h : bytes.length = n) (rest : List Cell) :
    allocate heap (byteCells bytes ++ rest) n =
      .ok (heap ++ [.block (byteCells bytes)], pointerCells heap.length, n) := by
  rw [allocate, load_zero_append (by simpa using h)]
  rfl

theorem allocated (cells : List Cell) :
    (heap ++ [.block cells])[heap.length]? = some (.block cells) := by
  simp

theorem allocated_whole (cells : List Cell) :
    (heap ++ [.block cells])[heap.length]? = some (.block (cells ++ [])) := by
  simp

/-- A value of a plain type comes back from the bytes that it travels as. -/
theorem decodeColumn_wire (ht : m.type.isPlain = true) (hsize : computeSizeOf m.type = .ok m.size)
    (hinl : m.type.isInline = true → value.length = m.size)
    (htext : m.type.isText = true → ∀ b ∈ value, b ≠ 0) (huuid : m.type = .uuid → value.length = 16)
    (rest : List Cell) :
    ∃ heap' cells, decodeColumn junk m heap (byteCells (wire m.type value) ++ rest) =
        .ok (heap', cells, (wire m.type value).length) ∧
      heap <+: heap' ∧ cells.length = m.size ∧ Plain heap' m.type value cells := by
  obtain ⟨position, size, type, pointer⟩ := m
  rw [decodeColumn.eq_def]
  dsimp only at ht hsize hinl htext huuid ⊢
  by_cases hi : type.isInline = true
  · rw [wire_of_not_text (not_text_of_inline hi)]
    refine ⟨heap, byteCells value, ?_, List.prefix_refl _, by simpa using hinl hi, .inline hi⟩
    have hread : (do return (heap, ← load (byteCells value ++ rest) 0 size, size)) =
        Except.ok (ε := Fault) (heap, byteCells value, value.length) := by
      rw [load_zero_append (by simpa using hinl hi), hinl hi]
      rfl
    cases type <;> first | exact hread | cases hi
  · by_cases hx : type.isText = true
    · have hs : size = 8 := by cases type <;> first | (cases hsize; rfl) | cases hx
      rw [wire_of_text hx]
      refine ⟨heap ++ [.block (byteCells (cString value))], pointerCells heap.length, ?_,
        List.prefix_append _ _, hs.symm, .text hx (htext hx) (allocated_whole _)⟩
      have hread : (do
          allocate heap (byteCells (cString value) ++ rest)
            ((← strlen (byteCells (cString value) ++ rest)) + 1)) =
          .ok (heap ++ [.block (byteCells (cString value))], pointerCells heap.length,
            (cString value).length) := by
        rw [strlen_cString (htext hx), ok_bind, allocate_append (by simp [cString])]
        simp [cString]
      cases type <;> first | exact hread | cases hx
    · have hu : type = .uuid := by
        simpa [CassValueType.isPlain, hi, hx] using ht
      subst hu
      have hs : size = 8 := by cases hsize; rfl
      rw [wire_of_not_text rfl]
      refine ⟨heap ++ [.block (byteCells value)], pointerCells heap.length, ?_,
        List.prefix_append _ _, hs.symm, .uuid rfl (huuid rfl) (allocated_whole _)⟩
      show allocate heap (byteCells value ++ rest) 16 = _
      rw [allocate_append (huuid rfl), huuid rfl]

theorem allocate_spec {buff cells : List Cell} {heap' : Heap} {n size : Nat}
    (h : allocate heap buff n = .ok (heap', cells, size)) :
    size = n ∧ n ≤ buff.length ∧ cells = pointerCells heap.length ∧
      heap' = heap ++ [.block (buff.take n)] := by
  obtain ⟨out, ho, h⟩ := bind_eq_ok h
  cases h
  obtain ⟨hle, rfl, -⟩ := load_spec ho
  refine ⟨rfl, by omega, rfl, by rw [List.drop_zero]⟩

theorem decodeColumn_le {buff cells : List Cell} {heap' : Heap} {size : Nat}
    (ht : m.type.isPlain = true) (h : decodeColumn junk m heap buff = .ok (heap', cells, size)) :
    size ≤ buff.length := by
  obtain ⟨position, msize, type, pointer⟩ := m
  rw [decodeColumn.eq_def] at h
  cases type with
  | varchar | text | ascii =>
    obtain ⟨n, -, h⟩ := bind_eq_ok h
    obtain ⟨rfl, hle, -, -⟩ := allocate_spec h
    exact hle
  | uuid =>
    obtain ⟨rfl, hle, -, -⟩ := allocate_spec h
    exact hle
  | varint | bigint | boolean | double | float | int | smallInt | tinyInt =>
    obtain ⟨out, ho, h⟩ := bind_eq_ok h
    cases h
    have hle := (load_spec ho).1
    omega
  | _ => cases ht

/-- The size that decode takes for a plain type is that of the value it has read. -/
theorem decodeColumn_size {buff cells : List Cell} {heap' H : Heap} {size : Nat}
    (ht : m.type.isPlain = true) (h : decodeColumn junk m heap buff = .ok (heap', cells, size))
    (hH : heap' <+: H) (hv : readValue H m.type cells = .ok value) :
    size = (wire m.type value).length := by
  have htext {type : CassValueType} (hx : type.isText = true)
      (hread : (do allocate heap buff ((← strlen buff) + 1)) = .ok (heap', cells, size))
      (hv : readValue H type cells = .ok value) : size = (wire type value).length := by
    obtain ⟨n, hn, hread⟩ := bind_eq_ok hread
    obtain ⟨rfl, -, rfl, rfl⟩ := allocate_spec hread
    obtain ⟨text, rest, rfl, hne, rfl⟩ := strlen_spec hn
    have hblock : H[heap.length]? = some (.block (byteCells (cString text) ++ [])) := by
      rw [getElem?_extends hH (allocated _), List.take_append_of_le_length (by simp [cString]),
        List.append_nil, List.take_of_length_le (by simp [cString])]
    have hp : readValue H type (pointerCells heap.length) = .ok text :=
      (Plain.text hx hne hblock).readValue
    rw [hp] at hv
    cases hv
    rw [wire_of_text hx]
    simp [cString]
  obtain ⟨position, msize, type, pointer⟩ := m
  rw [decodeColumn.eq_def] at h
  dsimp only at hv h ⊢
  cases type with
  | varchar | text | ascii => exact htext rfl h hv
  | uuid =>
    obtain ⟨rfl, -, -, -⟩ := allocate_spec h
    obtain ⟨a, -, hv⟩ := bind_eq_ok hv
    obtain ⟨d, -, hv⟩ := bind_eq_ok hv
    exact (loadBytes_spec hv).1.symm
  | varint | bigint | boolean | double | float | int | smallInt | tinyInt =>
    obtain ⟨out, ho, h⟩ := bind_eq_ok h
    cases h
    rw [wire_of_not_text rfl, ← byteCells_length value, ← eq_byteCells hv]
    exact (load_spec ho).2.2.symm
  | _ => cases ht

end decoding

end Hecuba
