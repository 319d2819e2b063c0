import Hecuba.RowRoundTrip

/-! The comparison of rows, which looks at the bytes of the payload, and the content of the
rows: what is in their columns and behind their pointers. -/

namespace Hecuba

/-- Where in memory the objects of a heap are. -/
structure Placement (heap : Heap) where
  address : Nat → Nat
  bounded : ∀ a, a < heap.length → address a < 2 ^ 64
  distinct : ∀ a b, a < heap.length → b < heap.length → address a = address b → a = b

/-- The byte that a cell holds. -/
def Cell.inMemory (address : Nat → Nat) : Cell → UInt8
  | .byte b => b
  | .pointer a k => (toLittleEndian 8 (address a)).getD k 0

/-- A `TupleRow` with its metadata; `metadatas` is the address of the shared vector. -/
structure TypedTupleRow where
  metadatas : Nat
  payload : TupleRowData

def payloadBytes (address : Nat → Nat) (row : TupleRowData) : Bytes := row.data.map (Cell.inMemory address)

def memcmpEqual (lhs rhs : Bytes) (n : Nat) : Bool := lhs.take n = rhs.take n

def TupleRowData.equal (address : Nat → Nat) (lhs rhs : TupleRowData) : Bool :=
  if lhs.data.length ≠ rhs.data.length then false
  else if lhs.nullValues.length ≠ rhs.nullValues.length then false
  else if lhs.nullValues ≠ rhs.nullValues then false
  else memcmpEqual (payloadBytes address lhs) (payloadBytes address rhs) lhs.data.length

def TypedTupleRow.equal (address : Nat → Nat) (lhs rhs : TypedTupleRow) : Bool :=
  if lhs.metadatas ≠ rhs.metadatas then false else lhs.payload.equal address rhs.payload

/-- `std::hash<TupleRow>`; `hash` is the one of strings. -/
def TypedTupleRow.hash (hash : Bytes → Nat) (address : Nat → Nat) (k : TypedTupleRow) : Nat :=
  hash (payloadBytes address k.payload)

def CassValueType.isScalar : CassValueType → Bool
  | .counter | .date | .time | .timestamp => true
  | type => type.isInline

/-- Fixed-size scalars, texts and UUIDs. -/
def CassValueType.isComparable (type : CassValueType) : Bool := type.isScalar || type.isText || type = .uuid

/-- The bytes of a row at a column. -/
def columnBytes (address : Nat → Nat) (row : TupleRowData) (m : ColumnMeta) : Bytes :=
  ((payloadBytes address row).drop m.position).take m.size

/-- The same columns are null, and the others hold the same values. -/
def SameContent (heap : Heap) (s : Schema) (a b : TupleRowData) : Prop :=
  ∀ i m, s.columns[i]? = some m → elementAt heap a m i = elementAt heap b m i

/-- The null vectors agree, and so do the bytes of null columns and the addresses of texts and
UUIDs. -/
def SharesMemory (address : Nat → Nat) (s : Schema) (a b : TupleRowData) : Prop :=
  a.nullValues = b.nullValues ∧ ∀ i m, s.columns[i]? = some m → (a.isNull i = true ∨ m.type.isScalar = false) →
    columnBytes address a m = columnBytes address b m

/-- Equality is equality of content, equal rows have equal hashes, and rows of the same
content are one key of a hash map. -/
structure ContentEquality (hash : Bytes → Nat) (heap : Heap) (address : Nat → Nat) (s : Schema)
    (a b : TypedTupleRow) : Prop where
  equal_iff : a.equal address b = true ↔ SameContent heap s a.payload b.payload
  hash_eq : a.equal address b = true → a.hash hash address = b.hash hash address
  same_entry : SameContent heap s a.payload b.payload →
    a.hash hash address = b.hash hash address ∧ a.equal address b = true

section memory

variable {heap : Heap} {s : Schema} {a b : TupleRowData}

theorem inMemory_byteCells (address : Nat → Nat) (bytes : Bytes) :
    (byteCells bytes).map (Cell.inMemory address) = bytes := by
  simp [byteCells, Function.comp_def, Cell.inMemory]

theorem inMemory_pointerCells (address : Nat → Nat) (a : Nat) :
    (pointerCells a).map (Cell.inMemory address) = toLittleEndian 8 (address a) := by
  refine List.ext_getElem (by simp [toLittleEndian_length]) fun k hk hk' => ?_
  have h8 : k < 8 := by simpa using hk
  simp [pointerCells, Cell.inMemory, List.getElem?_eq_getElem hk']

theorem Placement.pointer_inj (p : Placement heap) {x y : Nat} (hx : x < heap.length) (hy : y < heap.length)
    (h : (pointerCells x).map (Cell.inMemory p.address) = (pointerCells y).map (Cell.inMemory p.address)) :
    x = y := by
  rw [inMemory_pointerCells, inMemory_pointerCells] at h
  have hh := congrArg ofLittleEndian h
  rw [ofLittleEndian_toLittleEndian (p.bounded x hx), ofLittleEndian_toLittleEndian (p.bounded y hy)] at hh
  exact p.distinct x y hx hy hh

/-- A scalar is in its cells; a text or a UUID is at the address that they hold. -/
theorem cells_of_readValue {type : CassValueType} {cells : List Cell} {value : Bytes}
    (ht : type.isComparable = true) (h : readValue heap type cells = .ok value) :
    type.isScalar = true ∧ cells = byteCells value ∨
      type.isScalar = false ∧ ∃ x, x < heap.length ∧ cells = pointerCells x := by
  have hpointer {α : Type} {f : List Cell → Except Fault α} {v : α}
      (h : (do let d ← derefBlock heap (← addressOf cells); f d) = .ok v) :
      ∃ x, x < heap.length ∧ cells = pointerCells x := by
    obtain ⟨x, hx, h⟩ := bind_eq_ok h
    obtain ⟨d, hd, -⟩ := bind_eq_ok h
    exact ⟨x, (List.getElem?_eq_some_iff.mp (derefBlock_eq hd)).1, eq_pointerCells hx⟩
  cases type with
  | text | varchar | ascii | uuid => exact .inr ⟨rfl, hpointer h⟩
  | varint | bigint | boolean | counter | double | float | int | smallInt | tinyInt | date | time | timestamp =>
    exact .inl ⟨rfl, eq_byteCells h⟩
  | _ => cases ht

theorem readValue_of_bytes (p : Placement heap) {type : CassValueType} {cells cells' : List Cell} {v v' : Bytes}
    (ht : type.isComparable = true) (h : readValue heap type cells = .ok v) (h' : readValue heap type cells' = .ok v')
    (hbytes : cells.map (Cell.inMemory p.address) = cells'.map (Cell.inMemory p.address)) : v = v' := by
  rcases cells_of_readValue ht h with ⟨hs, rfl⟩ | ⟨hs, x, hx, rfl⟩
  · rcases cells_of_readValue ht h' with ⟨-, rfl⟩ | ⟨hs', -⟩
    · simpa [inMemory_byteCells] using hbytes
    · simp [hs] at hs'
  · rcases cells_of_readValue ht h' with ⟨hs', -⟩ | ⟨-, y, hy, rfl⟩
    · simp [hs] at hs'
    · obtain rfl := p.pointer_inj hx hy hbytes
      exact Except.ok.inj (h.symm.trans h')

/-- A column that is not null: its cells and their value. -/
theorem value_of_rowOver (h : RowOver heap s a) {i : Nat} {m : ColumnMeta} (hm : s.columns[i]? = some m)
    (ht : m.type.isComparable = true) (hn : a.isNull i = false) : ∃ cells v, load a.data m.position m.size = .ok cells ∧
      readValue heap m.type cells = .ok v ∧ elementAt heap a m i = .ok (some v) := by
  obtain ⟨cells, hload, hholds⟩ := h.elements i m hm hn
  cases hholds with
  | @value _ _ v hv =>
    refine ⟨cells, v, hload, hv, ?_⟩
    rw [elementAt_eq (by rw [h.metadatas, hm]), hn]
    simp [hload, hv]
  | tuple htuple =>
    rw [htuple] at ht
    cases ht

theorem columnBytes_of_load {m : ColumnMeta} {cells : List Cell} (h : load a.data m.position m.size = .ok cells)
    (address : Nat → Nat) : columnBytes address a m = cells.map (Cell.inMemory address) := by
  obtain ⟨-, rfl, -⟩ := load_spec h
  rw [columnBytes, payloadBytes, List.map_take, List.map_drop]

theorem totalBytes_cons (m : ColumnMeta) {metadata : List ColumnMeta} (h : metadata ≠ []) :
    totalBytes (m :: metadata) = totalBytes metadata := by
  rw [totalBytes, totalBytes, List.getLast?_cons_of_ne_nil h]

/-- Every byte of a payload belongs to a column, even if the positions wrap. -/
theorem exists_column {metadata : List ColumnMeta} {position j : Nat} (h : LaidOut position metadata)
    (hj : position ≤ j) (hlt : j < totalBytes metadata) :
    ∃ m ∈ metadata, m.position ≤ j ∧ j < m.position + m.size := by
  induction metadata generalizing position with
  | nil => simp [totalBytes] at hlt
  | cons m metadata ih =>
    obtain ⟨hp, -, hrest⟩ := h
    by_cases hin : j < position + m.size
    · exact ⟨m, List.mem_cons_self, by omega, by omega⟩
    · have hbound : totalBytes (m :: metadata) < 2 ^ 16 := by
        rw [totalBytes]
        cases (m :: metadata).getLast? with
        | none => decide
        | some last => exact Nat.mod_lt _ (by decide)
      have hu : u16 (position + m.size) = position + m.size := Nat.mod_eq_of_lt (by omega)
      by_cases hnil : metadata = []
      · subst hnil
        have htotal : totalBytes [m] = position + m.size := by rw [← hu, ← hp]; rfl
        omega
      · rw [totalBytes_cons m hnil] at hlt
        rw [hu] at hrest
        obtain ⟨c, hc, hcj⟩ := ih hrest (by omega) hlt
        exact ⟨c, List.mem_cons_of_mem _ hc, hcj⟩

end memory

section equality

variable {heap : Heap} {s : Schema} {a b : TupleRowData}

theorem TupleRowData.equal_iff (address : Nat → Nat) : a.equal address b = true ↔
    a.nullValues = b.nullValues ∧ payloadBytes address a = payloadBytes address b := by
  have hlen : ∀ row : TupleRowData, (payloadBytes address row).length = row.data.length := fun row => List.length_map _
  constructor
  · intro h
    by_cases hd : a.data.length = b.data.length
    · by_cases hn : a.nullValues = b.nullValues
      · have hcmp : memcmpEqual (payloadBytes address a) (payloadBytes address b) a.data.length = true := by
          simpa [equal, hd, hn] using h
        rw [memcmpEqual, List.take_of_length_le (hlen a).le, List.take_of_length_le (by rw [hlen, hd])] at hcmp
        exact ⟨hn, by simpa using hcmp⟩
      · simp [equal, hn] at h
    · simp [equal, hd] at h
  · rintro ⟨hn, hp⟩
    have hd : a.data.length = b.data.length := by rw [← hlen, hp, hlen]
    simp [equal, hd, hn, hp, memcmpEqual]

theorem sameContent_of_equal (p : Placement heap) (ht : ∀ m ∈ s.columns, m.type.isComparable = true)
    (ha : RowOver heap s a) (hb : RowOver heap s b) (h : a.equal p.address b = true) : SameContent heap s a b := by
  obtain ⟨hnulls, hbytes⟩ := (TupleRowData.equal_iff p.address).mp h
  intro i m hm
  have hsame : b.isNull i = a.isNull i := by rw [TupleRowData.isNull, TupleRowData.isNull, hnulls]
  have htype := ht m (List.mem_of_getElem? hm)
  cases hn : a.isNull i with
  | true =>
    rw [elementAt_eq (by rw [ha.metadatas, hm]), elementAt_eq (by rw [hb.metadatas, hm]), hsame, hn]
    rfl
  | false =>
    obtain ⟨cells, v, hload, hv, helem⟩ := value_of_rowOver ha hm htype hn
    obtain ⟨cells', v', hload', hv', helem'⟩ := value_of_rowOver hb hm htype (hsame.trans hn)
    have hcells : columnBytes p.address a m = columnBytes p.address b m := by rw [columnBytes, hbytes, columnBytes]
    rw [columnBytes_of_load hload, columnBytes_of_load hload'] at hcells
    rw [helem, helem', readValue_of_bytes p htype hv hv' hcells]

theorem sharesMemory_of_equal {address : Nat → Nat} (h : a.equal address b = true) : SharesMemory address s a b := by
  obtain ⟨hnulls, hbytes⟩ := (TupleRowData.equal_iff address).mp h
  exact ⟨hnulls, fun i m _ _ => by rw [columnBytes, hbytes, columnBytes]⟩

theorem columnBytes_eq (p : Placement heap) (ht : ∀ m ∈ s.columns, m.type.isComparable = true)
    (ha : RowOver heap s a) (hb : RowOver heap s b) (hcontent : SameContent heap s a b)
    (hshared : SharesMemory p.address s a b) {i : Nat} {m : ColumnMeta} (hm : s.columns[i]? = some m) :
    columnBytes p.address a m = columnBytes p.address b m := by
  by_cases hcond : a.isNull i = true ∨ m.type.isScalar = false
  · exact hshared.2 i m hm hcond
  · obtain ⟨hn, hs⟩ : a.isNull i = false ∧ m.type.isScalar = true := by simpa using hcond
    have htype := ht m (List.mem_of_getElem? hm)
    have hsame : b.isNull i = false := by rw [TupleRowData.isNull, ← hshared.1, ← hn, TupleRowData.isNull]
    obtain ⟨cells, v, hload, hv, helem⟩ := value_of_rowOver ha hm htype hn
    obtain ⟨cells', v', hload', hv', helem'⟩ := value_of_rowOver hb hm htype hsame
    have hvv : v = v' := by simpa [helem, helem'] using hcontent i m hm
    rw [columnBytes_of_load hload, columnBytes_of_load hload']
    rcases cells_of_readValue htype hv with ⟨-, rfl⟩ | ⟨hs', -⟩
    · rcases cells_of_readValue htype hv' with ⟨-, rfl⟩ | ⟨hs', -⟩
      · rw [hvv]
      · simp [hs] at hs'
    · simp [hs] at hs'

theorem equal_of_sharesMemory (p : Placement heap) (ht : ∀ m ∈ s.columns, m.type.isComparable = true)
    (ha : RowOver heap s a) (hb : RowOver heap s b) (hcontent : SameContent heap s a b)
    (hshared : SharesMemory p.address s a b) : a.equal p.address b = true := by
  refine (TupleRowData.equal_iff p.address).mpr ⟨hshared.1, ?_⟩
  have hlen : (payloadBytes p.address a).length = (payloadBytes p.address b).length := by
    simp [payloadBytes, ha.size, hb.size]
  refine List.ext_getElem hlen fun j hj hj' => ?_
  have hjt : j < totalBytes s.columns := by simpa [payloadBytes, ha.size] using hj
  obtain ⟨m, hmem, hle, hlt⟩ := exists_column s.laidOut (Nat.zero_le j) hjt
  obtain ⟨i, hi, rfl⟩ := List.getElem_of_mem hmem
  have hcol := columnBytes_eq p ht ha hb hcontent hshared (List.getElem?_eq_getElem hi)
  have hbyte : ∀ l : Bytes,
      ((l.drop s.columns[i].position).take s.columns[i].size)[j - s.columns[i].position]? = l[j]? := by
    intro l
    rw [List.getElem?_take_of_lt (by omega), List.getElem?_drop]
    congr 1
    omega
  have hopt := congrArg (fun l : Bytes => l[j - s.columns[i].position]?) hcol
  simp only [columnBytes, hbyte] at hopt
  rw [List.getElem?_eq_getElem hj, List.getElem?_eq_getElem hj'] at hopt
  exact Option.some.inj hopt

/-- Two rows over the same metadata compare as their content does exactly when rows that have
the same content also have the same null words, the same bytes in null columns and the same
addresses of texts and UUIDs. -/
theorem contentEquality_iff (hash : Bytes → Nat) (p : Placement heap) (ht : ∀ m ∈ s.columns, m.type.isComparable = true)
    {a b : TypedTupleRow} (hmeta : a.metadatas = b.metadatas) (ha : RowOver heap s a.payload)
    (hb : RowOver heap s b.payload) :
    ContentEquality hash heap p.address s a b ↔
      (SameContent heap s a.payload b.payload → SharesMemory p.address s a.payload b.payload) := by
  have hequal : a.equal p.address b = a.payload.equal p.address b.payload := by simp [TypedTupleRow.equal, hmeta]
  have hhash : a.equal p.address b = true → a.hash hash p.address = b.hash hash p.address := fun h => by
    rw [hequal] at h
    rw [TypedTupleRow.hash, TypedTupleRow.hash, ((TupleRowData.equal_iff p.address).mp h).2]
  constructor
  · intro h hcontent
    have heq := h.equal_iff.mpr hcontent
    rw [hequal] at heq
    exact sharesMemory_of_equal heq
  · intro h
    have hof : SameContent heap s a.payload b.payload → a.equal p.address b = true := fun hcontent =>
      hequal ▸ equal_of_sharesMemory p ht ha hb hcontent (h hcontent)
    exact ⟨⟨fun heq => sameContent_of_equal p ht ha hb (hequal ▸ heq), hof⟩, hhash,
      fun hcontent => ⟨hhash (hof hcontent), hof hcontent⟩⟩

def oneText : Schema where
  columns := [⟨0, 8, .text, []⟩]
  laidOut := by simp [LaidOut, computeSizeOf]
  bounded := by decide

/-- Two copies of one text, and another text. -/
def threeTexts : Heap :=
  [.block (byteCells (cString [97])), .block (byteCells (cString [97])), .block (byteCells (cString [98]))]

def everySixteen : Placement threeTexts where
  address a := 4096 + 16 * a
  bounded a h := by
    have hlen : threeTexts.length = 3 := rfl
    omega
  distinct a b _ _ h := by omega

def textRow (address : Nat) : TypedTupleRow := ⟨0, ⟨oneText.columns, pointerCells address, [0]⟩⟩

theorem textRow_element (text : Bytes) (address : Nat) (hne : ∀ b ∈ text, b ≠ 0)
    (h : threeTexts[address]? = some (.block (byteCells (cString text)))) (m : ColumnMeta) (i : Nat)
    (hm : oneText.columns[i]? = some m) : elementAt threeTexts (textRow address).payload m i = .ok (some text) ∧
      load (textRow address).payload.data m.position m.size = .ok (pointerCells address) ∧
      readValue threeTexts m.type (pointerCells address) = .ok text := by
  cases i with
  | succ i => simp [oneText] at hm
  | zero =>
    obtain rfl : m = ⟨0, 8, .text, []⟩ := by simpa [oneText, eq_comm] using hm
    have hblock : threeTexts[address]? = some (.block (byteCells (cString text) ++ [])) := by simpa using h
    have hread : readValue threeTexts .text (pointerCells address) = .ok text :=
      (Plain.text rfl hne hblock).readValue
    have hload : load (textRow address).payload.data 0 8 = .ok (pointerCells address) := rfl
    refine ⟨?_, hload, hread⟩
    have hnull : (textRow address).payload.isNull 0 = false := by simp [textRow, TupleRowData.isNull, nullAt]
    rw [elementAt_eq rfl, hload, ok_bind, hread, hnull]
    rfl

theorem textRow_over (text : Bytes) (address : Nat) (hne : ∀ b ∈ text, b ≠ 0)
    (h : threeTexts[address]? = some (.block (byteCells (cString text)))) :
    RowOver threeTexts oneText (textRow address).payload where
  metadatas := rfl
  words := rfl
  size := rfl
  elements i m hm _ := by
    obtain ⟨-, hload, hread⟩ := textRow_element text address hne h m i hm
    exact ⟨_, hload, .value hread⟩

theorem contentEquality_texts :
    ContentEquality ofLittleEndian threeTexts everySixteen.address oneText (textRow 0) (textRow 2) := by
  have hmeta : (textRow 0).metadatas = (textRow 2).metadatas := rfl
  refine (contentEquality_iff ofLittleEndian everySixteen (by decide) hmeta
    (textRow_over [97] 0 (by simp) rfl) (textRow_over [98] 2 (by simp) rfl)).mpr fun h => ?_
  have h0 := h 0 _ rfl
  rw [(textRow_element [97] 0 (by simp) rfl _ 0 rfl).1, (textRow_element [98] 2 (by simp) rfl _ 0 rfl).1] at h0
  simp at h0

/-- Two rows of the same text, each with its own copy of it, compare as different. -/
theorem copied_text_differs :
    ¬ ContentEquality ofLittleEndian threeTexts everySixteen.address oneText (textRow 0) (textRow 1) := by
  intro h
  have hsame : SameContent threeTexts oneText (textRow 0).payload (textRow 1).payload := fun i m hm => by
    rw [(textRow_element [97] 0 (by simp) rfl m i hm).1, (textRow_element [97] 1 (by simp) rfl m i hm).1]
  exact absurd (h.equal_iff.mpr hsame) (by decide)

end equality

end Hecuba
