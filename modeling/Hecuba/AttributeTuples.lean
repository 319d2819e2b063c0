import Hecuba.ColumnReordering

/-! The attributes of a key or of a value as a tuple of C++: the buffer that is written from the
tuple, and the one that the tuple is read from. -/

namespace Hecuba

/-- A class that derives from IStorage. An object has the pointer to its virtual functions and
the members of IStorage, so it is larger than a pointer. -/
structure StorageClass where
  name : Str
  size : Nat
  larger : 8 < size

inductive ApiType where
  | basic (type : AttributeType)
  | storage (cls : StorageClass)

def AttributeType.sizeOf : AttributeType → Nat
  | .bool => 1
  | .int | .float => 4
  | .long | .double => 8
  | .string => 32

/-- `c_to_cass` for a type that it does not know: the text of a string, or the qualified name. -/
def StorageClass.cToCass (cls : StorageClass) : Str :=
  if occurrences "basic_string".toList cls.name ≠ 0 then "text".toList
  else if cls.name = "StorageNumpy".toList then "hecuba.hnumpy.StorageNumpy".toList
  else if '.' ∈ cls.name then cls.name
  else cls.name ++ '.' :: cls.name

namespace ApiType

def valueType : ApiType → Str
  | .basic type => ObjSpec.cToCass type
  | .storage cls => cls.cToCass

def sizeOf : ApiType → Nat
  | .basic type => type.sizeOf
  | .storage cls => cls.size

end ApiType

/-- A component of the tuple: its bytes, its text, or the address of the object. -/
inductive ApiValue where
  | basic (bytes : Bytes)
  | text (chars : Bytes)
  | object (address : Nat)

namespace AttributeClass

/-- An element of `valuesTmpBuffer`. The address of the object is what `cast2IStorageBuffer` copies. -/
def createAttributeBuffer (heap : Heap) (type : ApiType) (value : ApiValue) : Except Fault (Heap × List Cell) :=
  if ObjSpec.isBasicType type.valueType = true then
    match type, value with
    | .basic .string, .text chars =>
      .ok (heap ++ [.block (byteCells (cString (chars.takeWhile (· ≠ 0))))], pointerCells heap.length)
    | .basic .string, _ => .error .outOfBounds
    | .basic _, .basic bytes => do return (heap, ← load (byteCells bytes) 0 type.sizeOf)
    | .storage _, .object address => do return (heap, ← load (← derefBlock heap address) 0 type.sizeOf)
    | _, _ => .error .outOfBounds
  else
    match value with
    | .object address => .ok (heap, pointerCells address)
    | _ => .error .outOfBounds

def createValuesBuffer : Heap → List (ApiType × ApiValue) → Except Fault (Heap × List (List Cell))
  | heap, [] => .ok (heap, [])
  | heap, (type, value) :: rest => do
    let (heap, buf) ← createAttributeBuffer heap type value
    let (heap, bufs) ← createValuesBuffer heap rest
    return (heap, buf :: bufs)

/-- A component and `tam`, the bytes that it is taken to have in the buffer. An object is
instantiated with the storage id. -/
def setTupleValue (heap : Heap) (type : ApiType) (buffer : List Cell) (offset : Nat) :
    Except Fault (AttributeValue × Nat) :=
  if ObjSpec.isBasicType type.valueType = true then
    if type.valueType = "text".toList then
      match type with
      | .basic _ => do
        let str ← derefBlock heap (← loadPointer buffer offset)
        return (.text (← loadBytes str 0 (← strlen str)), 8)
      -- the text is moved into an object of another class
      | .storage _ => .error .outOfBounds
    else do return (.basic (← loadBytes buffer offset type.sizeOf), type.sizeOf)
  else do
    let uuid ← loadBytes (← derefBlock heap (← loadPointer buffer offset)) 0 16
    return (.object uuid, type.sizeOf)

/-- The components, each with the offset that it is read from. -/
def setTupleValues (heap : Heap) (buffer : List Cell) : List ApiType → Nat → Except Fault (List (Nat × AttributeValue))
  | [], _ => .ok []
  | type :: rest, offset => do
    let (value, tam) ← setTupleValue heap type buffer offset
    return (offset, value) :: (← setTupleValues heap buffer rest (offset + tam))

def completeReading (heap : Heap) (types : List ApiType) (returned : List Cell) :
    Except Fault (List (Nat × AttributeValue)) := do
  if types.length = 1 then setTupleValues heap returned types 0
  else setTupleValues heap (← derefBlock heap (← loadPointer returned 0)) types 0

end AttributeClass

namespace ApiType

def writtenSize (type : ApiType) : Nat :=
  match type with
  | .basic .string => 8
  | .basic t => t.sizeOf
  | .storage cls => if ObjSpec.isBasicType cls.cToCass = true then cls.size else 8

/-- The slot of a component in a buffer that is read: an object is a pointer to its storage id. -/
def Holds (heap : Heap) : ApiType → AttributeValue → List Cell → Prop
  | .basic type, value, cells => value.OfType (ObjSpec.cToCass type) ∧ TableSlot heap value cells
  | .storage cls, .object storageId, cells => storageId.length = 16 ∧
    if ObjSpec.isBasicType cls.cToCass = true then cells.length = cls.size else TableSlot heap (.object storageId) cells
  | .storage _, _, _ => False

end ApiType

def offsetsFrom (offset : Nat) : List Nat → List Nat
  | [] => []
  | n :: sizes => offset :: offsetsFrom (offset + n) sizes

def TupleRestored (types : List ApiType) : Prop :=
  ∀ (heap : Heap) (components : List (ApiType × AttributeValue)) (slots : List (List Cell)),
    components.map Prod.fst = types → List.Forall₂ (fun e cells => e.1.Holds heap e.2 cells) components slots →
    AttributeClass.setTupleValues heap slots.flatten types 0 =
      .ok ((offsetsFrom 0 (types.map ApiType.writtenSize)).zip (components.map Prod.snd))

/-- The objects are taken for objects, and none of them has another component behind it. -/
structure ObjectsLast (types : List ApiType) : Prop where
  named : ∀ cls, .storage cls ∈ types → occurrences "basic_string".toList cls.name = 0
  last : ∀ cls, .storage cls ∉ types.dropLast

section types

theorem dot_not_mem_of_isBasicType {type : Str} (h : ObjSpec.isBasicType type = true) : '.' ∉ type := by
  obtain ⟨cassType, hlookup⟩ := Option.isSome_iff_exists.mp h
  obtain ⟨l₁, l₂, hl, -⟩ := List.lookup_eq_some_iff.mp hlookup
  have hnames : ∀ e ∈ ObjSpec.basicTypes, '.' ∉ e.1 := forall_mem_of_all (by decide)
  exact hnames (type, cassType) (by simp [hl])

theorem isBasicType_cToCass (t : AttributeType) : ObjSpec.isBasicType (ObjSpec.cToCass t) = true := by
  cases t <;> decide

theorem StorageClass.cToCass_of_text {cls : StorageClass} (h : occurrences "basic_string".toList cls.name ≠ 0) :
    cls.cToCass = "text".toList := if_pos h

theorem StorageClass.isBasicType_cToCass {cls : StorageClass} (h : occurrences "basic_string".toList cls.name = 0) :
    ObjSpec.isBasicType cls.cToCass = false := by
  have hdot : '.' ∈ cls.cToCass := by
    rw [StorageClass.cToCass, if_neg (not_not.mpr h)]
    split
    · decide
    · split
      · assumption
      · simp
  exact Bool.eq_false_iff.mpr fun hbasic => dot_not_mem_of_isBasicType hbasic hdot

def ApiType.readSize : ApiType → Nat
  | .basic .string => 8
  | .basic t => t.sizeOf
  | .storage cls => cls.size

theorem ApiType.readSize_basic (t : AttributeType) : (ApiType.basic t).readSize = (ApiType.basic t).writtenSize := by
  cases t <;> rfl

theorem ApiType.readSize_storage {cls : StorageClass} (h : occurrences "basic_string".toList cls.name = 0) :
    (ApiType.storage cls).writtenSize < (ApiType.storage cls).readSize := by
  simpa [ApiType.writtenSize, ApiType.readSize, StorageClass.isBasicType_cToCass h] using cls.larger

end types

section reading

variable {heap : Heap} {type : ApiType} {value : AttributeValue} {cells : List Cell}

theorem ApiType.Holds.length (h : type.Holds heap value cells) : cells.length = type.writtenSize := by
  cases type with
  | basic t =>
    have hlen := SlotWith.length h.2 h.1
    cases t <;> exact (Except.ok.inj hlen).symm
  | storage cls =>
    cases value with
    | object storageId =>
      obtain ⟨hid, hcells⟩ := h
      by_cases hbasic : ObjSpec.isBasicType cls.cToCass = true
      · rw [if_pos hbasic] at hcells
        rw [hcells, ApiType.writtenSize, if_pos hbasic]
      · rw [if_neg hbasic] at hcells
        obtain ⟨address, rfl, -⟩ := hcells
        rw [ApiType.writtenSize, if_neg hbasic]
        rfl
    | basic bytes => exact h.elim
    | text chars => exact h.elim

theorem load_middle (before cells rest : List Cell) : load (before ++ cells ++ rest) before.length cells.length = .ok cells := by
  refine load_of_getElem? (fun j hj => ?_) (by simp)
  rw [List.append_assoc, List.getElem?_append_right (by omega), List.getElem?_append_left (by omega)]
  simp

theorem AttributeClass.setTupleValue_ok (h : type.Holds heap value cells)
    (hnamed : ∀ cls, type = .storage cls → occurrences "basic_string".toList cls.name = 0) (before rest : List Cell) :
    AttributeClass.setTupleValue heap type (before ++ cells ++ rest) before.length = .ok (value, type.readSize) := by
  have hload := load_middle before cells rest
  cases type with
  | basic t =>
    obtain ⟨hvalue, hslot⟩ := h
    rw [AttributeClass.setTupleValue, ApiType.valueType, ApiType.sizeOf, if_pos (isBasicType_cToCass t)]
    cases value with
    | basic bytes =>
      obtain ⟨-, htext, hsize⟩ := hvalue
      obtain rfl : cells = byteCells bytes := hslot
      have hsize' : bytes.length = t.sizeOf ∧ (ApiType.basic t).readSize = t.sizeOf := by
        cases t <;> first | exact ⟨(Except.ok.inj hsize).symm, rfl⟩ | exact absurd rfl htext
      rw [byteCells_length, hsize'.1] at hload
      rw [if_neg htext, loadBytes, hload, ok_bind, toBytes_byteCells, ok_bind, hsize'.2]
      rfl
    | text chars =>
      obtain ⟨htext, hnul⟩ := hvalue
      obtain ⟨address, rfl, hblock⟩ := hslot
      obtain ⟨rest', hderef⟩ := hblock.derefBlock
      obtain ⟨-, hpointer⟩ := loadPointer_of_load hload
      have hbytes : loadBytes (byteCells (cString chars) ++ rest') 0 chars.length = .ok chars := by
        have hsplit : byteCells (cString chars) ++ rest' = byteCells chars ++ (byteCells [0] ++ rest') := by
          simp [byteCells, cString]
        rw [hsplit]
        exact loadBytes_zero rfl _
      have hread : (ApiType.basic t).readSize = 8 := by
        cases t <;> first | rfl | exact absurd htext (by decide)
      rw [if_pos htext]
      simp only [hpointer, hderef, strlen_cString hnul, hbytes, hread, ok_bind, pure_eq_ok]
    | object storageId =>
      obtain ⟨hbasic, -⟩ := hvalue
      rw [isBasicType_cToCass] at hbasic
      cases hbasic
  | storage cls =>
    have hbasic := StorageClass.isBasicType_cToCass (hnamed cls rfl)
    cases value with
    | object storageId =>
      obtain ⟨hid, hslot⟩ := h
      rw [if_neg (by simp [hbasic])] at hslot
      obtain ⟨address, rfl, hblock⟩ := hslot
      obtain ⟨rest', hderef⟩ := hblock.derefBlock
      obtain ⟨-, hpointer⟩ := loadPointer_of_load hload
      rw [AttributeClass.setTupleValue, if_neg (by simp [ApiType.valueType, hbasic])]
      simp only [hpointer, hderef, loadBytes_zero hid, ok_bind, pure_eq_ok]
      rfl
    | basic bytes => exact h.elim
    | text chars => exact h.elim

theorem ObjectsLast.tail {types : List ApiType} (h : ObjectsLast (type :: types)) (hne : types ≠ []) :
    (∀ cls, type ≠ .storage cls) ∧ ObjectsLast types := by
  have hlast := h.last
  rw [List.dropLast_cons_of_ne_nil hne] at hlast
  refine ⟨fun cls hcls => hlast cls (by simp [hcls]), fun cls hcls => h.named cls (by simp [hcls]), fun cls hcls => ?_⟩
  exact hlast cls (List.mem_cons_of_mem _ hcls)

theorem AttributeClass.setTupleValues_ok {components : List (ApiType × AttributeValue)}
    (h : ObjectsLast (components.map Prod.fst)) {slots : List (List Cell)}
    (hslots : List.Forall₂ (fun e cells => e.1.Holds heap e.2 cells) components slots) (before after : List Cell) :
    AttributeClass.setTupleValues heap (before ++ slots.flatten ++ after) (components.map Prod.fst) before.length =
      .ok ((offsetsFrom before.length ((components.map Prod.fst).map ApiType.writtenSize)).zip
        (components.map Prod.snd)) := by
  induction hslots generalizing before with
  | nil => rfl
  | @cons e cells components slots hcells hrest ih =>
    obtain ⟨type, value⟩ := e
    have hread := AttributeClass.setTupleValue_ok hcells
      (fun cls hcls => h.named cls (List.mem_map.mpr ⟨_, List.mem_cons_self, hcls⟩)) before (slots.flatten ++ after)
    have hbuffer : before ++ (cells :: slots).flatten ++ after = before ++ cells ++ (slots.flatten ++ after) := by simp
    rw [List.map_cons, AttributeClass.setTupleValues, hbuffer, hread, ok_bind]
    by_cases hne : components = []
    · subst hne
      rfl
    · -- there is another component, so this one is no object
      have hmore : components.map Prod.fst ≠ [] := by simpa using hne
      obtain ⟨hbasic, hlater⟩ := h.tail hmore
      have hsize : type.readSize = cells.length := by
        cases type with
        | basic t => rw [ApiType.readSize_basic, hcells.length]
        | storage cls => exact absurd rfl (hbasic cls)
      have hrun := ih hlater (before ++ cells)
      rw [List.length_append, List.append_assoc] at hrun
      dsimp only
      rw [hsize, hrun, ok_bind, pure_eq_ok, List.map_cons, List.map_cons, offsetsFrom, ← hcells.length]
      rfl

end reading

section restored

variable {types : List ApiType}

theorem tupleRestored_of_objectsLast (h : ObjectsLast types) : TupleRestored types := by
  intro heap components slots htypes hslots
  subst htypes
  simpa using AttributeClass.setTupleValues_ok h hslots [] []

def sampleHeap : Heap := [.block (byteCells (cString [])), .block (byteCells (List.replicate 16 0))]

def ApiType.sampleValue : ApiType → AttributeValue
  | .basic .string => .text []
  | .basic t => .basic (List.replicate t.sizeOf 0)
  | .storage _ => .object (List.replicate 16 0)

def ApiType.sampleSlot : ApiType → List Cell
  | .basic .string => pointerCells 0
  | .basic t => byteCells (List.replicate t.sizeOf 0)
  | .storage cls =>
    if ObjSpec.isBasicType cls.cToCass = true then byteCells (List.replicate cls.size 0) else pointerCells 1

theorem ApiType.holds_sample (type : ApiType) : type.Holds sampleHeap type.sampleValue type.sampleSlot := by
  cases type with
  | basic t =>
    cases t with
    | string => exact ⟨⟨rfl, by simp⟩, 0, rfl, [], rfl⟩
    | _ => exact ⟨⟨by decide, by decide, rfl⟩, rfl⟩
  | storage cls =>
    refine ⟨by simp, ?_⟩
    by_cases hbasic : ObjSpec.isBasicType cls.cToCass = true
    · rw [if_pos hbasic, ApiType.sampleSlot, if_pos hbasic, byteCells_length, List.length_replicate]
    · rw [if_neg hbasic, ApiType.sampleSlot, if_neg hbasic]
      exact ⟨1, rfl, [], rfl⟩

theorem AttributeClass.setTupleValue_tam {type : ApiType} {heap : Heap} {buffer : List Cell} {offset tam : Nat}
    {value : AttributeValue} (h : AttributeClass.setTupleValue heap type buffer offset = .ok (value, tam)) :
    tam = type.readSize ∧ ∀ cls, type = .storage cls → occurrences "basic_string".toList cls.name = 0 := by
  cases type with
  | basic t =>
    refine ⟨?_, nofun⟩
    rw [AttributeClass.setTupleValue, ApiType.valueType, ApiType.sizeOf, if_pos (isBasicType_cToCass t)] at h
    by_cases htext : ObjSpec.cToCass t = "text".toList
    · rw [if_pos htext] at h
      obtain ⟨_, -, h⟩ := bind_eq_ok h
      obtain ⟨_, -, h⟩ := bind_eq_ok h
      obtain ⟨_, -, h⟩ := bind_eq_ok h
      obtain ⟨_, -, h⟩ := bind_eq_ok h
      cases h
      cases t <;> first | rfl | exact absurd htext (by decide)
    · rw [if_neg htext] at h
      obtain ⟨_, -, h⟩ := bind_eq_ok h
      cases h
      cases t <;> first | rfl | exact absurd rfl htext
  | storage cls =>
    rw [AttributeClass.setTupleValue, ApiType.valueType, ApiType.sizeOf] at h
    by_cases htext : occurrences "basic_string".toList cls.name = 0
    · refine ⟨?_, fun cls' hcls' => by cases hcls'; exact htext⟩
      rw [if_neg (by simp [StorageClass.isBasicType_cToCass htext])] at h
      obtain ⟨_, -, h⟩ := bind_eq_ok h
      obtain ⟨_, -, h⟩ := bind_eq_ok h
      obtain ⟨_, -, h⟩ := bind_eq_ok h
      cases h
      rfl
    · rw [StorageClass.cToCass_of_text htext, if_pos (by decide), if_pos rfl] at h
      cases h

/-- Where a run that returns has read its components. -/
theorem AttributeClass.setTupleValues_offsets {heap : Heap} {buffer : List Cell} {offset : Nat}
    {result : List (Nat × AttributeValue)}
    (h : AttributeClass.setTupleValues heap buffer types offset = .ok result) :
    result.map Prod.fst = offsetsFrom offset (types.map ApiType.readSize) ∧
      ∀ cls, .storage cls ∈ types → occurrences "basic_string".toList cls.name = 0 := by
  induction types generalizing offset result with
  | nil =>
    cases h
    exact ⟨rfl, by simp⟩
  | cons type types ih =>
    obtain ⟨⟨value, tam⟩, hread, h⟩ := bind_eq_ok h
    obtain ⟨later, hlater, h⟩ := bind_eq_ok h
    cases h
    obtain ⟨hoffsets, hnamed⟩ := ih hlater
    have htam := AttributeClass.setTupleValue_tam hread
    refine ⟨by rw [List.map_cons, hoffsets, htam.1]; rfl, fun cls hcls => ?_⟩
    rcases List.mem_cons.mp hcls with hcls | hcls
    · exact htam.2 cls hcls.symm
    · exact hnamed cls hcls

theorem offsetsFrom_length (offset : Nat) (sizes : List Nat) : (offsetsFrom offset sizes).length = sizes.length := by
  induction sizes generalizing offset with
  | nil => rfl
  | cons n sizes ih => rw [offsetsFrom, List.length_cons, ih, List.length_cons]

theorem offsetsFrom_eq_iff {ι : Type} {size size' : ι → Nat} {offset : Nat} {l : List ι} :
    offsetsFrom offset (l.map size) = offsetsFrom offset (l.map size') ↔ ∀ i ∈ l.dropLast, size i = size' i := by
  induction l generalizing offset with
  | nil => simp [offsetsFrom]
  | cons i l ih =>
    cases l with
    | nil => simp [offsetsFrom]
    | cons i' l =>
      have hcons (size : ι → Nat) : offsetsFrom offset ((i :: i' :: l).map size) =
          offset :: offsetsFrom (offset + size i) ((i' :: l).map size) := rfl
      rw [List.dropLast_cons_of_ne_nil (by simp), List.forall_mem_cons, hcons, hcons, List.cons.injEq, and_iff_right rfl]
      constructor
      · intro h
        have hsize : size i = size' i := by
          rw [List.map_cons, List.map_cons, offsetsFrom, offsetsFrom] at h
          have hhead := (List.cons.inj h).1
          omega
        rw [hsize] at h
        exact ⟨hsize, ih.mp h⟩
      · intro ⟨hsize, hlater⟩
        rw [hsize]
        exact ih.mpr hlater

theorem objectsLast_of_tupleRestored (h : TupleRestored types) : ObjectsLast types := by
  let components := types.map fun type => (type, type.sampleValue)
  have htypes : components.map Prod.fst = types := by simp [components, Function.comp_def]
  have hslots : List.Forall₂ (fun (e : ApiType × AttributeValue) cells => e.1.Holds sampleHeap e.2 cells) components
      (types.map ApiType.sampleSlot) := by
    rw [List.forall₂_map_left_iff, List.forall₂_map_right_iff, List.forall₂_same]
    exact fun type _ => type.holds_sample
  have hrun := h sampleHeap components _ htypes hslots
  obtain ⟨hoffsets, hnamed⟩ := AttributeClass.setTupleValues_offsets hrun
  rw [List.map_fst_zip (by simp [offsetsFrom_length, components])] at hoffsets
  refine ⟨hnamed, fun cls hcls => ?_⟩
  have hsize := offsetsFrom_eq_iff.mp hoffsets _ hcls
  have hlarger := ApiType.readSize_storage (hnamed cls (List.dropLast_subset _ hcls))
  omega

/-- The tuple is restored if and only if no object in it has a component behind it. -/
theorem tupleRestored_iff : TupleRestored types ↔ ObjectsLast types :=
  ⟨objectsLast_of_tupleRestored, tupleRestored_of_objectsLast⟩

def person : StorageClass := ⟨"Person".toList, 200, by decide⟩

/-- What follows an object is read 192 bytes behind its place. -/
theorem object_first_not_restored : ¬ TupleRestored [.storage person, .basic .int] := fun h =>
  (objectsLast_of_tupleRestored h).last person (by simp)

end restored

section buffers

variable {heap heap' : Heap} {type : ApiType}

/-- What a component is, where its object is one of the program. -/
def ApiValue.Denotes (heap : Heap) (type : ApiType) : ApiValue → AttributeValue → Prop
  | .basic bytes, value => value = .basic bytes ∧ ∃ t, type = .basic t ∧ t ≠ .string ∧ bytes.length = t.sizeOf
  | .text chars, value => value = .text chars ∧ type = .basic .string ∧ ∀ b ∈ chars, b ≠ 0
  | .object address, value => ∃ storageId cls, value = .object storageId ∧ type = .storage cls ∧
    occurrences "basic_string".toList cls.name = 0 ∧ ObjectAt heap address storageId

theorem AttributeClass.createAttributeBuffer_length {value : ApiValue} {buf : List Cell}
    (h : AttributeClass.createAttributeBuffer heap type value = .ok (heap', buf)) : buf.length = type.writtenSize := by
  unfold AttributeClass.createAttributeBuffer at h
  split at h
  · rename_i hbasic
    split at h
    · cases h
      rfl
    · cases h
    · rename_i t bytes hstring
      obtain ⟨cells, hload, h⟩ := bind_eq_ok h
      cases h
      rw [(load_spec hload).2.2]
      cases t <;> first | rfl | exact absurd rfl hstring
    · rename_i cls address
      obtain ⟨object, -, h⟩ := bind_eq_ok h
      obtain ⟨cells, hload, h⟩ := bind_eq_ok h
      cases h
      have hbasic' : ObjSpec.isBasicType cls.cToCass = true := hbasic
      rw [(load_spec hload).2.2, ApiType.writtenSize, if_pos hbasic']
      rfl
    · cases h
  · rename_i hbasic
    split at h
    · cases h
      cases type with
      | basic t => exact absurd (isBasicType_cToCass t) hbasic
      | storage cls =>
        have hbasic' : ¬ ObjSpec.isBasicType cls.cToCass = true := hbasic
        rw [ApiType.writtenSize, if_neg hbasic', pointerCells_length]
    · cases h

theorem AttributeClass.createValuesBuffer_length {components : List (ApiType × ApiValue)} {bufs : List (List Cell)}
    (h : AttributeClass.createValuesBuffer heap components = .ok (heap', bufs)) :
    bufs.map List.length = components.map fun e => e.1.writtenSize := by
  induction components generalizing heap heap' bufs with
  | nil =>
    cases h
    rfl
  | cons e components ih =>
    obtain ⟨⟨heap₁, buf⟩, hbuf, h⟩ := bind_eq_ok h
    obtain ⟨⟨heap₂, later⟩, hlater, h⟩ := bind_eq_ok h
    cases h
    rw [List.map_cons, List.map_cons, AttributeClass.createAttributeBuffer_length hbuf, ih hlater]

theorem AttributeClass.createAttributeBuffer_userSlot {value : ApiValue} {v : AttributeValue} (h : value.Denotes heap type v) :
    ∃ new buf, AttributeClass.createAttributeBuffer heap type value = .ok (heap ++ new, buf) ∧
      UserSlot (heap ++ new) v buf := by
  cases value with
  | basic bytes =>
    obtain ⟨rfl, t, rfl, hstring, hlen⟩ := h
    have hload : load (byteCells bytes) 0 t.sizeOf = .ok (byteCells bytes) :=
      load_self (by simpa using hlen)
    refine ⟨[], byteCells bytes, ?_, rfl⟩
    rw [AttributeClass.createAttributeBuffer, ApiType.valueType, if_pos (isBasicType_cToCass t), List.append_nil]
    · exact congrArg (· >>= fun cells => pure (heap, cells)) hload
    · exact hstring
  | text chars =>
    obtain ⟨rfl, rfl, hnul⟩ := h
    have hall : chars.takeWhile (· ≠ 0) = chars := List.takeWhile_eq_self_iff.mpr (by simpa using hnul)
    refine ⟨[.block (byteCells (cString chars))], pointerCells heap.length, ?_, heap.length, rfl, blockAt_new heap _⟩
    simp only [AttributeClass.createAttributeBuffer, ApiType.valueType, isBasicType_cToCass, if_true, hall]
  | object address =>
    obtain ⟨storageId, cls, rfl, rfl, hnamed, hobject⟩ := h
    refine ⟨[], pointerCells address, ?_, address, rfl, ?_⟩
    · rw [AttributeClass.createAttributeBuffer, ApiType.valueType, StorageClass.isBasicType_cToCass hnamed, List.append_nil]
      rfl
    · rwa [List.append_nil]

theorem ApiValue.Denotes.mono {value : ApiValue} {v : AttributeValue} (h : value.Denotes heap type v)
    (hp : heap <+: heap') : value.Denotes heap' type v := by
  cases value with
  | basic bytes => exact h
  | text chars => exact h
  | object address =>
    obtain ⟨storageId, cls, hv, htype, hnamed, sid, hobject, hid⟩ := h
    exact ⟨storageId, cls, hv, htype, hnamed, sid, hobject.mono hp, hid.mono hp⟩

/-- The buffer that is made from a tuple is one that `deep_copy_attribute_buffer` can read. -/
theorem AttributeClass.createValuesBuffer_userSlots {components : List (ApiType × ApiValue)} {values : List AttributeValue}
    (h : List.Forall₂ (fun e v => e.2.Denotes heap e.1 v) components values) :
    ∃ new bufs, AttributeClass.createValuesBuffer heap components = .ok (heap ++ new, bufs) ∧
      List.Forall₂ (UserSlot (heap ++ new)) values bufs := by
  induction components generalizing heap values with
  | nil =>
    obtain rfl := List.forall₂_nil_left_iff.mp h
    exact ⟨[], [], by rw [List.append_nil]; rfl, .nil⟩
  | cons e components ih =>
    obtain ⟨v, values, hv, hrest, rfl⟩ := List.forall₂_cons_left_iff.mp h
    obtain ⟨new, buf, hbuf, hslot⟩ := AttributeClass.createAttributeBuffer_userSlot hv
    obtain ⟨new', bufs, hbufs, hslots⟩ := ih (hrest.imp fun _ _ hd => hd.mono (List.prefix_append heap new))
    refine ⟨new ++ new', buf :: bufs, ?_, .cons ?_ ?_⟩
    · rw [AttributeClass.createValuesBuffer, hbuf, ok_bind]
      dsimp only
      rw [hbufs, ok_bind, List.append_assoc]
      rfl
    · rw [← List.append_assoc]
      exact hslot.mono (List.prefix_append _ _)
    · rw [← List.append_assoc]
      exact hslots

theorem AttributeClass.completeReading_ok {components : List (ApiType × AttributeValue)} {returned : List Cell}
    (h : ObjectsLast (components.map Prod.fst))
    (hvalues : ∀ e ∈ components, ∀ cells, TableSlot heap e.2 cells → e.1.Holds heap e.2 cells)
    (hreturned : ReturnedBuffer heap (components.map Prod.snd) returned) :
    AttributeClass.completeReading heap (components.map Prod.fst) returned =
      .ok ((offsetsFrom 0 ((components.map Prod.fst).map ApiType.writtenSize)).zip (components.map Prod.snd)) := by
  obtain ⟨slots, hslots, hcells⟩ := hreturned
  rw [List.forall₂_map_left_iff] at hslots
  have hholds : List.Forall₂ (fun e cells => e.1.Holds heap e.2 cells) components slots :=
    ((List.forall₂_and_left components slots).mpr ⟨fun e he => he, hslots⟩).imp fun e cells hh => hvalues e hh.1 cells hh.2
  rw [AttributeClass.completeReading, List.length_map]
  rw [List.length_map] at hcells
  by_cases hone : components.length = 1
  · rw [if_pos hone] at hcells ⊢
    simpa [hcells] using AttributeClass.setTupleValues_ok h hholds [] []
  · rw [if_neg hone] at hcells ⊢
    obtain ⟨address, rfl, hblock⟩ := hcells
    obtain ⟨rest, hderef⟩ := hblock.derefBlock
    have hpointer : loadPointer (pointerCells address) 0 = .ok address := (loadPointer_of_load (load_pointerCells address)).2
    rw [hpointer, ok_bind, hderef, ok_bind]
    simpa using AttributeClass.setTupleValues_ok h hholds [] rest

end buffers

end Hecuba
