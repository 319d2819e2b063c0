import Hecuba.AttributeBuffers
import Hecuba.ColumnCodec

/-! What the copies of a buffer of attributes do to the memory: each value gets a block of its own,
and its slot is the only one that changes. -/

namespace Hecuba

section slots

variable {heap heap' : Heap} {type : Str} {value : AttributeValue} {cells : List Cell}

theorem getCassandraType_of_class (h : ObjSpec.isBasicType type = false) : ObjSpec.getCassandraType type = .uuid := by
  simp only [ObjSpec.isBasicType, Option.isSome_eq_false_iff, Option.isNone_iff_eq_none] at h
  rw [ObjSpec.getCassandraType, h, Option.getD_none]

theorem BlockAt.mono {address : Nat} (h : BlockAt heap address cells) (hp : heap <+: heap') :
    BlockAt heap' address cells := by
  obtain ⟨rest, h⟩ := h
  exact ⟨rest, getElem?_extends hp h⟩

theorem BlockAt.derefBlock {address : Nat} (h : BlockAt heap address cells) :
    ∃ rest, Hecuba.derefBlock heap address = .ok (cells ++ rest) := by
  obtain ⟨rest, h⟩ := h
  exact ⟨rest, derefBlock_of h⟩

theorem blockAt_new (heap : Heap) (cells : List Cell) : BlockAt (heap ++ [.block cells]) heap.length cells :=
  ⟨[], by simp⟩

theorem SlotWith.mono {idAt idAt' : Nat → Bytes → Prop} (h : SlotWith heap idAt value cells) (hp : heap <+: heap')
    (hid : ∀ address storageId, idAt address storageId → idAt' address storageId) :
    SlotWith heap' idAt' value cells := by
  cases value with
  | basic bytes => exact h
  | text chars =>
    obtain ⟨address, hcells, hblock⟩ := h
    exact ⟨address, hcells, hblock.mono hp⟩
  | object storageId =>
    obtain ⟨address, hcells, hat⟩ := h
    exact ⟨address, hcells, hid _ _ hat⟩

theorem UserSlot.mono (h : UserSlot heap value cells) (hp : heap <+: heap') : UserSlot heap' value cells :=
  SlotWith.mono h hp fun _ _ ⟨sid, hobject, hid⟩ => ⟨sid, hobject.mono hp, hid.mono hp⟩

theorem TableSlot.mono (h : TableSlot heap value cells) (hp : heap <+: heap') : TableSlot heap' value cells :=
  SlotWith.mono h hp fun _ _ hid => hid.mono hp

theorem SlotWith.length {idAt : Nat → Bytes → Prop} (h : SlotWith heap idAt value cells) (hvalue : value.OfType type) :
    computeSizeOf (ObjSpec.getCassandraType type) = .ok cells.length := by
  cases value with
  | basic bytes =>
    obtain rfl : cells = byteCells bytes := h
    simpa using hvalue.2.2
  | text chars =>
    obtain ⟨rfl, -⟩ := hvalue
    obtain ⟨address, rfl, -⟩ := h
    rfl
  | object storageId =>
    obtain ⟨address, rfl, -⟩ := h
    rw [getCassandraType_of_class hvalue.1]
    rfl

theorem strlen_block {chars : Bytes} (h : ∀ b ∈ chars, b ≠ 0) (rest : List Cell) :
    strlen (byteCells (cString chars) ++ rest) = .ok chars.length ∧
      load (byteCells (cString chars) ++ rest) 0 (chars.length + 1) = .ok (byteCells (cString chars)) :=
  ⟨strlen_cString h rest, load_zero_append (by simp [cString])⟩

theorem loadPointer_of_load {n address : Nat} {pos : Nat} (h : load cells pos n = .ok (pointerCells address)) :
    n = 8 ∧ loadPointer cells pos = .ok address := by
  have hn : n = 8 := (load_spec h).2.2.symm
  rw [hn] at h
  exact ⟨hn, by rw [loadPointer, h, ok_bind, addressOf_pointerCells]⟩

theorem exists_store (dst out : List Cell) {pos : Nat} (h : pos + out.length ≤ dst.length) :
    ∃ dst', store dst pos out = .ok dst' :=
  ⟨_, if_pos h⟩

theorem load_pointerCells (address : Nat) : load (pointerCells address) 0 8 = .ok (pointerCells address) := rfl

/-- A value of the program is written to its slot with memory of its own. -/
theorem convertIStorageToUUID_ok {src dst : List Cell} {pos offset n : Nat} (hvalue : value.OfType type)
    (hslot : UserSlot heap value cells) (hsrc : load src offset n = .ok cells) (hdst : pos + n ≤ dst.length) :
    ∃ new out dst', convertIStorageToUUID heap dst pos type src offset n = .ok (heap ++ new, dst') ∧
      TableSlot (heap ++ new) value out ∧ out.length = n ∧ store dst pos out = .ok dst' := by
  cases value with
  | basic bytes =>
    obtain ⟨hbasic, htext, -⟩ := hvalue
    have hlen : cells.length = n := (load_spec hsrc).2.2
    obtain ⟨dst', hstore⟩ := exists_store dst cells (by omega : pos + cells.length ≤ dst.length)
    refine ⟨[], cells, dst', ?_, hslot, hlen, hstore⟩
    rw [convertIStorageToUUID, if_neg (by simp [hbasic]), if_neg htext, hsrc, ok_bind, hstore, List.append_nil]
    rfl
  | text chars =>
    obtain ⟨rfl, hnul⟩ := hvalue
    obtain ⟨address, rfl, hblock⟩ := hslot
    obtain ⟨rfl, hpointer⟩ := loadPointer_of_load hsrc
    obtain ⟨rest, hderef⟩ := hblock.derefBlock
    obtain ⟨hstrlen, hload⟩ := strlen_block hnul rest
    obtain ⟨dst', hstore⟩ := exists_store dst (pointerCells heap.length) hdst
    refine ⟨[.block (byteCells (cString chars))], pointerCells heap.length, dst', ?_,
      ⟨heap.length, rfl, blockAt_new heap _⟩, rfl, hstore⟩
    rw [convertIStorageToUUID, if_neg (by decide), if_pos rfl, hpointer, ok_bind, hderef, ok_bind, hstrlen, ok_bind,
      hload, ok_bind, load_pointerCells, ok_bind, hstore]
    rfl
  | object storageId =>
    obtain ⟨hbasic, hid⟩ := hvalue
    obtain ⟨address, rfl, sid, hobject, hblock⟩ := hslot
    obtain ⟨rfl, hpointer⟩ := loadPointer_of_load hsrc
    obtain ⟨rest, hderef⟩ := hobject.derefBlock
    obtain ⟨rest', hderef'⟩ := hblock.derefBlock
    have hstorage : getStorageID heap address = .ok sid := by
      rw [getStorageID, hderef, ok_bind, loadPointer, load_zero_append (pointerCells_length sid), ok_bind,
        addressOf_pointerCells]
    obtain ⟨dst', hstore⟩ := exists_store dst (pointerCells heap.length) hdst
    refine ⟨[.block (byteCells storageId)], pointerCells heap.length, dst', ?_,
      ⟨heap.length, rfl, blockAt_new heap _⟩, rfl, hstore⟩
    rw [convertIStorageToUUID, if_pos hbasic, hpointer, ok_bind, hstorage, ok_bind, hderef', ok_bind,
      load_zero_append (by simpa using hid), ok_bind, load_pointerCells, ok_bind, hstore]
    rfl

theorem extractFromQueryResult_ok {query : List Cell} {pos n : Nat} (hvalue : value.OfType type)
    (hslot : TableSlot heap value cells) (hquery : load query pos n = .ok cells) (valuetmp : List Cell) (offset : Nat)
    (htmp : offset + n ≤ valuetmp.length) :
    ∃ new out valuetmp', extractFromQueryResult heap type n query pos valuetmp offset = .ok (heap ++ new, valuetmp') ∧
      TableSlot (heap ++ new) value out ∧ out.length = n ∧ store valuetmp offset out = .ok valuetmp' := by
  cases value with
  | basic bytes =>
    obtain ⟨hbasic, htext, -⟩ := hvalue
    have hlen : cells.length = n := (load_spec hquery).2.2
    obtain ⟨valuetmp', hstore⟩ := exists_store valuetmp cells (by omega : offset + cells.length ≤ valuetmp.length)
    refine ⟨[], cells, valuetmp', ?_, hslot, hlen, hstore⟩
    rw [extractFromQueryResult, if_neg (by simp [hbasic]), if_neg htext, hquery, ok_bind, hstore, List.append_nil]
    rfl
  | text chars =>
    obtain ⟨rfl, hnul⟩ := hvalue
    obtain ⟨address, rfl, hblock⟩ := hslot
    obtain ⟨rfl, hpointer⟩ := loadPointer_of_load hquery
    obtain ⟨rest, hderef⟩ := hblock.derefBlock
    obtain ⟨hstrlen, hload⟩ := strlen_block hnul rest
    obtain ⟨valuetmp', hstore⟩ := exists_store valuetmp (pointerCells heap.length) htmp
    refine ⟨[.block (byteCells (cString chars))], pointerCells heap.length, valuetmp', ?_,
      ⟨heap.length, rfl, blockAt_new heap _⟩, rfl, hstore⟩
    rw [extractFromQueryResult, if_neg (by decide), if_pos rfl, hpointer, ok_bind, hderef, ok_bind, hstrlen, ok_bind,
      hload, ok_bind, hstore]
    rfl
  | object storageId =>
    obtain ⟨hbasic, hid⟩ := hvalue
    obtain ⟨address, rfl, hblock⟩ := hslot
    obtain ⟨rfl, hpointer⟩ := loadPointer_of_load hquery
    obtain ⟨rest, hderef⟩ := hblock.derefBlock
    obtain ⟨valuetmp', hstore⟩ := exists_store valuetmp (pointerCells heap.length) htmp
    refine ⟨[.block (byteCells storageId)], pointerCells heap.length, valuetmp', ?_,
      ⟨heap.length, rfl, blockAt_new heap _⟩, rfl, hstore⟩
    rw [extractFromQueryResult, if_pos hbasic, hpointer, ok_bind, hderef, ok_bind,
      load_zero_append (by simpa using hid), ok_bind, hstore]
    rfl

end slots

/-- The cells of a column. -/
def ColumnMeta.Covers (m : ColumnMeta) (p : Nat) : Prop := m.position ≤ p ∧ p < m.position + m.size

/-- An attribute with its column and its value. -/
structure AttributeEntry where
  declared : Str × Str
  column : ColumnMeta
  value : AttributeValue

namespace AttributeEntry

structure Valid (t : NamedColumns) (e : AttributeEntry) : Prop where
  column : t.getSingle e.declared.1 = .ok e.column
  value : e.value.OfType e.declared.2

/-- The slot of the column, in a buffer for Cassandra, has the value. -/
def StoredIn (heap : Heap) (cells : List Cell) (e : AttributeEntry) : Prop :=
  ∃ out, load cells e.column.position e.column.size = .ok out ∧ TableSlot heap e.value out

end AttributeEntry

section loops

variable {t : NamedColumns} {heap : Heap} {entries : List AttributeEntry}

theorem deepCopyAttributes_ok (hvalid : ∀ e ∈ entries, e.Valid t)
    (hdisjoint : entries.Pairwise fun e e' => ∀ p, e.column.Covers p → ¬ e'.column.Covers p) {slots : List (List Cell)}
    (hslots : List.Forall₂ (fun e cells => UserSlot heap e.value cells ∧ cells.length = e.column.size) entries slots)
    (before dst : List Cell) (hdst : ∀ e ∈ entries, e.column.position + e.column.size ≤ dst.length) :
    ∃ new dst', deepCopyAttributes t (before ++ slots.flatten) (entries.map AttributeEntry.declared) heap dst
        before.length = .ok (heap ++ new, dst') ∧ dst'.length = dst.length ∧
      (∀ e ∈ entries, e.StoredIn (heap ++ new) dst') ∧ ∀ p, (∀ e ∈ entries, ¬ e.column.Covers p) → dst'[p]? = dst[p]? := by
  induction entries generalizing heap slots before dst with
  | nil => exact ⟨[], dst, by rw [List.append_nil]; rfl, rfl, by simp, fun _ _ => rfl⟩
  | cons e entries ih =>
    obtain ⟨cells, slots, ⟨hslot, hlen⟩, hrest, rfl⟩ := List.forall₂_cons_left_iff.mp hslots
    obtain ⟨hfirst, hothers⟩ := List.pairwise_cons.mp hdisjoint
    have he := hvalid e (by simp)
    have hsrc : load (before ++ (cells :: slots).flatten) before.length e.column.size = .ok cells := by
      rw [← hlen]
      refine load_of_getElem? (fun j hj => ?_) (by simp)
      rw [List.getElem?_append_right (by omega), List.flatten_cons, List.getElem?_append_left (by omega)]
      simp
    obtain ⟨new, out, dst₁, hconvert, hout, houtlen, hstore⟩ :=
      convertIStorageToUUID_ok he.value hslot hsrc (hdst e (by simp))
    obtain ⟨-, hlen₁, hget₁⟩ := store_getElem? hstore
    obtain ⟨new', dst', hcopy, hlen', hstored, hframe⟩ := ih (fun e' he' => hvalid e' (by simp [he'])) hothers
      (hrest.imp fun e' cells' h => ⟨h.1.mono (List.prefix_append heap new), h.2⟩) (before ++ cells) dst₁ fun e' he' => hlen₁ ▸ hdst e' (by simp [he'])
    refine ⟨new ++ new', dst', ?_, hlen'.trans hlen₁, fun e' he' => ?_, fun p hp => ?_⟩
    · rw [List.map_cons, deepCopyAttributes, he.column, ok_bind, hconvert, ok_bind]
      simpa only [List.length_append, hlen, List.flatten_cons, List.append_assoc] using hcopy
    · rw [← List.append_assoc]
      rcases List.mem_cons.mp he' with rfl | he'
      · refine ⟨out, ?_, hout.mono (List.prefix_append _ _)⟩
        rw [← houtlen]
        refine load_of_getElem? (fun j hj => ?_) (by rw [hlen', hlen₁, houtlen]; exact hdst e' (by simp))
        have hinside : e'.column.Covers (e'.column.position + j) := ⟨by omega, by omega⟩
        rw [hframe _ fun e'' he'' => hfirst e'' he'' _ hinside, hget₁, if_pos (by omega)]
        congr 1
        omega
      · exact hstored e' he'
    · rw [hframe p fun e' he' => hp e' (by simp [he']), hget₁, if_neg]
      exact fun hin => hp e (by simp) ⟨hin.1, by omega⟩

/-- The bytes that the columns of the entries take. -/
def entrySizes (entries : List AttributeEntry) : List Nat := entries.map fun e => e.column.size

theorem extractAttributes_ok {query : List Cell} (hvalid : ∀ e ∈ entries, e.Valid t)
    (hstored : ∀ e ∈ entries, e.StoredIn heap query) (before rest : List Cell) (attrSize : Nat)
    (hrest : (entrySizes entries).sum = rest.length) :
    ∃ new slots, extractAttributes t query (entries.map AttributeEntry.declared)
        ⟨heap, before ++ rest, before.length, attrSize⟩ =
      .ok ⟨heap ++ new, before ++ slots.flatten, before.length + slots.flatten.length,
        (entrySizes entries).getLastD attrSize⟩ ∧
      List.Forall₂ (fun e cells => TableSlot (heap ++ new) e.value cells ∧ cells.length = e.column.size) entries slots := by
  induction entries generalizing heap before rest attrSize with
  | nil =>
    have hnil : rest = [] := List.eq_nil_of_length_eq_zero (by simpa [entrySizes] using hrest.symm)
    exact ⟨[], [], by simp [extractAttributes, entrySizes, hnil], .nil⟩
  | cons e entries ih =>
    have he := hvalid e (by simp)
    obtain ⟨cells, hload, hslot⟩ := hstored e (by simp)
    have hsum : e.column.size + (entrySizes entries).sum = rest.length := by simpa [entrySizes] using hrest
    obtain ⟨new, out, valuetmp, hextract, hout, houtlen, hstore⟩ := extractFromQueryResult_ok he.value hslot hload
      (before ++ rest) before.length (by simp; omega)
    have htmp : valuetmp = (before ++ out) ++ rest.drop e.column.size := by
      rw [store, if_pos (by simp; omega), List.take_left, houtlen, List.drop_append,
        List.drop_of_length_le (by omega)] at hstore
      simpa using (Except.ok.inj hstore).symm
    obtain ⟨new', slots, hrun, hslots⟩ := ih (fun e' he' => hvalid e' (by simp [he']))
      (fun e' he' => by
        obtain ⟨cells', hload', hslot'⟩ := hstored e' (by simp [he'])
        exact ⟨cells', hload', hslot'.mono (List.prefix_append heap new)⟩)
      (before ++ out) (rest.drop e.column.size) e.column.size (by rw [List.length_drop]; omega)
    refine ⟨new ++ new', out :: slots, ?_, .cons ⟨?_, houtlen⟩ ?_⟩
    · rw [List.map_cons, extractAttributes, he.column, ok_bind, hextract, ok_bind, htmp]
      rw [List.length_append, houtlen] at hrun
      simpa only [List.flatten_cons, List.append_assoc, List.length_append, houtlen, entrySizes, List.map_cons,
        List.getLastD_cons, Nat.add_assoc] using hrun
    · rw [← List.append_assoc]
      exact hout.mono (List.prefix_append _ _)
    · rw [← List.append_assoc]
      exact hslots

end loops

section marks

variable {heap H : Heap} {type : Str} {value : AttributeValue}

/-- The byte that a value starts with, where it is stored; a basic one has no other. -/
def AttributeValue.StartsWith (v : UInt8) : AttributeValue → Prop
  | .basic bytes => ∀ b ∈ bytes, b = v
  | .text chars => (cString chars).head? = some v
  | .object storageId => storageId.head? = some v

/-- The byte itself, or the address of a block that starts with it. -/
def Marks (heap : Heap) (v : UInt8) (cell : Cell) : Prop :=
  cell = .byte v ∨ ∃ address k, cell = .pointer address k ∧ BlockAt heap address [.byte v]

theorem Marks.eq {v w : UInt8} {cell : Cell} (h : Marks heap v cell) (h' : Marks heap w cell) : v = w := by
  rcases h with rfl | ⟨address, k, rfl, rest, hblock⟩
  · rcases h' with h' | ⟨_, _, h', -⟩
    · exact Cell.byte.inj h'
    · cases h'
  · rcases h' with h' | ⟨_, _, h', rest', hblock'⟩
    · cases h'
    · obtain ⟨rfl, rfl⟩ := Cell.pointer.inj h'
      rw [hblock] at hblock'
      have hcells : v = w ∧ rest = rest' := by simpa using hblock'
      exact hcells.1

/-- A copy starts with what the block it was made of starts with. -/
theorem blockAt_of_copy {address n : Nat} {str tmp rest : List Cell} {bytes : Bytes} {v : UInt8}
    (hderef : derefBlock heap address = .ok str) (hload : load str 0 n = .ok tmp) (htmp : tmp = byteCells bytes ++ rest)
    (hhead : bytes.head? = some v) : BlockAt heap address [.byte v] := by
  obtain ⟨bytes, rfl⟩ : ∃ bytes', bytes = v :: bytes' := by
    cases bytes with
    | nil => simp at hhead
    | cons b bytes => exact ⟨bytes, by simpa using hhead⟩
  obtain ⟨-, hcut, -⟩ := load_spec hload
  have hstr : str = .byte v :: (byteCells bytes ++ rest ++ str.drop n) := by
    have := List.take_append_drop n str
    rw [List.drop_zero] at hcut
    rw [← hcut, htmp] at this
    simpa [byteCells] using this.symm
  have hget : heap[address]? = some (.block str) := by
    unfold derefBlock at hderef
    split at hderef
    · cases hderef
      assumption
    · cases hderef
  exact ⟨_, hget.trans (by rw [hstr]; rfl)⟩

theorem blockAt_extended {cells rest : List Cell} {heap' : Heap} (h : heap ++ [.block cells] <+: heap')
    (hb : BlockAt heap' heap.length rest) : ∃ more, cells = rest ++ more := by
  obtain ⟨more, hmore⟩ := hb
  have hnew : heap'[heap.length]? = some (.block cells) := getElem?_extends h (by simp)
  rw [hnew] at hmore
  exact ⟨more, by simpa using hmore⟩

theorem loadPointer_ok {cells : List Cell} {pos address : Nat} (h : loadPointer cells pos = .ok address) {j : Nat}
    (hj : j < 8) : ∃ k, cells[pos + j]? = some (.pointer address k) := by
  obtain ⟨out, hload, hout⟩ := bind_eq_ok h
  rw [getElem?_of_load hload hj, eq_pointerCells hout]
  exact ⟨j, by simp [pointerCells, List.getElem?_range hj]⟩

theorem extractFromQueryResult_marks {n pos offset : Nat} {query valuetmp valuetmp' : List Cell} {heap' : Heap}
    (h : extractFromQueryResult heap type n query pos valuetmp offset = .ok (heap', valuetmp'))
    (hn : computeSizeOf (ObjSpec.getCassandraType type) = .ok n) (hvalue : value.OfType type) {v : UInt8}
    (hv : value.StartsWith v) :
    ∃ new out, heap' = heap ++ new ∧ store valuetmp offset out = .ok valuetmp' ∧ out.length = n ∧
      ∀ {H}, heap' <+: H → TableSlot H value out → ∀ j < n, ∃ cell, query[pos + j]? = some cell ∧ Marks H v cell := by
  cases value with
  | basic bytes =>
    obtain ⟨hbasic, htext, -⟩ := hvalue
    rw [extractFromQueryResult, if_neg (by simp [hbasic]), if_neg htext] at h
    obtain ⟨out, hload, h⟩ := bind_eq_ok h
    obtain ⟨tmp, hstore, h⟩ := bind_eq_ok h
    cases h
    refine ⟨[], out, by simp, hstore, (load_spec hload).2.2, fun _ hslot j hj => ?_⟩
    obtain rfl : out = byteCells bytes := hslot
    have hlen : bytes.length = n := by simpa using (load_spec hload).2.2
    have hj' : j < bytes.length := by omega
    have hcell : (byteCells bytes)[j]? = some (.byte bytes[j]) := by simp [byteCells, hj']
    exact ⟨.byte bytes[j], (getElem?_of_load hload hj).trans hcell, .inl (by rw [hv _ (List.getElem_mem hj')])⟩
  | text chars =>
    obtain ⟨rfl, hnul⟩ := hvalue
    rw [extractFromQueryResult, if_neg (by decide), if_pos rfl] at h
    obtain ⟨address, hpointer, h⟩ := bind_eq_ok h
    obtain ⟨str, hderef, h⟩ := bind_eq_ok h
    obtain ⟨len, -, h⟩ := bind_eq_ok h
    obtain ⟨tmp, hload, h⟩ := bind_eq_ok h
    obtain ⟨tmp', hstore, h⟩ := bind_eq_ok h
    cases h
    obtain rfl : 8 = n := Except.ok.inj hn
    refine ⟨[.block tmp], _, rfl, hstore, rfl, fun hp hslot j hj => ?_⟩
    obtain ⟨address', haddress, hblock⟩ := hslot
    have hsame : address' = heap.length := by
      have := congrArg addressOf haddress
      simpa using this.symm
    obtain ⟨more, hmore⟩ := blockAt_extended hp (hsame ▸ hblock)
    obtain ⟨k, hk⟩ := loadPointer_ok hpointer hj
    have hmark := (blockAt_of_copy hderef hload hmore hv).mono ((List.prefix_append heap _).trans hp)
    exact ⟨_, hk, .inr ⟨address, k, rfl, hmark⟩⟩
  | object storageId =>
    obtain ⟨hbasic, hid⟩ := hvalue
    rw [extractFromQueryResult, if_pos hbasic] at h
    obtain ⟨address, hpointer, h⟩ := bind_eq_ok h
    obtain ⟨str, hderef, h⟩ := bind_eq_ok h
    obtain ⟨tmp, hload, h⟩ := bind_eq_ok h
    obtain ⟨tmp', hstore, h⟩ := bind_eq_ok h
    cases h
    rw [getCassandraType_of_class hbasic] at hn
    obtain rfl : 8 = n := Except.ok.inj hn
    refine ⟨[.block tmp], _, rfl, hstore, rfl, fun hp hslot j hj => ?_⟩
    obtain ⟨address', haddress, hblock⟩ := hslot
    have hsame : address' = heap.length := by
      have := congrArg addressOf haddress
      simpa using this.symm
    obtain ⟨more, hmore⟩ := blockAt_extended hp (hsame ▸ hblock)
    obtain ⟨k, hk⟩ := loadPointer_ok hpointer hj
    have hmark := (blockAt_of_copy hderef hload hmore hv).mono ((List.prefix_append heap _).trans hp)
    exact ⟨_, hk, .inr ⟨address, k, rfl, hmark⟩⟩

end marks

section runs

variable {t : NamedColumns} {heap : Heap} {entries : List AttributeEntry}

/-- A run of the extraction that returns has had room for all the values, and each of them marks the
cells of its column. -/
theorem extractAttributes_marks {query : List Cell} (hvalid : ∀ e ∈ entries, e.Valid t)
    (hsize : ∀ e ∈ entries, computeSizeOf (ObjSpec.getCassandraType e.declared.2) = .ok e.column.size)
    (mark : AttributeEntry → UInt8) (hmark : ∀ e ∈ entries, e.value.StartsWith (mark e))
    (before : List Cell) {rest : List Cell} {attrSize : Nat} {e' : Extraction}
    (h : extractAttributes t query (entries.map AttributeEntry.declared)
      ⟨heap, before ++ rest, before.length, attrSize⟩ = .ok e') :
    ∃ new slots more, e'.heap = heap ++ new ∧ e'.valuetmp = before ++ slots.flatten ++ more ∧
      e'.attrSize = (entrySizes entries).getLastD attrSize ∧ (entrySizes entries).sum ≤ rest.length ∧
      List.Forall₂ (fun e out => out.length = e.column.size ∧ ∀ {H}, e'.heap <+: H → TableSlot H e.value out →
        ∀ p, e.column.Covers p → ∃ cell, query[p]? = some cell ∧ Marks H (mark e) cell) entries slots := by
  induction entries generalizing heap before rest attrSize with
  | nil =>
    cases h
    exact ⟨[], [], rest, by simp, by simp, rfl, by simp [entrySizes], .nil⟩
  | cons e entries ih =>
    have he := hvalid e (by simp)
    rw [List.map_cons, extractAttributes, he.column, ok_bind] at h
    obtain ⟨⟨heap₁, valuetmp⟩, hextract, h⟩ := bind_eq_ok h
    dsimp only at hextract
    obtain ⟨new, out, rfl, hstore, hout, hmarks⟩ :=
      extractFromQueryResult_marks hextract (hsize e (by simp)) he.value (hmark e (by simp))
    obtain ⟨hroom, -, -⟩ := store_getElem? hstore
    have hlen : out.length ≤ rest.length := by
      rw [List.length_append] at hroom
      omega
    have htmp : valuetmp = before ++ out ++ rest.drop e.column.size := by
      rw [store, if_pos hroom, List.take_left, hout, List.drop_append, List.drop_of_length_le (by omega)] at hstore
      simpa using (Except.ok.inj hstore).symm
    have hoffset : before.length + e.column.size = (before ++ out).length := by rw [List.length_append, hout]
    simp only [htmp, hoffset] at h
    obtain ⟨new', slots, more, hheap, hvaluetmp, hattr, hsum, hslots⟩ := ih (fun e' he' => hvalid e' (by simp [he']))
      (fun e' he' => hsize e' (by simp [he'])) (fun e' he' => hmark e' (by simp [he'])) _ h
    refine ⟨new ++ new', out :: slots, more, by rw [hheap, List.append_assoc], by rw [hvaluetmp]; simp, ?_, ?_,
      .cons ⟨hout, fun hp hslot p hcovers => ?_⟩ hslots⟩
    · rw [hattr, entrySizes, entrySizes, List.map_cons, List.getLastD_cons]
    · have hsums : (entrySizes (e :: entries)).sum = e.column.size + (entrySizes entries).sum := by simp [entrySizes]
      rw [List.length_drop] at hsum
      omega
    · have hextends : heap ++ new <+: e'.heap := hheap ▸ List.prefix_append _ _
      obtain ⟨hlow, hhigh⟩ := hcovers
      have hcell := hmarks (hextends.trans hp) hslot (p - e.column.position) (by omega)
      rwa [Nat.add_sub_cancel' hlow] at hcell

end runs

end Hecuba
