import Hecuba.ZorderCurve

/-! The memory that rows live in. A cell holds a byte or one of the eight bytes of an
address, and only a whole address leads anywhere: bytes read as a pointer are a fault. -/

namespace Hecuba

inductive Cell where
  | byte (b : UInt8)
  | pointer (address k : Nat)
  deriving DecidableEq, Repr

def pointerCells (address : Nat) : List Cell := (List.range 8).map (Cell.pointer address)

def Cell.toByte : Cell → Except Fault UInt8
  | .byte b => .ok b
  | .pointer .. => .error .outOfBounds

def load (cells : List Cell) (pos n : Nat) : Except Fault (List Cell) :=
  if pos + n ≤ cells.length then .ok ((cells.drop pos).take n) else .error .outOfBounds

def store (cells : List Cell) (pos : Nat) (new : List Cell) : Except Fault (List Cell) :=
  if pos + new.length ≤ cells.length then
    .ok (cells.take pos ++ new ++ cells.drop (pos + new.length))
  else .error .outOfBounds

def toBytes : List Cell → Except Fault Bytes
  | [] => .ok []
  | c :: cells => do return (← c.toByte) :: (← toBytes cells)

def loadBytes (cells : List Cell) (pos n : Nat) : Except Fault Bytes := do
  toBytes (← load cells pos n)

/-- A `uint64_t`, least significant byte first. -/
def loadWord (cells : List Cell) (pos : Nat) : Except Fault Nat := do
  return (← loadBytes cells pos 8).foldr (fun b n => b.toNat + 256 * n) 0

def addressOf : List Cell → Except Fault Nat
  | .pointer address k :: cells =>
    if .pointer address k :: cells = pointerCells address then .ok address
    else .error .outOfBounds
  | _ => .error .outOfBounds

def loadPointer (cells : List Cell) (pos : Nat) : Except Fault Nat := do
  addressOf (← load cells pos 8)

def strlen : List Cell → Except Fault Nat
  | [] => .error .outOfBounds
  | .pointer .. :: _ => .error .outOfBounds
  | .byte b :: cells => if b = 0 then .ok 0 else (· + 1) <$> strlen cells

def byteCells (bytes : Bytes) : List Cell := bytes.map Cell.byte

/-- The bytes of a C string, with their terminator. -/
def cString (text : Bytes) : Bytes := text ++ [0]

@[simp] theorem pointerCells_length (address : Nat) : (pointerCells address).length = 8 := rfl

@[simp] theorem byteCells_length (bytes : Bytes) : (byteCells bytes).length = bytes.length :=
  List.length_map _

@[simp] theorem addressOf_pointerCells (address : Nat) :
    addressOf (pointerCells address) = .ok address := by
  have h : pointerCells address = .pointer address 0 ::
      (List.range' 1 7).map (Cell.pointer address) := rfl
  rw [h, addressOf, ← h, if_pos rfl]

theorem eq_pointerCells {cells : List Cell} {address : Nat} (h : addressOf cells = .ok address) :
    cells = pointerCells address := by
  unfold addressOf at h
  split at h
  · split at h
    · rename_i hc
      cases h
      exact hc
    · cases h
  · cases h

@[simp] theorem toBytes_byteCells (bytes : Bytes) : toBytes (byteCells bytes) = .ok bytes := by
  induction bytes with
  | nil => rfl
  | cons b bytes ih =>
    simp only [byteCells, List.map_cons, toBytes, Cell.toByte]
    rw [show toBytes (bytes.map Cell.byte) = .ok bytes from ih]
    rfl

theorem eq_byteCells {cells : List Cell} {bytes : Bytes} (h : toBytes cells = .ok bytes) :
    cells = byteCells bytes := by
  induction cells generalizing bytes with
  | nil =>
    cases h
    rfl
  | cons c cells ih =>
    cases c with
    | pointer => cases h
    | byte b =>
      simp only [toBytes, Cell.toByte] at h
      cases hc : toBytes cells with
      | error e =>
        rw [hc] at h
        cases h
      | ok rest =>
        rw [hc] at h
        cases h
        rw [ih hc]
        rfl

theorem load_zero_append {n : Nat} {cells rest : List Cell} (h : cells.length = n) :
    load (cells ++ rest) 0 n = .ok cells := by
  rw [load, if_pos (by simp only [List.length_append]; omega), List.drop_zero, ← h, List.take_left]

theorem load_self {n : Nat} {cells : List Cell} (h : cells.length = n) : load cells 0 n = .ok cells := by
  have hwhole : load (cells ++ []) 0 n = .ok cells := load_zero_append h
  simpa using hwhole

theorem load_spec {cells out : List Cell} {pos n : Nat} (h : load cells pos n = .ok out) :
    pos + n ≤ cells.length ∧ out = (cells.drop pos).take n ∧ out.length = n := by
  unfold load at h
  split at h
  · rename_i hle
    cases h
    refine ⟨hle, rfl, ?_⟩
    rw [List.length_take, List.length_drop]
    omega
  · cases h

theorem load_of_getElem? {cells out : List Cell} {pos : Nat} (h : ∀ j < out.length, cells[pos + j]? = out[j]?)
    (hlen : pos + out.length ≤ cells.length) : load cells pos out.length = .ok out := by
  rw [load, if_pos hlen]
  refine congrArg Except.ok (List.ext_getElem? fun j => ?_)
  rw [List.getElem?_take]
  split
  · rw [List.getElem?_drop, h j ‹_›]
  · rw [List.getElem?_eq_none (by omega)]

theorem getElem?_of_load {cells out : List Cell} {pos n : Nat} (h : load cells pos n = .ok out) {j : Nat} (hj : j < n) :
    cells[pos + j]? = out[j]? := by
  obtain ⟨-, rfl, -⟩ := load_spec h
  rw [List.getElem?_take_of_lt hj, List.getElem?_drop]

theorem store_front {cells new : List Cell} (h : new.length ≤ cells.length) :
    store cells 0 new = .ok (new ++ cells.drop new.length) := by
  rw [store, if_pos (by omega), List.take_zero, List.nil_append, Nat.zero_add]

theorem store_suffix {before cells new : List Cell} (h : new.length = cells.length) :
    store (before ++ cells) before.length new = .ok (before ++ new) := by
  rw [store, if_pos (by simp only [List.length_append]; omega), List.take_left, h,
    List.drop_of_length_le (by simp), List.append_nil]

theorem store_getElem? {cells new cells' : List Cell} {pos : Nat} (h : store cells pos new = .ok cells') :
    pos + new.length ≤ cells.length ∧ cells'.length = cells.length ∧
      ∀ p, cells'[p]? = if pos ≤ p ∧ p < pos + new.length then new[p - pos]? else cells[p]? := by
  unfold store at h
  split at h
  · rename_i hle
    have hover : cells' = overwrite cells pos new 0 new.length := by
      simpa [overwrite] using (Except.ok.inj h).symm
    refine ⟨hle, hover ▸ overwrite_length hle (by omega), fun p => ?_⟩
    rw [hover, overwrite_getElem? hle (by omega), Nat.zero_add]
  · cases h

theorem strlen_cString {text : Bytes} (h : ∀ b ∈ text, b ≠ 0) (rest : List Cell) :
    strlen (byteCells (cString text) ++ rest) = .ok text.length := by
  induction text with
  | nil => rfl
  | cons b text ih =>
    have hb := h b List.mem_cons_self
    have hh : byteCells (cString (b :: text)) ++ rest =
        .byte b :: (byteCells (cString text) ++ rest) := rfl
    rw [hh, strlen, if_neg hb, ih fun c hc => h c (List.mem_cons_of_mem _ hc)]
    rfl

theorem strlen_spec {cells : List Cell} {n : Nat} (h : strlen cells = .ok n) :
    ∃ text rest, text.length = n ∧ (∀ b ∈ text, b ≠ 0) ∧
      cells = byteCells (cString text) ++ rest := by
  induction cells generalizing n with
  | nil => cases h
  | cons c cells ih =>
    cases c with
    | pointer => cases h
    | byte b =>
      rw [strlen] at h
      split at h
      · rename_i hb
        cases h
        exact ⟨[], cells, rfl, by simp, by rw [hb]; rfl⟩
      · rename_i hb
        cases hc : strlen cells with
        | error e =>
          rw [hc] at h
          cases h
        | ok m =>
          rw [hc] at h
          cases h
          obtain ⟨text, rest, rfl, hne, rfl⟩ := ih hc
          refine ⟨b :: text, rest, rfl, ?_, rfl⟩
          intro d hd
          rcases List.mem_cons.mp hd with rfl | hd
          · exact hb
          · exact hne d hd

end Hecuba
