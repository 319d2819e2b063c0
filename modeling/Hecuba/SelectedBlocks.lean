import Hecuba.StorageNumpy

/-! The cells of the array that a serialized view selects, and the blocks they are in. -/

namespace Hecuba

/-- The positions of an entry in a dimension of the array. -/
def Entry.Holds (size : Nat) : Entry → Int → Prop
  | .int i, x => x = i
  | .slice s, x => (removenones s size).start ≤ x ∧ x < (removenones s size).stop ∧
      (removenones s size).step ∣ x - (removenones s size).start

/-- The cells at the positions of a serialized view that are in the array. -/
def Selects : List Nat → List Entry → List Int → Prop
  | [], [], [] => True
  | size :: shape, e :: view, x :: c => (e.Holds size x ∧ 0 ≤ x ∧ x < size) ∧ Selects shape view c
  | _, _, _ => False

/-- The cells of a whole array. -/
def InArray (shape : List Nat) (c : List Int) : Prop :=
  List.Forall₂ (fun x d => 0 ≤ x ∧ x < (d : Int)) c shape

theorem selects_cons_iff {size : Nat} {shape : List Nat} {e : Entry} {view : List Entry} {c : List Int} :
    Selects (size :: shape) (e :: view) c ↔
      ∃ x rest, (e.Holds size x ∧ 0 ≤ x ∧ x < size) ∧ Selects shape view rest ∧ c = x :: rest := by
  cases c with
  | nil => exact iff_of_false id (by rintro ⟨x, rest, -, -, ⟨⟩⟩)
  | cons x c =>
    constructor
    · exact fun h => ⟨x, c, h.1, h.2, rfl⟩
    · rintro ⟨x, rest, hx, hrest, ⟨⟩⟩
      exact ⟨hx, hrest⟩

theorem Selects.inArray {shape : List Nat} {view : List Entry} {c : List Int} (h : Selects shape view c) :
    InArray shape c := by
  induction shape generalizing view c with
  | nil =>
    match view, c with
    | [], [] => exact List.Forall₂.nil
  | cons size shape ih =>
    match view, c with
    | e :: view, x :: c => exact List.Forall₂.cons h.1.2 (ih h.2)

theorem mem_product {ls : List (List Int)} {c : List Int} :
    c ∈ product ls ↔ List.Forall₂ (fun x l => x ∈ l) c ls := by
  induction ls generalizing c with
  | nil => rw [product, List.mem_singleton, List.forall₂_nil_right_iff]
  | cons l ls ih =>
    rw [product, List.mem_flatMap, List.forall₂_cons_right_iff]
    constructor
    · rintro ⟨x, hx, hc⟩
      obtain ⟨c', hc', rfl⟩ := List.mem_map.mp hc
      exact ⟨x, c', hx, ih.mp hc', rfl⟩
    · rintro ⟨x, c', hx, hc', rfl⟩
      exact ⟨x, hx, List.mem_map.mpr ⟨c', ih.mpr hc', rfl⟩⟩

namespace PersistentArray

variable {a : PersistentArray}

def blockOf (a : PersistentArray) (c : List Int) : List Int := c.map (· / (a.rowElem : Int))

theorem blockOf_stored {c : List Int} (h : InArray a.shape c) : a.Stored (a.blockOf c) := by
  rw [Stored, blockOf, List.forall₂_map_left_iff]
  have hR : (0 : Int) < a.rowElem := by exact_mod_cast a.rowElements_pos _
  refine h.imp fun x d hx => ⟨Int.ediv_nonneg hx.1 hR.le, ?_⟩
  exact lt_of_le_of_lt (Int.ediv_mul_le x hR.ne') hx.2

theorem blockRange_mem {rowElem size axis : Nat} {e : Entry} {x : Int} {r : Int × Int}
    (hR : 0 < rowElem) (hx : e.Holds size x) (h : blockRange rowElem size axis e = .ok r) :
    r.1 ≤ x / rowElem ∧ x / rowElem ≤ r.2 := by
  have hle {y z : Int} (hyz : y ≤ z) : y / (rowElem : Int) ≤ z / rowElem :=
    Int.ediv_le_ediv (Int.natCast_pos.mpr hR) hyz
  cases e with
  | int i =>
    rw [blockRange] at h
    cases hc : checkValueInShape i size axis with
    | error err =>
      rw [hc] at h
      cases h
    | ok u =>
      rw [hc] at h
      cases h
      exact ⟨hle (le_of_eq hx.symm), hle (le_of_eq hx)⟩
  | slice s =>
    change (checkValueInShape ((removenones s size).stop - 1) size axis >>= _) = _ at h
    cases hc : checkValueInShape ((removenones s size).stop - 1) size axis with
    | error err =>
      rw [hc] at h
      cases h
    | ok u =>
      rw [hc] at h
      cases h
      exact ⟨hle hx.1, hle (Int.le_sub_one_of_lt hx.2.1)⟩

theorem blockRanges_mem {rowElem axis : Nat} {shape : List Nat} {view : List Entry} {c : List Int}
    {ranges : List (Int × Int)} (hR : 0 < rowElem) (hc : Selects shape view c)
    (h : blockRanges rowElem axis shape view = .ok ranges) :
    List.Forall₂ (fun x r => r.1 ≤ x / (rowElem : Int) ∧ x / (rowElem : Int) ≤ r.2) c ranges := by
  induction shape generalizing axis view c ranges with
  | nil =>
    match view, c with
    | [], [] =>
      cases h
      exact List.Forall₂.nil
  | cons size shape ih =>
    match view, c with
    | e :: view, x :: c =>
      rw [blockRanges] at h
      cases hr : blockRange rowElem size axis e with
      | error err =>
        rw [hr] at h
        cases h
      | ok r =>
        cases hrest : blockRanges rowElem (axis + 1) shape view with
        | error err =>
          rw [hr, hrest] at h
          cases h
        | ok rest =>
          rw [hr, hrest] at h
          cases h
          exact List.Forall₂.cons (blockRange_mem hR hc.1.1 hr) (ih hc.2 hrest)

theorem blockOf_mem {view : List Entry} {c : List Int} {blocks : List (List Int)}
    (hc : Selects a.shape view c) (h : calculateBlockCoords a.rowElem a.shape view = .ok blocks) :
    a.blockOf c ∈ blocks := by
  rw [calculateBlockCoords, calculateListOfRangesOfBlockCoords] at h
  cases hr : blockRanges a.rowElem 0 a.shape view with
  | error e =>
    rw [hr] at h
    cases h
  | ok ranges =>
    rw [hr] at h
    cases h
    rw [mem_product, blockOf, List.forall₂_map_left_iff, List.forall₂_map_right_iff]
    refine (blockRanges_mem a.rowElem_pos hc hr).imp fun x r hx => ?_
    obtain ⟨k, hk⟩ := Int.eq_ofNat_of_zero_le (Int.sub_nonneg_of_le hx.1)
    refine List.mem_map.mpr ⟨k, List.mem_range.mpr ?_, ?_⟩
    · omega
    · rw [← hk, add_sub_cancel]

end PersistentArray

end Hecuba
