import Mathlib.Data.List.Forall2
import Mathlib.Algebra.BigOperators.Group.List.Basic
import Mathlib.Tactic.Ring

/-! Row-major numbering of the cells of a grid of any rank, and the splitting
of a cell into the coarse cell that contains it and its place inside. -/

namespace Hecuba

def InGrid (dims cc : List Nat) : Prop := List.Forall₂ (· < ·) cc dims

instance (dims cc : List Nat) : Decidable (InGrid dims cc) :=
  inferInstanceAs (Decidable (List.Forall₂ (· < ·) cc dims))

def rowMajor : List Nat → List Nat → Nat
  | _ :: dims, c :: cc => c * dims.prod + rowMajor dims cc
  | _, _ => 0

def unRowMajor : List Nat → Nat → List Nat
  | [], _ => []
  | _ :: dims, n => n / dims.prod :: unRowMajor dims (n % dims.prod)

theorem InGrid.length_eq {dims cc : List Nat} (h : InGrid dims cc) : cc.length = dims.length :=
  List.Forall₂.length_eq h

theorem inGrid_cons {d c : Nat} {dims cc : List Nat} :
    InGrid (d :: dims) (c :: cc) ↔ c < d ∧ InGrid dims cc := List.forall₂_cons

theorem inGrid_iff {dims cc : List Nat} :
    InGrid dims cc ↔ cc.length = dims.length ∧ ∀ i, i < dims.length → cc.getD i 0 < dims.getD i 0 := by
  induction dims generalizing cc with
  | nil => cases cc <;> simp [InGrid]
  | cons d dims ih =>
    cases cc with
    | nil => simp [InGrid]
    | cons c cc =>
      rw [inGrid_cons, ih]
      constructor
      · rintro ⟨hc, hl, hr⟩
        refine ⟨by simp [hl], fun i hi => ?_⟩
        cases i with
        | zero => simpa using hc
        | succ i => simpa using hr i (by simpa using hi)
      · rintro ⟨hl, hr⟩
        refine ⟨by simpa using hr 0 (by simp), by simpa using hl, fun i hi => ?_⟩
        simpa using hr (i + 1) (by simpa using hi)

theorem rowMajor_lt {dims cc : List Nat} (h : InGrid dims cc) : rowMajor dims cc < dims.prod := by
  induction h with
  | nil => simp [rowMajor]
  | @cons c d cc dims hc _ ih =>
    rw [rowMajor, List.prod_cons]
    calc c * dims.prod + rowMajor dims cc < (c + 1) * dims.prod := by rw [Nat.succ_mul]; omega
      _ ≤ d * dims.prod := Nat.mul_le_mul_right _ hc

theorem rowMajor_add {dims a b : List Nat} (ha : a.length = dims.length) (hb : b.length = dims.length) :
    rowMajor dims (List.zipWith (· + ·) a b) = rowMajor dims a + rowMajor dims b := by
  induction dims generalizing a b with
  | nil => simp [rowMajor]
  | cons d dims ih =>
    obtain ⟨x, a, rfl⟩ := List.exists_cons_of_length_eq_add_one ha
    obtain ⟨y, b, rfl⟩ := List.exists_cons_of_length_eq_add_one hb
    simp only [List.zipWith_cons_cons, rowMajor, ih (by simpa using ha) (by simpa using hb)]
    ring

theorem unRowMajor_inGrid {dims : List Nat} {n : Nat} (h : n < dims.prod) :
    InGrid dims (unRowMajor dims n) := by
  induction dims generalizing n with
  | nil => exact List.Forall₂.nil
  | cons d dims ih =>
    rw [List.prod_cons] at h
    have hp : 0 < dims.prod := Nat.pos_of_mul_pos_left (Nat.zero_lt_of_lt h)
    exact inGrid_cons.mpr ⟨Nat.div_lt_of_lt_mul (by rwa [Nat.mul_comm] at h), ih (Nat.mod_lt _ hp)⟩

theorem rowMajor_unRowMajor {dims : List Nat} {n : Nat} (h : n < dims.prod) :
    rowMajor dims (unRowMajor dims n) = n := by
  induction dims generalizing n with
  | nil =>
    have : n = 0 := by simpa using h
    simp [rowMajor, this]
  | cons d dims ih =>
    rw [List.prod_cons] at h
    have hp : 0 < dims.prod := Nat.pos_of_mul_pos_left (Nat.zero_lt_of_lt h)
    rw [unRowMajor, rowMajor, ih (Nat.mod_lt _ hp), Nat.div_add_mod']

theorem unRowMajor_rowMajor {dims cc : List Nat} (h : InGrid dims cc) :
    unRowMajor dims (rowMajor dims cc) = cc := by
  induction h with
  | nil => rfl
  | @cons c d cc dims hc hr ih =>
    have hlt := rowMajor_lt hr
    rw [rowMajor, unRowMajor, Nat.add_comm, Nat.add_mul_mod_self_right, Nat.mod_eq_of_lt hlt, ih,
      Nat.add_mul_div_right _ _ (Nat.zero_lt_of_lt hlt), Nat.div_eq_of_lt hlt, Nat.zero_add]

theorem coarse_add_inner (r : Nat) (x : List Nat) :
    List.zipWith (· + ·) ((x.map (· / r)).map (· * r)) (x.map (· % r)) = x := by
  induction x with
  | nil => rfl
  | cons a x ih => simp only [List.map_cons, List.zipWith_cons_cons, ih, Nat.div_add_mod']

end Hecuba
