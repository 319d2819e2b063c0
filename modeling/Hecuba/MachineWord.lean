import Mathlib.Algebra.BigOperators.Group.List.Basic
import Mathlib.Data.Nat.Bitwise
import Mathlib.Tactic.Ring

/-! Fixed-width arithmetic: wrapping words, little-endian bytes, two's complement and
loops that set bits one by one. -/

namespace Hecuba

def u32 (n : Nat) : Nat := n % 2 ^ 32

def u64 (n : Nat) : Nat := n % 2 ^ 64

def sub32 (a b : Nat) : Nat := (a + 2 ^ 32 - u32 b) % 2 ^ 32

/-- A 64-bit word read as a two's complement number. -/
def int64 (n : Nat) : Int := if u64 n < 2 ^ 63 then u64 n else (u64 n : Int) - 2 ^ 64

theorem u32_of_lt {n : Nat} (h : n < 2 ^ 32) : u32 n = n := Nat.mod_eq_of_lt h

theorem u64_of_lt {n : Nat} (h : n < 2 ^ 64) : u64 n = n := Nat.mod_eq_of_lt h

theorem sub32_of_le {a b : Nat} (ha : a < 2 ^ 32) (hb : b ≤ a) : sub32 a b = a - b := by
  simp only [sub32, u32]
  omega

theorem int64_of_lt {n : Nat} (h : n < 2 ^ 63) : int64 n = n := by
  simp only [int64, u64]
  omega

theorem foldl_mul_u64 (l : List Nat) {e : Nat} (he : e < 2 ^ 64) :
    l.foldl (fun acc d => u64 (acc * d)) e = u64 (e * l.prod) := by
  induction l generalizing e with
  | nil => simp [u64_of_lt he]
  | cons d l ih =>
    have hlt : u64 (e * d) < 2 ^ 64 := Nat.mod_lt _ (by decide)
    rw [List.foldl_cons, ih hlt, List.prod_cons]
    simp only [u64, Nat.mod_mul_mod, Nat.mul_assoc]

def toLittleEndian : Nat → Nat → List UInt8
  | 0, _ => []
  | k + 1, n => UInt8.ofNat n :: toLittleEndian k (n / 256)

def ofLittleEndian : List UInt8 → Nat
  | [] => 0
  | b :: bs => b.toNat + 256 * ofLittleEndian bs

theorem toLittleEndian_length (k n : Nat) : (toLittleEndian k n).length = k := by
  induction k generalizing n with
  | zero => rfl
  | succ k ih => simp [toLittleEndian, ih]

theorem ofLittleEndian_toLittleEndian {k n : Nat} (h : n < 256 ^ k) :
    ofLittleEndian (toLittleEndian k n) = n := by
  induction k generalizing n with
  | zero => simp only [Nat.pow_zero, Nat.lt_one_iff] at h; simp [toLittleEndian, ofLittleEndian, h]
  | succ k ih =>
    rw [toLittleEndian, ofLittleEndian, ih (Nat.div_lt_of_lt_mul (by rwa [Nat.pow_succ'] at h))]
    simp only [UInt8.toNat_ofNat']
    omega

/-- The integers of a signed C type. -/
def FitsSigned (size : Nat) (n : Int) : Prop := -2 ^ (8 * size - 1) ≤ n ∧ n < 2 ^ (8 * size - 1)

instance (size : Nat) (n : Int) : Decidable (FitsSigned size n) := inferInstanceAs (Decidable (_ ∧ _))

/-- The bytes of an integer in two's complement, least significant first. -/
def twosComplement (size : Nat) (n : Int) : List UInt8 := toLittleEndian size (n % 2 ^ (8 * size)).toNat

def ofTwosComplement (bytes : List UInt8) : Int := (ofLittleEndian bytes : Int).bmod (2 ^ (8 * bytes.length))

@[simp] theorem twosComplement_length (size : Nat) (n : Int) : (twosComplement size n).length = size :=
  toLittleEndian_length size _

theorem double_signed {size : Nat} (hsize : 0 < size) : (2 : Int) * 2 ^ (8 * size - 1) = 2 ^ (8 * size) := by
  rw [← Int.pow_succ']
  congr 1
  omega

theorem ofTwosComplement_twosComplement {size : Nat} {n : Int} (hsize : 0 < size) (h : FitsSigned size n) :
    ofTwosComplement (twosComplement size n) = n := by
  have hdouble := double_signed hsize
  have hpos : (0 : Int) < 2 ^ (8 * size) := Int.pow_pos (by decide)
  have hmod : ((n % 2 ^ (8 * size)).toNat : Int) = n % 2 ^ (8 * size) := Int.toNat_of_nonneg (Int.emod_nonneg n hpos.ne')
  have hlt : (n % 2 ^ (8 * size)).toNat < 256 ^ size := by
    have hbound := Int.emod_lt_of_pos n hpos
    rw [show 256 = 2 ^ 8 from rfl, ← Nat.pow_mul]
    rw [← hmod] at hbound
    exact_mod_cast hbound
  have hcast : ((2 ^ (8 * size) : Nat) : Int) = 2 ^ (8 * size) := by simp
  rw [ofTwosComplement, twosComplement_length, twosComplement, ofLittleEndian_toLittleEndian hlt, hmod, ← hcast,
    Int.emod_bmod]
  obtain ⟨hlow, hhigh⟩ := h
  apply Int.bmod_eq_of_le_mul_two
  · omega
  · omega

theorem fitsSigned_ofTwosComplement {bytes : List UInt8} (h : 0 < bytes.length) :
    FitsSigned bytes.length (ofTwosComplement bytes) := by
  have hdouble := double_signed h
  have hpos : 0 < 2 ^ (8 * bytes.length) := Nat.pow_pos (by decide)
  have hcast : ((2 ^ (8 * bytes.length) : Nat) : Int) = 2 ^ (8 * bytes.length) := by simp
  have hlow := Int.le_bmod (x := (ofLittleEndian bytes : Int)) hpos
  have hhigh := Int.bmod_lt (x := (ofLittleEndian bytes : Int)) hpos
  rw [hcast] at hlow hhigh
  constructor
  · unfold ofTwosComplement
    omega
  · unfold ofTwosComplement
    omega

theorem testBit_foldl_or {ι : Type*} (l : List ι) (p : ι → Bool) (mask : ι → Nat) (a j : Nat) :
    (l.foldl (fun acc i => if p i then acc ||| mask i else acc) a).testBit j = true ↔
      a.testBit j = true ∨ ∃ i ∈ l, p i = true ∧ (mask i).testBit j = true := by
  induction l generalizing a with
  | nil => simp
  | cons i l ih =>
    rw [List.foldl_cons, ih]
    by_cases hp : p i = true
    · simp only [hp, if_true, Nat.testBit_or, Bool.or_eq_true, List.exists_mem_cons_iff, true_and, or_assoc]
    · simp [hp]

theorem testBit_foldl_foldl_or {ι κ : Type*} (l : List ι) (m : List κ) (p : ι → κ → Bool)
    (mask : ι → κ → Nat) (a j : Nat) :
    (l.foldl (fun acc i => m.foldl (fun acc k => if p i k then acc ||| mask i k else acc) acc) a).testBit j
        = true ↔
      a.testBit j = true ∨ ∃ i ∈ l, ∃ k ∈ m, p i k = true ∧ (mask i k).testBit j = true := by
  induction l generalizing a with
  | nil => simp
  | cons i l ih =>
    rw [List.foldl_cons, ih, testBit_foldl_or]
    simp only [List.exists_mem_cons_iff, or_assoc]

end Hecuba
