import Hecuba.RegionCopy
import Mathlib.Tactic.Ring

/-! A buffer that is written and read part after part, at a position that is kept in a 32-bit
`int`. Beyond 2 GiB the position is negative. -/

namespace Hecuba

/-- A number that has wrapped around, as an `int` holds it. -/
def wrapInt (x : Int) : Int := if x % 4294967296 < 2147483648 then x % 4294967296 else x % 4294967296 - 4294967296

def intOffset (p : Nat) : Int := wrapInt p

/-- `offset += n` -/
def advance (offset : Int) (n : Nat) : Int := wrapInt (offset + n)

theorem advance_intOffset (p n : Nat) : advance (intOffset p) n = intOffset (p + n) := by
  unfold advance intOffset wrapInt
  push_cast
  split <;> split <;> split <;> omega

theorem intOffset_of_lt {p : Nat} (h : p < 2 ^ 31) : intOffset p = p := by
  unfold intOffset wrapInt
  split <;> omega

theorem intOffset_neg {p : Nat} (h : 2 ^ 31 ≤ p) (hlt : p < 2 ^ 32) : intOffset p < 0 := by
  unfold intOffset wrapInt
  split <;> omega

variable {α β : Type}

def putAt (s : List α × Int) (part : List α) : Option (List α × Int) :=
  if 0 ≤ s.2 ∧ s.2.toNat + part.length ≤ s.1.length then
    some (overwrite s.1 s.2.toNat part 0 part.length, advance s.2 part.length)
  else none

def getAt (buf : List α) (offset : Int) (n : Nat) : Option (List α × Int) :=
  if 0 ≤ offset ∧ offset.toNat + n ≤ buf.length then some ((buf.drop offset.toNat).take n, advance offset n)
  else none

def putAll (s : List α × Int) (parts : List (List α)) : Option (List α × Int) := parts.foldlM putAt s

/-- `k` values of `n` cells each. -/
def getMany (n : Nat) (decode : List α → β) (buf : List α) : Nat → Int → Option (List β × Int)
  | 0, offset => some ([], offset)
  | k + 1, offset =>
    (getAt buf offset n).bind fun part =>
      (getMany n decode buf k part.2).map fun rest => (decode part.1 :: rest.1, rest.2)

theorem putAt_append {pre part rest : List α} (hp : pre.length < 2 ^ 31) (h : part.length ≤ rest.length) :
    putAt (pre ++ rest, intOffset pre.length) part =
      some (pre ++ part ++ rest.drop part.length, intOffset (pre.length + part.length)) := by
  rw [putAt, advance_intOffset, intOffset_of_lt hp]
  have hle : pre.length + part.length ≤ (pre ++ rest).length := by
    rw [List.length_append]
    omega
  rw [Int.toNat_natCast, if_pos ⟨Int.natCast_nonneg _, hle⟩]
  rw [overwrite, List.take_left, List.drop_zero, List.take_length, ← List.drop_drop, List.drop_left,
    List.append_assoc]

theorem putAll_append {parts : List (List α)} {pre rest : List α}
    (hlt : pre.length + parts.flatten.length < 2 ^ 31) (h : parts.flatten.length ≤ rest.length) :
    putAll (pre ++ rest, intOffset pre.length) parts =
      some (pre ++ parts.flatten ++ rest.drop parts.flatten.length,
        intOffset (pre.length + parts.flatten.length)) := by
  induction parts generalizing pre rest with
  | nil => simp [putAll]
  | cons part parts ih =>
    rw [List.flatten_cons, List.length_append] at hlt h
    have hlen : (pre ++ part).length = pre.length + part.length := List.length_append
    have hput : putAt (pre ++ rest, intOffset pre.length) part = _ := putAt_append (by omega) (by omega)
    rw [putAll, List.foldlM_cons, hput, Option.bind_eq_bind, Option.bind_some, ← hlen]
    refine (ih ?_ ?_).trans ?_
    · omega
    · rw [List.length_drop]
      omega
    · rw [List.flatten_cons, List.length_append, List.drop_drop, List.length_append, Nat.add_assoc,
        List.append_assoc pre]

/-- The last part may end beyond what an `int` can hold. -/
theorem putAll_whole {parts : List (List α)} {last buf : List α} (hlt : parts.flatten.length < 2 ^ 31)
    (hlen : buf.length = parts.flatten.length + last.length) :
    putAll (buf, intOffset 0) (parts ++ [last]) =
      some (parts.flatten ++ last, intOffset (parts.flatten.length + last.length)) := by
  have hparts := @putAll_append α parts [] buf (by rw [List.length_nil]; omega) (by omega)
  rw [List.nil_append, List.nil_append, List.length_nil, Nat.zero_add] at hparts
  have hlast := @putAt_append α parts.flatten last (buf.drop parts.flatten.length) hlt
    (by rw [List.length_drop]; omega)
  unfold putAll at hparts ⊢
  rw [List.foldlM_append, hparts, Option.bind_eq_bind, Option.bind_some, List.foldlM_cons, hlast, List.drop_drop,
    List.drop_eq_nil_of_le (Nat.le_of_eq hlen), List.append_nil]
  rfl

theorem getAt_append {pre part rest : List α} (hp : pre.length < 2 ^ 31) :
    getAt (pre ++ part ++ rest) (intOffset pre.length) part.length =
      some (part, intOffset (pre.length + part.length)) := by
  rw [getAt, advance_intOffset, intOffset_of_lt hp]
  have hle : pre.length + part.length ≤ (pre ++ part ++ rest).length := by
    rw [List.length_append, List.length_append]
    omega
  rw [Int.toNat_natCast, if_pos ⟨Int.natCast_nonneg _, hle⟩, List.append_assoc, List.drop_left, List.take_left]

theorem getAt_at {buf pre part rest : List α} {p n : Nat} (hbuf : buf = pre ++ part ++ rest) (hpre : pre.length = p)
    (hpart : part.length = n) (hp : p < 2 ^ 31) : getAt buf (intOffset p) n = some (part, intOffset (p + n)) := by
  subst hbuf hpre hpart
  exact getAt_append hp

theorem getAt_nonneg {buf : List α} {p n : Nat} {r : List α × Int} (h : getAt buf (intOffset p) n = some r) :
    0 ≤ intOffset p ∧ r.2 = intOffset (p + n) := by
  rw [getAt, advance_intOffset] at h
  by_cases hc : 0 ≤ intOffset p ∧ (intOffset p).toNat + n ≤ buf.length
  · rw [if_pos hc] at h
    refine ⟨hc.1, ?_⟩
    rw [← Option.some.inj h]
  · rw [if_neg hc] at h
    cases h

section many

variable {n : Nat} {decode : List α → β} {encode : β → List α}

theorem getMany_encode (hlen : ∀ x, (encode x).length = n) (hdecode : ∀ x, decode (encode x) = x) (values : List β)
    {pre rest : List α} (hlt : ∀ i < values.length, pre.length + n * i < 2 ^ 31) :
    getMany n decode (pre ++ values.flatMap encode ++ rest) values.length (intOffset pre.length) =
      some (values, intOffset (pre.length + n * values.length)) := by
  induction values generalizing pre with
  | nil => rfl
  | cons x values ih =>
    have hx : (pre ++ encode x).length = pre.length + n := by rw [List.length_append, hlen]
    have hget : getAt (pre ++ encode x ++ (values.flatMap encode ++ rest)) (intOffset pre.length) n =
        some (encode x, intOffset (pre.length + n)) := by
      have h0 := hlt 0 (Nat.zero_lt_succ _)
      have hg := @getAt_append α pre (encode x) (values.flatMap encode ++ rest) (by omega)
      rwa [hlen] at hg
    have hbuf : pre ++ (x :: values).flatMap encode ++ rest =
        pre ++ encode x ++ (values.flatMap encode ++ rest) := by
      rw [List.flatMap_cons]
      simp only [List.append_assoc]
    rw [List.length_cons, getMany, hbuf, hget, Option.bind_some, ← hx]
    have hrest := @ih (pre ++ encode x) fun i hi => by
      have hnext := hlt (i + 1) (Nat.succ_lt_succ hi)
      rw [Nat.mul_succ] at hnext
      omega
    rw [List.append_assoc (pre ++ encode x)] at hrest
    rw [hrest, Option.map_some, hdecode, hx, Nat.mul_succ, Nat.add_assoc, Nat.add_comm n]

/-- Every part that has been read started at a position that an `int` can hold. -/
theorem getMany_starts {buf : List α} {k p : Nat} {r : List β × Int}
    (h : getMany n decode buf k (intOffset p) = some r) :
    r.1.length = k ∧ r.2 = intOffset (p + n * k) ∧ ∀ i < k, 0 ≤ intOffset (p + n * i) := by
  induction k generalizing p r with
  | zero =>
    obtain rfl := (Option.some.inj h).symm
    exact ⟨rfl, by simp, fun i hi => absurd hi (Nat.not_lt_zero i)⟩
  | succ k ih =>
    rw [getMany, Option.bind_eq_some_iff] at h
    obtain ⟨x, hx, h⟩ := h
    obtain ⟨hnonneg, hoffset⟩ := getAt_nonneg hx
    rw [hoffset, Option.map_eq_some_iff] at h
    obtain ⟨y, hy, rfl⟩ := h
    obtain ⟨hlen, hend, hstarts⟩ := ih hy
    refine ⟨by rw [List.length_cons, hlen], ?_, ?_⟩
    · rw [hend, Nat.mul_succ, Nat.add_assoc, Nat.add_comm n]
    · intro i hi
      cases i with
      | zero => exact hnonneg
      | succ i =>
        have hi' := hstarts i (by omega)
        rwa [Nat.add_assoc, Nat.add_comm n, ← Nat.mul_succ] at hi'

end many

end Hecuba
