import Hecuba.ZorderIds
import Mathlib.Algebra.Order.BigOperators.Group.Finset
import Mathlib.Data.Nat.Size

/-! Decoding the ids of a block. While every bit of the coordinates lands below
bit 31 of the Morton index, the reader recovers the coordinates from the ids. -/

namespace Hecuba

/-- The Morton index as a number of any size: bit `i` of coordinate `dim` has
weight `2 ^ (ndims * i + dim)`. -/
def mortonIndex (cc : List Nat) : Nat :=
  ∑ dim ∈ Finset.range cc.length, ∑ i ∈ Finset.range (cc.getD dim 0).size,
    if (cc.getD dim 0).testBit i then 2 ^ (cc.length * i + dim) else 0

theorem two_pow_le_mortonIndex {cc : List Nat} {dim i : Nat} (hd : dim < cc.length)
    (hb : (cc.getD dim 0).testBit i = true) : 2 ^ (cc.length * i + dim) ≤ mortonIndex cc := by
  have hi : i < (cc.getD dim 0).size := Nat.lt_size.mpr (Nat.ge_two_pow_of_testBit hb)
  have hinner : 2 ^ (cc.length * i + dim) ≤ ∑ i ∈ Finset.range (cc.getD dim 0).size,
      if (cc.getD dim 0).testBit i then 2 ^ (cc.length * i + dim) else 0 := by
    have hs := Finset.single_le_sum (f := fun i => if (cc.getD dim 0).testBit i then
      2 ^ (cc.length * i + dim) else 0) (fun _ _ => Nat.zero_le _) (Finset.mem_range.mpr hi)
    simpa only [hb, if_true] using hs
  exact hinner.trans (Finset.single_le_sum (f := fun dim => ∑ i ∈ Finset.range (cc.getD dim 0).size,
    if (cc.getD dim 0).testBit i then 2 ^ (cc.length * i + dim) else 0)
    (fun _ _ => Nat.zero_le _) (Finset.mem_range.mpr hd))

/-- Every set bit of the coordinates is encoded, and below bit 31. -/
def BitsEncoded (cc : List Nat) : Prop :=
  ∀ dim < cc.length, ∀ i, (cc.getD dim 0).testBit i = true →
    cc.length * i + dim < 31 ∧ i < 64 / cc.length

theorem encoded_of_position_lt {n dim i : Nat} (hn : n ≤ 64) (hd : dim < n) (h : n * i + dim < 31) :
    i < 64 / n := by
  rw [Nat.lt_div_iff_mul_lt (by omega)]
  cases i with
  | zero => omega
  | succ i =>
    have hc : (i + 1) * n = n * (i + 1) := Nat.mul_comm _ _
    have hs : n * (i + 1) = n * i + n := Nat.mul_succ _ _
    omega

theorem bitsEncoded_of_mortonIndex {cc : List Nat} (hm : mortonIndex cc < 2 ^ 31)
    (hn : cc.length ≤ 64) : BitsEncoded cc := by
  intro dim hd i hb
  have hle := two_pow_le_mortonIndex hd hb
  have hlt : cc.length * i + dim < 31 := (Nat.pow_lt_pow_iff_right (by decide : 1 < 2)).mp (by omega)
  exact ⟨hlt, encoded_of_position_lt hn hd hlt⟩

theorem testBit_zorderId (cc : List Nat) (j : Nat) :
    (u32 (getClusterID cc <<< clusterSize) ||| getBlockID cc).testBit j = true ↔
      j < 32 ∧ (computeZorder cc).testBit j = true := by
  simp only [Nat.testBit_or, testBit_getBlockID, u32, clusterSize, Nat.testBit_mod_two_pow,
    Nat.testBit_shiftLeft, testBit_getClusterID, Bool.or_eq_true, Bool.and_eq_true, decide_eq_true_eq]
  by_cases hj : j < 2
  · constructor
    · rintro (⟨_, h, _⟩ | ⟨_, h⟩)
      · omega
      · exact ⟨by omega, h⟩
    · rintro ⟨_, h⟩
      exact Or.inr ⟨hj, h⟩
  · have he : 2 + (j - 2) = j := by omega
    rw [he]
    constructor
    · rintro (⟨h32, _, _, h⟩ | ⟨h2, _⟩)
      · exact ⟨h32, h⟩
      · omega
    · rintro ⟨h32, h⟩
      exact Or.inl ⟨h32, by omega, by omega, h⟩

theorem getD_set_self {l : List Nat} {i : Nat} (v : Nat) (h : i < l.length) : (l.set i v).getD i 0 = v := by
  simp [List.getD_eq_getElem?_getD, h]

theorem testBit_u32_or_intShift (x k j : Nat) :
    (u32 (x ||| intShift k)).testBit j = true ↔ j < 32 ∧ (x.testBit j = true ∨ j = k % 32) := by
  rw [u32, Nat.testBit_mod_two_pow, Nat.testBit_or, Bool.and_eq_true, Bool.or_eq_true, decide_eq_true_eq,
    testBit_intShift]
  constructor
  · rintro ⟨h32, h | h⟩
    · exact ⟨h32, Or.inl h⟩
    · exact ⟨h32, Or.inr (by omega)⟩
  · rintro ⟨h32, h | h⟩
    · exact ⟨h32, Or.inl h⟩
    · exact ⟨h32, Or.inr (Or.inl h)⟩

section inverse

variable (id : Nat) {n : Nat}

theorem zorderInverse_rounds (n k : Nat) :
    let ccs := (List.range k).foldl (fun ccs i =>
      if (id >>> i) &&& 1 = 1 then
        ccs.set (i % n) (u32 (ccs.getD (i % n) 0 ||| intShift (i / n)))
      else ccs) (List.replicate n 0)
    ccs.length = n ∧ ∀ dim < n, ∀ j, (ccs.getD dim 0).testBit j = true ↔
      ∃ i < k, i % n = dim ∧ (i / n) % 32 = j ∧ id.testBit i = true := by
  induction k with
  | zero =>
    refine ⟨by simp, fun dim hd j => ?_⟩
    simp [List.getD_eq_getElem?_getD, hd]
  | succ k ih =>
    obtain ⟨hl, hb⟩ := ih
    simp only [List.range_succ, List.foldl_append, List.foldl_cons, List.foldl_nil]
    by_cases hk : id.testBit k = true
    · have hand : (id >>> k) &&& 1 = 1 := by
        rw [Nat.and_comm, Nat.one_and_eq_mod_two]
        simpa [Nat.testBit_eq_decide_div_mod_eq, Nat.shiftRight_eq_div_pow] using hk
      rw [if_pos hand]
      refine ⟨by simpa using hl, fun dim hd j => ?_⟩
      by_cases hdim : k % n = dim
      · rw [hdim, getD_set_self _ (by omega), testBit_u32_or_intShift, hb dim hd j]
        constructor
        · rintro ⟨_, ⟨i, hi, hh⟩ | hj⟩
          · exact ⟨i, by omega, hh⟩
          · exact ⟨k, by omega, hdim, hj.symm, hk⟩
        · rintro ⟨i, hi, hd', hj, hbit⟩
          refine ⟨by omega, ?_⟩
          by_cases he : i = k
          · exact Or.inr (by rw [← hj, he])
          · exact Or.inl ⟨i, by omega, hd', hj, hbit⟩
      · rw [List.getD_eq_getElem?_getD, List.getElem?_set_ne hdim, ← List.getD_eq_getElem?_getD, hb dim hd j]
        constructor
        · rintro ⟨i, hi, hh⟩
          exact ⟨i, by omega, hh⟩
        · rintro ⟨i, hi, hd', hj, hbit⟩
          have hne : i ≠ k := fun h => hdim (h ▸ hd')
          exact ⟨i, by omega, hd', hj, hbit⟩
    · have hand : ¬ (id >>> k) &&& 1 = 1 := by
        rw [Nat.and_comm, Nat.one_and_eq_mod_two]
        simpa [Nat.testBit_eq_decide_div_mod_eq, Nat.shiftRight_eq_div_pow] using hk
      rw [if_neg hand]
      refine ⟨hl, fun dim hd j => (hb dim hd j).trans ?_⟩
      constructor
      · rintro ⟨i, hi, hh⟩
        exact ⟨i, by omega, hh⟩
      · rintro ⟨i, hi, hd', hj, hbit⟩
        have hne : i ≠ k := fun h => hk (h ▸ hbit)
        exact ⟨i, by omega, hd', hj, hbit⟩

theorem zorderInverse_length (n : Nat) : (zorderInverse id n).length = n :=
  (zorderInverse_rounds id n 64).1

theorem testBit_zorderInverse {dim : Nat} (hd : dim < n) (j : Nat) :
    ((zorderInverse id n).getD dim 0).testBit j = true ↔
      ∃ i < 64, i % n = dim ∧ (i / n) % 32 = j ∧ id.testBit i = true :=
  (zorderInverse_rounds id n 64).2 dim hd j

/-- A round of `zorderInverse` with the counter that the source keeps beside the coordinates. -/
def countedRound (n : Nat) : Int × List Nat → Nat → Int × List Nat
  | (step, ccs), i =>
    let step := if i % n = 0 then step + 1 else step
    if (id >>> i) &&& 1 = 1 then
      (step, ccs.set (i % n) (u32 (ccs.getD (i % n) 0 ||| intShift step.toNat)))
    else (step, ccs)

theorem countedRounds (n k : Nat) :
    (List.range (k + 1)).foldl (countedRound id n) (-1, List.replicate n 0) =
      (((k / n : Nat) : Int), (List.range (k + 1)).foldl (fun ccs i =>
        if (id >>> i) &&& 1 = 1 then
          ccs.set (i % n) (u32 (ccs.getD (i % n) 0 ||| intShift (i / n)))
        else ccs) (List.replicate n 0)) := by
  induction k with
  | zero => simp [countedRound]; split <;> rfl
  | succ k ih =>
    have hstep : (if (k + 1) % n = 0 then ((k / n : Nat) : Int) + 1 else (k / n : Nat)) =
        ((k + 1) / n : Nat) := by
      rw [Nat.succ_div]
      by_cases hd : (k + 1) % n = 0
      · rw [if_pos hd, if_pos (Nat.dvd_of_mod_eq_zero hd)]
        rfl
      · rw [if_neg hd, if_neg fun h => hd (Nat.mod_eq_zero_of_dvd h), Nat.add_zero]
    rw [List.range_succ, List.foldl_append, List.foldl_append, ih]
    simp only [List.foldl_cons, List.foldl_nil, countedRound, hstep, Int.toNat_natCast]
    split <;> rfl

/-- The counter is the number of the bit that the round sets. -/
theorem zorderInverse_counted (n : Nat) :
    (List.range 64).foldl (countedRound id n) (-1, List.replicate n 0) =
      (((63 / n : Nat) : Int), zorderInverse id n) :=
  countedRounds id n 63

end inverse

/-- Decoding any word whose low half is the code of the coordinates. -/
theorem zorderInverse_eq {cc : List Nat} (hn : 0 < cc.length) (h : BitsEncoded cc) {id : Nat}
    (hid : ∀ j, id.testBit j = true ↔ j < 32 ∧ (computeZorder cc).testBit j = true) :
    zorderInverse id cc.length = cc := by
  apply List.ext_getElem (zorderInverse_length _ _)
  intro dim h1 hd
  apply Nat.eq_of_testBit_eq
  intro j
  have hbit := testBit_zorderInverse id hd j
  simp only [List.getD_eq_getElem?_getD, List.getElem?_eq_getElem h1, Option.getD_some] at hbit
  rw [Bool.eq_iff_iff, hbit]
  have hget : cc.getD dim 0 = cc[dim] := by simp [List.getD_eq_getElem?_getD, hd]
  constructor
  · rintro ⟨i, _, hi, hj, hb⟩
    obtain ⟨h32, hz⟩ := (hid i).mp hb
    obtain ⟨i', hi', dim', hd', hb', he⟩ := (testBit_computeZorder_low cc h32).mp hz
    have hlt := (h dim' hd' i' hb').1
    rw [Nat.mod_eq_of_lt (by omega)] at he
    have hmod : i % cc.length = dim' := by rw [← he, Nat.mul_add_mod, Nat.mod_eq_of_lt hd']
    have hdiv : i / cc.length = i' := by
      rw [← he, Nat.mul_add_div hn, Nat.div_eq_of_lt hd', Nat.add_zero]
    have hle : i / cc.length ≤ i := Nat.div_le_self _ _
    have hjj : i' = j := by omega
    rw [hmod] at hi
    subst hi hjj
    rwa [hget] at hb'
  · intro hb
    rw [← hget] at hb
    obtain ⟨hlt, hi⟩ := h dim hd j hb
    have hmod : (cc.length * j + dim) % cc.length = dim := by rw [Nat.mul_add_mod, Nat.mod_eq_of_lt hd]
    have hdiv : (cc.length * j + dim) / cc.length = j := by
      rw [Nat.mul_add_div hn, Nat.div_eq_of_lt hd, Nat.add_zero]
    have hle : j ≤ cc.length * j := Nat.le_mul_of_pos_left _ hn
    refine ⟨cc.length * j + dim, by omega, hmod, by rw [hdiv]; omega, ?_⟩
    rw [hid]
    refine ⟨by omega, (testBit_computeZorder_low cc (by omega)).mpr ⟨j, hi, dim, hd, hb, ?_⟩⟩
    exact Nat.mod_eq_of_lt (by omega)

/-- The coordinates recovered by the reader are those the ids were made from. -/
theorem zorderInverse_ids {cc : List Nat} (hn : 0 < cc.length) (h : BitsEncoded cc) :
    zorderInverse (u32 (getClusterID cc <<< clusterSize) ||| getBlockID cc) cc.length = cc :=
  zorderInverse_eq hn h (testBit_zorderId cc)

/-- Every set bit of the coordinates is shifted to a place below bit 31. -/
def ShiftedLow (cc : List Nat) : Prop :=
  ∀ dim < cc.length, ∀ i, (cc.getD dim 0).testBit i = true → cc.length * i + dim < 31

theorem ShiftedLow.bitsEncoded {cc : List Nat} (h : ShiftedLow cc) (hn : cc.length ≤ 64) : BitsEncoded cc :=
  fun dim hd i hb => ⟨h dim hd i hb, encoded_of_position_lt hn hd (h dim hd i hb)⟩

theorem ShiftedLow.computeZorder_lt {cc : List Nat} (h : ShiftedLow cc) : computeZorder cc < 2 ^ 31 := by
  refine Nat.lt_pow_two_of_testBit _ fun j hj => ?_
  rw [Bool.eq_false_iff, ne_eq, testBit_computeZorder]
  rintro ⟨i, -, dim, hd, hb, hbit⟩
  have hlt := h dim hd i hb
  rw [testBit_intShift] at hbit
  omega

theorem lt_of_testBit_of_lt {x p k : Nat} (hb : x.testBit p = true) (hx : x < 2 ^ k) : p < k :=
  (Nat.pow_lt_pow_iff_right Nat.one_lt_two).mp (lt_of_le_of_lt (Nat.ge_two_pow_of_testBit hb) hx)

theorem zorderInverse_computeZorder {cc : List Nat} (hn : 0 < cc.length) (hn' : cc.length ≤ 64)
    (h : ShiftedLow cc) : zorderInverse (computeZorder cc) cc.length = cc := by
  apply zorderInverse_eq hn (h.bitsEncoded hn')
  intro j
  refine ⟨fun hb => ⟨?_, hb⟩, fun hb => hb.2⟩
  have hj := lt_of_testBit_of_lt hb h.computeZorder_lt
  omega

/-- The encoder reads the bits of a decoded id back in their places. -/
theorem computeZorder_zorderInverse {n id : Nat} (hn : 1 ≤ n) (hn' : n ≤ 64) (hid : id < 2 ^ 31) :
    computeZorder (zorderInverse id n) = id := by
  apply Nat.eq_of_testBit_eq
  intro j
  rw [Bool.eq_iff_iff, testBit_computeZorder, zorderInverse_length]
  constructor
  · rintro ⟨i, -, dim, hd, hb, hj⟩
    obtain ⟨p, -, hmod, hdiv, hp⟩ := (testBit_zorderInverse id hd i).mp hb
    have hp31 := lt_of_testBit_of_lt hp hid
    have hle : p / n ≤ p := Nat.div_le_self p n
    rw [Nat.mod_eq_of_lt (by omega)] at hdiv
    have hplace : n * i + dim = p := by rw [← hmod, ← hdiv, Nat.div_add_mod]
    rw [hplace, testBit_intShift] at hj
    have hjp : j = p := by omega
    rwa [hjp]
  · intro hb
    have hj31 := lt_of_testBit_of_lt hb hid
    have hplace : n * (j / n) + j % n = j := Nat.div_add_mod j n
    have hd : j % n < n := Nat.mod_lt j hn
    have hle : j / n ≤ j := Nat.div_le_self j n
    refine ⟨j / n, encoded_of_position_lt hn' hd (by omega), j % n, hd, ?_, ?_⟩
    · rw [testBit_zorderInverse id hd]
      exact ⟨j, by omega, rfl, Nat.mod_eq_of_lt (by omega), hb⟩
    · rw [hplace, testBit_intShift]
      omega

theorem morton_inverse {n : Nat} (hn : 1 ≤ n) (hn' : n ≤ 64) :
    (∀ cc : List Nat, cc.length = n → ShiftedLow cc → zorderInverse (computeZorder cc) n = cc) ∧
      ∀ id < 2 ^ 31, computeZorder (zorderInverse id n) = id := by
  refine ⟨fun cc hlen hlow => ?_, fun id hid => computeZorder_zorderInverse hn hn' hid⟩
  subst hlen
  exact zorderInverse_computeZorder hn hn' hlow

theorem morton_inverse_three :
    zorderInverse (computeZorder [23, 25, 40]) 3 = [23, 25, 40] ∧
      computeZorder (zorderInverse (2 ^ 31 - 1) 3) = 2 ^ 31 - 1 := by
  obtain ⟨hcc, hid⟩ := @morton_inverse 3 (by decide) (by decide)
  have hsmall : ∀ dim < 3, [23, 25, 40].getD dim 0 < 2 ^ 6 := by decide
  refine ⟨hcc _ rfl fun dim hd i hb => ?_, hid _ (by decide)⟩
  have hd3 : dim < 3 := hd
  have hi := lt_of_testBit_of_lt hb (hsmall dim hd3)
  change 3 * i + dim < 31
  omega

end Hecuba
