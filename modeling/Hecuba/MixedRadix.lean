import Hecuba.RowMajor
import Mathlib.Algebra.BigOperators.Group.List.Lemmas
import Mathlib.Data.Finset.Card
import Mathlib.Data.List.GetD

/-! Numbers in mixed radix, least significant digit first, and the boxes of the numbers
whose digits are bounded one by one. -/

namespace Hecuba

/-- The weight of a digit. -/
def stride (radices : List Nat) (q : Nat) : Nat := (radices.take q).prod

/-- The numbers whose digits are below the bounds. -/
def InBox (radices bounds : List Nat) (n : Nat) : Prop :=
  n < radices.prod ∧
    ∀ q < radices.length, n / stride radices q % radices.getD q 0 < bounds.getD q 0

theorem stride_succ_cons (d : Nat) (radices : List Nat) (q : Nat) :
    stride (d :: radices) (q + 1) = d * stride radices q := rfl

theorem stride_pos {radices : List Nat} (h : ∀ d ∈ radices, 0 < d) (q : Nat) : 0 < stride radices q :=
  List.prod_pos_iff_forall_pos_nat.mpr fun d hd => h d (List.mem_of_mem_take hd)

theorem stride_le {radices : List Nat} (h : ∀ d ∈ radices, 0 < d) {q q' : Nat} (hq : q ≤ q') :
    stride radices q ≤ stride radices q' := by
  induction radices generalizing q q' with
  | nil => simp [stride]
  | cons d radices ih =>
    cases q' with
    | zero =>
      obtain rfl : q = 0 := by omega
      exact Nat.le_refl _
    | succ q' =>
      cases q with
      | zero => exact stride_pos h _
      | succ q =>
        rw [stride_succ_cons, stride_succ_cons]
        exact Nat.mul_le_mul_left _ (ih (fun c hc => h c (List.mem_cons_of_mem _ hc)) (by omega))

theorem inBox_cons_iff {d b n : Nat} {radices bounds : List Nat} (hd : 0 < d) :
    InBox (d :: radices) (b :: bounds) n ↔ n % d < b ∧ InBox radices bounds (n / d) := by
  rw [InBox, InBox, List.prod_cons, Nat.div_lt_iff_lt_mul hd, Nat.mul_comm d]
  constructor
  · rintro ⟨hlt, hall⟩
    refine ⟨by simpa [stride] using hall 0 (Nat.succ_pos _), hlt, fun q hq => ?_⟩
    have hh := hall (q + 1) (Nat.succ_lt_succ hq)
    rw [stride_succ_cons, ← Nat.div_div_eq_div_mul] at hh
    simpa using hh
  · rintro ⟨hlow, hlt, hall⟩
    refine ⟨hlt, fun q hq => ?_⟩
    cases q with
    | zero => simpa [stride] using hlow
    | succ q =>
      rw [stride_succ_cons, ← Nat.div_div_eq_div_mul]
      simpa using hall q (Nat.lt_of_succ_lt_succ hq)

theorem eq_zero_of_inBox_ones {radices : List Nat} (hpos : ∀ d ∈ radices, 0 < d) {n : Nat}
    (h : InBox radices (List.replicate radices.length 1) n) : n = 0 := by
  induction radices generalizing n with
  | nil => exact Nat.lt_one_iff.mp h.1
  | cons d radices ih =>
    rw [List.length_cons, List.replicate_succ, inBox_cons_iff (hpos d List.mem_cons_self)] at h
    have hz := ih (fun c hc => hpos c (List.mem_cons_of_mem _ hc)) h.2
    rw [← Nat.div_add_mod n d, hz, Nat.lt_one_iff.mp h.1, Nat.mul_zero]

theorem div_mod_of_dvd {n m w d : Nat} (h : w * d ∣ m) : n % m / w % d = n / w % d := by
  obtain ⟨t, rfl⟩ := h
  rw [Nat.mul_assoc, Nat.mod_mul_right_div_self, Nat.mod_mul_right_mod]

theorem unRowMajor_getD {dims : List Nat} {n i : Nat} (h : n < dims.prod) (hi : i < dims.length) :
    (unRowMajor dims n).getD i 0 = n / (dims.drop (i + 1)).prod % dims.getD i 0 := by
  induction dims generalizing n i with
  | nil => cases hi
  | cons d dims ih =>
    rw [List.prod_cons] at h
    have hp : 0 < dims.prod := Nat.pos_of_mul_pos_left (Nat.zero_lt_of_lt h)
    cases i with
    | zero =>
      have hlt : n / dims.prod < d := Nat.div_lt_of_lt_mul (by rwa [Nat.mul_comm])
      simpa [unRowMajor] using (Nat.mod_eq_of_lt hlt).symm
    | succ i =>
      have hi' : i < dims.length := by simpa using hi
      have hdvd : (dims.drop (i + 1)).prod * dims.getD i 0 ∣ dims.prod := by
        rw [List.getD_eq_getElem _ _ hi', Nat.mul_comm, ← List.prod_cons, ← List.drop_eq_getElem_cons hi']
        exact (List.drop_suffix i dims).sublist.prod_dvd_prod
      have hh := ih (n := n % dims.prod) (Nat.mod_lt _ hp) hi'
      rw [div_mod_of_dvd hdvd] at hh
      simpa [unRowMajor] using hh

theorem stride_reverse (dims : List Nat) (q : Nat) :
    stride dims.reverse q = (dims.drop (dims.length - q)).prod := by
  rw [stride, List.take_reverse, List.prod_reverse]

theorem getD_reverse {l : List Nat} {q : Nat} (hq : q < l.length) :
    l.reverse.getD q 0 = l.getD (l.length - 1 - q) 0 := by
  rw [List.getD_eq_getElem _ _ (by simpa using hq), List.getD_eq_getElem _ _ (by omega),
    List.getElem_reverse]

theorem inGrid_of_le {dims block x : List Nat} (h : List.Forall₂ (· ≤ ·) block dims)
    (hx : InGrid block x) : InGrid dims x := by
  induction h generalizing x with
  | nil => exact hx
  | cons hb _ ih =>
    cases hx with
    | cons hc hx => exact inGrid_cons.mpr ⟨Nat.lt_of_lt_of_le hc hb, ih hx⟩

theorem inBox_reverse_iff {dims block : List Nat} (h : List.Forall₂ (· ≤ ·) block dims) {n : Nat} :
    InBox dims.reverse block.reverse n ↔ ∃ x, InGrid block x ∧ rowMajor dims x = n := by
  have hlen : block.length = dims.length := h.length_eq
  have hcells : (∃ x, InGrid block x ∧ rowMajor dims x = n) ↔
      n < dims.prod ∧ InGrid block (unRowMajor dims n) := by
    constructor
    · rintro ⟨x, hx, rfl⟩
      have hd := inGrid_of_le h hx
      exact ⟨rowMajor_lt hd, by rwa [unRowMajor_rowMajor hd]⟩
    · rintro ⟨hlt, hx⟩
      exact ⟨_, hx, rowMajor_unRowMajor hlt⟩
  rw [hcells, InBox, List.prod_reverse, List.length_reverse]
  refine and_congr_right fun hlt => ?_
  have hdigit {q : Nat} (hq : q < dims.length) :
      n / stride dims.reverse q % dims.reverse.getD q 0 =
        (unRowMajor dims n).getD (dims.length - 1 - q) 0 := by
    rw [unRowMajor_getD hlt (by omega), stride_reverse, getD_reverse hq,
      show dims.length - 1 - q + 1 = dims.length - q by omega]
  rw [inGrid_iff, hlen]
  constructor
  · intro hall
    refine ⟨(unRowMajor_inGrid hlt).length_eq, fun i hi => ?_⟩
    have hh := hall (dims.length - 1 - i) (by omega)
    rw [hdigit (by omega), getD_reverse (by omega), hlen] at hh
    rwa [show dims.length - 1 - (dims.length - 1 - i) = i by omega] at hh
  · rintro ⟨-, hall⟩ q hq
    rw [hdigit hq, getD_reverse (by omega), hlen]
    exact hall _ (by omega)

section count

variable {dims block : List Nat}

def boxCells (dims block : List Nat) : Finset Nat :=
  (Finset.range block.prod).image fun m => rowMajor dims (unRowMajor block m)

theorem mem_boxCells {n : Nat} :
    n ∈ boxCells dims block ↔ ∃ x, InGrid block x ∧ rowMajor dims x = n := by
  rw [boxCells, Finset.mem_image]
  constructor
  · rintro ⟨m, hm, rfl⟩
    exact ⟨_, unRowMajor_inGrid (Finset.mem_range.mp hm), rfl⟩
  · rintro ⟨x, hx, rfl⟩
    exact ⟨_, Finset.mem_range.mpr (rowMajor_lt hx), by rw [unRowMajor_rowMajor hx]⟩

theorem card_boxCells (h : List.Forall₂ (· ≤ ·) block dims) :
    (boxCells dims block).card = block.prod := by
  rw [boxCells, Finset.card_image_of_injOn, Finset.card_range]
  intro m hm m' hm' he
  have hm := Finset.mem_range.mp (Finset.mem_coe.mp hm)
  have hm' := Finset.mem_range.mp (Finset.mem_coe.mp hm')
  have hx := unRowMajor_inGrid hm
  have hx' := unRowMajor_inGrid hm'
  have hcell : unRowMajor block m = unRowMajor block m' := by
    rw [← unRowMajor_rowMajor (inGrid_of_le h hx), ← unRowMajor_rowMajor (inGrid_of_le h hx')]
    exact congrArg _ he
  rw [← rowMajor_unRowMajor hm, hcell, rowMajor_unRowMajor hm']

theorem boxCells_eq_of_subset {dims' block' : List Nat} (h : List.Forall₂ (· ≤ ·) block dims)
    (h' : List.Forall₂ (· ≤ ·) block' dims') (hprod : block.prod = block'.prod)
    (hsub : boxCells dims block ⊆ boxCells dims' block') :
    boxCells dims block = boxCells dims' block' :=
  Finset.eq_of_subset_of_card_le hsub (by rw [card_boxCells h, card_boxCells h', hprod])

end count

section profile

variable {r : Nat}

/-- The radices above `r`, each with the product of the others after it, behind the
product of those before the first. -/
def profile (r : Nat) : List Nat → Nat × List (Nat × Nat)
  | [] => (1, [])
  | d :: radices =>
    if d ≤ r then (d * (profile r radices).1, (profile r radices).2)
    else (1, (d, (profile r radices).1) :: (profile r radices).2)

/-- The numbers whose digits at the radices of a profile are below `r`. -/
def InProfile (r : Nat) : Nat → List (Nat × Nat) → Nat → Prop
  | low, [], n => n < low
  | low, (d, next) :: rest, n => n / low % d < r ∧ InProfile r next rest (n / low / d)

def profileSize : Nat → List (Nat × Nat) → Nat
  | low, [] => low
  | low, (d, next) :: rest => low * d * profileSize next rest

/-- The weights of the radices of a profile. -/
def places : Nat → Nat → List (Nat × Nat) → List (Nat × Nat)
  | _, _, [] => []
  | w, low, (d, next) :: rest => (w * low, d) :: places (w * low * d) next rest

theorem inProfile_mul {d low : Nat} (hd : 0 < d) (rest : List (Nat × Nat)) (n : Nat) :
    InProfile r (d * low) rest n ↔ InProfile r low rest (n / d) := by
  cases rest with
  | nil => rw [InProfile, InProfile, Nat.div_lt_iff_lt_mul hd, Nat.mul_comm]
  | cons => rw [InProfile, InProfile, Nat.div_div_eq_div_mul n d low]

/-- The first block has `r` digits of every radix above `r`, and all of the others. -/
theorem inProfile_iff {radices : List Nat} (hpos : ∀ d ∈ radices, 0 < d) {n : Nat} :
    InProfile r (profile r radices).1 (profile r radices).2 n ↔
      InBox radices (radices.map (min r)) n := by
  induction radices generalizing n with
  | nil => simp [profile, InProfile, InBox]
  | cons d radices ih =>
    have hd := hpos d List.mem_cons_self
    rw [List.map_cons, inBox_cons_iff hd, ← ih fun c hc => hpos c (List.mem_cons_of_mem _ hc), profile]
    split
    · rename_i hle
      rw [inProfile_mul hd, Nat.min_eq_right hle]
      exact (and_iff_right (Nat.mod_lt _ hd)).symm
    · rename_i hlt
      rw [InProfile, Nat.div_one, Nat.min_eq_left (by omega)]

theorem profileSize_profile (radices : List Nat) :
    profileSize (profile r radices).1 (profile r radices).2 = radices.prod := by
  induction radices with
  | nil => rfl
  | cons d radices ih =>
    rw [List.prod_cons, ← ih, profile]
    split
    · cases (profile r radices).2 with
      | nil => rfl
      | cons => simp only [profileSize, Nat.mul_assoc]
    · rw [profileSize, Nat.one_mul]

theorem mem_places {radices : List Nat} {w : Nat} {place : Nat × Nat} :
    place ∈ places w (profile r radices).1 (profile r radices).2 ↔
      ∃ q < radices.length, r < radices.getD q 0 ∧
        place = (w * stride radices q, radices.getD q 0) := by
  induction radices generalizing w with
  | nil => simp [profile, places]
  | cons d radices ih =>
    have hsplit : (∃ q < (d :: radices).length, r < (d :: radices).getD q 0 ∧
        place = (w * stride (d :: radices) q, (d :: radices).getD q 0)) ↔
        (r < d ∧ place = (w, d)) ∨ place ∈ places (w * d) (profile r radices).1 (profile r radices).2 := by
      rw [ih]
      constructor
      · rintro ⟨q, hq, hlt, he⟩
        cases q with
        | zero => exact .inl ⟨by simpa using hlt, by simpa [stride] using he⟩
        | succ q =>
          refine .inr ⟨q, Nat.lt_of_succ_lt_succ hq, by simpa using hlt, ?_⟩
          rw [stride_succ_cons, ← Nat.mul_assoc] at he
          simpa using he
      · rintro (⟨hlt, he⟩ | ⟨q, hq, hlt, he⟩)
        · exact ⟨0, Nat.succ_pos _, by simpa using hlt, by simpa [stride] using he⟩
        · refine ⟨q + 1, Nat.succ_lt_succ hq, by simpa using hlt, ?_⟩
          rw [stride_succ_cons, ← Nat.mul_assoc]
          simpa using he
    rw [hsplit, profile]
    split
    · rename_i hle
      have hw : places w (d * (profile r radices).1) (profile r radices).2 =
          places (w * d) (profile r radices).1 (profile r radices).2 := by
        cases (profile r radices).2 with
        | nil => rfl
        | cons => simp only [places, Nat.mul_assoc]
      rw [hw]
      constructor
      · exact .inr
      · rintro (⟨hlt, -⟩ | h)
        · omega
        · exact h
    · rename_i hlt
      rw [places, Nat.mul_one, List.mem_cons]
      refine or_congr_left ?_
      constructor
      · exact fun h => ⟨by omega, h⟩
      · exact fun h => h.2

structure RadicesExceed (r low : Nat) (rest : List (Nat × Nat)) : Prop where
  low_pos : 0 < low
  radix : ∀ e ∈ rest, r < e.1 ∧ 0 < e.2

theorem RadicesExceed.tail {low d next : Nat} {rest : List (Nat × Nat)}
    (h : RadicesExceed r low ((d, next) :: rest)) : RadicesExceed r next rest :=
  ⟨(h.radix _ List.mem_cons_self).2, fun e he => h.radix e (List.mem_cons_of_mem _ he)⟩

theorem radicesExceed_profile {radices : List Nat} (hpos : ∀ d ∈ radices, 0 < d) :
    RadicesExceed r (profile r radices).1 (profile r radices).2 := by
  induction radices with
  | nil => exact ⟨Nat.one_pos, fun e he => (List.not_mem_nil he).elim⟩
  | cons d radices ih =>
    obtain ⟨hlow, hrest⟩ := ih fun c hc => hpos c (List.mem_cons_of_mem _ hc)
    rw [profile]
    split
    · exact ⟨Nat.mul_pos (hpos d List.mem_cons_self) hlow, hrest⟩
    · rename_i hlt
      exact ⟨Nat.one_pos, List.forall_mem_cons.mpr ⟨⟨by omega, hlow⟩, hrest⟩⟩

section peel

variable {low low' d d' next next' : Nat} {rest rest' : List (Nat × Nat)}

theorem profileSize_pos (h : RadicesExceed r low rest) : 0 < profileSize low rest := by
  induction rest generalizing low with
  | nil => exact h.low_pos
  | cons e rest ih =>
    have hd := (h.radix e List.mem_cons_self).1
    exact Nat.mul_pos (Nat.mul_pos h.low_pos (by omega)) (ih h.tail)

theorem inProfile_zero (hr : 0 < r) (h : RadicesExceed r low rest) : InProfile r low rest 0 := by
  induction rest generalizing low with
  | nil => exact h.low_pos
  | cons e rest ih =>
    rw [InProfile, Nat.zero_div, Nat.zero_mod, Nat.zero_div]
    exact ⟨hr, ih h.tail⟩

theorem inProfile_below (hr : 0 < r) (h : RadicesExceed r low ((d, next) :: rest)) {n : Nat}
    (hn : n < r * low) : InProfile r low ((d, next) :: rest) n := by
  have hd : r < d := (h.radix _ List.mem_cons_self).1
  have hlt : n / low < r := (Nat.div_lt_iff_lt_mul h.low_pos).mpr hn
  rw [InProfile, Nat.mod_eq_of_lt (by omega), Nat.div_eq_of_lt (show n / low < d by omega)]
  exact ⟨hlt, inProfile_zero hr h.tail⟩

theorem not_inProfile_next (h : RadicesExceed r low ((d, next) :: rest)) :
    ¬ InProfile r low ((d, next) :: rest) (r * low) := by
  have hd : r < d := (h.radix _ List.mem_cons_self).1
  rw [InProfile, Nat.mul_div_cancel _ h.low_pos, Nat.mod_eq_of_lt hd]
  exact fun hh => Nat.lt_irrefl _ hh.1

theorem inProfile_mul_radix (hr : 0 < r) (h : RadicesExceed r low ((d, next) :: rest)) (m : Nat) :
    InProfile r low ((d, next) :: rest) (low * (d * m)) ↔ InProfile r next rest m := by
  have hd : r < d := (h.radix _ List.mem_cons_self).1
  rw [InProfile, Nat.mul_div_cancel_left _ h.low_pos, Nat.mul_mod_right,
    Nat.mul_div_cancel_left _ (by omega)]
  exact and_iff_right hr

theorem profile_one (hr : 2 ≤ r) (h : RadicesExceed r low rest) (hn : ¬ InProfile r low rest 1) :
    low = 1 ∧ rest = [] := by
  cases rest with
  | nil =>
    have hpos := h.low_pos
    rw [InProfile] at hn
    exact ⟨by omega, rfl⟩
  | cons e rest =>
    have hpos := h.low_pos
    exact (hn (inProfile_below (by omega) h (Nat.lt_of_lt_of_le hr (Nat.le_mul_of_pos_right r hpos)))).elim

theorem low_not_lt (hr : 0 < r) (h : RadicesExceed r low ((d, next) :: rest))
    (h' : RadicesExceed r low' ((d', next') :: rest'))
    (hsame : ∀ n, InProfile r low ((d, next) :: rest) n ↔ InProfile r low' ((d', next') :: rest') n) :
    ¬ low < low' := by
  intro hlt
  exact not_inProfile_next h ((hsame _).mpr (inProfile_below hr h' (Nat.mul_lt_mul_of_pos_left hlt hr)))

theorem radix_not_lt (hr : 2 ≤ r) (h : RadicesExceed r low ((d, next) :: rest))
    (h' : RadicesExceed r low ((d', next') :: rest'))
    (hsize : profileSize low ((d, next) :: rest) = profileSize low ((d', next') :: rest'))
    (hsame : ∀ n, InProfile r low ((d, next) :: rest) n ↔ InProfile r low ((d', next') :: rest') n) :
    ¬ d < d' := by
  intro hlt
  have hd : r < d := (h.radix _ List.mem_cons_self).1
  have hnot : ¬ InProfile r low ((d', next') :: rest') (low * (d * 1)) := by
    rw [InProfile, Nat.mul_div_cancel_left _ h.low_pos, Nat.mul_one, Nat.mod_eq_of_lt hlt]
    exact fun hh => absurd hh.1 (by omega)
  rw [← hsame, inProfile_mul_radix (by omega) h] at hnot
  obtain ⟨rfl, rfl⟩ := profile_one hr h.tail hnot
  have hpos := profileSize_pos h'.tail
  have hlow := h.low_pos
  rw [profileSize, profileSize, profileSize, Nat.mul_one] at hsize
  have h1 : low * d < low * d' := Nat.mul_lt_mul_of_pos_left hlt hlow
  have h2 : low * d' ≤ low * d' * profileSize next' rest' := Nat.le_mul_of_pos_right _ hpos
  omega

theorem nil_of_profile (h' : RadicesExceed r low' ((d', next') :: rest'))
    (hsize : profileSize low [] = profileSize low' ((d', next') :: rest'))
    (hsame : ∀ n, InProfile r low [] n ↔ InProfile r low' ((d', next') :: rest') n) : False := by
  have hd : r < d' := (h'.radix _ List.mem_cons_self).1
  have hpos := profileSize_pos h'.tail
  rw [profileSize, profileSize] at hsize
  have h1 : r * low' < low' * d' := by
    rw [Nat.mul_comm]
    exact Nat.mul_lt_mul_of_pos_left hd h'.low_pos
  have h2 : low' * d' ≤ low' * d' * profileSize next' rest' := Nat.le_mul_of_pos_right _ hpos
  exact not_inProfile_next h' ((hsame _).mp (show r * low' < low by omega))

/-- The numbers of a box tell the weights of its radices above `r`. -/
theorem profile_unique (hr : 2 ≤ r) (h : RadicesExceed r low rest) (h' : RadicesExceed r low' rest')
    (hsize : profileSize low rest = profileSize low' rest')
    (hsame : ∀ n, InProfile r low rest n ↔ InProfile r low' rest' n) : low = low' ∧ rest = rest' := by
  induction rest generalizing low low' rest' with
  | nil =>
    match rest', h', hsize, hsame with
    | [], _, hsize, _ => exact ⟨hsize, rfl⟩
    | (d', next') :: rest', h', hsize, hsame => exact (nil_of_profile h' hsize hsame).elim
  | cons e rest ih =>
    obtain ⟨d, next⟩ := e
    match rest', h', hsize, hsame with
    | [], h', hsize, hsame =>
      exact (nil_of_profile h hsize.symm fun n => (hsame n).symm).elim
    | (d', next') :: rest', h', hsize, hsame =>
      have hlow : low = low' := by
        have h1 := low_not_lt (by omega) h h' hsame
        have h2 := low_not_lt (by omega) h' h fun n => (hsame n).symm
        omega
      subst hlow
      have hd : d = d' := by
        have h1 := radix_not_lt hr h h' hsize hsame
        have h2 := radix_not_lt hr h' h hsize.symm fun n => (hsame n).symm
        omega
      subst hd
      have hlt : r < d := (h.radix _ List.mem_cons_self).1
      obtain ⟨rfl, rfl⟩ := ih h.tail h'.tail
        (Nat.eq_of_mul_eq_mul_left (Nat.mul_pos h.low_pos (by omega)) hsize) fun m => by
          rw [← inProfile_mul_radix (by omega) h, hsame, inProfile_mul_radix (by omega) h']
      exact ⟨rfl, rfl⟩

end peel

/-- Two systems with the same first block have the same radices above `r`, at the same
weights. -/
theorem same_places (hr : 2 ≤ r) {radices radices' : List Nat} (hpos : ∀ d ∈ radices, 0 < d)
    (hpos' : ∀ d ∈ radices', 0 < d) (hprod : radices.prod = radices'.prod)
    (hsame : ∀ n, InBox radices (radices.map (min r)) n ↔ InBox radices' (radices'.map (min r)) n)
    {q : Nat} (hq : q < radices.length) (hlt : r < radices.getD q 0) :
    ∃ q' < radices'.length, radices'.getD q' 0 = radices.getD q 0 ∧
      stride radices' q' = stride radices q := by
  obtain ⟨hlow, hrest⟩ := profile_unique hr (radicesExceed_profile hpos) (radicesExceed_profile hpos')
    (by rw [profileSize_profile, profileSize_profile, hprod]) fun n => by
      rw [inProfile_iff hpos, inProfile_iff hpos', hsame]
  have hmem : (1 * stride radices q, radices.getD q 0) ∈
      places 1 (profile r radices).1 (profile r radices).2 := mem_places.mpr ⟨q, hq, hlt, rfl⟩
  rw [hlow, hrest] at hmem
  obtain ⟨q', hq', -, he⟩ := mem_places.mp hmem
  rw [Nat.one_mul, Nat.one_mul] at he
  exact ⟨q', hq', (Prod.mk.inj he).2.symm, (Prod.mk.inj he).1.symm⟩

end profile

end Hecuba
