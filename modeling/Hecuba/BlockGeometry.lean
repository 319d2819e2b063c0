import Hecuba.BoxCopy
import Hecuba.ZorderIds

/-! The blocks of an array: their shapes, their positions, and that they cover
it. The integer arithmetic of the source is shown free of overflow here. -/

namespace Hecuba

/-- The shape of block `cc`: `r` elements along each dimension, cut at the border. -/
def blockShape (dims : List Nat) (r : Nat) (cc : List Nat) : List Nat :=
  List.zipWith (fun c d => min r (d - c * r)) cc dims

def blockStart (r : Nat) (cc : List Nat) : List Nat := cc.map (· * r)

def BlockIn (dims : List Nat) (r : Nat) (cc : List Nat) : Prop := List.Forall₂ (fun c d => c * r < d) cc dims

theorem lt_blocks_iff {c d r : Nat} (hr : 0 < r) : c < (d + r - 1) / r ↔ c * r < d := by
  rw [Nat.lt_iff_add_one_le, Nat.le_div_iff_mul_le hr, Nat.add_mul, Nat.one_mul]
  omega

theorem blocks_le (d : Nat) {r : Nat} (hr : 0 < r) : (d + r - 1) / r ≤ d := by
  by_contra hn
  have hh := (lt_blocks_iff hr).mp (Nat.lt_of_not_le hn)
  exact absurd hh (Nat.not_lt.mpr (Nat.le_mul_of_pos_right d hr))

theorem blocksDim_lt {metas : ArrayMetadata} {r : Nat} (hr : 0 < r) : ∀ b ∈ blocksDim metas r, b < 2 ^ 32 := by
  intro b hb
  obtain ⟨d, hd, rfl⟩ := List.mem_map.mp hb
  exact lt_of_le_of_lt (blocks_le d hr) (metas.dims_lt d hd)

theorem inGrid_blocksDim_iff {metas : ArrayMetadata} {cc : List Nat} {r : Nat} (hr : 0 < r) :
    InGrid (blocksDim metas r) cc ↔ BlockIn metas.dims r cc := by
  simp only [InGrid, blocksDim, BlockIn, List.forall₂_map_right_iff, lt_blocks_iff hr]

theorem BlockIn.start {dims cc : List Nat} {r : Nat} (h : BlockIn dims r cc) : InGrid dims (blockStart r cc) :=
  List.forall₂_map_left_iff.mpr h

theorem blockStart_cons (r c : Nat) (cc : List Nat) : blockStart r (c :: cc) = c * r :: blockStart r cc := rfl

theorem blockShape_cons (d r c : Nat) (dims cc : List Nat) :
    blockShape (d :: dims) r (c :: cc) = min r (d - c * r) :: blockShape dims r cc := rfl

theorem inGrid_exists_cons {d : Nat} {dims cc : List Nat} (h : InGrid (d :: dims) cc) :
    ∃ c rest, cc = c :: rest := by
  cases h with
  | cons => exact ⟨_, _, rfl⟩

section geometry

variable {dims : List Nat} {r : Nat}

theorem blockShape_boxIn {cc : List Nat} (hr : 0 < r) (h : BlockIn dims r cc) :
    BoxIn dims (blockShape dims r cc) := by
  induction h with
  | nil => exact List.Forall₂.nil
  | cons hc _ ih =>
    rw [blockShape_cons]
    exact List.Forall₂.cons ⟨by omega, by omega⟩ ih

theorem blockShape_getLastD_le {cc : List Nat} (h : BlockIn dims r cc) :
    (blockShape dims r cc).getLastD 0 ≤ min r (dims.getLastD 0) := by
  induction h with
  | nil => exact Nat.zero_le _
  | @cons c d cc dims hc hrest ih =>
    rw [blockShape_cons]
    cases hrest with
    | nil =>
      simp only [blockShape, List.zipWith_nil_left, List.getLastD_cons, List.getLastD_nil]
      omega
    | cons => simpa only [blockShape_cons, List.getLastD_cons] using ih

theorem scale_eq {cc : List Nat} (h : BlockIn dims r cc) (hlt : ∀ d ∈ dims, d < 2 ^ 32) :
    scale r cc = blockStart r cc := by
  apply List.map_congr_left
  intro c hc
  have hm : c * r ∈ blockStart r cc := List.mem_map_of_mem hc
  obtain ⟨i, hi, he⟩ := List.getElem_of_mem hm
  have hg := inGrid_iff.mp h.start
  have hid : i < dims.length := by omega
  have hb := hg.2 i hid
  simp only [List.getD_eq_getElem?_getD, List.getElem?_eq_getElem hi, List.getElem?_eq_getElem hid,
    Option.getD_some, he] at hb
  exact u32_of_lt (hb.trans (hlt _ (List.getElem_mem hid)))

theorem ceil_bounds {c d : Nat} (hr : 0 < r) (hc : c * r < d) (hd : d < 2 ^ 32) :
    c < (d + r - 1) / r ∧ sub32 ((d + r - 1) / r) 1 = (d + r - 1) / r - 1 := by
  have hlt := (lt_blocks_iff hr).mpr hc
  have hle := blocks_le d hr
  exact ⟨hlt, sub32_of_le (by omega) (by omega)⟩

theorem border_iff {c d : Nat} (hr : 0 < r) (hc : c * r < d) (hd : d < 2 ^ 32) :
    c = sub32 ((d + r - 1) / r) 1 ↔ d ≤ c * r + r := by
  obtain ⟨hlt, hs⟩ := ceil_bounds hr hc hd
  have hnext := lt_blocks_iff (c := c + 1) (d := d) hr
  rw [Nat.add_mul, Nat.one_mul] at hnext
  rw [hs]
  omega

theorem blockShape_of_not_isBound {cc : List Nat} (hr : 0 < r) (h : BlockIn dims r cc)
    (hlt : ∀ d ∈ dims, d < 2 ^ 32)
    (hb : isBound (dims.map (fun d => (d + r - 1) / r)) cc = false) :
    blockShape dims r cc = List.replicate dims.length r := by
  induction h with
  | nil => rfl
  | @cons c d cc dims hc _ ih =>
    simp only [isBound, List.map_cons, List.zip_cons_cons, List.any_cons, Bool.or_eq_false_iff,
      beq_eq_false_iff_ne] at hb
    have hne : ¬ d ≤ c * r + r := fun hle => hb.1 ((border_iff hr hc (hlt d (by simp))).mpr hle)
    rw [blockShape_cons, ih (fun d hd => hlt d (by simp [hd])) hb.2, List.length_cons, List.replicate_succ]
    congr 1
    omega

theorem boundDims_eq {metas : ArrayMetadata} {cc : List Nat} (hr : 0 < r)
    (h : BlockIn metas.dims r cc) : boundDims metas r (blockStart r cc) = blockShape metas.dims r cc := by
  have hlt := metas.dims_lt
  rw [boundDims, blocksDim]
  generalize metas.dims = dims at h hlt ⊢
  induction h with
  | nil => rfl
  | @cons c d cc dims hc _ ih =>
    have hd := hlt d (by simp)
    have hb := border_iff hr hc hd
    rw [blockStart_cons, blockShape_cons]
    rw [List.map_cons, List.zip_cons_cons, List.zipWith_cons_cons, ih (fun d hd => hlt d (by simp [hd]))]
    simp only [Nat.mul_div_cancel c hr, ne_eq, ite_not]
    congr 1
    split
    · next he =>
      have hle := hb.mp he
      rw [← he, u32_of_lt (by omega), sub32_of_le hd (by omega)]
      omega
    · next he =>
      have hnle : ¬ d ≤ c * r + r := fun hle => he (hb.mpr hle)
      omega

theorem block_cell_inGrid {cc x : List Nat} (h : BlockIn dims r cc)
    (hx : InGrid (blockShape dims r cc) x) : InGrid dims (List.zipWith (· + ·) (blockStart r cc) x) := by
  induction h generalizing x with
  | nil => exact List.Forall₂.nil
  | @cons c d cc dims hc _ ih =>
    rw [blockShape_cons] at hx
    obtain ⟨a, x, rfl⟩ := inGrid_exists_cons hx
    obtain ⟨ha, hx⟩ := inGrid_cons.mp hx
    rw [blockStart_cons, List.zipWith_cons_cons]
    exact inGrid_cons.mpr ⟨by omega, ih hx⟩

theorem exists_block {X : List Nat} (hr : 0 < r) (h : InGrid dims X) :
    BlockIn dims r (X.map (· / r)) ∧ InGrid (blockShape dims r (X.map (· / r))) (X.map (· % r)) := by
  induction dims generalizing X with
  | nil => cases h; exact ⟨List.Forall₂.nil, List.Forall₂.nil⟩
  | cons d dims ih =>
    obtain ⟨a, X, rfl⟩ := inGrid_exists_cons h
    obtain ⟨ha, h⟩ := inGrid_cons.mp h
    obtain ⟨h1, h2⟩ := ih h
    have hle := Nat.div_mul_le_self a r
    have hmod := Nat.mod_lt a hr
    have hsum := Nat.div_add_mod' a r
    rw [List.map_cons, List.map_cons, blockShape_cons]
    exact ⟨List.Forall₂.cons (by omega) h1, inGrid_cons.mpr ⟨by omega, h2⟩⟩

end geometry

section size

variable {metas : ArrayMetadata} {r : Nat} {cc : List Nat}

theorem blockSize_eq (hr : 0 < r) (he : 0 < metas.elemSize)
    (hfits : metas.elemSize * metas.dims.prod < 2 ^ 64) (h : BlockIn metas.dims r cc)
    (hb : isBound (blocksDim metas r) cc = false) :
    blockSize metas r = metas.elemSize * (blockShape metas.dims r cc).prod := by
  have hs := blockShape_of_not_isBound hr h metas.dims_lt hb
  have hle := Nat.mul_le_mul_left metas.elemSize (blockShape_boxIn hr h).prod_le
  rw [hs, List.prod_replicate] at hle ⊢
  have hpow : r ^ metas.dims.length ≤ metas.elemSize * r ^ metas.dims.length :=
    Nat.le_mul_of_pos_left _ he
  rw [blockSize, u64_of_lt (show r ^ metas.dims.length < 2 ^ 64 by omega), Nat.mul_comm, u64_of_lt (by omega)]

theorem boundSize_eq (hr : 0 < r) (hfits : metas.elemSize * metas.dims.prod < 2 ^ 64)
    (h : BlockIn metas.dims r cc) :
    (blockShape metas.dims r cc).foldl (fun size d => u64 (size * d)) metas.elemSize =
      metas.elemSize * (blockShape metas.dims r cc).prod := by
  have hle := Nat.mul_le_mul_left metas.elemSize (blockShape_boxIn hr h).prod_le
  have he := metas.elemSize_lt
  rw [foldl_mul_u64 _ (by omega), u64_of_lt (by omega)]

theorem blocksDim_prod_le_dims (hr : 0 < r) : (blocksDim metas r).prod ≤ metas.dims.prod := by
  have hle (l : List Nat) : (l.map fun d => (d + r - 1) / r).prod ≤ l.prod := by
    induction l with
    | nil => exact Nat.le_refl _
    | cons d l ih =>
      rw [List.map_cons, List.prod_cons, List.prod_cons]
      exact Nat.mul_le_mul (blocks_le d hr) ih
  exact hle metas.dims

end size

theorem getIdFromIndexes_rounds (d x : Nat) (dims xs : List Nat) (h : InGrid (d :: dims) (x :: xs))
    (hp : (d :: dims).prod < 2 ^ 64) :
    (dims.zip (x :: xs)).foldr (fun (d, index) (id, accumulator) =>
      (u64 (id + u64 (u64 (accumulator * d) * index)), u64 (accumulator * d))) ((x :: xs).getLastD 0, 1) =
    (rowMajor (d :: dims) (x :: xs), dims.prod) := by
  induction dims generalizing d x xs with
  | nil =>
    obtain rfl : xs = [] := by cases (inGrid_cons.mp h).2; rfl
    simp [rowMajor]
  | cons d' dims ih =>
    obtain ⟨hx, hrest⟩ := inGrid_cons.mp h
    obtain ⟨x', xs, rfl⟩ := inGrid_exists_cons hrest
    have hle : (d' :: dims).prod ≤ (d :: d' :: dims).prod := by
      rw [List.prod_cons (a := d)]
      exact Nat.le_mul_of_pos_left _ (by omega)
    have hr := rowMajor_lt h
    have hlast : (x :: x' :: xs).getLastD 0 = (x' :: xs).getLastD 0 := by
      rw [List.getLastD_cons, List.getLastD_cons, List.getLastD_cons]
    have hacc : u64 (dims.prod * d') = (d' :: dims).prod := by
      rw [List.prod_cons, Nat.mul_comm, u64_of_lt]
      rw [List.prod_cons] at hle
      omega
    rw [List.zip_cons_cons, List.foldr_cons, hlast, ih d' x' xs hrest (by omega)]
    rw [rowMajor, Nat.mul_comm x] at hr
    simp only [hacc]
    rw [u64_of_lt (show (d' :: dims).prod * x < 2 ^ 64 by omega), u64_of_lt (by omega)]
    rw [Nat.add_comm, Nat.mul_comm _ x]
    rfl

theorem getIdFromIndexes_eq {dims indexes : List Nat} (hne : dims ≠ []) (h : InGrid dims indexes)
    (hp : dims.prod < 2 ^ 64) : getIdFromIndexes dims indexes = rowMajor dims indexes := by
  obtain ⟨d, dims, rfl⟩ := List.exists_cons_of_ne_nil hne
  obtain ⟨x, xs, rfl⟩ := inGrid_exists_cons h
  rw [getIdFromIndexes, List.foldl_reverse]
  exact congrArg Prod.fst (getIdFromIndexes_rounds d x dims xs h hp)

theorem int64_div_mod {n m : Nat} (hn : n < 2 ^ 63) (hm : m < 2 ^ 63) :
    ((int64 n).tdiv (int64 m) % 2 ^ 64).toNat = n / m ∧ ((int64 n).tmod (int64 m) % 2 ^ 64).toNat = n % m := by
  rw [int64_of_lt hn, int64_of_lt hm]
  have h1 : n / m ≤ n := Nat.div_le_self _ _
  have h2 : n % m ≤ n := Nat.mod_le _ _
  constructor
  · rw [show (n : Int).tdiv m = ((n / m : Nat) : Int) from rfl]
    generalize n / m = q at h1
    omega
  · rw [show (n : Int).tmod m = ((n % m : Nat) : Int) from rfl]
    generalize n % m = q at h2
    omega

theorem getIndexes_go_eq (d : Nat) (dims : List Nat) (n : Nat) (hlt : ∀ x ∈ d :: dims, x < 2 ^ 32)
    (hp : (d :: dims).prod < 2 ^ 63) (hn : n < (d :: dims).prod) :
    getIndexes.go n dims.prod dims = unRowMajor (d :: dims) n := by
  induction dims generalizing d n with
  | nil =>
    have hd := hlt d (by simp)
    simp only [List.prod_cons, List.prod_nil, Nat.mul_one] at hn
    simp only [getIndexes.go, unRowMajor, List.prod_nil, Nat.div_one]
    rw [u32_of_lt (by omega)]
  | cons d' dims ih =>
    have hg := unRowMajor_inGrid hn
    have hdpos : 0 < (d' :: dims).prod := by
      rw [List.prod_cons] at hn
      exact Nat.pos_of_mul_pos_left (Nat.zero_lt_of_lt hn)
    have hd' : 0 < d' := by
      rw [List.prod_cons] at hdpos
      exact Nat.pos_of_mul_pos_right hdpos
    have hle : (d' :: dims).prod ≤ (d :: d' :: dims).prod := by
      rw [List.prod_cons (a := d)]
      refine Nat.le_mul_of_pos_left _ ?_
      rw [List.prod_cons (a := d)] at hn
      exact Nat.pos_of_mul_pos_right (Nat.zero_lt_of_lt hn)
    obtain ⟨h1, h2⟩ := int64_div_mod (n := n) (m := (d' :: dims).prod) (by omega) (by omega)
    have hq : n / (d' :: dims).prod < 2 ^ 32 := by
      rw [unRowMajor] at hg
      exact (inGrid_cons.mp hg).1.trans (hlt d (by simp))
    have hdiv : (d' :: dims).prod / d' = dims.prod := by rw [List.prod_cons, Nat.mul_div_cancel_left _ hd']
    rw [getIndexes.go, h1, h2, hdiv, u32_of_lt hq,
      ih d' (n % (d' :: dims).prod) (fun x hx => hlt x (by simp [hx])) (by omega) (Nat.mod_lt _ hdpos)]
    rfl

theorem getIndexes_eq {dims : List Nat} (hne : dims ≠ []) (hlt : ∀ d ∈ dims, d < 2 ^ 32)
    (hp : dims.prod < 2 ^ 63) {n : Nat} (hn : n < dims.prod) : getIndexes n dims = unRowMajor dims n := by
  obtain ⟨d, dims, rfl⟩ := List.exists_cons_of_ne_nil hne
  have hd : 0 < d := by
    rw [List.prod_cons] at hn
    exact Nat.pos_of_mul_pos_right (Nat.zero_lt_of_lt hn)
  have htotal : (d :: dims).foldl (fun size d => u64 (size * d)) 1 / (d :: dims).headD 0 = dims.prod := by
    rw [foldl_mul_u64 _ (by decide), Nat.one_mul, u64_of_lt (by omega), List.prod_cons, List.headD_cons,
      Nat.mul_div_cancel_left _ hd]
  rw [getIndexes, htotal]
  exact getIndexes_go_eq d dims n hlt hp hn

end Hecuba
