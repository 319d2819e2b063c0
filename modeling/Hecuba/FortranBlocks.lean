import Hecuba.BlockOrder
import Hecuba.FortranOrder

/-! The blocks of an array in Fortran order: where each of them starts, its shape, and the
order of the dimensions in which it is copied. -/

namespace Hecuba

/-- The dimensions in the order of the strides that the copy uses. -/
def copyOrder (l : List Nat) : List Nat := (exchangeLast l).reverse

def copyPlace (k i : Nat) : Nat :=
  if i + 2 = k then 0 else if i + 1 = k then min 1 i else k - 1 - i

theorem exchangeLast_append (a : List Nat) (x y : Nat) :
    exchangeLast (a ++ [x, y]) = a ++ [y, x] := by
  induction a with
  | nil => rfl
  | cons b a ih =>
    cases a with
    | nil => rfl
    | cons c a =>
      have hstep : exchangeLast (b :: c :: (a ++ [x, y])) = b :: exchangeLast (c :: (a ++ [x, y])) := by
        cases a <;> rfl
      rw [List.cons_append] at ih
      rw [List.cons_append, List.cons_append, hstep, ih]
      rfl

theorem exists_last_two {l : List Nat} (h : 2 ≤ l.length) : ∃ a x y, l = a ++ [x, y] := by
  match hl : l.reverse with
  | [] | [_] =>
    have hh := congrArg List.length hl
    rw [List.length_reverse] at hh
    simp only [List.length_nil, List.length_singleton] at hh
    omega
  | y :: x :: t =>
    refine ⟨t.reverse, x, y, ?_⟩
    rw [← List.reverse_reverse l, hl]
    simp

theorem exchangeLast_short {l : List Nat} (h : l.length < 2) : exchangeLast l = l := by
  match l, h with
  | [], _ => rfl
  | [_], _ => rfl

theorem exchangeLast_perm (l : List Nat) : (exchangeLast l).Perm l := by
  by_cases h : 2 ≤ l.length
  · obtain ⟨a, x, y, rfl⟩ := exists_last_two h
    rw [exchangeLast_append]
    exact List.Perm.append_left a (List.Perm.swap x y [])
  · rw [exchangeLast_short (by omega)]

theorem exchangeLast_map (l : List Nat) (f : Nat → Nat) :
    exchangeLast (l.map f) = (exchangeLast l).map f := by
  by_cases h : 2 ≤ l.length
  · obtain ⟨a, x, y, rfl⟩ := exists_last_two h
    rw [List.map_append, exchangeLast_append, List.map_append]
    exact exchangeLast_append _ _ _
  · rw [@exchangeLast_short l (by omega), exchangeLast_short (by rw [List.length_map]; omega)]

theorem copyOrder_reorders : Reorders copyOrder copyPlace where
  perm l := (List.reverse_perm _).trans (exchangeLast_perm l)
  map l f := by rw [copyOrder, exchangeLast_map, copyOrder, List.map_reverse]
  lt {k i} h := by
    unfold copyPlace
    split <;> [skip; split] <;> omega
  onto {k q} h := by
    refine ⟨if q = 0 then k - 2 else if q = 1 then k - 1 else k - 1 - q, ?_, ?_⟩
    · split <;> [skip; split] <;> omega
    · unfold copyPlace
      by_cases h0 : q = 0
      · rw [if_pos h0]
        split <;> [skip; split] <;> omega
      · rw [if_neg h0]
        by_cases h1 : q = 1
        · rw [if_pos h1, if_neg (by omega), if_pos (by omega)]
          omega
        · rw [if_neg h1, if_neg (by omega), if_neg (by omega)]
          omega
  get {l i} h := by
    by_cases hl : 2 ≤ l.length
    · obtain ⟨a, x, y, rfl⟩ := exists_last_two hl
      have hlen : (a ++ [x, y]).length = a.length + 2 := by simp
      have horder : copyOrder (a ++ [x, y]) = x :: y :: a.reverse := by
        rw [copyOrder, exchangeLast_append]
        simp
      rw [hlen] at h ⊢
      rw [horder, copyPlace]
      by_cases hx : i + 2 = a.length + 2
      · obtain rfl : i = a.length := by omega
        rw [if_pos rfl]
        simp
      · rw [if_neg hx]
        by_cases hy : i + 1 = a.length + 2
        · obtain rfl : i = a.length + 1 := by omega
          rw [if_pos rfl, Nat.min_eq_left (by omega)]
          simp
        · have hi : i < a.length := by omega
          rw [if_neg hy, show a.length + 2 - 1 - i = a.length - 1 - i + 2 by omega, List.getD_cons_succ,
            List.getD_cons_succ, getD_reverse (by omega),
            show a.length - 1 - (a.length - 1 - i) = i by omega, List.getD_append _ _ _ _ hi]
    · rw [copyOrder, exchangeLast_short (by omega)]
      match l, hl, h with
      | [d], _, h =>
        obtain rfl : i = 0 := by simpa using h
        rfl
      | _ :: _ :: l, hl, _ => exact (hl (by simp)).elim

/-- The number of an element when the first index varies fastest. -/
def colMajor (dims cc : List Nat) : Nat := rowMajor dims.reverse cc.reverse

theorem rowMajor_append {dims cc : List Nat} (h : cc.length = dims.length) (d c : Nat) :
    rowMajor (dims ++ [d]) (cc ++ [c]) = rowMajor dims cc * d + c := by
  induction dims generalizing cc with
  | nil =>
    obtain rfl : cc = [] := List.length_eq_zero_iff.mp h
    simp [rowMajor]
  | cons d' dims ih =>
    obtain ⟨c', cc, rfl⟩ := List.exists_cons_of_length_eq_add_one h
    rw [List.cons_append, List.cons_append, rowMajor, rowMajor, ih (by simpa using h), List.prod_append,
      List.prod_singleton]
    ring

theorem colMajor_cons {dims cc : List Nat} (h : cc.length = dims.length) (d c : Nat) :
    colMajor (d :: dims) (c :: cc) = c + d * colMajor dims cc := by
  rw [colMajor, colMajor, List.reverse_cons, List.reverse_cons,
    rowMajor_append (by simpa using h), Nat.mul_comm, Nat.add_comm]

theorem colMajor_lt {dims cc : List Nat} (h : InGrid dims cc) : colMajor dims cc < dims.prod := by
  rw [colMajor, ← List.prod_reverse]
  exact rowMajor_lt (List.rel_reverse h)

theorem colMajor_add {dims a b : List Nat} (ha : a.length = dims.length) (hb : b.length = dims.length) :
    colMajor dims (List.zipWith (· + ·) a b) = colMajor dims a + colMajor dims b := by
  rw [colMajor, colMajor, colMajor, ← rowMajor_add (by simpa using ha) (by simpa using hb),
    List.reverse_zipWith (by omega)]

namespace FortranOrderGenerator

theorem getIdFromIndexes_rounds {dims cc : List Nat} (h : InGrid dims cc) {d id acc : Nat}
    (hid : id + acc * d * colMajor dims cc < 2 ^ 64) (hacc : acc * d * dims.prod < 2 ^ 64) :
    (((d :: dims).zip cc).foldl (fun (id, accumulator) (d, index) =>
      (u64 (id + u64 (u64 (accumulator * d) * index)), u64 (accumulator * d))) (id, acc)).1 =
      id + acc * d * colMajor dims cc := by
  induction h generalizing d id acc with
  | nil => rfl
  | @cons c d' cc dims hc hrest ih =>
    rw [colMajor_cons (InGrid.length_eq hrest)] at hid ⊢
    rw [List.prod_cons] at hacc
    have hcol : colMajor dims cc < dims.prod := colMajor_lt hrest
    have hsum : acc * d * (c + d' * colMajor dims cc) = acc * d * c + acc * d * d' * colMajor dims cc := by
      ring
    have hpos : acc * d ≤ acc * d * (d' * dims.prod) :=
      Nat.le_mul_of_pos_right _ (Nat.mul_pos (by omega) (by omega))
    rw [hsum] at hid ⊢
    rw [List.zip_cons_cons, List.foldl_cons]
    show (List.foldl _ (u64 (id + u64 (u64 (acc * d) * c)), u64 (acc * d)) _).1 = _
    rw [u64_of_lt (show acc * d < 2 ^ 64 by omega),
      u64_of_lt (show acc * d * c < 2 ^ 64 by omega), u64_of_lt (by omega)]
    rw [ih (by omega) (by rwa [Nat.mul_assoc (acc * d)]), Nat.add_assoc]

theorem getIdFromIndexes_eq {dims cc : List Nat} (h : InGrid dims cc) (hp : dims.prod < 2 ^ 64) :
    getIdFromIndexes dims cc = colMajor dims cc := by
  cases h with
  | nil => rfl
  | @cons c d cc dims hc hrest =>
    have hlt := colMajor_lt (List.Forall₂.cons hc hrest)
    rw [colMajor_cons (InGrid.length_eq hrest)] at hlt ⊢
    rw [List.prod_cons] at hlt hp
    rw [getIdFromIndexes, List.drop_one, List.tail_cons, List.headD_cons,
      getIdFromIndexes_rounds hrest (by rw [Nat.one_mul]; omega) (by rwa [Nat.one_mul]), Nat.one_mul]

theorem exchangeLast_replicate (k r : Nat) :
    exchangeLast (List.replicate k r) = List.replicate k r := by
  refine List.eq_replicate_iff.mpr ⟨by rw [(exchangeLast_perm _).length_eq, List.length_replicate],
    fun b hb => List.eq_of_mem_replicate ((exchangeLast_perm _).mem_iff.mp hb)⟩

section next

variable {metas : ArrayMetadata} {r : Nat}

theorem block_offset_eq {cc : List Nat} (he : 0 < metas.elemSize)
    (hfits : metas.elemSize * metas.dims.prod < 2 ^ 63) (h : BlockIn metas.dims r cc) :
    u64 (getIdFromIndexes metas.dims (scale r cc) * metas.elemSize) =
      metas.elemSize * colMajor metas.dims (blockStart r cc) := by
  have hle : metas.dims.prod ≤ metas.elemSize * metas.dims.prod := Nat.le_mul_of_pos_left _ he
  have hlt := Nat.mul_lt_mul_of_pos_left (colMajor_lt h.start) he
  rw [scale_eq h metas.dims_lt, getIdFromIndexes_eq h.start (by omega), Nat.mul_comm,
    u64_of_lt (by omega)]

theorem nextPartition_eq {g : FortranOrderGenerator} {content : Bytes} (hg : g.metas = metas)
    (hgr : g.rowElements = r) (hgd : g.data = some content) (hne : metas.dims ≠ [])
    (he : 0 < metas.elemSize) (hfits : metas.elemSize * metas.dims.prod < 2 ^ 63)
    (hn : g.blockCounter < (blocksDim metas r).prod) {cc : List Nat}
    (hcc : unRowMajor (blocksDim metas r) g.blockCounter = cc) :
    g.nextPartition = (do
      let chunk ← g.makeChunk content (metas.elemSize * (blockShape metas.dims r cc).prod)
        (exchangeLast (blockShape metas.dims r cc)) (metas.elemSize * colMajor metas.dims (blockStart r cc))
      .ok ⟨getClusterID cc, getBlockID (blocksDim metas r) cc, some chunk⟩) := by
  have hr : 0 < r := hgr ▸ g.rowElements_pos
  have hle := @blocksDim_prod_le_dims metas r hr
  have hpe : metas.dims.prod ≤ metas.elemSize * metas.dims.prod := Nat.le_mul_of_pos_left _ he
  have hbn : blocksDim metas r ≠ [] := by simpa [blocksDim] using hne
  have hidx := getIndexes_eq hbn (blocksDim_lt hr) (by omega) hn
  have h := (inGrid_blocksDim_iff hr).mp (unRowMajor_inGrid hn)
  rw [hcc] at hidx h
  have hgb : g.blocks = blocksDim metas r := by rw [FortranOrderGenerator.blocks, hg, hgr]
  have hoff := block_offset_eq he hfits h
  simp only [nextPartition, hgd, hgb, hg, hgr, hidx, hoff]
  cases hbd : isBound (blocksDim metas r) cc with
  | true =>
    rw [if_pos rfl, scale_eq h metas.dims_lt, boundDims_eq hr h, boundSize_eq hr (by omega) h]
  | false =>
    rw [if_neg (by simp), blockSize_eq hr he (by omega) h hbd,
      blockShape_of_not_isBound hr h metas.dims_lt hbd, exchangeLast_replicate]

end next

end FortranOrderGenerator

end Hecuba
