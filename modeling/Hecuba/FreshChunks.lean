import Hecuba.FilteredGenerators
import Hecuba.FortranReads
import Mathlib.Algebra.Order.BigOperators.Group.List

/-! A chunk is filled by its header and its block, so its bytes are not those that `malloc`
has left in the memory. -/

namespace Hecuba

/-- The cells in `P` of two buffers of one size. -/
def AgreeOn (P : Nat → Prop) (x y : Bytes) : Prop := x.length = y.length ∧ ∀ a, P a → x[a]? = y[a]?

theorem AgreeOn.mono {P Q : Nat → Prop} {x y : Bytes} (h : AgreeOn P x y) (hQ : ∀ a, Q a → P a) : AgreeOn Q x y :=
  ⟨h.1, fun a ha => h.2 a (hQ a ha)⟩

theorem AgreeOn.eq {P : Nat → Prop} {x y : Bytes} (h : AgreeOn P x y) (hP : ∀ a < x.length, P a) : x = y := by
  refine List.ext_getElem? fun a => ?_
  by_cases ha : a < x.length
  · exact h.2 a (hP a ha)
  · have hlen := h.1
    rw [List.getElem?_eq_none (by omega), List.getElem?_eq_none (by omega)]

/-- Two calls that raise the same, or return related values. -/
inductive SameOutcome {ε α β : Type} (R : α → β → Prop) : Except ε α → Except ε β → Prop
  | ok {a : α} {b : β} (h : R a b) : SameOutcome R (.ok a) (.ok b)
  | error (e : ε) : SameOutcome R (.error e) (.error e)

section outcome

variable {ε α β γ δ : Type} {R : α → β → Prop} {S : γ → δ → Prop}

theorem SameOutcome.mono {R' : α → β → Prop} {x : Except ε α} {y : Except ε β} (h : SameOutcome R x y)
    (hR : ∀ a b, R a b → R' a b) : SameOutcome R' x y := by
  cases h with
  | ok h => exact .ok (hR _ _ h)
  | error e => exact .error e

theorem SameOutcome.bind {x : Except ε α} {y : Except ε β} {f : α → Except ε γ} {g : β → Except ε δ}
    (h : SameOutcome R x y) (hfg : ∀ a b, R a b → SameOutcome S (f a) (g b)) : SameOutcome S (x >>= f) (y >>= g) := by
  cases h with
  | ok h => exact hfg _ _ h
  | error e => exact .error e

theorem sameOutcome_eq_iff {x y : Except ε α} : SameOutcome Eq x y ↔ x = y := by
  constructor
  · intro h
    cases h with
    | ok h => rw [h]
    | error e => rfl
  · rintro rfl
    cases x with
    | ok a => exact .ok rfl
    | error e => exact .error e

theorem SameOutcome.foldlM_range {R : Nat → α → β → Prop} {f : α → Nat → Except ε α} {g : β → Nat → Except ε β}
    {b : Nat} {x : α} {y : β} (h0 : R 0 x y)
    (hstep : ∀ s < b, ∀ u v, R s u v → SameOutcome (R (s + 1)) (f u s) (g v s)) :
    SameOutcome (R b) ((List.range b).foldlM f x) ((List.range b).foldlM g y) := by
  induction b with
  | zero => exact .ok h0
  | succ b ih =>
    rw [List.range_succ, List.foldlM_append, List.foldlM_append]
    refine (ih fun s hs => hstep s (Nat.lt_succ_of_lt hs)).bind fun u v hR => ?_
    rw [List.foldlM_cons, List.foldlM_cons]
    exact (hstep b (Nat.lt_succ_self b) u v hR).bind fun _ _ h => .ok h

end outcome

variable {msg : String} {e blkEnd : Nat} {src : Bytes}

theorem memcpy_agreeOn {P : Nat → Prop} {x y : Bytes} (d s n : Nat) (h : AgreeOn P x y) :
    SameOutcome (fun x' y' => x'.length = x.length ∧ AgreeOn (fun a => P a ∨ (d ≤ a ∧ a < d + n)) x' y')
      (memcpy x d src s n) (memcpy y d src s n) := by
  unfold memcpy
  rw [← h.1]
  by_cases hle : d + n ≤ x.length ∧ s + n ≤ src.length
  · rw [if_pos hle, if_pos hle]
    have hd : d + n ≤ y.length := h.1 ▸ hle.1
    refine .ok ⟨overwrite_length hle.1 hle.2, ?_, fun a ha => ?_⟩
    · rw [overwrite_length hle.1 hle.2, overwrite_length hd hle.2, h.1]
    · rw [overwrite_getElem? hle.1 hle.2, overwrite_getElem? hd hle.2]
      by_cases hin : d ≤ a ∧ a < d + n
      · rw [if_pos hin, if_pos hin]
      · rw [if_neg hin, if_neg hin]
        exact h.2 a (ha.resolve_right hin)
  · rw [if_neg hle, if_neg hle]
    exact .error _

/-- Bytes of a block, from its position `blk` on. -/
def BlockRegion (e blk : Nat) (block : List Nat) (a : Nat) : Prop := blk ≤ a ∧ a < blk + e * block.prod

theorem copyBox_stride {b : Nat} {block : List Nat} (hB : block ≠ []) (he : e < 2 ^ 64)
    (hsize : e * (b :: block).prod < 2 ^ 32) {s : Nat} (hs : s < b) :
    e * block.prod < 2 ^ 32 ∧
      u64 (s * u64 (block.foldl (fun acc d => u64 (acc * d)) e / block.getLastD 0 * block.getLastD 0)) =
        s * (e * block.prod) := by
  have hprod : e * (b :: block).prod = b * (e * block.prod) := by rw [List.prod_cons, Nat.mul_left_comm]
  have hle : e * block.prod ≤ b * (e * block.prod) := Nat.le_mul_of_pos_left _ (by omega)
  have hs' : s * (e * block.prod) ≤ b * (e * block.prod) := Nat.mul_le_mul_right _ (by omega)
  have hoffset : block.foldl (fun acc d => u64 (acc * d)) e / block.getLastD 0 * block.getLastD 0 =
      e * block.prod := by
    rw [foldl_mul_u64 _ he, u64_of_lt (by omega)]
    exact Nat.div_mul_cancel (Dvd.dvd.mul_left (getLastD_dvd_prod hB) e)
  rw [hoffset, u64_of_lt (show e * block.prod < 2 ^ 64 by omega), u64_of_lt (by omega)]
  exact ⟨by omega, rfl⟩

theorem copyBox_agreeOn {dims : List Nat} {P : Nat → Prop} (block : List Nat) (arr blk : Nat) (x y : Bytes)
    (hlen : block.length = dims.length) (he : e < 2 ^ 64) (hsize : e * block.prod < 2 ^ 32) (h : AgreeOn P x y) :
    SameOutcome (fun x' y' => x'.length = x.length ∧ AgreeOn (fun a => P a ∨ BlockRegion e blk block a) x' y')
      (copyBox .toBlock msg e src blkEnd dims block arr blk x)
      (copyBox .toBlock msg e src blkEnd dims block arr blk y) := by
  induction dims generalizing P block arr blk x y with
  | nil => exact .error _
  | cons d dims ih =>
    obtain ⟨b, block, rfl⟩ := List.exists_cons_of_length_eq_add_one hlen
    rw [List.length_cons, List.length_cons, Nat.add_right_cancel_iff] at hlen
    cases dims with
    | nil =>
      obtain rfl : block = [] := List.eq_nil_of_length_eq_zero hlen
      have hrow : u32 (b * e) = e * [b].prod := by
        rw [List.prod_singleton] at hsize ⊢
        rw [Nat.mul_comm, u32_of_lt hsize]
      unfold copyBox copyRow
      rw [List.getLastD_cons, List.getLastD_nil, hrow]
      by_cases hend : blk + e * [b].prod > blkEnd
      · rw [if_pos hend, if_pos hend]
        exact .error _
      · rw [if_neg hend, if_neg hend]
        exact memcpy_agreeOn blk arr _ h
    | cons d' dims =>
      have hB : block ≠ [] := List.ne_nil_of_length_pos (by rw [hlen]; exact Nat.zero_lt_succ _)
      -- after `s` rounds the first `s` slices of the block are filled
      have hrounds := SameOutcome.foldlM_range (b := b)
        (R := fun s u v => u.length = x.length ∧
          AgreeOn (fun a => P a ∨ (blk ≤ a ∧ a < blk + s * (e * block.prod))) u v)
        (f := fun u s => copyBox .toBlock msg e src blkEnd (d' :: dims) block
          (arr + u64 (s * (d' :: dims).foldl (fun acc d => u64 (acc * d)) e))
          (blk + u64 (s * u64 (block.foldl (fun acc d => u64 (acc * d)) e / block.getLastD 0 *
            block.getLastD 0))) u)
        (g := fun u s => copyBox .toBlock msg e src blkEnd (d' :: dims) block
          (arr + u64 (s * (d' :: dims).foldl (fun acc d => u64 (acc * d)) e))
          (blk + u64 (s * u64 (block.foldl (fun acc d => u64 (acc * d)) e / block.getLastD 0 *
            block.getLastD 0))) u)
        ⟨rfl, h.mono fun a ha => ha.resolve_right (by omega)⟩ fun s hs u v hR => by
          obtain ⟨htail, hstride⟩ := copyBox_stride hB he hsize hs
          refine (ih block _ _ u v hlen htail hR.2).mono fun u' v' hfill => ⟨hfill.1.trans hR.1, ?_⟩
          refine hfill.2.mono fun a ha => ?_
          have hsucc : (s + 1) * (e * block.prod) = s * (e * block.prod) + e * block.prod := Nat.succ_mul _ _
          rw [hstride]
          unfold BlockRegion
          by_cases hlt : a < blk + s * (e * block.prod)
          · exact .inl (ha.imp_right fun hin => ⟨hin.1, hlt⟩)
          · refine (em (P a)).imp .inl fun hP => ?_
            have hin := ha.resolve_left hP
            omega
      refine hrounds.mono fun x' y' hagree => ⟨hagree.1, hagree.2.mono fun a ha => ha.imp_right fun hin => ?_⟩
      unfold BlockRegion at hin
      rw [List.prod_cons, Nat.mul_left_comm] at hin
      exact hin

theorem chunk_of_fresh {dims shape : List Nat} {size : Nat} (input : Nat) {fresh fresh' : Bytes}
    (hlen : shape.length = dims.length) (he : e < 2 ^ 64) (hsize : size = e * shape.prod)
    (hlt : size < 2 ^ 32) (hl : fresh.length = size + 8) (hl' : fresh'.length = size + 8) :
    (do let chunk ← memcpy fresh 0 (toLittleEndian 8 size) 0 8
        tessellate dims shape e src input 8 (8 + size) chunk) =
      (do let chunk ← memcpy fresh' 0 (toLittleEndian 8 size) 0 8
          tessellate dims shape e src input 8 (8 + size) chunk) := by
  have hnone : AgreeOn (fun _ => False) fresh fresh' := ⟨hl.trans hl'.symm, fun _ ha => ha.elim⟩
  rw [← sameOutcome_eq_iff]
  refine (memcpy_agreeOn 0 0 8 hnone).bind fun blank blank' hheader => ?_
  refine (copyBox_agreeOn shape input 8 blank blank' hlen he (hsize ▸ hlt) hheader.2).mono
    fun chunk chunk' hagree => hagree.2.eq fun a ha => ?_
  rw [hagree.1, hheader.1, hl] at ha
  unfold BlockRegion
  rw [← hsize]
  by_cases h8 : a < 8
  · exact .inl (.inr ⟨Nat.zero_le a, by omega⟩)
  · exact .inr ⟨by omega, by omega⟩

section sizes

variable {metas : ArrayMetadata} {r : Nat} {cc : List Nat}

/-- What the constructors make of the row: a block has at most 4096 bytes. -/
def SmallBlocks (metas : ArrayMetadata) (r : Nat) : Prop := metas.elemSize * r ^ metas.dims.length ≤ 4096

theorem border_size (hr : 0 < r) (hsmall : SmallBlocks metas r) (h : BlockIn metas.dims r cc) :
    (boundDims metas r (scale r cc)).length = metas.dims.length ∧
      (boundDims metas r (scale r cc)).foldl (fun size d => u64 (size * d)) metas.elemSize =
        metas.elemSize * (boundDims metas r (scale r cc)).prod ∧
      metas.elemSize * (boundDims metas r (scale r cc)).prod < 2 ^ 32 := by
  rw [scale_eq h metas.dims_lt, boundDims_eq hr h]
  have hlen : (blockShape metas.dims r cc).length = metas.dims.length :=
    (List.Forall₂.length_eq (blockShape_le_row h))
  have hrow : ∀ b ∈ blockShape metas.dims r cc, b ≤ r := by
    intro b hb
    obtain ⟨i, hi, rfl⟩ := List.getElem_of_mem hb
    have hle := List.forall₂_iff_get.mp (blockShape_le_row h)
    exact (hle.2 i hi (by omega)).trans (Nat.min_le_left _ _)
  have hprod : (blockShape metas.dims r cc).prod ≤ r ^ metas.dims.length :=
    hlen ▸ List.prod_le_pow_card _ _ hrow
  have hle := (Nat.mul_le_mul_left metas.elemSize hprod).trans hsmall
  rw [foldl_mul_u64 _ (metas.elemSize_lt.trans (by decide)), u64_of_lt (by omega)]
  exact ⟨hlen, rfl, by omega⟩

theorem full_size (hsmall : SmallBlocks metas r) :
    blockSize metas r = metas.elemSize * (List.replicate metas.dims.length r).prod ∧
      metas.elemSize * (List.replicate metas.dims.length r).prod < 2 ^ 32 := by
  unfold SmallBlocks at hsmall
  rw [List.prod_replicate, blockSize]
  refine ⟨?_, by omega⟩
  by_cases he : metas.elemSize = 0
  · rw [he, Nat.mul_zero, Nat.zero_mul]
    rfl
  · have hpow : r ^ metas.dims.length ≤ metas.elemSize * r ^ metas.dims.length :=
      Nat.le_mul_of_pos_left _ (Nat.pos_of_ne_zero he)
    rw [u64_of_lt (show r ^ metas.dims.length < 2 ^ 64 by omega), Nat.mul_comm, u64_of_lt (by omega)]

end sizes

theorem ZorderCurveGenerator.makeChunk_fresh (g : ZorderCurveGenerator) (data : Bytes) {size : Nat} (input : Nat)
    {shape : List Nat} (hlen : shape.length = g.metas.dims.length) (hsize : size = g.metas.elemSize * shape.prod)
    (hlt : g.metas.elemSize * shape.prod < 2 ^ 32) (junk : Nat → Nat → UInt8) :
    ({ g with junk := junk } : ZorderCurveGenerator).makeChunk data size shape input =
      g.makeChunk data size shape input :=
  chunk_of_fresh input hlen (g.metas.elemSize_lt.trans (by decide)) hsize (hsize ▸ hlt) (by simp [malloc])
    (by simp [malloc])

theorem ZorderCurveGenerator.nextPartition_fresh (g : ZorderCurveGenerator)
    (hsmall : SmallBlocks g.metas g.rowElements) (hcc : InGrid g.blocks (getIndexes g.blockCounter g.blocks))
    (junk : Nat → Nat → UInt8) :
    ({ g with junk := junk } : ZorderCurveGenerator).nextPartition = g.nextPartition := by
  obtain ⟨hlen, hborder, hborderlt⟩ :=
    border_size g.rowElements_pos hsmall ((inGrid_blocksDim_iff g.rowElements_pos).mp hcc)
  obtain ⟨hfull, hfulllt⟩ := full_size hsmall
  unfold nextPartition
  cases hdata : g.data with
  | none => rfl
  | some data =>
    dsimp only
    refine if_congr Iff.rfl ?_ ?_
    · exact congrArg (· >>= _) (makeChunk_fresh g data _ hlen hborder hborderlt junk)
    · exact congrArg (· >>= _) (makeChunk_fresh g data _ List.length_replicate hfull hfulllt junk)

theorem FortranOrderGenerator.makeChunk_fresh (g : FortranOrderGenerator) (data : Bytes) {size : Nat} (input : Nat)
    {shape : List Nat} (hlen : shape.length = g.metas.dims.length) (hsize : size = g.metas.elemSize * shape.prod)
    (hlt : g.metas.elemSize * shape.prod < 2 ^ 32) (junk : Nat → Nat → UInt8) :
    ({ g with junk := junk } : FortranOrderGenerator).makeChunk data size shape input =
      g.makeChunk data size shape input := by
  have hdims : (exchangeLast g.metas.dims).length = g.metas.dims.length := (exchangeLast_perm _).length_eq
  exact chunk_of_fresh input (hlen.trans hdims.symm) (g.metas.elemSize_lt.trans (by decide)) hsize (hsize ▸ hlt)
    (by simp [malloc]) (by simp [malloc])

theorem FortranOrderGenerator.nextPartition_fresh (g : FortranOrderGenerator)
    (hsmall : SmallBlocks g.metas g.rowElements) (hcc : InGrid g.blocks (getIndexes g.blockCounter g.blocks))
    (junk : Nat → Nat → UInt8) :
    ({ g with junk := junk } : FortranOrderGenerator).nextPartition = g.nextPartition := by
  obtain ⟨hlen, hborder, hborderlt⟩ :=
    border_size g.rowElements_pos hsmall ((inGrid_blocksDim_iff g.rowElements_pos).mp hcc)
  obtain ⟨hfull, hfulllt⟩ := full_size hsmall
  have hperm := exchangeLast_perm (boundDims g.metas g.rowElements
    (scale g.rowElements (getIndexes g.blockCounter g.blocks)))
  have hprod := congrArg (g.metas.elemSize * ·) hperm.prod_eq
  unfold nextPartition
  cases hdata : g.data with
  | none => rfl
  | some data =>
    dsimp only
    refine if_congr Iff.rfl ?_ ?_
    · exact congrArg (· >>= _) (makeChunk_fresh g data _ (hperm.length_eq.trans hlen) (hborder.trans hprod.symm)
        (lt_of_eq_of_lt hprod hborderlt) junk)
    · exact congrArg (· >>= _) (makeChunk_fresh g data _ List.length_replicate hfull hfulllt junk)

end Hecuba
