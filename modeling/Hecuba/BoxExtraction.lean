import Hecuba.BoxCopy

/-! A box cut out of an array and put back: what `tessellate` and `copy_block_to_array`
move for a start position, and the rows that they touch on the way. -/

namespace Hecuba

/-- A box of an array, as the arguments of the two functions describe it. -/
structure ArrayBox where
  elemSize : Nat
  dims : List Nat
  block : List Nat
  start : List Nat
  elemSize_pos : 0 < elemSize
  rank_pos : dims ≠ []
  boxIn : BoxIn dims block
  start_length : start.length = dims.length
  fits : List.Forall₂ (· ≤ ·) (List.zipWith (· + ·) start block) dims
  addressable : elemSize * dims.prod < 2 ^ 64
  rowBytes_lt : block.getLastD 0 * elemSize < 2 ^ 32

/-- The arguments of one `memcpy`. -/
structure RowCopy where
  arr : Nat
  blk : Nat
  n : Nat
  deriving DecidableEq, Repr

/-- The rows of a box, in the order of the recursion. -/
def boxRows (elemSize : Nat) : List Nat → List Nat → Nat → Nat → List RowCopy
  | [_], block, arr, blk => [⟨arr, blk, u32 (block.getLastD 0 * elemSize)⟩]
  | _ :: dims, current :: block, arr, blk =>
    let dimsProd := dims.foldl (fun acc d => u64 (acc * d)) elemSize
    let blockProd := block.foldl (fun acc d => u64 (acc * d)) elemSize
    let blockOffset := u64 (blockProd / block.getLastD 0 * block.getLastD 0)
    (List.range current).flatMap fun subset =>
      boxRows elemSize dims block (arr + u64 (subset * dimsProd)) (blk + u64 (subset * blockOffset))
  | _, _, _, _ => []

theorem foldlM_flatMap_range {α β ε : Type} {f : β → α → Except ε β} {g : Nat → List α} (n : Nat) (b : β) :
    ((List.range n).flatMap g).foldlM f b = (List.range n).foldlM (fun b i => (g i).foldlM f b) b := by
  induction n generalizing b with
  | zero => rfl
  | succ n ih =>
    rw [List.range_succ, List.flatMap_append, List.foldlM_append, List.foldlM_append, ih]
    simp

theorem copyBox_eq_rows (dir : Direction) (msg : String) {e blkEnd : Nat} {src : Bytes} {dims : List Nat}
    (block : List Nat) (arr blk : Nat) (dst : Bytes) (hne : dims ≠ []) (hlen : block.length = dims.length) :
    copyBox dir msg e src blkEnd dims block arr blk dst =
      (boxRows e dims block arr blk).foldlM
        (fun dst row => copyRow dir msg src blkEnd row.arr row.blk row.n dst) dst := by
  induction dims generalizing block arr blk dst with
  | nil => exact absurd rfl hne
  | cons d dims ih =>
    obtain ⟨b, block, rfl⟩ := List.exists_cons_of_length_eq_add_one hlen
    cases dims with
    | nil => simp [copyBox, boxRows]
    | cons d' dims =>
      have hlen' : block.length = (d' :: dims).length := by simpa using hlen
      simp only [copyBox, boxRows, foldlM_flatMap_range]
      congr 1
      funext dst subset
      exact ih block _ _ dst (List.cons_ne_nil _ _) hlen'

theorem inGrid_shifted {start block dims p : List Nat} (hlen : start.length = block.length)
    (hfits : List.Forall₂ (· ≤ ·) (List.zipWith (· + ·) start block) dims) (hp : InGrid block p) :
    InGrid dims (List.zipWith (· + ·) start p) := by
  induction hp generalizing start dims with
  | nil =>
    obtain rfl : start = [] := List.length_eq_zero_iff.mp hlen
    cases hfits
    exact List.Forall₂.nil
  | @cons c d p block hc _ ih =>
    obtain ⟨s, start, rfl⟩ := List.exists_cons_of_length_eq_add_one hlen
    rw [List.zipWith_cons_cons] at hfits
    cases hfits with
    | cons hd hrest =>
      have hlt : s + c < s + d := Nat.add_lt_add_left hc s
      exact inGrid_cons.mpr ⟨hlt.trans_le hd, ih (by simpa using hlen) hrest⟩

section rows

variable {e : Nat}

theorem boxRows_inside (he : 0 < e) {dims : List Nat} (block : List Nat) (arr blk : Nat) (hbox : BoxIn dims block)
    (hmem : e * dims.prod < 2 ^ 64) (hrow : block.getLastD 0 * e < 2 ^ 32) :
    ∀ row ∈ boxRows e dims block arr blk, ∀ j < row.n, ∃ p, InGrid block p ∧ ∃ t < e,
      row.arr + j = arr + (e * rowMajor dims p + t) ∧ row.blk + j = blk + (e * rowMajor block p + t) := by
  induction dims generalizing block arr blk with
  | nil => cases hbox; simp [boxRows]
  | cons d dims ih =>
    obtain ⟨b, block, rfl⟩ : ∃ b rest, block = b :: rest := by
      cases hbox with
      | cons => exact ⟨_, _, rfl⟩
    obtain ⟨hb, hbox⟩ := List.forall₂_cons.mp hbox
    intro row hmemrow j hj
    cases dims with
    | nil =>
      obtain rfl : block = [] := by cases hbox; rfl
      simp only [boxRows, List.mem_singleton] at hmemrow
      subst hmemrow
      simp only [List.getLastD_cons, List.getLastD_nil] at hj hrow
      rw [u32_of_lt hrow] at hj
      have hdiv : j / e < b := Nat.div_lt_of_lt_mul (by rwa [Nat.mul_comm] at hj)
      refine ⟨[j / e], inGrid_cons.mpr ⟨hdiv, List.Forall₂.nil⟩, j % e, Nat.mod_lt _ he, ?_, ?_⟩ <;>
        simp only [rowMajor, List.prod_nil, Nat.mul_one, Nat.add_zero, Nat.div_add_mod]
    | cons d' dims =>
      have hB : block ≠ [] := by
        rintro rfl
        cases hbox
      have hlast : (b :: block).getLastD 0 = block.getLastD 0 := by
        obtain ⟨b', rest, rfl⟩ := List.exists_cons_of_ne_nil hB
        rw [List.getLastD_cons, List.getLastD_cons, List.getLastD_cons]
      obtain ⟨hP, hQ⟩ := copyBox_strides hB hb hbox hmem
      simp only [boxRows, List.mem_flatMap, List.mem_range] at hmemrow
      obtain ⟨s, hs, hmemrow⟩ := hmemrow
      rw [hP s hs, hQ s hs] at hmemrow
      obtain ⟨p, hp, t, ht, harr, hblk⟩ :=
        ih block _ _ hbox (copyBox_mem_tail hb hmem) (by rwa [hlast] at hrow) row hmemrow j hj
      refine ⟨s :: p, inGrid_cons.mpr ⟨hs, hp⟩, t, ht, ?_, ?_⟩
      · rw [harr, rowMajor]
        ring
      · rw [hblk, rowMajor]
        ring

end rows

namespace ArrayBox

variable (b : ArrayBox)

/-- Where the pointer of the caller stands: at the first element of the box. -/
def input : Nat := b.elemSize * rowMajor b.dims b.start

/-- Byte `t` of the element that the box has at `p`, in the array. -/
def inArray (p : List Nat) (t : Nat) : Nat :=
  b.elemSize * rowMajor b.dims (List.zipWith (· + ·) b.start p) + t

/-- The same byte in the block. -/
def inBlock (p : List Nat) (t : Nat) : Nat := b.elemSize * rowMajor b.block p + t

def bytes : Nat := b.elemSize * b.block.prod

def tessellate (array : Bytes) (output : Nat) (region : Bytes) : Except Fault Bytes :=
  Hecuba.tessellate b.dims b.block b.elemSize array b.input output (output + b.bytes) region

def copyBlockToArray (array : Bytes) (region : Bytes) (input : Nat) : Except Fault Bytes :=
  Hecuba.copyBlockToArray b.dims b.block b.elemSize array b.input region input (input + b.bytes)

def rows (pos : Nat) : List RowCopy := boxRows b.elemSize b.dims b.block b.input pos

/-- The region at `pos` holds the elements that the array has in the box. -/
def Holds (array region : Bytes) (pos : Nat) : Prop :=
  ∀ p, InGrid b.block p → ∀ t < b.elemSize, region[pos + b.inBlock p t]? = array[b.inArray p t]?

/-- What `tessellate` does to the region at `output`. -/
structure Extracts (array region : Bytes) (output : Nat) (out : Bytes) : Prop where
  done : b.tessellate array output region = .ok out
  length_eq : out.length = region.length
  holds : b.Holds array out output
  frame : ∀ a, a < output ∨ output + b.bytes ≤ a → out[a]? = region[a]?

/-- What `copy_block_to_array` does to the array. -/
structure Inserts (array region : Bytes) (input : Nat) (array' : Bytes) : Prop where
  done : b.copyBlockToArray array region input = .ok array'
  length_eq : array'.length = array.length
  holds : b.Holds array' region input
  frame : ∀ a, (∀ p, InGrid b.block p → ∀ t < b.elemSize, b.inArray p t ≠ a) → array'[a]? = array[a]?

/-- The copies made are those of the rows, and a row is read inside the box. -/
structure ReadsInside (array region : Bytes) (output : Nat) : Prop where
  rows_only : b.tessellate array output region = (b.rows output).foldlM (fun region row =>
    copyRow .toBlock "Out of memory access copying an array block" array (output + b.bytes)
      row.arr row.blk row.n region) region
  inside : ∀ row ∈ b.rows output, ∀ j < row.n, ∃ p, InGrid b.block p ∧ ∃ t < b.elemSize, row.arr + j = b.inArray p t

theorem block_length : b.block.length = b.dims.length := List.Forall₂.length_eq b.boxIn

theorem inArray_eq {p : List Nat} (hp : InGrid b.block p) (t : Nat) :
    b.inArray p t = b.input + (b.elemSize * rowMajor b.dims p + t) := by
  rw [inArray, input, rowMajor_add b.start_length (hp.length_eq.trans b.block_length)]
  ring

theorem inArray_le {p : List Nat} (hp : InGrid b.block p) : b.inArray p 0 + b.elemSize ≤ b.elemSize * b.dims.prod :=
  cell_byte_le (inGrid_shifted (b.start_length.trans b.block_length.symm) b.fits hp)

theorem inBlock_le {p : List Nat} (hp : InGrid b.block p) : b.inBlock p 0 + b.elemSize ≤ b.bytes :=
  cell_byte_le hp

theorem exists_inBlock {j : Nat} (hj : j < b.bytes) : ∃ p, InGrid b.block p ∧ ∃ t < b.elemSize, b.inBlock p t = j := by
  have hdiv : j / b.elemSize < b.block.prod := Nat.div_lt_of_lt_mul hj
  refine ⟨unRowMajor b.block (j / b.elemSize), unRowMajor_inGrid hdiv, j % b.elemSize,
    Nat.mod_lt _ b.elemSize_pos, ?_⟩
  rw [inBlock, rowMajor_unRowMajor hdiv]
  exact Nat.div_add_mod j b.elemSize

section

variable {b} {array region : Bytes} {pos : Nat}

theorem exists_extracts (harray : array.length = b.elemSize * b.dims.prod) (hregion : pos + b.bytes ≤ region.length) :
    ∃ out, b.Extracts array region pos out := by
  have hfit : ∀ p, InGrid b.block p →
      Direction.toBlock.dst (b.input + b.elemSize * rowMajor b.dims p) (pos + b.elemSize * rowMajor b.block p) +
          b.elemSize ≤ region.length ∧
        Direction.toBlock.src (b.input + b.elemSize * rowMajor b.dims p) (pos + b.elemSize * rowMajor b.block p) +
          b.elemSize ≤ array.length := by
    intro p hp
    have hblock := b.inBlock_le hp
    have hcell := b.inArray_le hp
    rw [b.inArray_eq hp] at hcell
    simp only [inBlock, Direction.dst, Direction.src] at hblock ⊢
    omega
  obtain ⟨out, hok, ht⟩ := copyBox_transferred .toBlock "Out of memory access copying an array block" b.elemSize_pos
    b.block b.input pos region b.rank_pos b.boxIn b.addressable b.rowBytes_lt (le_refl (pos + b.bytes)) hfit
  refine ⟨out, hok, ht.length_eq, fun p hp t htlt => ?_, fun a ha => ht.frame a ?_⟩
  · rw [b.inArray_eq hp]
    exact ht.moved (p, t) ⟨hp, htlt⟩
  · rintro ⟨p, t⟩ ⟨hp, htlt⟩ heq
    have hblock := b.inBlock_le hp
    simp only [inBlock, Direction.dst] at hblock heq htlt
    omega

theorem exists_inserts (harray : array.length = b.elemSize * b.dims.prod) (hregion : pos + b.bytes ≤ region.length) :
    ∃ array', b.Inserts array region pos array' := by
  have hfit : ∀ p, InGrid b.block p →
      Direction.toArray.dst (b.input + b.elemSize * rowMajor b.dims p) (pos + b.elemSize * rowMajor b.block p) +
          b.elemSize ≤ array.length ∧
        Direction.toArray.src (b.input + b.elemSize * rowMajor b.dims p) (pos + b.elemSize * rowMajor b.block p) +
          b.elemSize ≤ region.length := by
    intro p hp
    have hblock := b.inBlock_le hp
    have hcell := b.inArray_le hp
    rw [b.inArray_eq hp] at hcell
    simp only [inBlock, Direction.dst, Direction.src] at hblock ⊢
    omega
  obtain ⟨array', hok, ht⟩ := copyBox_transferred .toArray "Out of memory access copying an block into an array"
    b.elemSize_pos b.block b.input pos array b.rank_pos b.boxIn b.addressable b.rowBytes_lt (le_refl (pos + b.bytes))
    hfit
  refine ⟨array', hok, ht.length_eq, fun p hp t htlt => ?_, fun a ha => ht.frame a ?_⟩
  · rw [b.inArray_eq hp]
    exact (ht.moved (p, t) ⟨hp, htlt⟩).symm
  · rintro ⟨p, t⟩ ⟨hp, htlt⟩ heq
    refine ha p hp t htlt ?_
    rw [b.inArray_eq hp]
    exact heq

theorem readsInside (array region : Bytes) (pos : Nat) : b.ReadsInside array region pos where
  rows_only := copyBox_eq_rows _ _ _ _ _ _ b.rank_pos b.block_length
  inside row hrow j hj := by
    obtain ⟨p, hp, t, ht, harr, -⟩ :=
      boxRows_inside b.elemSize_pos b.block b.input pos b.boxIn b.addressable b.rowBytes_lt row hrow j hj
    exact ⟨p, hp, t, ht, by rw [harr, b.inArray_eq hp]⟩

/-- Regions that hold the same elements are the same from `pos` on for the bytes of the box. -/
theorem Holds.same {region' : Bytes} (h : b.Holds array region pos) (h' : b.Holds array region' pos) {a : Nat}
    (ha : pos ≤ a ∧ a < pos + b.bytes) : region'[a]? = region[a]? := by
  obtain ⟨p, hp, t, ht, heq⟩ := b.exists_inBlock (show a - pos < b.bytes by omega)
  have hhere := (h' p hp t ht).trans (h p hp t ht).symm
  rwa [heq, show pos + (a - pos) = a by omega] at hhere

/-- A block put into the array and cut out again is the same block. -/
theorem Inserts.extracted {array' : Bytes} (h : b.Inserts array region pos array')
    (harray : array.length = b.elemSize * b.dims.prod) (hregion : pos + b.bytes ≤ region.length) :
    b.tessellate array' pos region = .ok region := by
  obtain ⟨out, hout⟩ := exists_extracts (h.length_eq.trans harray) hregion
  rw [hout.done]
  refine congrArg Except.ok (List.ext_getElem? fun a => ?_)
  by_cases ha : pos ≤ a ∧ a < pos + b.bytes
  · exact h.holds.same hout.holds ha
  · exact hout.frame a (by omega)

end

/-- A box is cut out whole, from its own elements only, and put back where it was. -/
theorem box_extracted (array region : Bytes) (output : Nat) (harray : array.length = b.elemSize * b.dims.prod)
    (hregion : output + b.bytes ≤ region.length) :
    ∃ out, b.Extracts array region output out ∧ b.ReadsInside array region output ∧
      (∀ other : Bytes, other.length = array.length → ∃ restored, b.Inserts other out output restored ∧
        ∀ p, InGrid b.block p → ∀ t < b.elemSize, restored[b.inArray p t]? = array[b.inArray p t]?) ∧
      ∃ array', b.Inserts array region output array' ∧ b.tessellate array' output region = .ok region := by
  obtain ⟨out, hout⟩ := exists_extracts harray hregion
  obtain ⟨array', hinserts⟩ := exists_inserts harray hregion
  refine ⟨out, hout, readsInside array region output, fun other hother => ?_, array', hinserts,
    hinserts.extracted harray hregion⟩
  have hfits : output + b.bytes ≤ out.length := hout.length_eq ▸ hregion
  obtain ⟨restored, hrestored⟩ := exists_inserts (hother.trans harray) hfits
  exact ⟨restored, hrestored, fun p hp t ht => (hrestored.holds p hp t ht).symm.trans (hout.holds p hp t ht)⟩

end ArrayBox

/-- The lower right corner of a table of two rows and three columns. -/
def cornerBox : ArrayBox where
  elemSize := 2
  dims := [2, 3]
  block := [1, 2]
  start := [1, 1]
  elemSize_pos := by decide
  rank_pos := by decide
  boxIn := by simp [BoxIn]
  start_length := rfl
  fits := by simp
  addressable := by decide
  rowBytes_lt := by decide

theorem box_extracted_corner :
    ∃ out, cornerBox.Extracts (List.replicate 12 1) (List.replicate 4 0) 0 out ∧
      cornerBox.ReadsInside (List.replicate 12 1) (List.replicate 4 0) 0 ∧
      (∀ other : Bytes, other.length = (List.replicate 12 (1 : UInt8)).length →
        ∃ restored, cornerBox.Inserts other out 0 restored ∧ ∀ p, InGrid cornerBox.block p →
          ∀ t < cornerBox.elemSize,
            restored[cornerBox.inArray p t]? = (List.replicate 12 (1 : UInt8))[cornerBox.inArray p t]?) ∧
      ∃ array', cornerBox.Inserts (List.replicate 12 1) (List.replicate 4 0) 0 array' ∧
        cornerBox.tessellate array' 0 (List.replicate 4 0) = .ok (List.replicate 4 0) :=
  cornerBox.box_extracted _ _ 0 (by decide) (by decide)

end Hecuba
