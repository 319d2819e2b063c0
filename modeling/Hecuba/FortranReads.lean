import Hecuba.FortranBlocks
import Hecuba.CopyResult

/-! Which elements a block of an array in Fortran order is copied from. Its offset counts
the strides of the array, but the copy takes the last two dimensions for the first ones. -/

namespace Hecuba

/-- The elements of block `cc`. -/
def InBlock (dims : List Nat) (r : Nat) (cc X : List Nat) : Prop :=
  X.length = dims.length ∧ ∀ i < dims.length, cc.getD i 0 * r ≤ X.getD i 0 ∧
    X.getD i 0 < min ((cc.getD i 0 + 1) * r) (dims.getD i 0)

/-- Every block is read from inside the array, and from its own elements. `source` tells
where in the array each byte of the block comes from. -/
def BlocksInside (metas : ArrayMetadata) (r : Nat) (hr : 0 < r) : Prop :=
  ∀ n < (blocksDim metas r).prod, ∃ (size : Nat) (source : Nat → Nat),
    (∀ (content : Bytes) (junk : Nat → Nat → UInt8),
      content.length = metas.elemSize * metas.dims.prod →
      ∃ part chunk, (FortranOrderGenerator.mk metas (some content) r hr junk n 0).nextPartition = .ok part ∧
        part.data = some chunk ∧ chunk.length = 8 + size ∧
        ∀ p < size, chunk[8 + p]? = content[source p]?) ∧
    ∀ a, (∃ p < size, source p = a) ↔ ∃ X t, InBlock metas.dims r (getIndexes n (blocksDim metas r)) X ∧
      t < metas.elemSize ∧ a = metas.elemSize * colMajor metas.dims X + t

section block

variable {metas : ArrayMetadata} {r : Nat} {cc : List Nat}

theorem inBlock_iff (h : BlockIn metas.dims r cc) {X : List Nat} :
    InBlock metas.dims r cc X ↔ ∃ x, InGrid (blockShape metas.dims r cc) x ∧
      X = List.zipWith (· + ·) (blockStart r cc) x := by
  have hl : cc.length = metas.dims.length := h.length_eq
  have hls := blockShape_length h
  have hstart {i : Nat} (hi : i < metas.dims.length) : (blockStart r cc).getD i 0 = cc.getD i 0 * r := by
    rw [blockStart, List.getD_eq_getElem _ _ (by rw [List.length_map]; omega), List.getElem_map,
      List.getD_eq_getElem _ _ (by omega)]
  have hlb : (blockStart r cc).length = metas.dims.length := by rw [blockStart, List.length_map, hl]
  constructor
  · rintro ⟨hX, hall⟩
    refine ⟨List.zipWith (· - ·) X (blockStart r cc), ?_, ?_⟩
    · rw [inGrid_iff, hls]
      refine ⟨by rw [List.length_zipWith]; omega, fun i hi => ?_⟩
      have hh := hall i hi
      rw [blockShape_getD h hi, getD_zipWith (by omega) (by omega), hstart hi]
      rw [Nat.add_mul, Nat.one_mul] at hh
      omega
    · refine List.ext_getElem (by simp only [List.length_zipWith]; omega) fun i hi _ => ?_
      have hh := (hall i (by omega)).1
      rw [← hstart (by omega), List.getD_eq_getElem _ _ (by omega), List.getD_eq_getElem _ _ hi] at hh
      rw [List.getElem_zipWith, List.getElem_zipWith]
      omega
  · rintro ⟨x, hx, rfl⟩
    have hxl := hx.length_eq
    refine ⟨by rw [List.length_zipWith]; omega, fun i hi => ?_⟩
    have hh := (inGrid_iff.mp hx).2 i (by omega)
    have hc := h.getD hi
    rw [blockShape_getD h hi] at hh
    rw [getD_zipWith (by omega) (by omega), hstart hi, Nat.add_mul, Nat.one_mul]
    omega

theorem colMajor_box (h : BlockIn metas.dims r cc) {m : Nat} :
    InBox metas.dims (blockShape metas.dims r cc) m ↔
      ∃ x, InGrid (blockShape metas.dims r cc) x ∧ colMajor metas.dims x = m := by
  have hh := inBox_reverse_iff (n := m) (List.rel_reverse (blockShape_le h))
  rw [List.reverse_reverse, List.reverse_reverse] at hh
  rw [hh]
  constructor
  · rintro ⟨x, hx, rfl⟩
    have hx' := List.rel_reverse hx
    rw [List.reverse_reverse] at hx'
    exact ⟨x.reverse, hx', by rw [colMajor, List.reverse_reverse]⟩
  · rintro ⟨x, hx, rfl⟩
    exact ⟨x.reverse, List.rel_reverse hx, rfl⟩

theorem block_bytes_iff (h : BlockIn metas.dims r cc) {a : Nat} :
    (∃ X t, InBlock metas.dims r cc X ∧ t < metas.elemSize ∧
      a = metas.elemSize * colMajor metas.dims X + t) ↔
    ∃ m t, InBox metas.dims (blockShape metas.dims r cc) m ∧ t < metas.elemSize ∧
      a = metas.elemSize * (colMajor metas.dims (blockStart r cc) + m) + t := by
  have hlb : (blockStart r cc).length = metas.dims.length := by
    rw [blockStart, List.length_map, h.length_eq]
  constructor
  · rintro ⟨X, t, hX, ht, rfl⟩
    obtain ⟨x, hx, rfl⟩ := (inBlock_iff h).mp hX
    have hxl := hx.length_eq.trans (blockShape_length h)
    exact ⟨_, t, (colMajor_box h).mpr ⟨x, hx, rfl⟩, ht, by rw [colMajor_add hlb hxl]⟩
  · rintro ⟨m, t, hm, ht, rfl⟩
    obtain ⟨x, hx, rfl⟩ := (colMajor_box h).mp hm
    have hxl := hx.length_eq.trans (blockShape_length h)
    exact ⟨_, t, (inBlock_iff h).mpr ⟨x, hx, rfl⟩, ht, by rw [colMajor_add hlb hxl]⟩

theorem exchangeLast_forall₂ {R : Nat → Nat → Prop} {a b : List Nat} (h : List.Forall₂ R a b) :
    List.Forall₂ R (exchangeLast a) (exchangeLast b) := by
  have hh := List.rel_reverse (copyOrder_reorders.forall₂ h)
  rwa [copyOrder, copyOrder, List.reverse_reverse, List.reverse_reverse] at hh

theorem copyOrder_box (h : BlockIn metas.dims r cc) {m : Nat} :
    InBox (copyOrder metas.dims) (copyOrder (blockShape metas.dims r cc)) m ↔
      ∃ x, InGrid (exchangeLast (blockShape metas.dims r cc)) x ∧
        rowMajor (exchangeLast metas.dims) x = m :=
  inBox_reverse_iff (exchangeLast_forall₂ (blockShape_le h))

end block

/-- The byte of the array that byte `p` of a block is copied from. -/
def copySource (metas : ArrayMetadata) (r : Nat) (cc : List Nat) (p : Nat) : Nat :=
  metas.elemSize * colMajor metas.dims (blockStart r cc) +
    (metas.elemSize * rowMajor (exchangeLast metas.dims)
      (unRowMajor (exchangeLast (blockShape metas.dims r cc)) (p / metas.elemSize)) + p % metas.elemSize)

section chunk

variable {metas : ArrayMetadata} {r : Nat} {cc : List Nat} {g : FortranOrderGenerator} {content : Bytes}

theorem copySource_iff (he : 0 < metas.elemSize) (h : BlockIn metas.dims r cc) {a : Nat} :
    (∃ p < metas.elemSize * (blockShape metas.dims r cc).prod, copySource metas r cc p = a) ↔
      ∃ m t, InBox (copyOrder metas.dims) (copyOrder (blockShape metas.dims r cc)) m ∧
        t < metas.elemSize ∧ a = metas.elemSize * (colMajor metas.dims (blockStart r cc) + m) + t := by
  have hprod : (exchangeLast (blockShape metas.dims r cc)).prod = (blockShape metas.dims r cc).prod :=
    (exchangeLast_perm _).prod_eq
  constructor
  · rintro ⟨p, hp, rfl⟩
    have hcell : p / metas.elemSize < (exchangeLast (blockShape metas.dims r cc)).prod := by
      rw [hprod]
      exact Nat.div_lt_of_lt_mul hp
    exact ⟨_, p % metas.elemSize, (copyOrder_box h).mpr ⟨_, unRowMajor_inGrid hcell, rfl⟩,
      Nat.mod_lt _ he, by rw [copySource, Nat.mul_add, Nat.add_assoc]⟩
  · rintro ⟨m, t, hm, ht, rfl⟩
    obtain ⟨x, hx, rfl⟩ := (copyOrder_box h).mp hm
    refine ⟨metas.elemSize * rowMajor (exchangeLast (blockShape metas.dims r cc)) x + t, ?_, ?_⟩
    · rw [← hprod]
      exact byte_lt (rowMajor_lt hx) ht
    · rw [copySource, Nat.mul_add_div he, Nat.div_eq_of_lt ht, Nat.add_zero, unRowMajor_rowMajor hx,
        Nat.mul_add_mod, Nat.mod_eq_of_lt ht, Nat.mul_add, Nat.add_assoc]

/-- The chunk before the copy: the size header, and what `malloc` has left. -/
theorem header_chunk (g : FortranOrderGenerator) (size : Nat) :
    ∃ blank, memcpy (g.malloc (size + 8)) 0 (toLittleEndian 8 size) 0 8 = .ok blank ∧
      blank.length = size + 8 ∧
      ∀ p < size, blank[8 + p]? = some (g.junk g.blockCounter (8 + p)) := by
  have hml : (g.malloc (size + 8)).length = size + 8 := by simp [FortranOrderGenerator.malloc]
  have hll : (toLittleEndian 8 size).length = 8 := toLittleEndian_length 8 size
  refine ⟨overwrite (g.malloc (size + 8)) 0 (toLittleEndian 8 size) 0 8, ?_, ?_, fun p hp => ?_⟩
  · rw [memcpy, if_pos ⟨by omega, by omega⟩]
  · rw [overwrite_length (by omega) (by omega), hml]
  · rw [overwrite_getElem? (by omega) (by omega), if_neg (by omega), FortranOrderGenerator.malloc,
      List.getElem?_map, List.getElem?_range (by omega)]
    rfl

/-- The facts about block `cc` that the copy asks for. -/
theorem copy_shape (hr : 0 < r) (hne : metas.dims ≠ [])
    (hfits : metas.elemSize * metas.dims.prod < 2 ^ 63) (h : BlockIn metas.dims r cc) :
    exchangeLast metas.dims ≠ [] ∧
      BoxIn (exchangeLast metas.dims) (exchangeLast (blockShape metas.dims r cc)) ∧
      metas.elemSize * (exchangeLast metas.dims).prod < 2 ^ 64 := by
  refine ⟨fun hnil => hne ?_, exchangeLast_forall₂ (blockShape_boxIn hr h), ?_⟩
  · have hlen := (exchangeLast_perm metas.dims).length_eq
    rw [hnil] at hlen
    exact List.length_eq_zero_iff.mp hlen.symm
  · rw [(exchangeLast_perm _).prod_eq]
    omega

theorem makeChunk_eq (hg : g.metas = metas) (size : Nat) (shape : List Nat) (input : Nat) :
    ∃ blank, blank.length = size + 8 ∧
      (∀ p < size, blank[8 + p]? = some (g.junk g.blockCounter (8 + p))) ∧
      g.makeChunk content size shape input = copyBox .toBlock "Out of memory access copying an array block"
        metas.elemSize content (8 + size) (exchangeLast metas.dims) shape input 8 blank := by
  obtain ⟨blank, hhead, hlen, hjunk⟩ := header_chunk g size
  refine ⟨blank, hlen, hjunk, ?_⟩
  rw [FortranOrderGenerator.makeChunk, hhead, hg]
  rfl

theorem makeChunk_inside (hg : g.metas = metas) (hr : 0 < r) (hne : metas.dims ≠ [])
    (he : 0 < metas.elemSize) (hfits : metas.elemSize * metas.dims.prod < 2 ^ 63)
    (hlen : content.length = metas.elemSize * metas.dims.prod) (h : BlockIn metas.dims r cc)
    (hrow : (exchangeLast (blockShape metas.dims r cc)).getLastD 0 * metas.elemSize < 2 ^ 32)
    {size : Nat} {chunk : Bytes}
    (hok : g.makeChunk content size (exchangeLast (blockShape metas.dims r cc))
      (metas.elemSize * colMajor metas.dims (blockStart r cc)) = .ok chunk) {m : Nat}
    (hm : InBox (copyOrder metas.dims) (copyOrder (blockShape metas.dims r cc)) m) :
    colMajor metas.dims (blockStart r cc) + m < metas.dims.prod := by
  obtain ⟨hne', hbox, hmem⟩ := copy_shape hr hne hfits h
  obtain ⟨blank, -, -, heq⟩ := makeChunk_eq hg size (exchangeLast (blockShape metas.dims r cc))
    (metas.elemSize * colMajor metas.dims (blockStart r cc))
  rw [heq] at hok
  obtain ⟨x, hx, rfl⟩ := (copyOrder_box h).mp hm
  have hle := copyBox_fits _ _ _ _ _ hne' hbox hmem hrow hok hx
  rw [hlen, ← Nat.mul_add, ← Nat.mul_succ] at hle
  exact Nat.le_of_mul_le_mul_left hle he

theorem makeChunk_copied (hg : g.metas = metas) (hr : 0 < r) (hne : metas.dims ≠ [])
    (he : 0 < metas.elemSize) (hfits : metas.elemSize * metas.dims.prod < 2 ^ 63)
    (hlen : content.length = metas.elemSize * metas.dims.prod) (h : BlockIn metas.dims r cc)
    (hrow : (exchangeLast (blockShape metas.dims r cc)).getLastD 0 * metas.elemSize < 2 ^ 32)
    (hin : ∀ m, InBox (copyOrder metas.dims) (copyOrder (blockShape metas.dims r cc)) m →
      colMajor metas.dims (blockStart r cc) + m < metas.dims.prod) :
    ∃ chunk, g.makeChunk content (metas.elemSize * (blockShape metas.dims r cc).prod)
        (exchangeLast (blockShape metas.dims r cc))
        (metas.elemSize * colMajor metas.dims (blockStart r cc)) = .ok chunk ∧
      chunk.length = 8 + metas.elemSize * (blockShape metas.dims r cc).prod ∧
      ∀ p < metas.elemSize * (blockShape metas.dims r cc).prod,
        chunk[8 + p]? = content[copySource metas r cc p]? := by
  obtain ⟨hne', hbox, hmem⟩ := copy_shape hr hne hfits h
  have hprod : (exchangeLast (blockShape metas.dims r cc)).prod = (blockShape metas.dims r cc).prod :=
    (exchangeLast_perm _).prod_eq
  obtain ⟨blank, hbl, -, heq⟩ := @makeChunk_eq metas g content hg
    (metas.elemSize * (blockShape metas.dims r cc).prod) (exchangeLast (blockShape metas.dims r cc))
    (metas.elemSize * colMajor metas.dims (blockStart r cc))
  have hfit : ∀ x, InGrid (exchangeLast (blockShape metas.dims r cc)) x →
      Direction.toBlock.dst (metas.elemSize * colMajor metas.dims (blockStart r cc) +
        metas.elemSize * rowMajor (exchangeLast metas.dims) x)
        (8 + metas.elemSize * rowMajor (exchangeLast (blockShape metas.dims r cc)) x) +
        metas.elemSize ≤ blank.length ∧
      Direction.toBlock.src (metas.elemSize * colMajor metas.dims (blockStart r cc) +
        metas.elemSize * rowMajor (exchangeLast metas.dims) x)
        (8 + metas.elemSize * rowMajor (exchangeLast (blockShape metas.dims r cc)) x) +
        metas.elemSize ≤ content.length := by
    intro x hx
    have h1 := cell_byte_le (e := metas.elemSize) hx
    have h2 := Nat.mul_le_mul_left metas.elemSize (hin _ ((copyOrder_box h).mpr ⟨x, hx, rfl⟩))
    rw [hprod] at h1
    rw [Nat.mul_succ, Nat.mul_add] at h2
    exact ⟨by simp only [Direction.dst]; omega, by simp only [Direction.src]; omega⟩
  obtain ⟨chunk, hok, ht⟩ := copyBox_transferred .toBlock
    "Out of memory access copying an array block" he (exchangeLast (blockShape metas.dims r cc))
    (metas.elemSize * colMajor metas.dims (blockStart r cc)) 8 blank hne' hbox hmem hrow
    (show 8 + metas.elemSize * (exchangeLast (blockShape metas.dims r cc)).prod ≤
      8 + metas.elemSize * (blockShape metas.dims r cc).prod by rw [hprod]) hfit
  refine ⟨chunk, heq.trans hok, by rw [ht.length_eq, hbl, Nat.add_comm], fun p hp => ?_⟩
  have hcell : p / metas.elemSize < (exchangeLast (blockShape metas.dims r cc)).prod := by
    rw [hprod]
    exact Nat.div_lt_of_lt_mul hp
  have hmoved := ht.moved (unRowMajor (exchangeLast (blockShape metas.dims r cc)) (p / metas.elemSize),
    p % metas.elemSize) ⟨unRowMajor_inGrid hcell, Nat.mod_lt _ he⟩
  simp only [Direction.dst, Direction.src, rowMajor_unRowMajor hcell, Nat.div_add_mod] at hmoved
  exact hmoved

/-- Where the bytes of a row do not fit in 32 bits, a byte of the block is not written. -/
theorem makeChunk_unwritten (hg : g.metas = metas) (hr : 0 < r) (hne : metas.dims ≠ [])
    (hfits : metas.elemSize * metas.dims.prod < 2 ^ 63)
    (h : BlockIn metas.dims r cc)
    (hrow : 2 ^ 32 ≤ (exchangeLast (blockShape metas.dims r cc)).getLastD 0 * metas.elemSize)
    {input : Nat} {chunk : Bytes}
    (hok : g.makeChunk content (metas.elemSize * (blockShape metas.dims r cc).prod)
      (exchangeLast (blockShape metas.dims r cc)) input = .ok chunk) :
    ∃ p, chunk[8 + p]? = some (g.junk g.blockCounter (8 + p)) := by
  obtain ⟨hne', hbox, hmem⟩ := copy_shape hr hne hfits h
  obtain ⟨blank, -, hjunk, heq⟩ := @makeChunk_eq metas g content hg
    (metas.elemSize * (blockShape metas.dims r cc).prod) (exchangeLast (blockShape metas.dims r cc)) input
  rw [heq] at hok
  have hB : exchangeLast (blockShape metas.dims r cc) ≠ [] := by
    intro hnil
    rw [hnil] at hbox
    exact hne' (List.forall₂_nil_left_iff.mp hbox)
  set n := u32 ((exchangeLast (blockShape metas.dims r cc)).getLastD 0 * metas.elemSize) with hn
  have hlt : n < 2 ^ 32 := Nat.mod_lt _ (by decide)
  have hpitch : n < metas.elemSize * (exchangeLast (blockShape metas.dims r cc)).getLastD 0 := by
    rw [Nat.mul_comm]
    omega
  have hle : metas.elemSize * (exchangeLast (blockShape metas.dims r cc)).getLastD 0 ≤
      metas.elemSize * (blockShape metas.dims r cc).prod := by
    rw [← (exchangeLast_perm (blockShape metas.dims r cc)).prod_eq]
    exact Nat.mul_le_mul_left _ (Nat.le_of_dvd hbox.prod_pos (getLastD_dvd_prod hB))
  refine ⟨n, ?_⟩
  rw [copyBox_frame _ _ _ _ _ hne' hbox hmem hok (.inr (by
    rw [Nat.add_sub_cancel_left, Nat.mod_eq_of_lt hpitch]))]
  exact hjunk n (by omega)

end chunk

section inside

variable {metas : ArrayMetadata} {r : Nat} {cc : List Nat}

theorem forall₂_getLastD {R : Nat → Nat → Prop} {a b : List Nat} (h : List.Forall₂ R a b) (hne : b ≠ []) :
    R (a.getLastD 0) (b.getLastD 0) := by
  induction h with
  | nil => exact absurd rfl hne
  | cons hx hrest ih =>
    cases hrest with
    | nil => exact hx
    | cons => simpa only [List.getLastD_cons] using ih (List.cons_ne_nil _ _)

theorem blockShape_le_row {dims : List Nat} (h : BlockIn dims r cc) :
    List.Forall₂ (fun b d => b ≤ min r d) (blockShape dims r cc) dims := by
  induction h with
  | nil => exact List.Forall₂.nil
  | cons _ _ ih =>
    rw [blockShape_cons]
    exact List.Forall₂.cons (by omega) ih

theorem copied_row_le (hne : metas.dims ≠ []) (h : BlockIn metas.dims r cc) :
    (exchangeLast (blockShape metas.dims r cc)).getLastD 0 ≤ min r ((exchangeLast metas.dims).getLastD 0) := by
  refine forall₂_getLastD (exchangeLast_forall₂ (blockShape_le_row h)) fun hnil => hne ?_
  have hlen := (exchangeLast_perm metas.dims).length_eq
  rw [hnil] at hlen
  exact List.length_eq_zero_iff.mp hlen.symm

theorem first_row_eq (hne : metas.dims ≠ []) :
    (exchangeLast (blockShape metas.dims r (List.replicate metas.dims.length 0))).getLastD 0 =
      min r ((exchangeLast metas.dims).getLastD 0) := by
  rw [blockShape_first, exchangeLast_map]
  obtain ⟨l, d, hl⟩ : ∃ l d, exchangeLast metas.dims = l ++ [d] :=
    ⟨_, _, (List.dropLast_append_getLast fun hnil => hne (by
      have hlen := (exchangeLast_perm metas.dims).length_eq
      rw [hnil] at hlen
      exact List.length_eq_zero_iff.mp hlen.symm)).symm⟩
  rw [hl, List.map_append, List.map_singleton, List.getLastD_concat, List.getLastD_concat]

theorem nextPartition_ok {g : FortranOrderGenerator} {content : Bytes} (hg : g.metas = metas)
    (hgr : g.rowElements = r) (hgd : g.data = some content) (hne : metas.dims ≠ [])
    (he : 0 < metas.elemSize) (hfits : metas.elemSize * metas.dims.prod < 2 ^ 63)
    (h : BlockIn metas.dims r cc) (hn : g.blockCounter = rowMajor (blocksDim metas r) cc)
    {part : Partition} {chunk : Bytes} (hok : g.nextPartition = .ok part) (hd : part.data = some chunk) :
    g.makeChunk content (metas.elemSize * (blockShape metas.dims r cc).prod)
      (exchangeLast (blockShape metas.dims r cc))
      (metas.elemSize * colMajor metas.dims (blockStart r cc)) = .ok chunk := by
  have hr : 0 < r := hgr ▸ g.rowElements_pos
  have hgrid := (inGrid_blocksDim_iff hr).mpr h
  have hcc : unRowMajor (blocksDim metas r) g.blockCounter = cc := by rw [hn, unRowMajor_rowMajor hgrid]
  rw [FortranOrderGenerator.nextPartition_eq hg hgr hgd hne he hfits (hn ▸ rowMajor_lt hgrid) hcc] at hok
  cases hm : g.makeChunk content (metas.elemSize * (blockShape metas.dims r cc).prod)
      (exchangeLast (blockShape metas.dims r cc))
      (metas.elemSize * colMajor metas.dims (blockStart r cc)) with
  | error e =>
    rw [hm] at hok
    cases hok
  | ok made =>
    rw [hm] at hok
    cases hok
    cases hd
    rfl

theorem blocksInside_of_same (hr : 0 < r) (hne : metas.dims ≠ []) (he : 0 < metas.elemSize)
    (hfits : metas.elemSize * metas.dims.prod < 2 ^ 63)
    (hrow : min r ((exchangeLast metas.dims).getLastD 0) * metas.elemSize < 2 ^ 32)
    (hsame : ∀ cc, BlockIn metas.dims r cc → ∀ m,
      InBox (copyOrder metas.dims) (copyOrder (blockShape metas.dims r cc)) m ↔
        InBox metas.dims (blockShape metas.dims r cc) m) : BlocksInside metas r hr := by
  intro n hn
  have hbn : blocksDim metas r ≠ [] := by simpa [blocksDim] using hne
  have hle := @blocksDim_prod_le_dims metas r hr
  have hpe : metas.dims.prod ≤ metas.elemSize * metas.dims.prod := Nat.le_mul_of_pos_left _ he
  rw [getIndexes_eq hbn (blocksDim_lt hr) (by omega) hn]
  have h := (inGrid_blocksDim_iff hr).mp (unRowMajor_inGrid hn)
  generalize hcc : unRowMajor (blocksDim metas r) n = cc at h
  refine ⟨metas.elemSize * (blockShape metas.dims r cc).prod, copySource metas r cc,
    fun content junk hlen => ?_, fun a => ?_⟩
  · obtain ⟨chunk, hok, hl, hmoved⟩ := @makeChunk_copied metas r cc
      ⟨metas, some content, r, hr, junk, n, 0⟩ content rfl hr hne he hfits hlen h
      (Nat.lt_of_le_of_lt (Nat.mul_le_mul_right _ (copied_row_le hne h)) hrow) fun m hm => by
        obtain ⟨x, hx, rfl⟩ := (colMajor_box h).mp ((hsame cc h m).mp hm)
        rw [← colMajor_add h.start.length_eq (hx.length_eq.trans (blockShape_length h))]
        exact colMajor_lt (block_cell_inGrid h hx)
    refine ⟨⟨FortranOrderGenerator.getClusterID cc,
      FortranOrderGenerator.getBlockID (blocksDim metas r) cc, some chunk⟩, chunk, ?_, rfl, hl, hmoved⟩
    rw [FortranOrderGenerator.nextPartition_eq rfl rfl rfl hne he hfits hn hcc, hok]
    rfl
  · rw [copySource_iff he h, block_bytes_iff h]
    simp only [hsame cc h]

/-- The first block of an array whose rows do not fit in 32 bits keeps a byte of what was
in memory before. -/
theorem row_of_blocksInside (hr : 0 < r) (hne : metas.dims ≠ []) (hpos : ∀ d ∈ metas.dims, 1 ≤ d)
    (he : 0 < metas.elemSize) (hfits : metas.elemSize * metas.dims.prod < 2 ^ 63)
    (hin : BlocksInside metas r hr) :
    min r ((exchangeLast metas.dims).getLastD 0) * metas.elemSize < 2 ^ 32 := by
  by_contra hrow
  have h : BlockIn metas.dims r (List.replicate metas.dims.length 0) := by
    have hd : 0 * r < metas.dims.getD 0 0 := by
      rw [Nat.zero_mul]
      exact getD_pos hpos (List.length_pos_of_ne_nil hne)
    have hh := blockIn_axis (r := r) (i := 0) (c := 0) hpos hd
    rwa [List.set_replicate_self] at hh
  obtain ⟨size, source, hcopy, -⟩ := hin _ (rowMajor_lt ((inGrid_blocksDim_iff hr).mpr h))
  obtain ⟨part, chunk, hok, hd, hl, hmoved⟩ := hcopy
    (List.replicate (metas.elemSize * metas.dims.prod) 0) (fun _ _ => 1) List.length_replicate
  have hmade := nextPartition_ok rfl rfl rfl hne he hfits h rfl hok hd
  obtain ⟨p, hp⟩ := @makeChunk_unwritten metas r _ _ _ rfl hr hne hfits h
    (by rw [first_row_eq hne]; omega) _ _ hmade
  have hps : 8 + p < chunk.length := (List.getElem?_eq_some_iff.mp hp).1
  rw [hmoved p (by omega), List.getElem?_replicate] at hp
  split at hp
  · exact absurd (Option.some.inj hp) (by decide : (0 : UInt8) ≠ 1)
  · cases hp

theorem copySource_lt (h : BlockIn metas.dims r cc) (he : 0 < metas.elemSize)
    (hin : ∀ m, InBox (copyOrder metas.dims) (copyOrder (blockShape metas.dims r cc)) m →
      colMajor metas.dims (blockStart r cc) + m < metas.dims.prod) {p : Nat}
    (hp : p < metas.elemSize * (blockShape metas.dims r cc).prod) :
    copySource metas r cc p < metas.elemSize * metas.dims.prod := by
  obtain ⟨m, t, hm, ht, heq⟩ := (copySource_iff he h).mp ⟨p, hp, rfl⟩
  rw [heq]
  exact byte_lt (hin m hm) ht

/-- Contents that differ in one byte tell where a byte comes from. -/
theorem source_eq {N a b : Nat} (ha : a < N)
    (h : ∀ content : Bytes, content.length = N → content[b]? = content[a]?) : b = a := by
  by_contra hne
  have hh := h ((List.replicate N 0).set a 1) (by rw [List.length_set, List.length_replicate])
  rw [List.getElem?_set_self (by rwa [List.length_replicate]),
    List.getElem?_set_ne (Ne.symm hne), List.getElem?_replicate] at hh
  split at hh
  · exact absurd (Option.some.inj hh) (by decide : (0 : UInt8) ≠ 1)
  · cases hh

theorem same_of_blocksInside (hr : 0 < r) (hne : metas.dims ≠ []) (hpos : ∀ d ∈ metas.dims, 1 ≤ d)
    (he : 0 < metas.elemSize) (hfits : metas.elemSize * metas.dims.prod < 2 ^ 63)
    (hin : BlocksInside metas r hr) (h : BlockIn metas.dims r cc) (m : Nat) :
    InBox (copyOrder metas.dims) (copyOrder (blockShape metas.dims r cc)) m ↔
      InBox metas.dims (blockShape metas.dims r cc) m := by
  have hrow := Nat.lt_of_le_of_lt (Nat.mul_le_mul_right metas.elemSize (copied_row_le hne h))
    (row_of_blocksInside hr hne hpos he hfits hin)
  have hgrid := (inGrid_blocksDim_iff hr).mpr h
  have hbn : blocksDim metas r ≠ [] := by simpa [blocksDim] using hne
  have hle := @blocksDim_prod_le_dims metas r hr
  have hpe : metas.dims.prod ≤ metas.elemSize * metas.dims.prod := Nat.le_mul_of_pos_left _ he
  obtain ⟨size, source, hcopy, hset⟩ := hin _ (rowMajor_lt hgrid)
  rw [getIndexes_eq hbn (blocksDim_lt hr) (by omega) (rowMajor_lt hgrid), unRowMajor_rowMajor hgrid] at hset
  have hmake (content : Bytes) (hlen : content.length = metas.elemSize * metas.dims.prod) :
      ∃ chunk, (FortranOrderGenerator.mk metas (some content) r hr (fun _ _ => 0)
          (rowMajor (blocksDim metas r) cc) 0).makeChunk content
          (metas.elemSize * (blockShape metas.dims r cc).prod) (exchangeLast (blockShape metas.dims r cc))
          (metas.elemSize * colMajor metas.dims (blockStart r cc)) = .ok chunk ∧
        chunk.length = 8 + size ∧ ∀ p < size, chunk[8 + p]? = content[source p]? := by
    obtain ⟨part, chunk, hok, hd, hl, hmoved⟩ := hcopy content (fun _ _ => 0) hlen
    exact ⟨chunk, nextPartition_ok rfl rfl rfl hne he hfits h rfl hok hd, hl, hmoved⟩
  -- whatever has been copied was in the array
  have hinside : ∀ m, InBox (copyOrder metas.dims) (copyOrder (blockShape metas.dims r cc)) m →
      colMajor metas.dims (blockStart r cc) + m < metas.dims.prod := by
    intro m hm
    obtain ⟨chunk, hok, -, -⟩ := hmake (List.replicate (metas.elemSize * metas.dims.prod) 0)
      List.length_replicate
    exact makeChunk_inside rfl hr hne he hfits List.length_replicate h hrow hok hm
  have hboth (content : Bytes) (hlen : content.length = metas.elemSize * metas.dims.prod) :
      size = metas.elemSize * (blockShape metas.dims r cc).prod ∧
        ∀ p < size, content[source p]? = content[copySource metas r cc p]? := by
    obtain ⟨chunk, hok, hl, hmoved⟩ := hmake content hlen
    obtain ⟨chunk', hok', hl', hmoved'⟩ := @makeChunk_copied metas r cc
      ⟨metas, some content, r, hr, fun _ _ => 0, rowMajor (blocksDim metas r) cc, 0⟩ _ rfl hr hne he hfits
      hlen h hrow hinside
    obtain rfl : chunk = chunk' := Except.ok.inj (hok.symm.trans hok')
    have hs : size = metas.elemSize * (blockShape metas.dims r cc).prod := by omega
    exact ⟨hs, fun p hp => by rw [← hmoved p hp, hmoved' p (hs ▸ hp)]⟩
  have hsize := (hboth _ (List.length_replicate (a := 0))).1
  have hsource : ∀ p < size, source p = copySource metas r cc p := fun p hp =>
    source_eq (copySource_lt h he hinside (hsize ▸ hp)) fun content hlen => (hboth content hlen).2 p hp
  have hcells : (∃ p < metas.elemSize * (blockShape metas.dims r cc).prod, copySource metas r cc p =
        metas.elemSize * (colMajor metas.dims (blockStart r cc) + m) + 0) ↔
      ∃ p < size, source p = metas.elemSize * (colMajor metas.dims (blockStart r cc) + m) + 0 := by
    rw [hsize] at hsource ⊢
    exact exists_congr fun p => and_congr_right fun hp => by rw [hsource p hp]
  -- an element is in a set of whole elements when its first byte is
  have hfirst {P : Nat → Prop} : (∃ m' t, P m' ∧ t < metas.elemSize ∧
      metas.elemSize * (colMajor metas.dims (blockStart r cc) + m) + 0 =
        metas.elemSize * (colMajor metas.dims (blockStart r cc) + m') + t) ↔ P m := by
    constructor
    · rintro ⟨m', t, hP, ht, heq⟩
      have hq := congrArg (· / metas.elemSize) heq
      simp only [Nat.add_zero, Nat.mul_div_cancel_left _ he, Nat.mul_add_div he, Nat.div_eq_of_lt ht] at hq
      obtain rfl : m = m' := by omega
      exact hP
    · exact fun hP => ⟨m, 0, hP, he, rfl⟩
  rw [hset, block_bytes_iff h, copySource_iff he h, hfirst, hfirst] at hcells
  exact hcells

end inside

/-- Blocks of single elements aside, the blocks of an array are read correctly exactly when
each dimension that is cut keeps its stride under the copy. -/
theorem blocks_inside_iff (metas : ArrayMetadata) (r : Nat) (hr : 0 < r) (hne : metas.dims ≠ [])
    (hpos : ∀ d ∈ metas.dims, 1 ≤ d) (he : 1 ≤ metas.elemSize)
    (hfits : metas.elemSize * metas.dims.prod < 2 ^ 63) :
    BlocksInside metas r hr ↔
      min r ((exchangeLast metas.dims).getLastD 0) * metas.elemSize < 2 ^ 32 ∧
        (r = 1 ∨ StridesKept copyOrder copyPlace metas.dims r) := by
  rw [← copyOrder_reorders.same_blocks_iff hr hpos]
  constructor
  · intro hin
    exact ⟨row_of_blocksInside hr hne hpos he hfits hin, fun cc h m =>
      same_of_blocksInside hr hne hpos he hfits hin h m⟩
  · rintro ⟨hrow, hsame⟩
    exact blocksInside_of_same hr hne he hfits hrow hsame

def cubeMetas : ArrayMetadata := ⟨16, [4, 4, 4], by decide, by decide⟩

theorem blocks_inside_cube : BlocksInside cubeMetas 2 (by decide) :=
  (blocks_inside_iff cubeMetas 2 (by decide) (by decide) (by decide) (by decide) (by decide)).mpr
    ⟨by decide, .inr (by unfold StridesKept; decide)⟩

/-- The two blocks lie along the last dimension, and the second one is copied with the
strides of an array of `2 × 3 × 2`. -/
def slabMetas : ArrayMetadata := ⟨4, [2, 2, 3], by decide, by decide⟩

theorem slab_read_outside : ¬ BlocksInside slabMetas 2 (by decide) := by
  intro h
  obtain ⟨size, source, hcopy, -⟩ := h 1 (by decide)
  obtain ⟨part, chunk, hok, -⟩ := hcopy (List.replicate 48 0) (fun _ _ => 0) (by decide)
  have hfault : (FortranOrderGenerator.mk slabMetas (some (List.replicate 48 0)) 2 (by decide)
      (fun _ _ => 0) 1 0).nextPartition = .error .outOfBounds := by decide +kernel
  rw [hfault] at hok
  cases hok

end Hecuba
