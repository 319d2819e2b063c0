import Hecuba.BitFields
import Hecuba.FortranOrder

/-! When the ids of the blocks of an array in Fortran order can be decoded. The block id
is a word of 32 bits with a field for every dimension but the last. -/

namespace Hecuba

namespace FortranOrderGenerator

/-- The ids of every block of the grid are read back as its coordinates. -/
def Decodable (blocks : List Nat) : Prop :=
  ∀ cc, InGrid blocks cc → coordinates blocks (getClusterID cc) (getBlockID blocks cc) = cc

/-- No two blocks of the grid share their ids. -/
def DistinctIds (blocks : List Nat) : Prop :=
  ∀ cc cc', InGrid blocks cc → InGrid blocks cc' → getClusterID cc = getClusterID cc' →
    getBlockID blocks cc = getBlockID blocks cc' → cc = cc'

def packedBits (packed : List Nat) : Nat := (packed.map bits).sum

/-- Every dimension has room in the word beside the dimensions after it. -/
def FitsWord : List Nat → Prop
  | [] => True
  | b :: packed => b < 2 ^ 31 ∧ b ≤ 2 ^ (32 - packedBits packed) ∧ FitsWord packed

instance decidableFitsWord : (packed : List Nat) → Decidable (FitsWord packed)
  | [] => inferInstanceAs (Decidable True)
  | b :: packed =>
    have := decidableFitsWord packed
    inferInstanceAs (Decidable (b < 2 ^ 31 ∧ b ≤ 2 ^ (32 - packedBits packed) ∧ FitsWord packed))

theorem distinctIds_of_decodable {blocks : List Nat} (h : Decodable blocks) : DistinctIds blocks := by
  intro cc cc' hcc hcc' hc hb
  rw [← h cc hcc, ← h cc' hcc', hc, hb]

/-- The shift that the processor makes for a dimension. -/
def width (b : Nat) : Nat := bits b % 32

theorem width_eq_bits {b : Nat} (h : b < 2 ^ 31) : width b = bits b := by
  have hlog : Nat.log2 b < 31 := by
    by_cases hz : b = 0
    · rw [hz]
      decide
    · exact (Nat.log2_lt hz).mpr h
  exact Nat.mod_eq_of_lt (by rw [bits]; omega)

theorem width_eq_zero {b : Nat} (h : 2 ^ 31 ≤ b) (hlt : b < 2 ^ 32) : width b = 0 := by
  have hz : b ≠ 0 := by omega
  have hlow : 31 ≤ Nat.log2 b := (Nat.le_log2 hz).mpr h
  have hhigh : Nat.log2 b < 32 := (Nat.log2_lt hz).mpr hlt
  rw [width, bits, show Nat.log2 b = 31 by omega]

/-- The fields of the block id of a block. -/
def fields (packed ccs : List Nat) : List (Nat × Nat) :=
  List.zipWith (fun b curr => (width b, curr)) packed ccs

theorem fields_cons (b c : Nat) (packed ccs : List Nat) :
    fields (b :: packed) (c :: ccs) = (width b, c) :: fields packed ccs := rfl

theorem map_fst_fields {packed ccs : List Nat} (h : InGrid packed ccs) :
    (fields packed ccs).map Prod.fst = packed.map width := by
  induction h with
  | nil => rfl
  | cons _ _ ih => rw [fields_cons, List.map_cons, List.map_cons, ih]

theorem fields_lt {packed ccs : List Nat} (h : InGrid packed ccs) (hlt : ∀ b ∈ packed, b < 2 ^ 31) :
    ∀ f ∈ fields packed ccs, f.2 < 2 ^ f.1 := by
  induction h with
  | nil => simp [fields]
  | cons hc _ ih =>
    obtain ⟨hb, htail⟩ := List.forall_mem_cons.mp hlt
    rw [fields_cons]
    refine List.forall_mem_cons.mpr ⟨?_, ih htail⟩
    dsimp only
    rw [width_eq_bits hb]
    exact hc.trans Nat.lt_log2_self

theorem getBlockID_append {packed ccs : List Nat} (b c : Nat) (h : ccs.length = packed.length) :
    getBlockID (packed ++ [b]) (ccs ++ [c]) = packFields (2 ^ 32) 0 (fields packed ccs) := by
  rw [getBlockID, List.zip_append h.symm, List.zip_cons_cons, List.zip_nil_right, List.dropLast_concat,
    packFields, fields, ← List.map_uncurry_zip_eq_zipWith, List.foldl_map]
  congr 1
  funext blockId field
  exact Nat.mod_add_mod _ _ _

theorem coordinates_eq_unpackFields (blocks : List Nat) (clusterId blockId : Nat) :
    coordinates blocks clusterId blockId =
      unpackFields (blocks.dropLast.map width) blockId ++ [clusterId] := by
  have hfold : ∀ packed : List Nat,
      packed.foldr (fun b state => (state.2 % 2 ^ width b :: state.1, state.2 >>> width b))
        ([clusterId], blockId) =
      (unpackFields (packed.map width) blockId ++ [clusterId], blockId >>> (packed.map width).sum) := by
    intro packed
    induction packed with
    | nil => rfl
    | cons b packed ih =>
      rw [List.foldr_cons, ih, List.map_cons, unpackFields, List.sum_cons, List.cons_append,
        Nat.add_comm, Nat.shiftRight_add]
  rw [coordinates, List.foldl_reverse]
  exact congrArg Prod.fst (hfold blocks.dropLast)

theorem ids_append {packed ccs : List Nat} (b c : Nat) (h : ccs.length = packed.length) :
    coordinates (packed ++ [b]) (getClusterID (ccs ++ [c])) (getBlockID (packed ++ [b]) (ccs ++ [c])) =
      unpackFields (packed.map width) (packFields (2 ^ 32) 0 (fields packed ccs)) ++ [c] := by
  rw [coordinates_eq_unpackFields, getBlockID_append b c h, List.dropLast_concat, getClusterID,
    List.getLastD_concat]

/-- Every block of the packed dimensions is read back. -/
def PackedDecodable (packed : List Nat) : Prop :=
  ∀ ccs, InGrid packed ccs →
    unpackFields (packed.map width) (packFields (2 ^ 32) 0 (fields packed ccs)) = ccs

theorem decodable_append_iff {packed : List Nat} {b : Nat} (hb : 1 ≤ b) :
    Decodable (packed ++ [b]) ↔ PackedDecodable packed := by
  constructor
  · intro h ccs hccs
    have hcc : InGrid (packed ++ [b]) (ccs ++ [0]) := List.rel_append hccs (.cons hb .nil)
    have heq := h _ hcc
    rw [ids_append b 0 hccs.length_eq] at heq
    exact (List.append_inj' heq rfl).1
  · intro h cc hcc
    have hinit := List.forall₂_take_append cc packed [b] hcc
    obtain ⟨c, rest, -, hrest, hlast⟩ :=
      List.forall₂_cons_right_iff.mp (List.forall₂_drop_append cc packed [b] hcc)
    rw [List.forall₂_nil_right_iff.mp hrest] at hlast
    rw [← List.take_append_drop packed.length cc, hlast, ids_append b c hinit.length_eq, h _ hinit]

/-- The coordinates of the packed dimensions, cut at the end of the word. -/
theorem unpack_eq_cutFields {packed ccs : List Nat} (h : InGrid packed ccs) (hlt : ∀ b ∈ packed, b < 2 ^ 31) :
    unpackFields (packed.map width) (packFields (2 ^ 32) 0 (fields packed ccs)) =
      cutFields 32 (fields packed ccs) := by
  rw [← map_fst_fields h]
  exact unpackFields_packFields 32 (fields_lt h hlt)

theorem map_width_eq_bits {packed : List Nat} (hlt : ∀ b ∈ packed, b < 2 ^ 31) :
    (packed.map width).sum = packedBits packed :=
  congrArg List.sum (List.map_congr_left fun b hb => width_eq_bits (hlt b hb))

theorem cutFields_cons {b c : Nat} {packed ccs : List Nat} (h : InGrid packed ccs)
    (hlt : ∀ b ∈ packed, b < 2 ^ 31) :
    cutFields 32 (fields (b :: packed) (c :: ccs)) =
      c % 2 ^ (32 - packedBits packed) :: cutFields 32 (fields packed ccs) := by
  rw [fields_cons, cutFields, map_fst_fields h, map_width_eq_bits hlt]

theorem mod_eq_self_iff {b m : Nat} : (∀ c < b, c % 2 ^ m = c) ↔ b ≤ 2 ^ m := by
  constructor
  · intro h
    by_contra hlt
    have hself := h (2 ^ m) (by omega)
    rw [Nat.mod_self] at hself
    exact absurd hself (Nat.two_pow_pos m).ne
  · intro h c hc
    exact Nat.mod_eq_of_lt (by omega)

theorem inGrid_zeros {packed : List Nat} (hpos : ∀ b ∈ packed, 1 ≤ b) :
    InGrid packed (packed.map fun _ => 0) := by
  induction packed with
  | nil => exact .nil
  | cons b packed ih =>
    exact inGrid_cons.mpr ⟨hpos b List.mem_cons_self, ih fun b hb => hpos b (List.mem_cons_of_mem _ hb)⟩

theorem cut_eq_self_iff {packed : List Nat} (hpos : ∀ b ∈ packed, 1 ≤ b) (hlt : ∀ b ∈ packed, b < 2 ^ 31) :
    (∀ ccs, InGrid packed ccs → cutFields 32 (fields packed ccs) = ccs) ↔ FitsWord packed := by
  induction packed with
  | nil =>
    refine ⟨fun _ => trivial, fun _ ccs hccs => ?_⟩
    rw [List.forall₂_nil_right_iff.mp hccs]
    rfl
  | cons b packed ih =>
    have htail : ∀ b ∈ packed, b < 2 ^ 31 := fun b hb => hlt b (List.mem_cons_of_mem _ hb)
    have htailpos : ∀ b ∈ packed, 1 ≤ b := fun b hb => hpos b (List.mem_cons_of_mem _ hb)
    rw [FitsWord, ← ih htailpos htail, ← mod_eq_self_iff]
    constructor
    · intro h
      refine ⟨hlt b List.mem_cons_self, fun c hc => ?_, fun ccs hccs => ?_⟩
      · have hzeros := inGrid_zeros htailpos
        have heq := h (c :: packed.map fun _ => 0) (inGrid_cons.mpr ⟨hc, hzeros⟩)
        rw [cutFields_cons hzeros htail] at heq
        exact (List.cons.inj heq).1
      · have hzero : 0 < b := hpos b List.mem_cons_self
        have heq := h (0 :: ccs) (inGrid_cons.mpr ⟨hzero, hccs⟩)
        rw [cutFields_cons hccs htail] at heq
        exact (List.cons.inj heq).2
    · rintro ⟨-, hhead, hrest⟩ cc hcc
      cases hcc with
      | cons hc hccs => rw [cutFields_cons hccs htail, hhead _ hc, hrest _ hccs]

theorem lt_of_packedDecodable {packed : List Nat} (hpos : ∀ b ∈ packed, 1 ≤ b) (hlt : ∀ b ∈ packed, b < 2 ^ 32)
    (h : PackedDecodable packed) : ∀ b ∈ packed, b < 2 ^ 31 := by
  have hones : InGrid packed (packed.map fun b => if b < 2 ^ 31 then 0 else 1) := by
    clear h
    induction packed with
    | nil => exact .nil
    | cons b packed ih =>
      have hb := hpos b List.mem_cons_self
      refine inGrid_cons.mpr ⟨?_, ih (fun b hb => hpos b (List.mem_cons_of_mem _ hb))
        fun b hb => hlt b (List.mem_cons_of_mem _ hb)⟩
      dsimp only
      split <;> omega
  have heq := h _ hones
  generalize packFields _ 0 _ = word at heq
  clear h hones hpos
  induction packed with
  | nil => simp
  | cons b packed ih =>
    rw [List.map_cons, unpackFields, List.map_cons, List.cons.injEq] at heq
    have htail := ih (fun b hb => hlt b (List.mem_cons_of_mem _ hb)) heq.2
    have hhead : b < 2 ^ 31 := by
      by_contra hge
      have hdigit := heq.1
      rw [width_eq_zero (by omega) (hlt b List.mem_cons_self), Nat.pow_zero, Nat.mod_one, if_neg hge] at hdigit
      cases hdigit
    exact List.forall_mem_cons.mpr ⟨hhead, htail⟩

theorem fitsWord_lt {packed : List Nat} (h : FitsWord packed) : ∀ b ∈ packed, b < 2 ^ 31 := by
  induction packed with
  | nil => simp
  | cons b packed ih => exact List.forall_mem_cons.mpr ⟨h.1, ih h.2.2⟩

theorem packedDecodable_iff {packed : List Nat} (hpos : ∀ b ∈ packed, 1 ≤ b) (hlt : ∀ b ∈ packed, b < 2 ^ 32) :
    PackedDecodable packed ↔ FitsWord packed := by
  constructor
  · intro h
    have hsmall := lt_of_packedDecodable hpos hlt h
    refine (cut_eq_self_iff hpos hsmall).mp fun ccs hccs => ?_
    rw [← unpack_eq_cutFields hccs hsmall]
    exact h ccs hccs
  · intro h ccs hccs
    have hsmall := fitsWord_lt h
    rw [unpack_eq_cutFields hccs hsmall]
    exact (cut_eq_self_iff hpos hsmall).mpr h ccs hccs

/-- The ids can be decoded if and only if the fields of the block id fit its 32 bits, up to
the unused values of the first one. -/
theorem ids_decodable_iff {blocks : List Nat} (hne : blocks ≠ []) (hpos : ∀ b ∈ blocks, 1 ≤ b)
    (hlt : ∀ b ∈ blocks, b < 2 ^ 32) :
    Decodable blocks ∧ DistinctIds blocks ↔ FitsWord blocks.dropLast := by
  have hsplit := List.dropLast_concat_getLast hne
  have hlast := hpos _ (List.getLast_mem hne)
  have hiff : Decodable blocks ↔ PackedDecodable blocks.dropLast := by
    rw [← decodable_append_iff hlast, hsplit]
  rw [← packedDecodable_iff (fun b hb => hpos b (List.mem_of_mem_dropLast hb))
    fun b hb => hlt b (List.mem_of_mem_dropLast hb), ← hiff]
  exact ⟨fun h => h.1, fun h => ⟨h, distinctIds_of_decodable h⟩⟩

theorem ids_decodable_powers : Decodable [8, 7, 4] ∧ DistinctIds [8, 7, 4] :=
  (ids_decodable_iff (by decide) (by decide) (by decide)).mpr (by decide)

/-- Two blocks on every of eighteen axes: the bit of the first axis is shifted out. -/
theorem first_axis_lost :
    getClusterID (1 :: List.replicate 17 0) = getClusterID (List.replicate 18 0) ∧
      getBlockID (List.replicate 18 2) (1 :: List.replicate 17 0) =
        getBlockID (List.replicate 18 2) (List.replicate 18 0) ∧
      ¬ (Decodable (List.replicate 18 2) ∧ DistinctIds (List.replicate 18 2)) := by
  have hcluster : getClusterID (1 :: List.replicate 17 0) = getClusterID (List.replicate 18 0) := by decide
  have hblock : getBlockID (List.replicate 18 2) (1 :: List.replicate 17 0) =
      getBlockID (List.replicate 18 2) (List.replicate 18 0) := by decide
  refine ⟨hcluster, hblock, fun ⟨_, hdistinct⟩ => ?_⟩
  have hsame := hdistinct _ _ (by decide) (by decide) hcluster hblock
  exact absurd hsame (by decide)

end FortranOrderGenerator

end Hecuba
