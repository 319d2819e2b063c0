import Hecuba.Traversals
import Mathlib.Data.Fintype.BigOperators

/-! The clusters of a Z-order array. A cluster is two blocks long along the first two
dimensions; the loop over the clusters names each by its block of even coordinates. -/

namespace Hecuba

theorem getD_mapIdx (f : Nat → Nat → Nat) {l : List Nat} {i : Nat} (hi : i < l.length) :
    (l.mapIdx f).getD i 0 = f i (l.getD i 0) := by
  simp [List.getD_eq_getElem?_getD, hi]

theorem getD_mem {l : List Nat} {i : Nat} (hi : i < l.length) : l.getD i 0 ∈ l := by
  rw [List.getD_eq_getElem _ _ hi]
  exact List.getElem_mem hi

theorem InGrid.lt_of_mem {dims cc : List Nat} (h : InGrid dims cc) {m : Nat} (hm : ∀ d ∈ dims, d ≤ m) :
    ∀ c ∈ cc, c < m := by
  induction h with
  | nil => exact fun c hc => absurd hc List.not_mem_nil
  | cons hc _ ih =>
    intro c hmem
    rcases List.mem_cons.mp hmem with rfl | hmem
    · exact lt_of_lt_of_le hc (hm _ List.mem_cons_self)
    · exact ih (fun d hd => hm d (List.mem_cons_of_mem _ hd)) c hmem

/-- The two lowest bits of the code are no part of the cluster. -/
theorem testBit_zorder_of_even {cc cc' : List Nat} (hlen : cc'.length = cc.length)
    (hbits : ∀ dim < cc.length, ∀ i, i ≠ 0 ∨ 2 ≤ dim → (cc'.getD dim 0).testBit i = (cc.getD dim 0).testBit i)
    {j : Nat} (h : (computeZorder cc).testBit (2 + j) = true) : (computeZorder cc').testBit (2 + j) = true := by
  rw [testBit_computeZorder] at h ⊢
  obtain ⟨i, hi, dim, hdim, hb, hj⟩ := h
  rw [hlen]
  refine ⟨i, hi, dim, hdim, ?_, hj⟩
  rw [hbits dim hdim i, hb]
  by_contra hlow
  rw [testBit_intShift] at hj
  have hi0 : i = 0 := by omega
  rw [hi0, Nat.mul_zero, Nat.zero_add] at hj
  omega

theorem getClusterID_of_even {cc cc' : List Nat} (hlen : cc'.length = cc.length)
    (hbits : ∀ dim < cc.length, ∀ i, i ≠ 0 ∨ 2 ≤ dim → (cc'.getD dim 0).testBit i = (cc.getD dim 0).testBit i) :
    getClusterID cc' = getClusterID cc := by
  apply Nat.eq_of_testBit_eq
  intro j
  rw [testBit_getClusterID, testBit_getClusterID]
  congr 1
  rw [Bool.eq_iff_iff]
  refine ⟨testBit_zorder_of_even hlen.symm fun dim hdim i hi => ?_, testBit_zorder_of_even hlen hbits⟩
  exact (hbits dim (hlen ▸ hdim) i hi).symm

/-- The cluster of a block, by its place among the clusters. -/
def clusterOf (cc : List Nat) : List Nat := cc.mapIdx fun i c => if i < 2 then c / 2 else c

/-- The block of even coordinates of a cluster. -/
def evenBlock (clusterCcs : List Nat) : List Nat := clusterCcs.mapIdx fun i c => if i < 2 then u32 (c * 2) else c

def clusterGrid (blocks : List Nat) : List Nat := blocks.mapIdx fun dim b => if dim < 2 then u32 (b + 1) / 2 else b

theorem getClusterID_evenBlock {cc : List Nat} (hlt : ∀ c ∈ cc, c < 2 ^ 31) :
    getClusterID (evenBlock (clusterOf cc)) = getClusterID cc := by
  have hl : (clusterOf cc).length = cc.length := List.length_mapIdx
  refine getClusterID_of_even (List.length_mapIdx.trans hl) fun dim hdim i hi => ?_
  have hget : (evenBlock (clusterOf cc)).getD dim 0 =
      if dim < 2 then u32 ((if dim < 2 then cc.getD dim 0 / 2 else cc.getD dim 0) * 2)
      else if dim < 2 then cc.getD dim 0 / 2 else cc.getD dim 0 := by
    rw [evenBlock, getD_mapIdx _ (hl ▸ hdim), clusterOf, getD_mapIdx _ hdim]
  rw [hget]
  by_cases h2 : dim < 2
  · have hc := hlt _ (getD_mem hdim)
    obtain ⟨k, rfl⟩ := Nat.exists_eq_succ_of_ne_zero (hi.resolve_right (by omega))
    rw [if_pos h2, if_pos h2, u32_of_lt (by omega), Nat.testBit_succ, Nat.testBit_succ,
      Nat.mul_div_cancel _ Nat.two_pos]
  · rw [if_neg h2, if_neg h2]

section grid

variable {blocks : List Nat}

theorem evenBlock_inGrid (hlt : ∀ b ∈ blocks, b ≤ 2 ^ 31) {clusterCcs : List Nat}
    (h : InGrid (clusterGrid blocks) clusterCcs) : InGrid blocks (evenBlock clusterCcs) := by
  rw [inGrid_iff, clusterGrid, List.length_mapIdx] at h
  rw [inGrid_iff]
  refine ⟨List.length_mapIdx.trans h.1, fun i hi => ?_⟩
  have hc := h.2 i hi
  have hb := hlt _ (getD_mem hi)
  rw [getD_mapIdx _ hi] at hc
  rw [evenBlock, getD_mapIdx _ (h.1 ▸ hi)]
  by_cases h2 : i < 2
  · rw [if_pos h2, u32_of_lt (by omega)] at hc
    rw [if_pos h2, u32_of_lt (by omega)]
    omega
  · rw [if_neg h2] at hc ⊢
    exact hc

theorem clusterOf_inGrid (hlt : ∀ b ∈ blocks, b ≤ 2 ^ 31) {cc : List Nat} (h : InGrid blocks cc) :
    InGrid (clusterGrid blocks) (clusterOf cc) := by
  rw [inGrid_iff] at h
  rw [inGrid_iff, clusterGrid, List.length_mapIdx]
  refine ⟨List.length_mapIdx.trans h.1, fun i hi => ?_⟩
  have hc := h.2 i hi
  have hb := hlt _ (getD_mem hi)
  rw [getD_mapIdx _ hi, clusterOf, getD_mapIdx _ (h.1 ▸ hi)]
  by_cases h2 : i < 2
  · rw [if_pos h2, if_pos h2, u32_of_lt (by omega)]
    omega
  · rw [if_neg h2, if_neg h2]
    exact hc

theorem clusterGrid_boxIn (hpos : ∀ b ∈ blocks, 0 < b) (hlt : ∀ b ∈ blocks, b ≤ 2 ^ 31) :
    BoxIn blocks (clusterGrid blocks) := by
  refine List.forall₂_iff_get.mpr ⟨List.length_mapIdx, fun i h1 h2 => ?_⟩
  have hb := hlt _ (List.getElem_mem h2)
  have hp := hpos _ (List.getElem_mem h2)
  change 0 < (clusterGrid blocks)[i] ∧ (clusterGrid blocks)[i] ≤ blocks[i]
  simp only [clusterGrid, List.getElem_mapIdx]
  by_cases hi : i < 2
  · rw [if_pos hi, u32_of_lt (by omega)]
    omega
  · rw [if_neg hi]
    exact ⟨hp, le_refl _⟩

/-- The bits of the coordinates of a block, by their place in the Morton index. -/
theorem mortonBit_lt {cc : List Nat} (h : mortonIndex cc < 2 ^ 31) {dim i : Nat} (hd : dim < cc.length)
    (hb : (cc.getD dim 0).testBit i = true) : cc.length * i + dim < 31 := by
  have hlt : 2 ^ (cc.length * i + dim) < 2 ^ 31 := lt_of_le_of_lt (two_pow_le_mortonIndex hd hb) h
  rwa [Nat.pow_lt_pow_iff_right Nat.one_lt_two] at hlt

/-- The bits of the coordinates of a block, in the order of the Morton index. -/
def mortonBits (cc : List Nat) (p : Fin 31) : Bool := (cc.getD (p % cc.length) 0).testBit (p / cc.length)

theorem testBit_of_mortonBits_eq {cc cc' : List Nat} (h : mortonIndex cc < 2 ^ 31) (hlen : cc.length = cc'.length)
    (heq : mortonBits cc = mortonBits cc') {dim i : Nat} (hd : dim < cc.length)
    (hb : (cc.getD dim 0).testBit i = true) : (cc'.getD dim 0).testBit i = true := by
  have hp := mortonBit_lt h hd hb
  have hmod : (cc.length * i + dim) % cc.length = dim := by rw [Nat.mul_add_mod, Nat.mod_eq_of_lt hd]
  have hdiv : (cc.length * i + dim) / cc.length = i := by
    rw [Nat.mul_add_div (by omega), Nat.div_eq_of_lt hd, Nat.add_zero]
  have hbit := congrFun heq ⟨cc.length * i + dim, hp⟩
  simp only [mortonBits, ← hlen, hmod, hdiv] at hbit
  rw [← hbit, hb]

theorem mortonBits_injective {cc cc' : List Nat} (h : mortonIndex cc < 2 ^ 31) (h' : mortonIndex cc' < 2 ^ 31)
    (hlen : cc.length = cc'.length) (heq : mortonBits cc = mortonBits cc') : cc = cc' := by
  refine List.ext_getElem hlen fun dim hd hd' => Nat.eq_of_testBit_eq fun i => ?_
  have h1 := @testBit_of_mortonBits_eq cc cc' h hlen heq dim i hd
  have h2 := @testBit_of_mortonBits_eq cc' cc h' hlen.symm heq.symm dim i hd'
  rw [List.getD_eq_getElem _ _ hd, List.getD_eq_getElem _ _ hd'] at h1 h2
  exact Bool.eq_iff_iff.mpr ⟨h1, h2⟩

theorem blocks_prod_le (hmorton : ∀ cc, InGrid blocks cc → mortonIndex cc < 2 ^ 31) : blocks.prod ≤ 2 ^ 31 := by
  have hinj : Function.Injective fun k : Fin blocks.prod => mortonBits (unRowMajor blocks k) := by
    intro k k' heq
    have hg := unRowMajor_inGrid k.isLt
    have hg' := unRowMajor_inGrid k'.isLt
    have hcc := mortonBits_injective (hmorton _ hg) (hmorton _ hg') (hg.length_eq.trans hg'.length_eq.symm) heq
    rw [Fin.ext_iff, ← rowMajor_unRowMajor k.isLt, hcc, rowMajor_unRowMajor k'.isLt]
  have hcard := Fintype.card_le_of_injective _ hinj
  rwa [Fintype.card_fin, Fintype.card_fun, Fintype.card_bool, Fintype.card_fin] at hcard

end grid

theorem ZorderCurveGenerator.clusterIds_eq {g : ZorderCurveGenerator} {answers : List Nat}
    (h : LoopRun isDone computeNextClusterId g answers) : g.clusterIds = answers := by
  induction h with
  | stop hdone => rw [clusterIds, if_pos hdone]
  | next hdone _ ih => rw [clusterIds, if_neg (by rw [hdone]; exact Bool.false_ne_true), ih]

section loop

variable {g : ZorderCurveGenerator}

/-- The states of the loop over the clusters: the flag is set by the step to the last one. -/
structure ZorderCurveGenerator.AtCluster (g k : ZorderCurveGenerator) : Prop where
  same : k = { g with blockCounter := k.blockCounter, done := k.done }
  le : k.blockCounter ≤ g.nclusters
  done_iff : k.done = true ↔ 0 < k.blockCounter ∧ k.blockCounter = g.nclusters

theorem ZorderCurveGenerator.AtCluster.isDone_iff {k : ZorderCurveGenerator} (h : AtCluster g k)
    (hle : g.nclusters ≤ g.nblocks) (hzero : g.nclusters = 0 → g.nblocks = 0) :
    k.isDone = true ↔ g.nclusters ≤ k.blockCounter := by
  have hn : k.nblocks = g.nblocks := by rw [h.same]; rfl
  have hk := h.le
  rw [isDone, Bool.or_eq_true, decide_eq_true_eq, h.done_iff, hn]
  constructor
  · rintro (⟨-, heq⟩ | hend)
    · exact heq.ge
    · exact hle.trans hend
  · intro hend
    by_cases h0 : k.blockCounter = 0
    · exact .inr (by rw [hzero (by omega)]; exact Nat.zero_le _)
    · exact .inl ⟨Nat.pos_of_ne_zero h0, by omega⟩

theorem ZorderCurveGenerator.AtCluster.step {k : ZorderCurveGenerator} (h : AtCluster g k)
    (hlt : k.blockCounter < g.nclusters) :
    k.computeNextClusterId.1 = getClusterID (evenBlock (getIndexes k.blockCounter g.clustersDim)) ∧
      k.computeNextClusterId.2.blockCounter = k.blockCounter + 1 ∧ AtCluster g k.computeNextClusterId.2 := by
  have hn : k.nclusters = g.nclusters := by rw [h.same]; rfl
  have hd : k.clustersDim = g.clustersDim := by rw [h.same]; rfl
  have hnot : ¬ (k.done || k.blockCounter == k.nclusters) = true := by
    rw [Bool.or_eq_true, h.done_iff, beq_iff_eq, hn]
    omega
  rw [computeNextClusterId, if_neg hnot, hn, hd]
  refine ⟨rfl, rfl, ?_, hlt, ?_⟩
  · rw [h.same]
  · rw [beq_iff_eq]
    exact (and_iff_right (Nat.succ_pos _)).symm

theorem ZorderCurveGenerator.loopRun_clusters (hdone : g.done = false) (hcounter : g.blockCounter = 0)
    (hle : g.nclusters ≤ g.nblocks) (hzero : g.nclusters = 0 → g.nblocks = 0) :
    LoopRun isDone computeNextClusterId g ((List.range g.nclusters).map fun n =>
      getClusterID (evenBlock (getIndexes n g.clustersDim))) := by
  have hstart : AtCluster g g := by
    refine ⟨rfl, by rw [hcounter]; exact Nat.zero_le _, ?_⟩
    rw [hdone, hcounter]
    simp
  have h := @loopRun_of_counter _ _ isDone computeNextClusterId (AtCluster g) blockCounter g.nclusters
    (fun n => getClusterID (evenBlock (getIndexes n g.clustersDim)))
    (fun k hk => AtCluster.isDone_iff hk hle hzero) (fun k hk => AtCluster.step hk) g hstart
  rwa [hcounter, Nat.sub_zero, ← List.range_eq_range'] at h

end loop

/-- The set that `get_cluster_ids` returns for an array in Z-order. -/
def ArrayDataStore.getClusterIds (metas : ArrayMetadata) (r : Nat) (hr : 0 < r) : Finset Int :=
  ((ZorderCurveGenerator.mk metas none r hr (fun _ _ => 0) 0 false).clusterIds.map int32).toFinset

section exactness

variable {metas : ArrayMetadata} {r : Nat}

theorem computeZorder_lt {cc : List Nat} (h : mortonIndex cc < 2 ^ 31) : computeZorder cc < 2 ^ 31 :=
  ShiftedLow.computeZorder_lt fun _ hd _ hb => mortonBit_lt h hd hb

theorem int32_getClusterID {cc : List Nat} (h : mortonIndex cc < 2 ^ 31) :
    int32 (getClusterID cc) = getClusterID cc ∧ getClusterID cc < clusterEndFlag := by
  have hz := computeZorder_lt h
  have hid : getClusterID cc = computeZorder cc / 4 := by
    rw [getClusterID, clusterSize, Nat.shiftRight_eq_div_pow, u32_of_lt (by omega)]
  rw [int32, hid, u32_of_lt (by omega), if_pos (by omega), clusterEndFlag]
  exact ⟨rfl, by omega⟩

theorem clusterIds_of_empty {g : ZorderCurveGenerator} (hempty : g.blocks.prod = 0) : g.clusterIds = [] := by
  rw [ZorderCurveGenerator.clusterIds, if_pos]
  rw [ZorderCurveGenerator.isDone, ZorderCurveGenerator.nblocks_eq (by omega), hempty, Bool.or_eq_true,
    decide_eq_true_eq]
  exact .inr (Nat.zero_le _)

theorem clusterIds_of_blocks {g : ZorderCurveGenerator} (hdone : g.done = false) (hcounter : g.blockCounter = 0)
    (hpos : ∀ b ∈ g.blocks, 0 < b) (hlt : g.blocks.prod ≤ 2 ^ 31) (hb : ∀ b ∈ g.blocks, b ≤ 2 ^ 31) :
    g.clusterIds = (List.range (clusterGrid g.blocks).prod).map fun n =>
      getClusterID (evenBlock (getIndexes n (clusterGrid g.blocks))) := by
  have hbox := clusterGrid_boxIn hpos hb
  have hle := hbox.prod_le
  have hclusters : g.nclusters = (clusterGrid g.blocks).prod := by
    have hfold : g.nclusters = (clusterGrid g.blocks).foldl (fun n c => u64 (n * c)) 1 := rfl
    rw [hfold, foldl_mul_u64 _ (by decide), Nat.one_mul, u64_of_lt (by omega)]
  have hblocks : g.nblocks = g.blocks.prod := ZorderCurveGenerator.nblocks_eq (by omega)
  have h := ZorderCurveGenerator.loopRun_clusters hdone hcounter (by rw [hclusters, hblocks]; exact hle)
    (fun h0 => absurd (hclusters.symm.trans h0) hbox.prod_pos.ne')
  rw [ZorderCurveGenerator.clusterIds_eq h, hclusters]
  rfl

theorem mem_clusterIds_iff (hr : 0 < r) (hne : metas.dims ≠ []) (hmorton : MortonBelow metas r) {id : Nat} :
    id ∈ (ZorderCurveGenerator.mk metas none r hr (fun _ _ => 0) 0 false).clusterIds ↔
      ∃ cc, InGrid (blocksDim metas r) cc ∧ getClusterID cc = id := by
  have hprod := blocks_prod_le hmorton
  by_cases h0 : (blocksDim metas r).prod = 0
  · rw [@clusterIds_of_empty ⟨metas, none, r, hr, fun _ _ => 0, 0, false⟩ h0]
    refine iff_of_false List.not_mem_nil ?_
    rintro ⟨cc, hcc, -⟩
    have hlt := rowMajor_lt hcc
    omega
  · have hpos : ∀ b ∈ blocksDim metas r, 0 < b := by
      intro b hb
      exact Nat.pos_of_dvd_of_pos (List.dvd_prod hb) (Nat.pos_of_ne_zero h0)
    have hlt : ∀ b ∈ blocksDim metas r, b ≤ 2 ^ 31 := by
      intro b hb
      exact (Nat.le_of_dvd (Nat.pos_of_ne_zero h0) (List.dvd_prod hb)).trans hprod
    have hbox := clusterGrid_boxIn hpos hlt
    have hle := hbox.prod_le
    have hgne : clusterGrid (blocksDim metas r) ≠ [] := by simpa [clusterGrid, blocksDim] using hne
    have hglt : ∀ c ∈ clusterGrid (blocksDim metas r), c < 2 ^ 32 := by
      intro c hc
      have hc' := (Nat.le_of_dvd hbox.prod_pos (List.dvd_prod hc)).trans hle
      omega
    have hidx : ∀ n < (clusterGrid (blocksDim metas r)).prod, getIndexes n (clusterGrid (blocksDim metas r)) =
        unRowMajor (clusterGrid (blocksDim metas r)) n := fun n hn => getIndexes_eq hgne hglt (by omega) hn
    rw [@clusterIds_of_blocks ⟨metas, none, r, hr, fun _ _ => 0, 0, false⟩ rfl rfl hpos hprod hlt, List.mem_map]
    constructor
    · rintro ⟨n, hn, rfl⟩
      rw [List.mem_range] at hn
      refine ⟨_, ?_, rfl⟩
      rw [show ZorderCurveGenerator.blocks _ = blocksDim metas r from rfl, hidx n hn]
      exact evenBlock_inGrid hlt (unRowMajor_inGrid hn)
    · rintro ⟨cc, hcc, rfl⟩
      have hcl := clusterOf_inGrid hlt hcc
      refine ⟨rowMajor (clusterGrid (blocksDim metas r)) (clusterOf cc), List.mem_range.mpr (rowMajor_lt hcl), ?_⟩
      rw [show ZorderCurveGenerator.blocks _ = blocksDim metas r from rfl, hidx _ (rowMajor_lt hcl),
        unRowMajor_rowMajor hcl]
      exact getClusterID_evenBlock (hcc.lt_of_mem hlt)

/-- The clusters that are listed are those of the blocks, and the flag that ends a traversal is
none of them. -/
theorem cluster_ids_exact (hr : 0 < r) (hne : metas.dims ≠ []) (hmorton : MortonBelow metas r) :
    (∀ id : Int, id ∈ ArrayDataStore.getClusterIds metas r hr ↔
      ∃ cc, InGrid (blocksDim metas r) cc ∧ id = getClusterID cc) ∧
    (clusterEndFlag : Int) ∉ ArrayDataStore.getClusterIds metas r hr := by
  have hmem : ∀ id : Int, id ∈ ArrayDataStore.getClusterIds metas r hr ↔
      ∃ cc, InGrid (blocksDim metas r) cc ∧ id = getClusterID cc := by
    intro id
    rw [ArrayDataStore.getClusterIds, List.mem_toFinset, List.mem_map]
    constructor
    · rintro ⟨n, hn, rfl⟩
      obtain ⟨cc, hcc, rfl⟩ := (mem_clusterIds_iff hr hne hmorton).mp hn
      exact ⟨cc, hcc, (int32_getClusterID (hmorton cc hcc)).1⟩
    · rintro ⟨cc, hcc, rfl⟩
      exact ⟨_, (mem_clusterIds_iff hr hne hmorton).mpr ⟨cc, hcc, rfl⟩, (int32_getClusterID (hmorton cc hcc)).1⟩
  refine ⟨hmem, fun hflag => ?_⟩
  obtain ⟨cc, hcc, heq⟩ := (hmem _).mp hflag
  have hlt := (int32_getClusterID (hmorton cc hcc)).2
  omega

/-- Five blocks along one dimension: three steps of the loop, and two clusters. -/
def oddMetas : ArrayMetadata :=
  ⟨1, [5], Nat.one_lt_two_pow (Nat.succ_ne_zero 31), fun _ hd => List.mem_singleton.mp hd ▸ by omega⟩

theorem oddMetas_mortonBelow : MortonBelow oddMetas 1 := by
  intro cc h
  have hb : blocksDim oddMetas 1 = [5] := by decide
  rw [hb] at h
  obtain ⟨c, cc, rfl⟩ := inGrid_exists_cons h
  obtain ⟨hc, hrest⟩ := inGrid_cons.mp h
  cases hrest
  rcases (show c = 0 ∨ c = 1 ∨ c = 2 ∨ c = 3 ∨ c = 4 by omega) with rfl | rfl | rfl | rfl | rfl <;> decide

theorem cluster_ids_exact_odd :
    (∀ id : Int, id ∈ ArrayDataStore.getClusterIds oddMetas 1 Nat.one_pos ↔
      ∃ cc, InGrid (blocksDim oddMetas 1) cc ∧ id = getClusterID cc) ∧
    (clusterEndFlag : Int) ∉ ArrayDataStore.getClusterIds oddMetas 1 Nat.one_pos :=
  cluster_ids_exact Nat.one_pos (by decide) oddMetas_mortonBelow

end exactness

end Hecuba
