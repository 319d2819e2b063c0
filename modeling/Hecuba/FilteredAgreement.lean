import Hecuba.FreshChunks
import Hecuba.Traversals

/-! A generator that walks a list of blocks returns what the full traversal returns for each
of them. The counter and the coordinates of a block determine each other. -/

namespace Hecuba

theorem getBlockCounter_eq {dims cc : List Nat} (h : InGrid dims cc) (hp : dims.prod < 2 ^ 64) :
    getBlockCounter cc dims = rowMajor dims cc := by
  have hrounds : (cc.zip dims).foldr (fun index sums =>
      (u64 (u64 (index.1 * sums.2) + sums.1), u64 (sums.2 * index.2))) (0, 1) = (rowMajor dims cc, dims.prod) := by
    induction h with
    | nil => rfl
    | @cons c d cc dims hc hrest ih =>
      have hlt := rowMajor_lt (inGrid_cons.mpr ⟨hc, hrest⟩)
      rw [rowMajor] at hlt
      have hle : dims.prod ≤ (d :: dims).prod := by
        rw [List.prod_cons]
        exact Nat.le_mul_of_pos_left _ (by omega)
      rw [List.zip_cons_cons, List.foldr_cons, ih (by omega)]
      simp only [rowMajor]
      rw [u64_of_lt (show c * dims.prod < 2 ^ 64 by omega), u64_of_lt (by omega), Nat.mul_comm dims.prod,
        u64_of_lt (by rwa [← List.prod_cons]), List.prod_cons]
  rw [getBlockCounter, List.foldl_reverse]
  exact congrArg Prod.fst hrounds

theorem getIndexes_getBlockCounter {dims cc : List Nat} (hne : dims ≠ []) (hlt : ∀ d ∈ dims, d < 2 ^ 32)
    (hp : dims.prod < 2 ^ 63) (h : InGrid dims cc) : getIndexes (getBlockCounter cc dims) dims = cc := by
  rw [getBlockCounter_eq h (by omega), getIndexes_eq hne hlt hp (rowMajor_lt h), unRowMajor_rowMajor h]

theorem getBlockCounter_getIndexes {dims : List Nat} (hne : dims ≠ []) (hlt : ∀ d ∈ dims, d < 2 ^ 32)
    (hp : dims.prod < 2 ^ 63) {n : Nat} (hn : n < dims.prod) : getBlockCounter (getIndexes n dims) dims = n := by
  rw [getIndexes_eq hne hlt hp hn, getBlockCounter_eq (unRowMajor_inGrid hn) (by omega), rowMajor_unRowMajor hn]

/-- A filtered traversal answers what the base generator does at the counter of each block. -/
theorem FilteredGenerator.loopRun {G : Type} [BlockGenerator G] {base : G} {blocks : List Nat}
    {answer : Nat → Except Fault Partition} {P : G → Prop} (hP : ∀ k, P k → BlockGenerator.blocksDim k = blocks ∧
      ∀ n, (BlockGenerator.getNextPartition (BlockGenerator.setBlockCounter n k)).1 = answer n ∧
        P (BlockGenerator.getNextPartition (BlockGenerator.setBlockCounter n k)).2)
    (hbase : P base) (coord : List (List Nat)) :
    LoopRun isDone getNextPartition ({ base := base, coord := coord } : FilteredGenerator G)
      (coord.map fun cc => answer (getBlockCounter cc blocks)) := by
  refine @loopRun_of_list _ _ isDone getNextPartition _ (fun g => g.done = false ∧ P g.base) FilteredGenerator.coord
    (fun cc => answer (getBlockCounter cc blocks)) ?_ ?_ { base := base, coord := coord } ⟨rfl, hbase⟩
  · rintro g ⟨hdone, -⟩
    rw [isDone, hdone, Bool.false_or, List.isEmpty_iff]
  · rintro g cc rest ⟨hdone, hg⟩ hcoord
    obtain ⟨hblocks, hstep⟩ := hP g.base hg
    obtain ⟨hanswer, hnext⟩ := hstep (getBlockCounter cc blocks)
    rw [← hblocks] at hanswer hnext
    unfold getNextPartition
    rw [hcoord]
    exact ⟨by rw [← hblocks]; exact hanswer, rfl, hdone, hnext⟩

/-- The full traversal answers at each counter, the filtered one at the counter of each block
of its list. Each generator has memory of its own, which shows in a chunk only when the block
is larger than the constructors allow. -/
def FilteredAgrees (metas : ArrayMetadata) (partitionType : ArrayPartitionType) (r : Nat) (hr : 0 < r) : Prop :=
  ∀ junk junk' data coord, junk' = junk ∨ SmallBlocks metas r → (∀ cc ∈ coord, InGrid (blocksDim metas r) cc) →
    ∃ parts picked,
      LoopRun PartitionGenerator.isDone PartitionGenerator.getNextPartition
        (makePartitionsGenerator metas partitionType r hr junk data) parts ∧
      LoopRun FilteredPartitionGenerator.isDone FilteredPartitionGenerator.getNextPartition
        (makeFilteredGenerator metas partitionType r hr junk' data coord) picked ∧
      List.Forall₂ (fun cc part => parts[getBlockCounter cc (blocksDim metas r)]? = some part) coord picked

section agreement

variable {metas : ArrayMetadata} {r : Nat}

theorem forall₂_answers {answer answer' : Nat → Except Fault Partition} (hr : 0 < r) (hne : metas.dims ≠ [])
    (hblocks : (blocksDim metas r).prod < 2 ^ 63) {coord : List (List Nat)}
    (hcoord : ∀ cc ∈ coord, InGrid (blocksDim metas r) cc)
    (hanswer : ∀ n, InGrid (blocksDim metas r) (getIndexes n (blocksDim metas r)) → answer' n = answer n) {n : Nat}
    (hn : n = (blocksDim metas r).prod) :
    List.Forall₂ (fun cc part =>
      ((List.range n).map answer)[getBlockCounter cc (blocksDim metas r)]? = some part) coord
      (coord.map fun cc => answer' (getBlockCounter cc (blocksDim metas r))) := by
  have hbn : blocksDim metas r ≠ [] := by simpa [blocksDim] using hne
  rw [List.forall₂_map_right_iff, List.forall₂_same]
  intro cc hcc
  have hgrid := hcoord cc hcc
  have hlt : getBlockCounter cc (blocksDim metas r) < n := by
    rw [getBlockCounter_eq hgrid (by omega), hn]
    exact rowMajor_lt hgrid
  rw [List.getElem?_map, List.getElem?_range hlt, hanswer]
  · rfl
  · rwa [getIndexes_getBlockCounter hbn (blocksDim_lt hr) hblocks hgrid]

theorem filteredAgrees_zorder (hr : 0 < r) (hne : metas.dims ≠ []) (hblocks : (blocksDim metas r).prod < 2 ^ 63) :
    FilteredAgrees metas .zorderAlgorithm r hr := by
  intro junk junk' data coord hjunk hcoord
  let g (junk : Nat → Nat → UInt8) : ZorderCurveGenerator := ⟨metas, data, r, hr, junk, 0, false⟩
  have hfull : LoopRun _ _ (g junk) _ := ZorderCurveGenerator.loopRun rfl rfl
  have hpicked := @FilteredGenerator.loopRun _ _ (g junk') (blocksDim metas r)
    (g junk').partitionAt
    (fun k => k = { g junk' with blockCounter := k.blockCounter })
    (by intro k hk; rw [hk]; exact ⟨rfl, fun n => ⟨rfl, rfl⟩⟩) rfl coord
  have hfull' : LoopRun PartitionGenerator.isDone PartitionGenerator.getNextPartition (.zorder (g junk)) _ :=
    hfull.embed (f := PartitionGenerator.zorder) (fun _ => rfl) (fun _ => rfl)
  have hpicked' : LoopRun FilteredPartitionGenerator.isDone FilteredPartitionGenerator.getNextPartition
      (.zorder ⟨g junk', coord, false⟩) _ :=
    hpicked.embed (f := FilteredPartitionGenerator.zorder) (fun _ => rfl) (fun _ => rfl)
  refine ⟨_, _, hfull', hpicked', ?_⟩
  refine forall₂_answers hr hne hblocks hcoord (fun n hgrid => ?_) ?_
  · rcases hjunk with rfl | hsmall
    · rfl
    · exact ZorderCurveGenerator.nextPartition_fresh { g junk with blockCounter := n } hsmall hgrid junk'
  · exact ZorderCurveGenerator.nblocks_eq hblocks

theorem filteredAgrees_fortran (hr : 0 < r) (hne : metas.dims ≠ []) (hblocks : (blocksDim metas r).prod < 2 ^ 63) :
    FilteredAgrees metas .fortranorder r hr := by
  intro junk junk' data coord hjunk hcoord
  let g (junk : Nat → Nat → UInt8) : FortranOrderGenerator := ⟨metas, data, r, hr, junk, 0, 0⟩
  have hfull : LoopRun _ _ (g junk) _ := FortranOrderGenerator.loopRun (FortranOrderGenerator.nblocks_eq_zero hne) rfl
  have hpicked := @FilteredGenerator.loopRun _ _ (g junk') (blocksDim metas r)
    (g junk').partitionAt
    (fun k => k = { g junk' with blockCounter := k.blockCounter })
    (by intro k hk; rw [hk]; exact ⟨rfl, fun n => ⟨rfl, rfl⟩⟩) rfl coord
  have hfull' : LoopRun PartitionGenerator.isDone PartitionGenerator.getNextPartition (.fortran (g junk)) _ :=
    hfull.embed (f := PartitionGenerator.fortran) (fun _ => rfl) (fun _ => rfl)
  have hpicked' : LoopRun FilteredPartitionGenerator.isDone FilteredPartitionGenerator.getNextPartition
      (.fortran ⟨g junk', coord, false⟩) _ :=
    hpicked.embed (f := FilteredPartitionGenerator.fortran) (fun _ => rfl) (fun _ => rfl)
  refine ⟨_, _, hfull', hpicked', ?_⟩
  refine forall₂_answers hr hne hblocks hcoord (fun n hgrid => ?_) ?_
  · rcases hjunk with rfl | hsmall
    · rfl
    · exact FortranOrderGenerator.nextPartition_fresh { g junk with blockCounter := n } hsmall hgrid junk'
  · exact FortranOrderGenerator.nblocks_eq hblocks

end agreement

/-- A filtered generator returns, for the blocks of its list and in their order, what the
generator without coordinates returns for each of them. -/
theorem filtered_agrees {metas : ArrayMetadata} {partitionType : ArrayPartitionType} {r : Nat} {hr : 0 < r}
    (hne : metas.dims ≠ []) (hblocks : (blocksDim metas r).prod < 2 ^ 63)
    (htype : partitionType = .zorderAlgorithm ∨ partitionType = .fortranorder) :
    (∀ cc, InGrid (blocksDim metas r) cc →
      getIndexes (getBlockCounter cc (blocksDim metas r)) (blocksDim metas r) = cc) ∧
    (∀ n < (blocksDim metas r).prod,
      getBlockCounter (getIndexes n (blocksDim metas r)) (blocksDim metas r) = n) ∧
    FilteredAgrees metas partitionType r hr := by
  have hbn : blocksDim metas r ≠ [] := by simpa [blocksDim] using hne
  refine ⟨fun cc => getIndexes_getBlockCounter hbn (blocksDim_lt hr) hblocks,
    fun n => getBlockCounter_getIndexes hbn (blocksDim_lt hr) hblocks, ?_⟩
  rcases htype with rfl | rfl
  · exact filteredAgrees_zorder hr hne hblocks
  · exact filteredAgrees_fortran hr hne hblocks

theorem filtered_agrees_cube :
    (∀ cc, InGrid (blocksDim cubeMetas 2) cc →
      getIndexes (getBlockCounter cc (blocksDim cubeMetas 2)) (blocksDim cubeMetas 2) = cc) ∧
    (∀ n < (blocksDim cubeMetas 2).prod,
      getBlockCounter (getIndexes n (blocksDim cubeMetas 2)) (blocksDim cubeMetas 2) = n) ∧
    FilteredAgrees cubeMetas .fortranorder 2 (by decide) :=
  filtered_agrees (by decide) (by decide) (.inr rfl)

end Hecuba
