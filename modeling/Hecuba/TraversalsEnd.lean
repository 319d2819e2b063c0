import Hecuba.FilteredAgreement

/-! Which loops over a generator end, and after how many steps. Every generator keeps its own
notion of being done, and not every step moves what that notion looks at. -/

namespace Hecuba

/-- The three steps that the loops take until the generator is done. -/
inductive GeneratorStep where
  | nextPartition
  | nextClusterId
  | nextPartitionIdxs
  deriving DecidableEq

/-- The partition types whose generator walks blocks. -/
def ArrayPartitionType.Blocked (partitionType : ArrayPartitionType) : Prop :=
  partitionType = .zorderAlgorithm ∨ partitionType = .fortranorder

/-- The blocks of the layout: the base generator takes the array for a single one. -/
def layoutBlocks (metas : ArrayMetadata) (partitionType : ArrayPartitionType) (r : Nat) : Nat :=
  match partitionType with
  | .zorderAlgorithm | .fortranorder => (blocksDim metas r).prod
  | .noPartitions | .columnar => 1

/-- The steps of a filtered traversal: the base generator has no use for the coordinates. -/
def listedBlocks (partitionType : ArrayPartitionType) (coord : List (List Nat)) : Nat :=
  match partitionType with
  | .zorderAlgorithm | .fortranorder => coord.length
  | .noPartitions | .columnar => 1

/-- The loop ends, and over partitions or indexes takes `n` steps. -/
def PartitionGenerator.LoopEnds (g : PartitionGenerator) (n : Nat) : GeneratorStep → Prop
  | .nextPartition => ∃ answers, LoopRun isDone getNextPartition g answers ∧ answers.length = n
  | .nextClusterId => Ends isDone computeNextClusterId g
  | .nextPartitionIdxs => ∃ answers, LoopRun isDone getNextPartitionIdxs g answers ∧ answers.length = n

def FilteredPartitionGenerator.LoopEnds (g : FilteredPartitionGenerator) (n : Nat) : GeneratorStep → Prop
  | .nextPartition => ∃ answers, LoopRun isDone getNextPartition g answers ∧ answers.length = n
  | .nextClusterId => Ends isDone computeNextClusterId g
  | .nextPartitionIdxs => ∃ answers, LoopRun isDone getNextPartitionIdxs g answers ∧ answers.length = n

theorem ZorderCurveGenerator.loopRun_idxs {g : ZorderCurveGenerator} (hdone : g.done = false)
    (hcounter : g.blockCounter = 0) :
    LoopRun isDone getNextPartitionIdxs g ((List.range g.nblocks).map fun n =>
      { g with blockCounter := n }.getNextPartitionIdxs.1) := by
  have h := @loopRun_of_counter _ _ isDone getNextPartitionIdxs
    (fun k => k = { g with blockCounter := k.blockCounter, done := k.done } ∧
      (k.done = true → g.nblocks ≤ k.blockCounter))
    blockCounter g.nblocks (fun n => { g with blockCounter := n }.getNextPartitionIdxs.1) ?_ ?_ g ⟨rfl, ?_⟩
  · rwa [hcounter, Nat.sub_zero, ← List.range_eq_range'] at h
  · rintro k ⟨hk, hflag⟩
    have hn : k.nblocks = g.nblocks := by rw [hk]; rfl
    rw [isDone, Bool.or_eq_true, decide_eq_true_eq, hn]
    exact or_iff_right_of_imp hflag
  · rintro k ⟨hk, hflag⟩ hlt
    have hn : k.nblocks = g.nblocks := by rw [hk]; rfl
    have hword : u64 (k.blockCounter + 1) = k.blockCounter + 1 := by
      have hmax : g.nblocks < 2 ^ 64 := lt_of_eq_of_lt g.nblocks_eq_u64 (Nat.mod_lt _ (by decide))
      exact u64_of_lt (by omega)
    refine ⟨by rw [hk]; rfl, hword, by rw [hk]; rfl, fun hset => ?_⟩
    simp only [getNextPartitionIdxs, hword, Bool.or_eq_true, beq_iff_eq, hn] at hset
    rcases hset with hset | hset
    · exact absurd (hflag hset) (Nat.not_le.mpr hlt)
    · change g.nblocks ≤ u64 (k.blockCounter + 1)
      rw [hword]
      exact hset.ge
  · intro hset
    rw [hdone] at hset
    cases hset

theorem FortranOrderGenerator.loopRun_idxs {g : FortranOrderGenerator}
    (hcluster : g.nclusters ≤ g.clusterCounter → g.nblocks = 0) (hcounter : g.blockCounter = 0) :
    LoopRun isDone getNextPartitionIdxs g ((List.range g.nblocks).map fun n =>
      { g with blockCounter := n }.getNextPartitionIdxs.1) := by
  have h := @loopRun_of_counter _ _ isDone getNextPartitionIdxs (fun k => k = { g with blockCounter := k.blockCounter })
    blockCounter g.nblocks (fun n => { g with blockCounter := n }.getNextPartitionIdxs.1) ?_ ?_ g rfl
  · rwa [hcounter, Nat.sub_zero, ← List.range_eq_range'] at h
  · intro k hk
    rw [hk, isDone, Bool.or_eq_true, decide_eq_true_eq, decide_eq_true_eq]
    exact or_iff_left_of_imp fun hle => hcluster hle ▸ Nat.zero_le _
  · intro k hk hlt
    have hword : u64 (k.blockCounter + 1) = k.blockCounter + 1 := by
      have hmax : g.nblocks < 2 ^ 64 := lt_of_eq_of_lt g.nblocks_eq_u64 (Nat.mod_lt _ (by decide))
      exact u64_of_lt (by omega)
    exact ⟨by rw [hk], hword, by rw [hk]; rfl⟩

/-- The counter of the clusters moves to the end of the blocks, if not stopped before. -/
theorem ZorderCurveGenerator.clusters_end (g : ZorderCurveGenerator) : Ends isDone computeNextClusterId g := by
  refine ends_of_measure (fun k => if k.done then 0 else k.nblocks - k.blockCounter + 1) (fun k hnot => ?_) g
  rw [isDone, Bool.or_eq_false_iff, decide_eq_false_iff_not] at hnot
  rw [hnot.1, if_neg Bool.false_ne_true, computeNextClusterId]
  split
  · rw [if_pos rfl]
    omega
  · dsimp only
    split
    · omega
    · change k.nblocks - (k.blockCounter + 1) + 1 < _
      omega

theorem FortranOrderGenerator.clusters_end (g : FortranOrderGenerator) : Ends isDone computeNextClusterId g := by
  refine ends_of_measure (fun k => k.nclusters - k.clusterCounter) (fun k hnot => ?_) g
  rw [isDone, Bool.or_eq_false_iff, decide_eq_false_iff_not, decide_eq_false_iff_not] at hnot
  change k.nclusters - (k.clusterCounter + 1) < k.nclusters - k.clusterCounter
  omega

namespace FilteredGenerator

variable {G : Type} [BlockGenerator G] {base : G} {coord : List (List Nat)}

theorem partitions_end (base : G) (coord : List (List Nat)) :
    ∃ answers, LoopRun isDone getNextPartition ({ base := base, coord := coord } : FilteredGenerator G) answers ∧
      answers.length = coord.length := by
  induction coord generalizing base with
  | nil => exact ⟨[], .stop rfl, rfl⟩
  | cons cc coord ih =>
    obtain ⟨answers, hrest, hlen⟩ := ih (BlockGenerator.getNextPartition
      (BlockGenerator.setBlockCounter (getBlockCounter cc (BlockGenerator.blocksDim base)) base)).2
    exact ⟨_, .next rfl hrest, congrArg (· + 1) hlen⟩

theorem clusters_end : Ends isDone computeNextClusterId ({ base := base, coord := coord } : FilteredGenerator G) := by
  refine ⟨_, @loopRun_of_list _ _ isDone computeNextClusterId _ (fun g => g.done = false ∧ g.base = base)
    FilteredGenerator.coord (fun cc => .ok (BlockGenerator.coordClusterId base cc)) ?_ ?_ _ ⟨rfl, rfl⟩⟩
  · rintro g ⟨hdone, -⟩
    rw [isDone, hdone, Bool.false_or, List.isEmpty_iff]
  · rintro g cc rest ⟨hdone, hbase⟩ hcoord
    unfold computeNextClusterId
    rw [hcoord]
    exact ⟨by rw [hbase], rfl, hdone, hbase⟩

end FilteredGenerator

section kinds

variable {metas : ArrayMetadata} {r : Nat} {hr : 0 < r} {junk : Nat → Nat → UInt8} {data : Option Bytes}

theorem u64_eq_self_iff {n : Nat} : u64 n = n ↔ n < 2 ^ 64 := Nat.mod_eq_iff_lt (by decide)

theorem PartitionGenerator.loopEnds_iff {g : PartitionGenerator} {parts : List (Except Fault Partition)}
    {idxs : List PartitionIdxs} {m n : Nat} (hparts : LoopRun isDone getNextPartition g parts)
    (hclusters : Ends isDone computeNextClusterId g) (hidxs : LoopRun isDone getNextPartitionIdxs g idxs)
    (hm : parts.length = m) (hm' : idxs.length = m) (step : GeneratorStep) :
    g.LoopEnds n step ↔ (step ≠ .nextClusterId → m = n) := by
  cases step with
  | nextPartition =>
    refine (loopRun_length_iff hparts).trans ?_
    rw [hm]
    exact ⟨fun h _ => h, fun h => h (by decide)⟩
  | nextClusterId => exact iff_of_true hclusters fun hstep => absurd rfl hstep
  | nextPartitionIdxs =>
    refine (loopRun_length_iff hidxs).trans ?_
    rw [hm']
    exact ⟨fun h _ => h, fun h => h (by decide)⟩

theorem zorder_loopEnds_iff (step : GeneratorStep) :
    (makePartitionsGenerator metas .zorderAlgorithm r hr junk data).LoopEnds (blocksDim metas r).prod step ↔
      (step ≠ .nextClusterId → (blocksDim metas r).prod < 2 ^ 64) := by
  let g : ZorderCurveGenerator := ⟨metas, data, r, hr, junk, 0, false⟩
  have hparts : LoopRun ZorderCurveGenerator.isDone _ g _ := ZorderCurveGenerator.loopRun rfl rfl
  have hidxs : LoopRun ZorderCurveGenerator.isDone _ g _ := ZorderCurveGenerator.loopRun_idxs rfl rfl
  refine (PartitionGenerator.loopEnds_iff (m := u64 (blocksDim metas r).prod)
    (hparts.embed (f := PartitionGenerator.zorder) (fun _ => rfl) (fun _ => rfl))
    (g.clusters_end.embed (f := PartitionGenerator.zorder) (fun _ => rfl) (fun _ => rfl))
    (hidxs.embed (f := PartitionGenerator.zorder) (fun _ => rfl) (fun _ => rfl)) ?_ ?_ step).trans ?_
  · rw [List.length_map, List.length_range, ZorderCurveGenerator.nblocks_eq_u64]
    rfl
  · rw [List.length_map, List.length_range, ZorderCurveGenerator.nblocks_eq_u64]
    rfl
  · rw [u64_eq_self_iff]

theorem fortran_loopEnds_iff (hne : metas.dims ≠ []) (step : GeneratorStep) :
    (makePartitionsGenerator metas .fortranorder r hr junk data).LoopEnds (blocksDim metas r).prod step ↔
      (step ≠ .nextClusterId → (blocksDim metas r).prod < 2 ^ 64) := by
  let g : FortranOrderGenerator := ⟨metas, data, r, hr, junk, 0, 0⟩
  have hzero : g.nclusters ≤ g.clusterCounter → g.nblocks = 0 := FortranOrderGenerator.nblocks_eq_zero hne
  have hparts : LoopRun FortranOrderGenerator.isDone _ g _ := FortranOrderGenerator.loopRun hzero rfl
  have hidxs : LoopRun FortranOrderGenerator.isDone _ g _ := FortranOrderGenerator.loopRun_idxs hzero rfl
  refine (PartitionGenerator.loopEnds_iff (m := u64 (blocksDim metas r).prod)
    (hparts.embed (f := PartitionGenerator.fortran) (fun _ => rfl) (fun _ => rfl))
    (g.clusters_end.embed (f := PartitionGenerator.fortran) (fun _ => rfl) (fun _ => rfl))
    (hidxs.embed (f := PartitionGenerator.fortran) (fun _ => rfl) (fun _ => rfl)) ?_ ?_ step).trans ?_
  · rw [List.length_map, List.length_range, FortranOrderGenerator.nblocks_eq_u64]
    rfl
  · rw [List.length_map, List.length_range, FortranOrderGenerator.nblocks_eq_u64]
    rfl
  · rw [u64_eq_self_iff]

/-- The base generator, whose loop over indexes finds no end. -/
theorem spaceFilling_loopEnds_iff {g : SpaceFillingGenerator} (hdone : g.done = false) (step : GeneratorStep) :
    (PartitionGenerator.spaceFilling g).LoopEnds 1 step ↔ step ≠ .nextPartitionIdxs := by
  cases step with
  | nextPartition =>
    have hrun : LoopRun PartitionGenerator.isDone PartitionGenerator.getNextPartition (.spaceFilling g) _ :=
      .next hdone (.stop rfl)
    exact iff_of_true ⟨_, hrun, rfl⟩ (by decide)
  | nextClusterId =>
    have hrun : LoopRun PartitionGenerator.isDone PartitionGenerator.computeNextClusterId (.spaceFilling g) _ :=
      .next hdone (.stop rfl)
    exact iff_of_true ⟨_, hrun⟩ (by decide)
  | nextPartitionIdxs =>
    refine iff_of_false ?_ fun hstep => hstep rfl
    rintro ⟨answers, hrun, -⟩
    -- no step is taken to the end that is looked for
    exact not_ends_of_invariant (P := fun k => k = .spaceFilling g) (fun k hk => by rw [hk]; exact ⟨hdone, rfl⟩) rfl
      ⟨answers, hrun⟩

end kinds

section filtered

/-- A filtered generator behind `FilteredPartitionGenerator`. -/
theorem filtered_loopEnds_iff {G : Type} [BlockGenerator G] {f : FilteredGenerator G → FilteredPartitionGenerator}
    (hdone : ∀ g, (f g).isDone = g.isDone)
    (hparts : ∀ g, (f g).getNextPartition = (g.getNextPartition.1, f g.getNextPartition.2))
    (hclusters : ∀ g, (f g).computeNextClusterId.2 = f g.computeNextClusterId.2)
    (hidxs : ∀ g, (f g).getNextPartitionIdxs.2 = f g.getNextPartitionIdxs.2) (base : G) (coord : List (List Nat))
    (step : GeneratorStep) :
    (f { base := base, coord := coord }).LoopEnds coord.length step ↔
      (step = .nextPartitionIdxs → coord = []) := by
  cases step with
  | nextPartition =>
    obtain ⟨answers, hrun, hlen⟩ := FilteredGenerator.partitions_end base coord
    exact iff_of_true ⟨answers, hrun.embed hdone hparts, hlen⟩ (by simp)
  | nextClusterId => exact iff_of_true (FilteredGenerator.clusters_end.embed hdone hclusters) (by simp)
  | nextPartitionIdxs =>
    constructor
    · rintro ⟨answers, hrun, -⟩ -
      by_contra hne
      refine not_ends_of_invariant (P := fun k => ∃ g, k = f g ∧ g.done = false ∧ g.coord ≠ []) ?_
        ⟨_, rfl, rfl, hne⟩ ⟨answers, hrun⟩
      -- the inherited step takes nothing from the list of coordinates
      rintro _ ⟨g, rfl, hg, hcoord⟩
      refine ⟨?_, g.getNextPartitionIdxs.2, hidxs g, hg, hcoord⟩
      rw [hdone, FilteredGenerator.isDone, hg, Bool.false_or, Bool.eq_false_iff, ne_eq, List.isEmpty_iff]
      exact hcoord
    · intro h
      rw [h rfl]
      exact ⟨[], .stop ((hdone _).trans rfl), rfl⟩

theorem filteredBase_loopEnds_iff {g : SpaceFillingGenerator} (hdone : g.done = false) (step : GeneratorStep) :
    (FilteredPartitionGenerator.spaceFilling g).LoopEnds 1 step ↔ step ≠ .nextPartitionIdxs := by
  cases step with
  | nextPartition =>
    have hrun : LoopRun FilteredPartitionGenerator.isDone FilteredPartitionGenerator.getNextPartition
        (.spaceFilling g) _ := .next hdone (.stop rfl)
    exact iff_of_true ⟨_, hrun, rfl⟩ (by decide)
  | nextClusterId =>
    have hrun : LoopRun FilteredPartitionGenerator.isDone FilteredPartitionGenerator.computeNextClusterId
        (.spaceFilling g) _ := .next hdone (.stop rfl)
    exact iff_of_true ⟨_, hrun⟩ (by decide)
  | nextPartitionIdxs =>
    refine iff_of_false ?_ fun hstep => hstep rfl
    rintro ⟨answers, hrun, -⟩
    exact not_ends_of_invariant (P := fun k => k = .spaceFilling g) (fun k hk => by rw [hk]; exact ⟨hdone, rfl⟩) rfl
      ⟨answers, hrun⟩

end filtered

section traversals

variable {metas : ArrayMetadata} {partitionType : ArrayPartitionType} {r : Nat} {hr : 0 < r}
  {junk : Nat → Nat → UInt8} {data : Option Bytes} {coord : List (List Nat)}

instance : DecidablePred ArrayPartitionType.Blocked := fun _ => inferInstanceAs (Decidable (_ ∨ _))

/-- The loops over the generator of an array, by the step that they take. -/
theorem loopEnds_iff (hne : metas.dims ≠ []) (step : GeneratorStep) :
    (makePartitionsGenerator metas partitionType r hr junk data).LoopEnds (layoutBlocks metas partitionType r) step ↔
      if partitionType.Blocked then step ≠ .nextClusterId → (blocksDim metas r).prod < 2 ^ 64
      else step ≠ .nextPartitionIdxs := by
  cases partitionType with
  | zorderAlgorithm => exact zorder_loopEnds_iff step
  | fortranorder => exact fortran_loopEnds_iff hne step
  | noPartitions => exact spaceFilling_loopEnds_iff rfl step
  | columnar => exact spaceFilling_loopEnds_iff rfl step

theorem filteredLoopEnds_iff (step : GeneratorStep) :
    (makeFilteredGenerator metas partitionType r hr junk data coord).LoopEnds (listedBlocks partitionType coord) step ↔
      (step = .nextPartitionIdxs → partitionType.Blocked ∧ coord = []) := by
  cases partitionType with
  | zorderAlgorithm =>
    refine (filtered_loopEnds_iff (f := FilteredPartitionGenerator.zorder) (fun _ => rfl) (fun _ => rfl)
      (fun _ => rfl) (fun _ => rfl) _ coord step).trans ?_
    simp [ArrayPartitionType.Blocked]
  | fortranorder =>
    refine (filtered_loopEnds_iff (f := FilteredPartitionGenerator.fortran) (fun _ => rfl) (fun _ => rfl)
      (fun _ => rfl) (fun _ => rfl) _ coord step).trans ?_
    simp [ArrayPartitionType.Blocked]
  | noPartitions =>
    refine (filteredBase_loopEnds_iff rfl step).trans ?_
    simp [ArrayPartitionType.Blocked]
  | columnar =>
    refine (filteredBase_loopEnds_iff rfl step).trans ?_
    simp [ArrayPartitionType.Blocked]

/-- Every loop over the generators of an array ends, after one step for each block or each
listed one, exactly when the array has blocks, they can be counted, and no list is given to the
loop over indexes. With fewer blocks than a word can count no other loop fails. -/
theorem traversals_end_iff (hne : metas.dims ≠ []) :
    (((∀ step, (makePartitionsGenerator metas partitionType r hr junk data).LoopEnds
          (layoutBlocks metas partitionType r) step) ∧
        ∀ step, (makeFilteredGenerator metas partitionType r hr junk data coord).LoopEnds
          (listedBlocks partitionType coord) step) ↔
      partitionType.Blocked ∧ (blocksDim metas r).prod < 2 ^ 64 ∧ coord = []) ∧
    ((blocksDim metas r).prod < 2 ^ 64 → ∀ step,
      ((makePartitionsGenerator metas partitionType r hr junk data).LoopEnds
          (layoutBlocks metas partitionType r) step ↔ (step = .nextPartitionIdxs → partitionType.Blocked)) ∧
      ((makeFilteredGenerator metas partitionType r hr junk data coord).LoopEnds
          (listedBlocks partitionType coord) step ↔
        (step = .nextPartitionIdxs → partitionType.Blocked ∧ coord = []))) := by
  simp only [loopEnds_iff hne, filteredLoopEnds_iff]
  refine ⟨⟨?_, ?_⟩, fun hlt step => ⟨?_, trivial⟩⟩
  · rintro ⟨hfull, hlisted⟩
    obtain ⟨hb, hcoord⟩ := hlisted .nextPartitionIdxs rfl
    have hcount := hfull .nextPartition
    rw [if_pos hb] at hcount
    exact ⟨hb, hcount (by decide), hcoord⟩
  · rintro ⟨hb, hlt, hcoord⟩
    refine ⟨fun step => ?_, fun step _ => ⟨hb, hcoord⟩⟩
    rw [if_pos hb]
    exact fun _ => hlt
  · by_cases hb : partitionType.Blocked
    · rw [if_pos hb]
      exact iff_of_true (fun _ => hlt) fun _ => hb
    · rw [if_neg hb]
      exact ⟨fun h heq => absurd heq h, fun h heq => hb (h heq)⟩

theorem traversals_end_small :
    (∀ step, (makePartitionsGenerator smallMetas .zorderAlgorithm 2 Nat.two_pos (fun _ _ => 0) none).LoopEnds
        (layoutBlocks smallMetas .zorderAlgorithm 2) step) ∧
      ∀ step, (makeFilteredGenerator smallMetas .zorderAlgorithm 2 Nat.two_pos (fun _ _ => 0) none []).LoopEnds
        (listedBlocks .zorderAlgorithm []) step :=
  (traversals_end_iff (by decide)).1.mpr ⟨by decide, by decide, rfl⟩

/-- The indexes of an array without partitions, and of the first block of one in Z-order. -/
theorem index_loops_never_end : (∀ d ∈ smallMetas.dims, 1 ≤ d) ∧
    ¬ (makePartitionsGenerator smallMetas .noPartitions 2 Nat.two_pos (fun _ _ => 0) none).LoopEnds 1
      .nextPartitionIdxs ∧
    ¬ (makeFilteredGenerator smallMetas .zorderAlgorithm 2 Nat.two_pos (fun _ _ => 0) none [[0, 0]]).LoopEnds 1
      .nextPartitionIdxs := by
  refine ⟨by decide, ?_, ?_⟩
  · intro h
    have hiff := @loopEnds_iff smallMetas .noPartitions 2 Nat.two_pos (fun _ _ => 0) none (by decide) .nextPartitionIdxs
    exact absurd (hiff.mp h) (by decide)
  · intro h
    have hiff := @filteredLoopEnds_iff smallMetas .zorderAlgorithm 2 Nat.two_pos (fun _ _ => 0) none [[0, 0]]
      .nextPartitionIdxs
    exact absurd (hiff.mp h rfl).2 (by decide)

end traversals

end Hecuba
