import Hecuba.GeneratorSteps
import Hecuba.LoopRuns

/-! The loops over the generators, whose steps move a counter from block to block. -/

namespace Hecuba

/-- What the generator returns for the block at counter `n`. -/
def ZorderCurveGenerator.partitionAt (g : ZorderCurveGenerator) (n : Nat) : Except Fault Partition :=
  { g with blockCounter := n }.nextPartition

def FortranOrderGenerator.partitionAt (g : FortranOrderGenerator) (n : Nat) : Except Fault Partition :=
  { g with blockCounter := n }.nextPartition

theorem ZorderCurveGenerator.loopRun {g : ZorderCurveGenerator} (hdone : g.done = false)
    (hcounter : g.blockCounter = 0) :
    LoopRun isDone getNextPartition g ((List.range g.nblocks).map g.partitionAt) := by
  have h := @loopRun_of_counter _ _ isDone getNextPartition (fun k => k = { g with blockCounter := k.blockCounter })
    blockCounter g.nblocks g.partitionAt ?_ ?_ g rfl
  · rwa [hcounter, Nat.sub_zero, ← List.range_eq_range'] at h
  · intro k hk
    rw [hk, isDone, hdone, Bool.false_or, decide_eq_true_eq]
    rfl
  · intro k hk _
    rw [hk]
    exact ⟨rfl, rfl, rfl⟩

theorem FortranOrderGenerator.loopRun {g : FortranOrderGenerator}
    (hcluster : g.nclusters ≤ g.clusterCounter → g.nblocks = 0) (hcounter : g.blockCounter = 0) :
    LoopRun isDone getNextPartition g ((List.range g.nblocks).map g.partitionAt) := by
  have h := @loopRun_of_counter _ _ isDone getNextPartition (fun k => k = { g with blockCounter := k.blockCounter })
    blockCounter g.nblocks g.partitionAt ?_ ?_ g rfl
  · rwa [hcounter, Nat.sub_zero, ← List.range_eq_range'] at h
  · intro k hk
    rw [hk, isDone, Bool.or_eq_true, decide_eq_true_eq, decide_eq_true_eq]
    exact or_iff_left_of_imp fun hle => hcluster hle ▸ Nat.zero_le _
  · intro k hk _
    rw [hk]
    exact ⟨rfl, rfl, rfl⟩

theorem FortranOrderGenerator.nblocks_eq_zero {g : FortranOrderGenerator} (hne : g.metas.dims ≠ [])
    (h : g.nclusters ≤ 0) : g.nblocks = 0 := by
  have hb : g.blocks ≠ [] := by simpa [blocks, blocksDim] using hne
  have hdvd := getLastD_dvd_prod hb
  have hlast : g.blocks.getLastD 0 = 0 := Nat.le_zero.mp h
  rw [hlast, Nat.zero_dvd] at hdvd
  rw [nblocks, foldl_mul_u64 _ (by decide), hdvd]
  rfl

theorem ZorderCurveGenerator.nblocks_eq_u64 (g : ZorderCurveGenerator) : g.nblocks = u64 g.blocks.prod := by
  rw [nblocks, foldl_mul_u64 _ (by decide), Nat.one_mul]

theorem FortranOrderGenerator.nblocks_eq_u64 (g : FortranOrderGenerator) : g.nblocks = u64 g.blocks.prod := by
  rw [nblocks, foldl_mul_u64 _ (by decide), Nat.one_mul]

theorem ZorderCurveGenerator.nblocks_eq {g : ZorderCurveGenerator} (h : g.blocks.prod < 2 ^ 63) :
    g.nblocks = g.blocks.prod := by
  rw [nblocks_eq_u64, u64_of_lt (by omega)]

theorem FortranOrderGenerator.nblocks_eq {g : FortranOrderGenerator} (h : g.blocks.prod < 2 ^ 63) :
    g.nblocks = g.blocks.prod := by
  rw [nblocks_eq_u64, u64_of_lt (by omega)]

theorem ZorderCurveGenerator.collect_eq_mapM {g : ZorderCurveGenerator} {answers : List (Except Fault Partition)}
    (h : LoopRun isDone getNextPartition g answers) : g.collect = answers.mapM id := by
  induction h with
  | stop hdone =>
    rw [collect, if_pos hdone]
    rfl
  | next hdone _ ih =>
    rw [collect, if_neg (by rw [hdone]; exact Bool.false_ne_true), ih, List.mapM_cons]
    rfl

theorem FortranOrderGenerator.collect_eq_mapM {g : FortranOrderGenerator}
    {answers : List (Except Fault Partition)} (h : LoopRun isDone getNextPartition g answers) :
    g.collect = answers.mapM id := by
  induction h with
  | stop hdone =>
    rw [collect, if_pos hdone]
    rfl
  | next hdone _ ih =>
    rw [collect, if_neg (by rw [hdone]; exact Bool.false_ne_true), ih, List.mapM_cons]
    rfl

end Hecuba
