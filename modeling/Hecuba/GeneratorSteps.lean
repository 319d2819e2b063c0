import Hecuba.ArrayReaders
import Hecuba.StorageNumpy

/-! The steps of the generators behind `PartitionGenerator`: the next partition, the indexes
of the next block, and the next cluster. -/

namespace Hecuba

/-- A 32-bit word read as a two's complement number. -/
def int32 (n : Nat) : Int := if u32 n < 2 ^ 31 then u32 n else (u32 n : Int) - 2 ^ 32

def ZorderCurveGenerator.getNextPartitionIdxs (g : ZorderCurveGenerator) : PartitionIdxs × ZorderCurveGenerator :=
  let ixBlocks := getIndexes g.blockCounter g.blocks
  let blockCounter := u64 (g.blockCounter + 1)
  (⟨computeZorder ixBlocks, getClusterID ixBlocks, getBlockID ixBlocks, ixBlocks⟩,
    { g with blockCounter := blockCounter, done := g.done || blockCounter == g.nblocks })

/-- The flag that the step sets is computed again by `isDone`. -/
def FortranOrderGenerator.getNextPartitionIdxs (g : FortranOrderGenerator) : PartitionIdxs × FortranOrderGenerator :=
  let blockCcs := getIndexes g.blockCounter g.blocks
  let blockCounter := u64 (g.blockCounter + 1)
  (⟨blockCounter, getClusterID blockCcs, getBlockID g.blocks blockCcs, blockCcs⟩,
    { g with blockCounter := blockCounter })

namespace SpaceFillingGenerator

variable (g : SpaceFillingGenerator)

/-- Not implemented. -/
def getNextPartitionIdxs : PartitionIdxs × SpaceFillingGenerator := (⟨clusterEndFlag, clusterEndFlag, 0, []⟩, g)

def computeNextClusterId : Nat × SpaceFillingGenerator := (clusterEndFlag, { g with done := true })

end SpaceFillingGenerator

namespace PartitionGenerator

def isDone : PartitionGenerator → Bool
  | .zorder g => g.isDone
  | .fortran g => g.isDone
  | .spaceFilling g => g.done

def getNextPartition : PartitionGenerator → Except Fault Partition × PartitionGenerator
  | .zorder g => (g.getNextPartition.1, .zorder g.getNextPartition.2)
  | .fortran g => (g.getNextPartition.1, .fortran g.getNextPartition.2)
  | .spaceFilling g => (g.getNextPartition.1, .spaceFilling g.getNextPartition.2)

def getNextPartitionIdxs : PartitionGenerator → PartitionIdxs × PartitionGenerator
  | .zorder g => (g.getNextPartitionIdxs.1, .zorder g.getNextPartitionIdxs.2)
  | .fortran g => (g.getNextPartitionIdxs.1, .fortran g.getNextPartitionIdxs.2)
  | .spaceFilling g => (g.getNextPartitionIdxs.1, .spaceFilling g.getNextPartitionIdxs.2)

def computeNextClusterId : PartitionGenerator → Int × PartitionGenerator
  | .zorder g => (int32 g.computeNextClusterId.1, .zorder g.computeNextClusterId.2)
  | .fortran g => (int32 g.computeNextClusterId.1, .fortran g.computeNextClusterId.2)
  | .spaceFilling g => (int32 g.computeNextClusterId.1, .spaceFilling g.computeNextClusterId.2)

end PartitionGenerator

end Hecuba
