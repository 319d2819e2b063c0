import Hecuba.GeneratorSteps

/-! The generators that walk a list of coordinates. Each step moves the counter of the base
generator to the block in front of the list, and takes one step of the base generator. -/

namespace Hecuba

def getBlockCounter (ccs dims : List Nat) : Nat :=
  ((ccs.zip dims).reverse.foldl (fun (valor, totalSize) (c, d) =>
    (u64 (u64 (c * totalSize) + valor), u64 (totalSize * d))) (0, 1)).1

/-- What a filtered generator uses of its base class, and the cluster that it names for
coordinates. -/
class BlockGenerator (G : Type) where
  blocksDim : G → List Nat
  setBlockCounter : Nat → G → G
  getNextPartition : G → Except Fault Partition × G
  getNextPartitionIdxs : G → PartitionIdxs × G
  coordClusterId : G → List Nat → Int

instance : BlockGenerator ZorderCurveGenerator where
  blocksDim g := g.blocks
  setBlockCounter n g := { g with blockCounter := n }
  getNextPartition g := g.getNextPartition
  getNextPartitionIdxs g := g.getNextPartitionIdxs
  coordClusterId _ pos := int32 (getClusterID pos)

instance : BlockGenerator FortranOrderGenerator where
  blocksDim g := g.blocks
  setBlockCounter n g := { g with blockCounter := n }
  getNextPartition g := g.getNextPartition
  getNextPartitionIdxs g := g.getNextPartitionIdxs
  coordClusterId _ pos := int32 (pos.getLastD 0)

/-- The subclass of a generator, with a flag of its own that hides the one of the base. -/
structure FilteredGenerator (G : Type) where
  base : G
  coord : List (List Nat)
  done : Bool := false

abbrev ZorderCurveGeneratorFiltered := FilteredGenerator ZorderCurveGenerator

abbrev FortranOrderGeneratorFiltered := FilteredGenerator FortranOrderGenerator

namespace FilteredGenerator

variable {G : Type} [BlockGenerator G] (g : FilteredGenerator G)

def isDone : Bool := g.done || g.coord.isEmpty

/-- The first coordinates of an empty list are not defined. -/
def getNextPartition : Except Fault Partition × FilteredGenerator G :=
  match g.coord with
  | [] => (.error .outOfBounds, g)
  | ccs :: coord =>
    let counter := getBlockCounter ccs (BlockGenerator.blocksDim g.base)
    let (part, base) := BlockGenerator.getNextPartition (BlockGenerator.setBlockCounter counter g.base)
    (part, { g with base := base, coord := coord })

/-- Inherited. -/
def getNextPartitionIdxs : PartitionIdxs × FilteredGenerator G :=
  let (idxs, base) := BlockGenerator.getNextPartitionIdxs g.base
  (idxs, { g with base := base })

def computeNextClusterId : Except Fault Int × FilteredGenerator G :=
  match g.coord with
  | [] => (.error .outOfBounds, g)
  | ccs :: coord => (.ok (BlockGenerator.coordClusterId g.base ccs), { g with coord := coord })

end FilteredGenerator

inductive FilteredPartitionGenerator where
  | zorder (g : ZorderCurveGeneratorFiltered)
  | fortran (g : FortranOrderGeneratorFiltered)
  | spaceFilling (g : SpaceFillingGenerator)

/-- `make_partitions_generator` with coordinates. The base generator has no use for them. -/
def makeFilteredGenerator (metas : ArrayMetadata) (partitionType : ArrayPartitionType) (rowElements : Nat)
    (hr : 0 < rowElements) (junk : Nat → Nat → UInt8) (data : Option Bytes) (coord : List (List Nat)) :
    FilteredPartitionGenerator :=
  match partitionType with
  | .zorderAlgorithm => .zorder { base := ⟨metas, data, rowElements, hr, junk, 0, false⟩, coord := coord }
  | .fortranorder => .fortran { base := ⟨metas, data, rowElements, hr, junk, 0, 0⟩, coord := coord }
  | .noPartitions | .columnar => .spaceFilling ⟨metas, data, junk 0, false⟩

namespace FilteredPartitionGenerator

def isDone : FilteredPartitionGenerator → Bool
  | .zorder g => g.isDone
  | .fortran g => g.isDone
  | .spaceFilling g => g.done

def getNextPartition : FilteredPartitionGenerator → Except Fault Partition × FilteredPartitionGenerator
  | .zorder g => (g.getNextPartition.1, .zorder g.getNextPartition.2)
  | .fortran g => (g.getNextPartition.1, .fortran g.getNextPartition.2)
  | .spaceFilling g => (g.getNextPartition.1, .spaceFilling g.getNextPartition.2)

def getNextPartitionIdxs : FilteredPartitionGenerator → PartitionIdxs × FilteredPartitionGenerator
  | .zorder g => (g.getNextPartitionIdxs.1, .zorder g.getNextPartitionIdxs.2)
  | .fortran g => (g.getNextPartitionIdxs.1, .fortran g.getNextPartitionIdxs.2)
  | .spaceFilling g => (g.getNextPartitionIdxs.1, .spaceFilling g.getNextPartitionIdxs.2)

def computeNextClusterId : FilteredPartitionGenerator → Except Fault Int × FilteredPartitionGenerator
  | .zorder g => (g.computeNextClusterId.1, .zorder g.computeNextClusterId.2)
  | .fortran g => (g.computeNextClusterId.1, .fortran g.computeNextClusterId.2)
  | .spaceFilling g => (.ok (int32 g.computeNextClusterId.1), .spaceFilling g.computeNextClusterId.2)

end FilteredPartitionGenerator

end Hecuba
