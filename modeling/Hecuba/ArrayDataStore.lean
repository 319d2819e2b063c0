import Hecuba.BasicIndexing
import Hecuba.FortranOrder

/-! The keys under which `ArrayDataStore` writes an array, and those it asks for when it
reads the array back without coordinates. -/

namespace Hecuba

inductive ArrayPartitionType where
  | zorderAlgorithm
  | noPartitions
  | columnar
  | fortranorder
  deriving DecidableEq, Repr

def clusterEndFlag : Nat := 2 ^ 31 - 2

structure SpaceFillingGenerator where
  metas : ArrayMetadata
  data : Option Bytes
  junk : Nat → UInt8
  done : Bool

namespace SpaceFillingGenerator

def totalSize (metas : ArrayMetadata) : Nat := metas.dims.foldl (fun size d => u64 (size * d)) metas.elemSize

variable (g : SpaceFillingGenerator)

def malloc (n : Nat) : Bytes := (List.range n).map g.junk

def nextPartition : Except Fault Partition :=
  match g.data, g.done with
  | some data, false => do
    let size := totalSize g.metas
    let tobewritten ← memcpy (g.malloc (u64 (8 + size))) 0 (toLittleEndian 8 size) 0 8
    let tobewritten ← memcpy tobewritten 8 data 0 size
    .ok ⟨0, 0, some tobewritten⟩
  | _, _ => .ok ⟨clusterEndFlag, 0, none⟩

def getNextPartition : Except Fault Partition × SpaceFillingGenerator :=
  (g.nextPartition, { g with done := true })

def collect (g : SpaceFillingGenerator) : Except Fault (List Partition) :=
  if g.done then .ok [] else do
    let part ← g.getNextPartition.1
    let parts ← collect g.getNextPartition.2
    .ok (part :: parts)
termination_by (!g.done).toNat
decreasing_by
  rename_i h
  rw [Bool.eq_false_iff.mpr h]
  exact Nat.one_pos

end SpaceFillingGenerator

inductive PartitionGenerator where
  | zorder (g : ZorderCurveGenerator)
  | fortran (g : FortranOrderGenerator)
  | spaceFilling (g : SpaceFillingGenerator)

/-- `rowElements` stands for the truncated root that the constructors compute. -/
def makePartitionsGenerator (metas : ArrayMetadata) (partitionType : ArrayPartitionType) (rowElements : Nat)
    (hr : 0 < rowElements) (junk : Nat → Nat → UInt8) (data : Option Bytes) : PartitionGenerator :=
  match partitionType with
  | .zorderAlgorithm => .zorder ⟨metas, data, rowElements, hr, junk, 0, false⟩
  | .fortranorder => .fortran ⟨metas, data, rowElements, hr, junk, 0, 0⟩
  | .noPartitions | .columnar => .spaceFilling ⟨metas, data, junk 0, false⟩

def PartitionGenerator.collect : PartitionGenerator → Except Fault (List Partition)
  | .zorder g => g.collect
  | .fortran g => g.collect
  | .spaceFilling g => g.collect

def Partition.key (part : Partition) : Nat × Nat := (part.clusterId, part.blockId)

/-- The partitions that `store_numpy_into_cas` writes, each under its key. -/
def storeNumpyIntoCas (metas : ArrayMetadata) (partitionType : ArrayPartitionType) (rowElements : Nat)
    (hr : 0 < rowElements) (junk : Nat → Nat → UInt8) (data : Bytes) : Except Fault (List Partition) :=
  (makePartitionsGenerator metas partitionType rowElements hr junk (some data)).collect

/-- The partitions whose keys `read_numpy_from_cas_by_coords` asks for when it is given no
coordinates. -/
def requestedPartitions (metas : ArrayMetadata) (partitionType : ArrayPartitionType) (rowElements : Nat)
    (hr : 0 < rowElements) : Except Fault (List Partition) :=
  (makePartitionsGenerator metas partitionType rowElements hr (fun _ _ => 0) none).collect

/-- The keys `(cluster_id, col_id)` that `store_numpy_into_cas_as_arrow` writes. Only arrays
of at most two dimensions pass its assertion, and it reads `dims[1]` of a vector. -/
def storeNumpyIntoCasAsArrow (metas : ArrayMetadata) (rowElements : Nat) : Except Fault (List (Nat × Nat)) :=
  match metas.dims with
  | [_, numColumns] =>
    .ok ((List.range numColumns).foldl (fun (clusterId, keys) i =>
      let clusterId := if 0 < i ∧ i % rowElements = 0 then u32 (clusterId + 1) else clusterId
      (clusterId, keys ++ [(clusterId, i)])) (0, [])).2
  | _ => .error .outOfBounds

def allColumns (metas : ArrayMetadata) : Except Fault (List Nat) :=
  if metas.dims.length < 2 then .error .outOfBounds
  else .ok (List.range (metas.dims.getD (metas.dims.length - 2) 0))

/-- The keys `(cluster_id, col_id)` that `read_numpy_from_cas_arrow` asks for. -/
def readNumpyFromCasArrow (rowElements : Nat) (cols : List Nat) : List (Nat × Nat) :=
  cols.map fun col => (u32 (col / rowElements), col)

end Hecuba
