import Hecuba.BlockGeometry

/-! The partitioner for arrays in Fortran order. Blocks are numbered and named by their
coordinates, and copied by the recursion of the Z-order partitioner with the last two
dimensions exchanged. -/

namespace Hecuba

/-- Exchange last 2 dimensions. -/
def exchangeLast : List Nat → List Nat
  | [a, b] => [b, a]
  | a :: b :: c :: l => a :: exchangeLast (b :: c :: l)
  | l => l

structure FortranOrderGenerator where
  metas : ArrayMetadata
  data : Option Bytes
  rowElements : Nat
  rowElements_pos : 0 < rowElements
  junk : Nat → Nat → UInt8
  blockCounter : Nat
  clusterCounter : Nat

namespace FortranOrderGenerator

/-- Number of elements to skip until the coordinate `indexes`. -/
def getIdFromIndexes (dims indexes : List Nat) : Nat :=
  ((dims.zip (indexes.drop 1)).foldl (fun (id, accumulator) (d, index) =>
    (u64 (id + u64 (u64 (accumulator * d) * index)), u64 (accumulator * d))) (indexes.headD 0, 1)).1

/-- `(uint32_t) log2(b) + 1`; `log2` of a 32-bit word is not rounded to an integer that
it does not reach. -/
def bits (b : Nat) : Nat := Nat.log2 b + 1

/-- The processor takes the count of a 32-bit shift modulo 32. -/
def getBlockID (blocks cc : List Nat) : Nat :=
  (blocks.zip cc).dropLast.foldl (fun blockId (b, curr) => u32 (u32 (blockId <<< (bits b % 32)) + curr)) 0

def getClusterID (cc : List Nat) : Nat := cc.getLastD 0

/-- The coordinates that `merge_partitions` reads from the ids, the last one first. -/
def coordinates (blocks : List Nat) (clusterId blockId : Nat) : List Nat :=
  (blocks.dropLast.reverse.foldl (fun (ccs, blockId) b =>
    (blockId % 2 ^ (bits b % 32) :: ccs, blockId >>> (bits b % 32))) ([clusterId], blockId)).1

variable (g : FortranOrderGenerator)

def blocks : List Nat := blocksDim g.metas g.rowElements

def nblocks : Nat := g.blocks.foldl (fun n b => u64 (n * b)) 1

def nclusters : Nat := g.blocks.getLastD 0

def isDone : Bool := decide (g.nblocks ≤ g.blockCounter) || decide (g.nclusters ≤ g.clusterCounter)

def computeNextClusterId : Nat × FortranOrderGenerator :=
  (g.clusterCounter, { g with clusterCounter := g.clusterCounter + 1 })

def malloc (n : Nat) : Bytes := (List.range n).map (g.junk g.blockCounter)

def makeChunk (data : Bytes) (size : Nat) (shape : List Nat) (input : Nat) : Except Fault Bytes := do
  let chunk ← memcpy (g.malloc (size + 8)) 0 (toLittleEndian 8 size) 0 8
  tessellate (exchangeLast g.metas.dims) shape g.metas.elemSize data input 8 (8 + size) chunk

def nextPartition : Except Fault Partition :=
  let blockCcs := getIndexes g.blockCounter g.blocks
  let clusterId := getClusterID blockCcs
  let blockId := getBlockID g.blocks blockCcs
  match g.data with
  | none => .ok ⟨clusterId, blockId, none⟩
  | some data => do
    let scaled := scale g.rowElements blockCcs
    let input := u64 (getIdFromIndexes g.metas.dims scaled * g.metas.elemSize)
    if isBound g.blocks blockCcs then
      -- the size is that of the shape before its last dimensions are exchanged
      let shape := boundDims g.metas g.rowElements scaled
      let size := shape.foldl (fun size d => u64 (size * d)) g.metas.elemSize
      let chunk ← g.makeChunk data size (exchangeLast shape) input
      .ok ⟨clusterId, blockId, some chunk⟩
    else
      let shape := List.replicate g.metas.dims.length g.rowElements
      let chunk ← g.makeChunk data (blockSize g.metas g.rowElements) shape input
      .ok ⟨clusterId, blockId, some chunk⟩

def getNextPartition : Except Fault Partition × FortranOrderGenerator :=
  (g.nextPartition, { g with blockCounter := g.blockCounter + 1 })

/-- `while (!isDone()) getNextPartition()` -/
def collect (g : FortranOrderGenerator) : Except Fault (List Partition) :=
  if g.isDone then .ok [] else do
    let part ← g.getNextPartition.1
    let parts ← collect g.getNextPartition.2
    .ok (part :: parts)
termination_by g.nblocks - g.blockCounter
decreasing_by
  rename_i h
  have hlt : ¬ g.nblocks ≤ g.blockCounter := fun hle => h (by simp [isDone, hle])
  change g.nblocks - (g.blockCounter + 1) < g.nblocks - g.blockCounter
  omega

/-- One round of `merge_partitions`. -/
def mergeChunk (metas : ArrayMetadata) (rowElements : Nat) (data : Bytes) (chunk : Partition) :
    Except Fault Bytes :=
  match chunk.data with
  | none => .error .outOfBounds
  | some input =>
    let ccs := coordinates (blocksDim metas rowElements) chunk.clusterId chunk.blockId
    let scaled := scale rowElements ccs
    let output := u64 (getIdFromIndexes metas.dims scaled * metas.elemSize)
    if input.length < 8 then .error .outOfBounds else
      let retrieved := ofLittleEndian (input.take 8)
      if isBound (blocksDim metas rowElements) ccs then
        copyBlockToArray (exchangeLast metas.dims) (exchangeLast (boundDims metas rowElements scaled))
          metas.elemSize data output input 8 (8 + retrieved)
      else if retrieved ≠ blockSize metas rowElements then
        .error (.moduleException
          "Sth went wrong deciding the size of blocks while merging them into an array")
      else
        copyBlockToArray (exchangeLast metas.dims) (List.replicate metas.dims.length rowElements)
          metas.elemSize data output input 8 (8 + retrieved)

def mergePartitions (metas : ArrayMetadata) (rowElements : Nat) (chunks : List Partition) (data : Bytes) :
    Except Fault Bytes :=
  chunks.foldlM (mergeChunk metas rowElements) data

end FortranOrderGenerator

end Hecuba
