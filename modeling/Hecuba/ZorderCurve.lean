import Hecuba.RowMajor
import Hecuba.RegionCopy
import Hecuba.MachineWord

/-! The Z-order partitioner: an array is cut into blocks, each block is named by
the Morton code of its coordinates and carried as a sized chunk of bytes. -/

namespace Hecuba

abbrev Bytes := List UInt8

inductive Fault where
  | moduleException (msg : String)
  /-- An access outside a buffer, which the source leaves undefined. -/
  | outOfBounds
  deriving DecidableEq, Repr

def memcpy (dst : Bytes) (d : Nat) (src : Bytes) (s n : Nat) : Except Fault Bytes :=
  if d + n ≤ dst.length ∧ s + n ≤ src.length then .ok (overwrite dst d src s n) else .error .outOfBounds

/-- Shape and type of an array. The fields are 32-bit words in the source. -/
structure ArrayMetadata where
  elemSize : Nat
  dims : List Nat
  elemSize_lt : elemSize < 2 ^ 32
  dims_lt : ∀ d ∈ dims, d < 2 ^ 32

def ArrayMetadata.getArraySize (metas : ArrayMetadata) : Nat :=
  u64 (metas.dims.foldl (fun size d => u64 (size * d)) 1 * metas.elemSize)

structure Partition where
  clusterId : Nat
  blockId : Nat
  data : Option Bytes
  deriving DecidableEq, Repr

def clusterSize : Nat := 2

/-- `1 << k` on a 32-bit `int`, widened to `uint64_t`. The processor takes the
shift count modulo 32, and the widening extends the sign. -/
def intShift (k : Nat) : Nat :=
  if k % 32 = 31 then 2 ^ 64 - 2 ^ 31 else 2 ^ (k % 32)

def computeZorder (cc : List Nat) : Nat :=
  let ndims := cc.length
  let nbits := 64 / ndims
  (List.range nbits).foldl (fun answer i =>
    (List.range ndims).foldl (fun answer dim =>
      if (cc.getD dim 0).testBit i then answer ||| intShift (ndims * i + dim) else answer) answer) 0

def zorderInverse (id ndims : Nat) : List Nat :=
  (List.range 64).foldl (fun ccs i =>
    if (id >>> i) &&& 1 = 1 then
      -- `step` has been incremented once for each multiple of `ndims` up to `i`
      ccs.set (i % ndims) (u32 (ccs.getD (i % ndims) 0 ||| intShift (i / ndims)))
    else ccs) (List.replicate ndims 0)

def getIndexes (id : Nat) (dims : List Nat) : List Nat :=
  let total := dims.foldl (fun size d => u64 (size * d)) 1 / dims.headD 0
  go id total (dims.drop 1)
where
  go (id total : Nat) : List Nat → List Nat
    | [] => [u32 id]
    | d :: dims =>
      u32 ((int64 id).tdiv (int64 total) % 2 ^ 64).toNat ::
        go ((int64 id).tmod (int64 total) % 2 ^ 64).toNat (total / d) dims

def getIdFromIndexes (dims indexes : List Nat) : Nat :=
  (((dims.drop 1).zip indexes).reverse.foldl (fun (id, accumulator) (d, index) =>
    (u64 (id + u64 (u64 (accumulator * d) * index)), u64 (accumulator * d)))
    (indexes.getLastD 0, 1)).1

def getBlockID (cc : List Nat) : Nat :=
  let mask := (2 ^ 64 - 1) >>> (64 - clusterSize)
  u32 (computeZorder cc &&& mask)

def getClusterID (cc : List Nat) : Nat := u32 (computeZorder cc >>> clusterSize)

inductive Direction where
  | toBlock
  | toArray
  deriving DecidableEq, Repr

/-- Row `n` bytes long between position `arr` of the array and `blk` of the block. -/
def copyRow (dir : Direction) (msg : String) (src : Bytes) (blkEnd arr blk n : Nat) (dst : Bytes) :
    Except Fault Bytes :=
  if blk + n > blkEnd then .error (.moduleException msg) else
    match dir with
    | .toBlock => memcpy dst blk src arr n
    | .toArray => memcpy dst arr src blk n

/-- The recursion shared by `tessellate` and `copyBlockToArray`: one level per
dimension, and a row of the last dimension at the bottom. -/
def copyBox (dir : Direction) (msg : String) (elemSize : Nat) (src : Bytes) (blkEnd : Nat) :
    List Nat → List Nat → Nat → Nat → Bytes → Except Fault Bytes
  | [_], block, arr, blk, dst =>
    copyRow dir msg src blkEnd arr blk (u32 (block.getLastD 0 * elemSize)) dst
  | _ :: dims, current :: block, arr, blk, dst =>
    let dimsProd := dims.foldl (fun acc d => u64 (acc * d)) elemSize
    let blockProd := block.foldl (fun acc d => u64 (acc * d)) elemSize
    let blockOffset := u64 (blockProd / block.getLastD 0 * block.getLastD 0)
    (List.range current).foldlM (fun dst subset =>
      copyBox dir msg elemSize src blkEnd dims block (arr + u64 (subset * dimsProd))
        (blk + u64 (subset * blockOffset)) dst) dst
  | _, _, _, _, _ => .error .outOfBounds

def tessellate (dims blockDims : List Nat) (elemSize : Nat) (data : Bytes) (input : Nat)
    (output : Nat) (outputEnd : Nat) (block : Bytes) : Except Fault Bytes :=
  copyBox .toBlock "Out of memory access copying an array block" elemSize data outputEnd
    dims blockDims input output block

def copyBlockToArray (dims blockShape : List Nat) (elemSize : Nat) (array : Bytes) (output : Nat)
    (block : Bytes) (input inputEnd : Nat) : Except Fault Bytes :=
  copyBox .toArray "Out of memory access copying an block into an array" elemSize block inputEnd
    dims blockShape output input array

/-- `(uint32_t) std::ceil((double) d / r)`; on 32-bit words the rounded quotient
never crosses an integer, so this is the exact ceiling. -/
def blocksDim (metas : ArrayMetadata) (rowElements : Nat) : List Nat :=
  metas.dims.map (fun d => (d + rowElements - 1) / rowElements)

/-- `(uint64_t) pow(row_elements, ndims) * elem_size` -/
def blockSize (metas : ArrayMetadata) (rowElements : Nat) : Nat :=
  u64 (u64 (rowElements ^ metas.dims.length) * metas.elemSize)

/-- A border block has row `i` cut at the limit of the array. -/
def isBound (blocks cc : List Nat) : Bool :=
  (cc.zip blocks).any (fun (c, b) => c == sub32 b 1)

def scale (rowElements : Nat) (cc : List Nat) : List Nat := cc.map (fun c => u32 (c * rowElements))

def boundDims (metas : ArrayMetadata) (rowElements : Nat) (scaled : List Nat) : List Nat :=
  List.zipWith (fun (c, b) d =>
    if c / rowElements ≠ sub32 b 1 then rowElements
    else sub32 d (u32 (sub32 b 1 * rowElements))) (scaled.zip (blocksDim metas rowElements)) metas.dims

/-- The generator. `rowElements` stands for the truncated root computed by the
constructor, and `junk` for the bytes `malloc` returns at each block. -/
structure ZorderCurveGenerator where
  metas : ArrayMetadata
  data : Option Bytes
  rowElements : Nat
  rowElements_pos : 0 < rowElements
  junk : Nat → Nat → UInt8
  blockCounter : Nat := 0
  done : Bool := false

namespace ZorderCurveGenerator

def blocks (g : ZorderCurveGenerator) : List Nat := blocksDim g.metas g.rowElements

def nblocks (g : ZorderCurveGenerator) : Nat :=
  g.blocks.foldl (fun n b => u64 (n * b)) 1

def isDone (g : ZorderCurveGenerator) : Bool :=
  g.done || decide (g.nblocks ≤ g.blockCounter)

def malloc (g : ZorderCurveGenerator) (n : Nat) : Bytes := (List.range n).map (g.junk g.blockCounter)

/-- The size header followed by the copied box. -/
def makeChunk (g : ZorderCurveGenerator) (data : Bytes) (size : Nat) (shape : List Nat) (input : Nat) :
    Except Fault Bytes := do
  let chunk ← memcpy (g.malloc (size + 8)) 0 (toLittleEndian 8 size) 0 8
  tessellate g.metas.dims shape g.metas.elemSize data input 8 (8 + size) chunk

def nextPartition (g : ZorderCurveGenerator) : Except Fault Partition :=
  let blockCcs := getIndexes g.blockCounter g.blocks
  let clusterId := getClusterID blockCcs
  let blockId := getBlockID blockCcs
  match g.data with
  | none => .ok ⟨clusterId, blockId, none⟩
  | some data => do
    let scaled := scale g.rowElements blockCcs
    let input := getIdFromIndexes g.metas.dims scaled * g.metas.elemSize
    if isBound g.blocks blockCcs then
      let shape := boundDims g.metas g.rowElements scaled
      let size := shape.foldl (fun size d => u64 (size * d)) g.metas.elemSize
      let chunk ← g.makeChunk data size shape (u64 input)
      .ok ⟨clusterId, blockId, some chunk⟩
    else
      let shape := List.replicate g.metas.dims.length g.rowElements
      let chunk ← g.makeChunk data (blockSize g.metas g.rowElements) shape (u64 input)
      .ok ⟨clusterId, blockId, some chunk⟩

def getNextPartition (g : ZorderCurveGenerator) : Except Fault Partition × ZorderCurveGenerator :=
  (g.nextPartition, { g with blockCounter := g.blockCounter + 1 })

/-- `while (!isDone()) getNextPartition()` -/
def collect (g : ZorderCurveGenerator) : Except Fault (List Partition) :=
  if g.isDone then .ok [] else do
    let part ← g.getNextPartition.1
    let parts ← collect g.getNextPartition.2
    .ok (part :: parts)
termination_by g.nblocks - g.blockCounter
decreasing_by
  rename_i h
  have hlt : ¬ g.nblocks ≤ g.blockCounter := fun hle => h (by simp [isDone, hle])
  change g.nblocks - (g.blockCounter + 1) < g.nblocks - g.blockCounter
  omega

end ZorderCurveGenerator

/-- One round of `merge_partitions`. -/
def mergeChunk (metas : ArrayMetadata) (rowElements : Nat) (data : Bytes) (chunk : Partition) :
    Except Fault Bytes :=
  match chunk.data with
  | none => .error .outOfBounds
  | some input =>
    let zorderId := u32 (chunk.clusterId <<< clusterSize) ||| chunk.blockId
    let ccs := zorderInverse zorderId metas.dims.length
    let scaled := scale rowElements ccs
    let output := u64 (getIdFromIndexes metas.dims scaled * metas.elemSize)
    if input.length < 8 then .error .outOfBounds else
      let retrieved := ofLittleEndian (input.take 8)
      if isBound (blocksDim metas rowElements) ccs then
        copyBlockToArray metas.dims (boundDims metas rowElements scaled) metas.elemSize data output
          input 8 (8 + retrieved)
      else if retrieved ≠ blockSize metas rowElements then
        .error (.moduleException
          "Sth went wrong deciding the size of blocks while merging them into an array")
      else
        copyBlockToArray metas.dims (List.replicate metas.dims.length rowElements) metas.elemSize data
          output input 8 (8 + retrieved)

def mergePartitions (metas : ArrayMetadata) (rowElements : Nat) (chunks : List Partition) (data : Bytes) :
    Except Fault Bytes :=
  chunks.foldlM (mergeChunk metas rowElements) data

end Hecuba
