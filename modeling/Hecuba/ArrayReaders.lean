import Hecuba.ArrayDataStore
import Hecuba.ZorderRoundTrip

/-! The two readers of whole arrays of `ArrayDataStore`, and sessions of calls on one store.
One reader asks for clusters and remembers in the store which ones it has asked for, the
other one asks for every block. -/

namespace Hecuba

namespace ZorderCurveGenerator

variable (g : ZorderCurveGenerator)

def clustersDim : List Nat := g.blocks.mapIdx fun dim b => if dim < 2 then u32 (b + 1) / 2 else b

def nclusters : Nat := g.clustersDim.foldl (fun n c => u64 (n * c)) 1

def computeNextClusterId : Nat × ZorderCurveGenerator :=
  if g.done || g.blockCounter == g.nclusters then (clusterEndFlag, { g with done := true })
  else
    let blockCcs := (getIndexes g.blockCounter g.clustersDim).mapIdx fun i c => if i < 2 then u32 (c * 2) else c
    (u32 (computeZorder blockCcs >>> clusterSize),
      { g with blockCounter := g.blockCounter + 1, done := g.blockCounter + 1 == g.nclusters })

def clusterIds (g : ZorderCurveGenerator) : List Nat :=
  if g.isDone then [] else g.computeNextClusterId.1 :: clusterIds g.computeNextClusterId.2
termination_by if g.done then 0 else g.nblocks - g.blockCounter + 1
decreasing_by
  rename_i h
  rw [isDone, Bool.or_eq_true, decide_eq_true_eq, not_or] at h
  obtain ⟨hd, hlt⟩ := h
  rw [if_neg hd, computeNextClusterId]
  split
  · rw [if_pos rfl]
    omega
  · dsimp only
    split
    · omega
    · change g.nblocks - (g.blockCounter + 1) + 1 < _
      omega

end ZorderCurveGenerator

/-- An array whose blocks can be named in Z-order. `rowElements` elements fit a block of
`BLOCK_SIZE` bytes, and numpy allows no more than 64 dimensions. -/
structure ZorderArray where
  metas : ArrayMetadata
  rowElements : Nat
  row_pos : 0 < rowElements
  block_fits : rowElements * metas.elemSize ≤ 4096
  elem_pos : 1 ≤ metas.elemSize
  dims_ne : metas.dims ≠ []
  ndims_le : metas.dims.length ≤ 64
  fits : metas.elemSize * metas.dims.prod < 2 ^ 63
  morton : MortonBelow metas rowElements

def ZorderArray.size (a : ZorderArray) : Nat := a.metas.elemSize * a.metas.dims.prod

abbrev ZorderArray.Buffer (a : ZorderArray) : Type := { bytes : Bytes // bytes.length = a.size }

abbrev StorageId := String

inductive Thrown where
  | moduleException (msg : String)
  | outOfRange
  | undefined
  deriving DecidableEq

def Fault.thrown : Fault → Thrown
  | .moduleException msg => .moduleException msg
  | .outOfBounds => .undefined

abbrev ArrayRows := Nat × Nat → Option Bytes

namespace ArrayDataStore

def getCrow (rows : ArrayRows) (clusterId blockId : Nat) : List (List Bytes) :=
  (rows (clusterId, blockId)).toList.map fun payload => [payload]

def getElement (row : List Bytes) (position : Nat) : Except Thrown Bytes :=
  match row[position]? with
  | some bytes => .ok bytes
  | none => .error .outOfRange

/-- The loop of `read_numpy_from_cas`. The key has the cluster alone; `garbage` is what its
bytes for the block are in the request for a cluster, and a cluster is asked for once. -/
def readClusters (rows : ArrayRows) (garbage : Nat → Nat) :
    List Nat → Finset Nat → Bool → List Partition → Except Thrown (Bool × List Partition) × Finset Nat
  | [], loaded, cached, parts => (.ok (cached, parts), loaded)
  | clusterId :: ids, loaded, cached, parts =>
    if clusterId ∈ loaded then readClusters rows garbage ids loaded true parts
    else
      let found := (getCrow rows clusterId (garbage clusterId)).mapM fun row => do
        let block ← getElement row 0
        let chunk ← getElement row 1
        .ok (⟨clusterId, ofLittleEndian (block.take 4), some chunk⟩ : Partition)
      match found with
      | .error e => (.error e, insert clusterId loaded)
      | .ok new => readClusters rows garbage ids (insert clusterId loaded) cached (parts ++ new)

def mergeInto (a : ZorderArray) (parts : List Partition) (buf : Bytes) : Except Thrown Bytes :=
  match mergePartitions a.metas a.rowElements parts buf with
  | .ok bytes => .ok bytes
  | .error fault => .error fault.thrown

variable (a : ZorderArray)

def clusterIds : List Nat :=
  (ZorderCurveGenerator.mk a.metas none a.rowElements a.row_pos (fun _ _ => 0) 0 false).clusterIds

/-- What is in `save` at the end, or what is thrown; and `loaded_cluster_ids`. -/
def readNumpyFromCas (rows : ArrayRows) (garbage : Nat → Nat) (loaded : Finset Nat) (save : Bytes) :
    Except Thrown Bytes × Finset Nat :=
  match readClusters rows garbage (clusterIds a) loaded false [] with
  | (.error e, loaded) => (.error e, loaded)
  | (.ok (cached, parts), loaded) =>
    if parts.isEmpty && !cached then (.error (.moduleException "no npy found on sys"), loaded)
    else (mergeInto a parts save, loaded)

def readNumpyFromCasByCoords (sid : StorageId) (rows : ArrayRows) (save : Bytes) : Except Thrown Bytes :=
  match requestedPartitions a.metas .zorderAlgorithm a.rowElements a.row_pos with
  | .error fault => .error fault.thrown
  | .ok asked => do
    let found ← asked.mapM fun part => (getCrow rows part.clusterId part.blockId).mapM fun row => do
      let chunk ← getElement row 0
      .ok (⟨part.clusterId, part.blockId, some chunk⟩ : Partition)
    if found.flatten.isEmpty then .error (.moduleException ("no npy found on sys for uuid " ++ sid))
    else mergeInto a found.flatten save

def storeRows (rows : ArrayRows) (parts : List Partition) : ArrayRows :=
  parts.foldl (fun rows part => Function.update rows part.key part.data) rows


/-- A call on the store, of an array and with memory of its size. `junk` is what fresh
memory holds. -/
inductive StoreCall (arrays : StorageId → ZorderArray) where
  | storeNumpy (sid : StorageId) (data : (arrays sid).Buffer) (junk : Nat → Nat → UInt8)
  | readNumpy (sid : StorageId) (save : (arrays sid).Buffer) (garbage : Nat → Nat)
  | readNumpyByCoords (sid : StorageId) (save : (arrays sid).Buffer)

structure StoreState where
  rows : StorageId → ArrayRows
  loaded : Finset Nat

variable {arrays : StorageId → ZorderArray}

def StoreState.initial : StoreState := ⟨fun _ _ => none, ∅⟩

/-- A call that throws leaves behind what it has put into the set. -/
def StoreCall.step (s : StoreState) : StoreCall arrays → StoreState
  | .storeNumpy sid data junk =>
    match storeNumpyIntoCas (arrays sid).metas .zorderAlgorithm (arrays sid).rowElements (arrays sid).row_pos
        junk data.1 with
    | .ok parts => { s with rows := Function.update s.rows sid (storeRows (s.rows sid) parts) }
    | .error _ => s
  | .readNumpy sid save garbage =>
    { s with loaded := (readNumpyFromCas (arrays sid) (s.rows sid) garbage s.loaded save.1).2 }
  | .readNumpyByCoords _ _ => s

def runCalls (calls : List (StoreCall arrays)) : StoreState := calls.foldl StoreCall.step .initial

def StoreCall.stored (sid : StorageId) (last : Option Bytes) : StoreCall arrays → Option Bytes
  | .storeNumpy sid' data _ => if sid' = sid then some data.1 else last
  | _ => last

def lastStored (calls : List (StoreCall arrays)) (sid : StorageId) : Option Bytes :=
  calls.foldl (StoreCall.stored sid) none

/-- Whether two calls end alike: with the same bytes, or with exceptions of one class. -/
def SameOutcome : Except Thrown Bytes → Except Thrown Bytes → Prop
  | .ok bytes, .ok bytes' => bytes = bytes'
  | .error (.moduleException _), .error (.moduleException _) => True
  | .error .outOfRange, .error .outOfRange => True
  | .error .undefined, .error .undefined => True
  | _, _ => False

end ArrayDataStore

end Hecuba
