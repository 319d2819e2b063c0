import Hecuba.FortranOrder
import Hecuba.ViewComposer

/-! Persistent arrays and the views of them that `getitem` and `split` make. -/

namespace Hecuba

inductive PartitionType where
  | zorder | columnar | fortran
  deriving DecidableEq

/-- An array in the table, and the functions of its partitioner. `rowElements` stands for the
rounded root of the number of elements in a block: at least 1, and no larger for more
dimensions. -/
structure PersistentArray where
  shape : List Nat
  elemSize : Nat
  partitionType : PartitionType
  rowElements : Nat → Nat
  arrowEnabled : Bool
  shape_ne : shape ≠ []
  shape_pos : ∀ d ∈ shape, 1 ≤ d
  elemSize_pos : 1 ≤ elemSize
  elemSize_lt : elemSize < 2 ^ 32
  fits : elemSize * shape.prod < 2 ^ 63
  /-- `_persist_data` is never given the columnar format. -/
  partitionType_ne : partitionType ≠ .columnar
  rowElements_pos : ∀ n, 1 ≤ rowElements n
  rowElements_anti : ∀ m n, m ≤ n → rowElements n ≤ rowElements m

theorem double_lt : 8 < 2 ^ 32 := by decide

def doubles (shape : List Nat) (shape_ne : shape ≠ []) (shape_pos : ∀ d ∈ shape, 1 ≤ d)
    (fits : 8 * shape.prod < 2 ^ 63) : PersistentArray where
  shape := shape
  elemSize := 8
  partitionType := .zorder
  rowElements n := if n ≤ 1 then 512 else 22
  arrowEnabled := false
  shape_ne := shape_ne
  shape_pos := shape_pos
  elemSize_pos := by decide
  elemSize_lt := double_lt
  fits := fits
  partitionType_ne := by decide
  rowElements_pos n := by split <;> decide
  rowElements_anti m n h := by split <;> split <;> omega

inductive Key where
  | int (i : Int)
  | slice (s : Slice)
  | tuple (entries : List Entry)
  deriving DecidableEq

def Key.entries : Key → List Entry
  | .int i => [.int i]
  | .slice s => [.slice s]
  | .tuple entries => entries

def Key.truthy : Key → Bool
  | .int i => i != 0
  | .slice _ => true
  | .tuple entries => !entries.isEmpty

/-- `nBlocks` is `none` where `_n_blocks` has never been set, and `some none` where it is None. -/
structure StorageNumpy where
  axes : List Axis
  metas : ArrayMetadata
  viewSerialization : List Entry
  nBlocks : Option (Option Nat)
  loadedCoordinates : List (List Int)
  numpyFullLoaded : Bool

structure PartitionIdxs where
  id : Nat
  clusterId : Nat
  blockId : Nat
  ccs : List Nat

namespace PersistentArray

variable (a : PersistentArray)

def rowElem : Nat := a.rowElements a.shape.length

theorem rowElem_pos : 0 < a.rowElem := a.rowElements_pos _

def harrayMetadata (shape : List Nat) : ArrayMetadata where
  elemSize := a.elemSize
  dims := shape.map u32
  elemSize_lt := a.elemSize_lt
  dims_lt := by
    intro d hd
    obtain ⟨n, -, rfl⟩ := List.mem_map.mp hd
    exact Nat.mod_lt _ (by decide)

def getNextPartitionIdxs (blocks : List Nat) (blockCounter : Nat) : PartitionIdxs :=
  let ccs := getIndexes blockCounter blocks
  match a.partitionType with
  | .fortran => ⟨blockCounter + 1, FortranOrderGenerator.getClusterID ccs,
      FortranOrderGenerator.getBlockID blocks ccs, ccs⟩
  | _ => ⟨computeZorder ccs, getClusterID ccs, getBlockID ccs, ccs⟩

/-- `while (!isDone()) getNextPartitionIdxs()`, by the number of dimensions of `metas`. -/
def getBlockIds (metas : ArrayMetadata) : List PartitionIdxs :=
  let blocks := blocksDim metas (a.rowElements metas.dims.length)
  (List.range (blocks.foldl (fun n b => u64 (n * b)) 1)).map (a.getNextPartitionIdxs blocks)

def calculateNblocks (view : List Entry) : Except PyError Nat := do
  let l ← calculateListOfRangesOfBlockCoords a.rowElem a.shape view
  .ok (l.foldl (fun n i => n * i.length) 1)

def instantiate (full : Bool) : Except PyError StorageNumpy := do
  let view := a.shape.map fun _ => Entry.slice ⟨none, none, none⟩
  let nBlocks ← a.calculateNblocks view
  .ok ⟨a.shape.map (.range 0 1), a.harrayMetadata a.shape, view, some (some nBlocks), [], full⟩

/-- A stored view of the array, of which nothing is in memory. No attribute can be set where
numpy gives a single element. -/
def initializeExistingObject (myview : List Entry) : Except PyError StorageNumpy := do
  let axes ← numpyGetitem (a.shape.map (.range 0 1)) myview
  if shapeOf axes = [] then .error (.attributeError "storage_id")
  let nBlocks ← a.calculateNblocks myview
  .ok ⟨axes, a.harrayMetadata (shapeOf axes), myview, some (some nBlocks), [], false⟩

def viewComposerNew (self : StorageNumpy) (newView : Key) : Except PyError (List Entry) :=
  viewComposerInternal a.shape self.viewSerialization newView.entries

def createLazyPersistentView (self : StorageNumpy) (view : Key) : Except PyError StorageNumpy := do
  let newViewSerialization ← a.viewComposerNew self view
  let nBlocks ← a.calculateNblocks newViewSerialization
  .ok { self with
    metas := a.harrayMetadata (shapeOf self.axes)
    viewSerialization := newViewSerialization
    nBlocks := some (some nBlocks) }

def arrayFinalize (obj : StorageNumpy) (axes : List Axis) (lastSlicedCoord : Key) :
    Except PyError StorageNumpy :=
  let self := { obj with axes := axes, nBlocks := none }
  if lastSlicedCoord.truthy then
    if shapeOf obj.axes = shapeOf axes then
      .ok { self with nBlocks := some (obj.nBlocks.getD none), numpyFullLoaded := true }
    else do
      let self ← a.createLazyPersistentView self lastSlicedCoord
      .ok { self with numpyFullLoaded := true }
  else .ok self

def Stored (coord : List Int) : Prop :=
  List.Forall₂ (fun c d => 0 ≤ c ∧ c * a.rowElem < (d : Int)) coord a.shape

instance (coord : List Int) : Decidable (a.Stored coord) :=
  inferInstanceAs (Decidable (List.Forall₂ _ _ _))

/-- The error of the read of these blocks, where it fails. -/
abbrev ReadFailures := List (List Int) → Option PyError

/-- The blocks that are found, of at least one. A read that fails has brought none. -/
def loadNumpySlices (fails : ReadFailures) (coord : List (List Int)) : Except PyError (List (List Int)) :=
  match fails coord with
  | some e => .error e
  | none =>
    let found := coord.filter (a.Stored ·)
    if found = [] then .error .runtimeError else .ok found

structure Outcome (α : Type) where
  self : StorageNumpy
  loaded : List (List Int)
  result : Except PyError α

def loadBlocks (fails : ReadFailures) (self : StorageNumpy) (newCoords : List (List Int)) : Outcome Unit :=
  let coordinates := (self.loadedCoordinates ++ newCoords).dedup
  if coordinates.length = self.loadedCoordinates.length then ⟨self, [], .ok ()⟩ else
    match self.nBlocks with
    | none => ⟨self, [], .error (.attributeError "_n_blocks")⟩
    | some nBlocks =>
      let self := { self with
        numpyFullLoaded := decide (nBlocks = some coordinates.length)
        loadedCoordinates := coordinates }
      match a.loadNumpySlices fails newCoords with
      | .error e => ⟨self, [], .error e⟩
      | .ok found => ⟨self, found, .ok ()⟩

def selectAndLoadBlocks (fails : ReadFailures) (self : StorageNumpy) (slicedCoord : List Entry) : Outcome Unit :=
  match calculateBlockCoords a.rowElem a.shape slicedCoord with
  | .error e => ⟨self, [], .error e⟩
  | .ok blockCoord => a.loadBlocks fails self blockCoord

/-- What `getitem` loads before it indexes the memory. -/
def loadFor (fails : ReadFailures) (self : StorageNumpy) (slicedCoord : Key) : Outcome Unit :=
  if self.numpyFullLoaded then ⟨self, [], .ok ()⟩ else
    match a.viewComposerNew self slicedCoord with
    | .error e => ⟨self, [], .error e⟩
    | .ok bigSlicedCoord => a.selectAndLoadBlocks fails self bigSlicedCoord

/-- Only the accesses to single elements give no view. -/
def getitem (fails : ReadFailures) (self : StorageNumpy) (slicedCoord : Key) : Outcome (Option StorageNumpy) :=
  let load := a.loadFor fails self slicedCoord
  { self := load.self
    loaded := load.loaded
    result := do
      load.result
      let axes ← numpyGetitem load.self.axes slicedCoord.entries
      if shapeOf axes = [] then .ok none else
        let view ← a.arrayFinalize load.self axes slicedCoord
        .ok (some view) }

/-- The blocks that are stored, when the values fit. The assignment of numpy changes no flags. -/
def setitem (fails : ReadFailures) (self : StorageNumpy) (slicedCoord : Key) : Outcome (List (List Int)) :=
  match a.viewComposerNew self slicedCoord with
  | .error e => ⟨self, [], .error e⟩
  | .ok bigSlicedCoord =>
    match calculateBlockCoords a.rowElem a.shape bigSlicedCoord with
    | .error e => ⟨self, [], .error e⟩
    | .ok blockCoords =>
      let load : Outcome Unit :=
        if self.numpyFullLoaded then ⟨self, [], .ok ()⟩ else a.loadBlocks fails self blockCoords
      { self := load.self
        loaded := load.loaded
        result := do
          load.result
          let _ ← numpyGetitem load.self.axes slicedCoord.entries
          .ok blockCoords }

def arrowOn (self : StorageNumpy) : Bool := a.arrowEnabled && (shapeOf self.axes).length == 2

/-- The clusters that have a token range, where locality is exploited. -/
def getTokens (self : StorageNumpy) (cols : Option Bool) : Option (List Nat) :=
  let exploitLocality := if a.arrowOn self then cols != some false else cols == none
  if exploitLocality then some ((a.getBlockIds self.metas).map (·.clusterId)) else none

/-- A view of `split`, which is as loaded as the object was when the loop began. -/
def splitView (self : StorageNumpy) (parentNumpyFullLoaded : Bool) (slc : List Window) :
    Except PyError StorageNumpy := do
  let axes ← numpyGetitem self.axes (slc.map Window.toEntry)
  let view ← a.arrayFinalize self axes (.tuple (slc.map Window.toEntry))
  .ok { view with numpyFullLoaded := parentNumpyFullLoaded }

def token (tokens : List Nat) (clusterId : Nat) : Except PyError Unit :=
  if clusterId ∈ tokens then .ok () else .error (.keyError clusterId)

def blockWindow (i : Nat) : Window := (some i, some (i + a.rowElem))

def listOfClusters (stop : Nat) : List Nat :=
  (List.range ((stop + a.rowElem - 1) / a.rowElem)).map (· * a.rowElem)

section loops

variable (self : StorageNumpy) (tokens : Option (List Nat)) (parentNumpyFullLoaded : Bool)

def yieldBlock (block : PartitionIdxs) : Except PyError StorageNumpy := do
  match tokens with
  | none => .error (.typeError "'NoneType' object is not subscriptable")
  | some tokens => token tokens block.clusterId
  a.splitView self parentNumpyFullLoaded ((block.ccs.map (· * a.rowElem)).map a.blockWindow)

def yieldCols (clusterId : Nat) : Except PyError StorageNumpy := do
  let view ← a.splitView self parentNumpyFullLoaded [(none, none), a.blockWindow clusterId]
  match tokens with
  | none => .ok view
  | some tokens => do
    token tokens (clusterId / a.rowElem)
    .ok view

def yieldRows (clusterId : Nat) : Except PyError StorageNumpy :=
  a.splitView self parentNumpyFullLoaded [a.blockWindow clusterId, (none, none)]

end loops

def splitByBlocks (self : StorageNumpy) (tokens : Option (List Nat)) : Except PyError (List StorageNumpy) :=
  (a.getBlockIds self.metas).mapM (a.yieldBlock self tokens self.numpyFullLoaded)

def splitByCols (self : StorageNumpy) (tokens : Option (List Nat)) : Except PyError (List StorageNumpy) :=
  match shapeOf self.axes with
  | _ :: n :: _ => (a.listOfClusters n).mapM (a.yieldCols self tokens self.numpyFullLoaded)
  | _ => .error .indexError

def splitByRows (self : StorageNumpy) : Except PyError (List StorageNumpy) :=
  match shapeOf self.axes with
  | n :: _ => (a.listOfClusters n).mapM (a.yieldRows self self.numpyFullLoaded)
  | _ => .error .indexError

def split (self : StorageNumpy) (cols : Option Bool) : Except PyError (List StorageNumpy) :=
  if a.partitionType = .columnar then
    .error (.notImplementedError "Split on columnar data is not supported")
  else
    let tokens := a.getTokens self cols
    match cols with
    | some true => a.splitByCols self tokens
    | some false => a.splitByRows self
    | none => a.splitByBlocks self tokens

end PersistentArray

end Hecuba
