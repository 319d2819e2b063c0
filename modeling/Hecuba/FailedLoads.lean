import Mathlib.Data.Finset.Card
import Mathlib.Data.Finset.Dedup
import Mathlib.Data.Finset.Lattice.Basic
import Hecuba.StorageNumpy

/-! What `_load_blocks` and `_load_columns` note of an object before they read the table, and
what is left of it when the read fails. -/

namespace Hecuba

/-- `loadedCoordinates` is `none` where it is None, once everything was asked for at once. -/
structure Bookkeeping where
  loadedCoordinates : Option (List (List Int))
  loadedColumns : Finset Int
  numpyFullLoaded : Bool
  persistentColumnar : Bool
  deriving DecidableEq

structure LoadContext where
  nBlocks : Option (Option Nat)
  shape : List Nat
  baseShape : List Nat

inductive LoadRequest where
  | blocks (coords : Option (List (List Int)))
  | columns (columns : List Int)
  deriving DecidableEq

inductive LoadCall where
  | loadBlocks (newCoords : Option (List (List Int)))
  | loadColumns (columns : List Int)

def secondDim : List Nat → Except PyError Nat
  | _ :: n :: _ => .ok n
  | _ => .error .indexError

def checkColumnsInBounds (baseShape : List Nat) : List Int → Except PyError Unit
  | [] => .ok ()
  | col :: columns => do
    let size ← secondDim baseShape
    checkValueInShape col size 1
    checkColumnsInBounds baseShape columns

namespace Bookkeeping

/-- `_load_blocks` up to `if load`: the request is left out when no coordinate is new. -/
def prepareBlocks (ctx : LoadContext) (self : Bookkeeping) :
    Option (List (List Int)) → Except PyError (Bookkeeping × Option LoadRequest)
  | none => .ok ({ self with numpyFullLoaded := true, loadedCoordinates := none }, some (.blocks none))
  | some newCoords =>
    match self.loadedCoordinates with
    | none => .error (.typeError "'NoneType' object is not iterable")
    | some loaded =>
      let coordinates := (loaded ++ newCoords).dedup
      if coordinates.length = loaded.length then .ok (self, none) else
        match ctx.nBlocks with
        | none => .error (.attributeError "_n_blocks")
        | some nBlocks =>
          .ok ({ self with
            numpyFullLoaded := decide (nBlocks = some coordinates.length)
            loadedCoordinates := some coordinates }, some (.blocks (some newCoords)))

def prepareColumns (ctx : LoadContext) (self : Bookkeeping) (columns : List Int) :
    Except PyError (Bookkeeping × Option LoadRequest) := do
  checkColumnsInBounds ctx.baseShape columns
  let coordinates := self.loadedColumns ∪ columns.toFinset
  if coordinates.card = self.loadedColumns.card then .ok (self, none) else do
    let n ← secondDim ctx.shape
    .ok ({ self with
      numpyFullLoaded := decide (coordinates.card = n)
      loadedColumns := coordinates
      persistentColumnar := true }, some (.columns columns))

def prepare (ctx : LoadContext) (self : Bookkeeping) :
    LoadCall → Except PyError (Bookkeeping × Option LoadRequest)
  | .loadBlocks newCoords => prepareBlocks ctx self newCoords
  | .loadColumns columns => prepareColumns ctx self columns

section load

variable (loadNumpySlices : LoadRequest → Except PyError Unit) (ctx : LoadContext)

def load (self : Bookkeeping) (call : LoadCall) : Bookkeeping × Except PyError Unit :=
  match self.prepare ctx call with
  | .error e => (self, .error e)
  | .ok (self, none) => (self, .ok ())
  | .ok (self, some request) => (self, loadNumpySlices request)

def FailsInLoad (self : Bookkeeping) (call : LoadCall) : Prop :=
  ∃ noted request e, self.prepare ctx call = .ok (noted, some request) ∧ loadNumpySlices request = .error e

end load

section

variable {loadNumpySlices : LoadRequest → Except PyError Unit} {ctx : LoadContext} {self noted : Bookkeeping}
  {request : LoadRequest}

theorem prepare_request {call : LoadCall} (h : self.prepare ctx call = .ok (noted, some request)) :
    (call = .loadBlocks none ∧ request = .blocks none ∧
      noted = { self with numpyFullLoaded := true, loadedCoordinates := none }) ∨
    (∃ newCoords loaded, call = .loadBlocks (some newCoords) ∧ request = .blocks (some newCoords) ∧
      self.loadedCoordinates = some loaded ∧ noted.loadedCoordinates = some (loaded ++ newCoords).dedup ∧
      (loaded ++ newCoords).dedup.length ≠ loaded.length) ∨
    (∃ columns, call = .loadColumns columns ∧ request = .columns columns ∧
      noted.loadedColumns = self.loadedColumns ∪ columns.toFinset ∧
      noted.loadedColumns.card ≠ self.loadedColumns.card) := by
  cases call with
  | loadBlocks newCoords =>
    cases newCoords with
    | none =>
      cases h
      exact .inl ⟨rfl, rfl, rfl⟩
    | some newCoords =>
      rw [prepare, prepareBlocks] at h
      cases hloaded : self.loadedCoordinates with
      | none =>
        rw [hloaded] at h
        cases h
      | some loaded =>
        rw [hloaded] at h
        dsimp only at h
        split at h
        · cases h
        · rename_i hne
          split at h
          · cases h
          · cases h
            exact .inr (.inl ⟨newCoords, loaded, rfl, rfl, rfl, rfl, hne⟩)
  | loadColumns columns =>
    rw [prepare, prepareColumns] at h
    obtain ⟨_, -, h⟩ := bind_ok_iff.mp h
    dsimp only at h
    split at h
    · cases h
    · rename_i hne
      obtain ⟨n, -, h⟩ := bind_ok_iff.mp h
      cases h
      exact .inr (.inr ⟨columns, rfl, rfl, rfl, hne⟩)

/-- The flags are those from before the call only when all was noted as loaded already. -/
theorem failed_load_unchanged_iff {call : LoadCall} (h : self.FailsInLoad loadNumpySlices ctx call) :
    (self.load loadNumpySlices ctx call).1 = self ↔
      call = .loadBlocks none ∧ self.numpyFullLoaded = true ∧ self.loadedCoordinates = none := by
  obtain ⟨noted, request, e, hprepare, -⟩ := h
  have hload : (self.load loadNumpySlices ctx call).1 = noted := by rw [load, hprepare]
  rw [hload]
  rcases prepare_request hprepare with ⟨rfl, -, rfl⟩ | ⟨newCoords, loaded, rfl, -, hself, hnoted, hne⟩ |
    ⟨columns, rfl, -, -, hne⟩
  · cases self
    simp [eq_comm, and_comm]
  · refine iff_of_false ?_ (by simp)
    rintro rfl
    rw [hself] at hnoted
    exact hne (congrArg List.length (Option.some.inj hnoted)).symm
  · refine iff_of_false ?_ (by simp)
    rintro rfl
    exact hne rfl

theorem failed_load_unchanged_full :
    (load (fun _ => .error .runtimeError) ⟨some (some 1), [4], [4]⟩ ⟨none, ∅, true, false⟩ (.loadBlocks none)).1 =
      ⟨none, ∅, true, false⟩ := by
  refine (failed_load_unchanged_iff ⟨_, _, .runtimeError, rfl, rfl⟩).mpr ⟨rfl, rfl, rfl⟩

theorem failed_load_noted :
    ¬ ∀ (loadNumpySlices : LoadRequest → Except PyError Unit) (ctx : LoadContext) (self : Bookkeeping)
      (call : LoadCall), self.FailsInLoad loadNumpySlices ctx call →
        (self.load loadNumpySlices ctx call).1 = self := by
  intro h
  have hsame := h (fun _ => .error .runtimeError) ⟨some (some 1), [4], [4]⟩ ⟨some [], ∅, false, false⟩
    (.loadBlocks (some [[0]])) ⟨_, _, .runtimeError, rfl, rfl⟩
  exact absurd (congrArg numpyFullLoaded hsame) (by decide)

theorem retry_requests_nothing {call : LoadCall} (hcall : call ≠ .loadBlocks none)
    (h : self.prepare ctx call = .ok (noted, some request)) : noted.prepare ctx call = .ok (noted, none) := by
  rcases prepare_request h with ⟨rfl, -⟩ | ⟨newCoords, loaded, rfl, -, -, hnoted, -⟩ | ⟨columns, rfl, -, hnoted, -⟩
  · exact absurd rfl hcall
  · have hperm : ((loaded ++ newCoords).dedup ++ newCoords).dedup.Perm (loaded ++ newCoords).dedup := by
      refine (List.perm_ext_iff_of_nodup (List.nodup_dedup _) (List.nodup_dedup _)).mpr fun c => ?_
      simp only [List.mem_dedup, List.mem_append]
      tauto
    rw [prepare, prepareBlocks, hnoted]
    exact if_pos hperm.length_eq
  · have hunion : noted.loadedColumns ∪ columns.toFinset = noted.loadedColumns := by
      rw [hnoted, Finset.union_assoc, Finset.union_idempotent]
    rw [prepare, prepareColumns] at h
    obtain ⟨_, hcheck, -⟩ := bind_ok_iff.mp h
    rw [prepare, prepareColumns, hcheck, hunion]
    exact if_pos rfl

/-- The loads of blocks of the persistent arrays, with a table as what answers them. -/
theorem load_eq_loadBlocks {a : PersistentArray} {fails : PersistentArray.ReadFailures} {o : StorageNumpy} {newCoords : List (List Int)}
    (hself : self.loadedCoordinates = some o.loadedCoordinates) (hfull : self.numpyFullLoaded = o.numpyFullLoaded)
    (hblocks : ctx.nBlocks = o.nBlocks)
    (hload : loadNumpySlices (.blocks (some newCoords)) = (a.loadNumpySlices fails newCoords).map fun _ => ()) :
    let after := self.load loadNumpySlices ctx (.loadBlocks (some newCoords))
    after.1.loadedCoordinates = some (a.loadBlocks fails o newCoords).self.loadedCoordinates ∧
      after.1.numpyFullLoaded = (a.loadBlocks fails o newCoords).self.numpyFullLoaded ∧
      after.2 = (a.loadBlocks fails o newCoords).result := by
  rw [load, prepare, prepareBlocks, hself, hblocks, PersistentArray.loadBlocks]
  by_cases hlen : (o.loadedCoordinates ++ newCoords).dedup.length = o.loadedCoordinates.length
  · simp only [hlen, if_true]
    exact ⟨hself, hfull, trivial⟩
  · simp only [hlen, if_false]
    cases o.nBlocks with
    | none => exact ⟨hself, hfull, rfl⟩
    | some nBlocks =>
      dsimp only
      rw [hload]
      cases a.loadNumpySlices fails newCoords with
      | error e => exact ⟨rfl, rfl, rfl⟩
      | ok found => exact ⟨rfl, rfl, rfl⟩

end

end Bookkeeping

end Hecuba
