import Hecuba.SelectedBlocks

/-! Accesses to an array and to the views of it, which share its memory. -/

namespace Hecuba

namespace PersistentArray

/-- The loop of a generator reads the flag of its object when it begins. -/
structure SplitGenerator where
  object : Nat
  cols : Option Bool
  tokens : Option (List Nat)
  parentNumpyFullLoaded : Option Bool
  position : Nat

/-- The objects and the generators made so far, of which `none` have finished, and the blocks
that are in the memory of the array. -/
structure Session where
  objects : List StorageNumpy
  generators : List (Option SplitGenerator)
  loaded : List (List Int)

inductive Call where
  | getitem (object : Nat) (slicedCoord : Key)
  | setitem (object : Nat) (slicedCoord : Key) (values : Option Nat)
  | split (object : Nat) (cols : Option Bool)
  | next (generator : Nat)

def Key.all : Key := .slice ⟨none, none, none⟩

section steps

variable (a : PersistentArray)

def nextSlices (self : StorageNumpy) (cols : Option Bool) (position : Nat) : Option (List Window) :=
  match cols, shapeOf self.axes with
  | none, _ => (a.getBlockIds self.metas)[position]?.map fun block =>
      (block.ccs.map (· * a.rowElem)).map a.blockWindow
  | some true, _ :: n :: _ => (a.listOfClusters n)[position]?.map fun clusterId =>
      [(none, none), a.blockWindow clusterId]
  | some false, n :: _ => (a.listOfClusters n)[position]?.map fun clusterId =>
      [a.blockWindow clusterId, (none, none)]
  | _, _ => none

def yieldNext (self : StorageNumpy) (cols : Option Bool) (tokens : Option (List Nat))
    (parentNumpyFullLoaded : Bool) (position : Nat) : Option (Except PyError StorageNumpy) :=
  match cols, shapeOf self.axes with
  | none, _ => (a.getBlockIds self.metas)[position]?.map (a.yieldBlock self tokens parentNumpyFullLoaded)
  | some true, _ :: n :: _ =>
    (a.listOfClusters n)[position]?.map (a.yieldCols self tokens parentNumpyFullLoaded)
  | some false, n :: _ => (a.listOfClusters n)[position]?.map (a.yieldRows self parentNumpyFullLoaded)
  | _, _ => some (.error .indexError)

def Session.apply {α : Type} (s : Session) (object : Nat) (out : Outcome α) : Session :=
  { s with objects := s.objects.set object out.self, loaded := s.loaded ++ out.loaded }

/-- `fails` says of each object which of its reads fail now. -/
def Session.getitem (s : Session) (fails : Nat → ReadFailures) (object : Nat) (slicedCoord : Key) : Session :=
  match s.objects[object]? with
  | none => s
  | some self =>
    let out := a.getitem (fails object) self slicedCoord
    match out.result with
    | .ok (some view) => { s.apply object out with objects := (s.apply object out).objects ++ [view] }
    | _ => s.apply object out

/-- `values[:]`, where the values are an object that is not loaded, and whether the call goes on. -/
def Session.loadValues (s : Session) (fails : Nat → ReadFailures) (values : Option Nat) : Session × Bool :=
  match values.bind (s.objects[·]?) with
  | none => (s, true)
  | some self =>
    if self.numpyFullLoaded then (s, true) else
      let out := a.getitem (fails (values.getD 0)) self Key.all
      (s.apply (values.getD 0) out, out.result matches .ok _)

def Session.setitem (s : Session) (fails : Nat → ReadFailures) (object : Nat) (slicedCoord : Key)
    (values : Option Nat) : Session :=
  match s.loadValues a fails values with
  | (s, false) => s
  | (s, true) =>
    match s.objects[object]? with
    | none => s
    | some self => s.apply object (a.setitem (fails object) self slicedCoord)

def Session.split (s : Session) (object : Nat) (cols : Option Bool) : Session :=
  match s.objects[object]? with
  | none => s
  | some self =>
    { s with generators := s.generators ++ [some ⟨object, cols, a.getTokens self cols, none, 0⟩] }

/-- An error ends a generator as the end of its loop does. -/
def Session.next (s : Session) (generator : Nat) : Session :=
  match (s.generators[generator]?).join with
  | none => s
  | some gen =>
    match s.objects[gen.object]? with
    | none => s
    | some self =>
      let full := gen.parentNumpyFullLoaded.getD self.numpyFullLoaded
      match a.yieldNext self gen.cols gen.tokens full gen.position with
      | some (.ok view) =>
        { s with
          objects := s.objects ++ [view]
          generators := s.generators.set generator
            (some { gen with parentNumpyFullLoaded := some full, position := gen.position + 1 }) }
      | _ => { s with generators := s.generators.set generator none }

def Session.step (fails : Nat → ReadFailures) (s : Session) : Call → Session
  | .getitem object slicedCoord => s.getitem a fails object slicedCoord
  | .setitem object slicedCoord values => s.setitem a fails object slicedCoord values
  | .split object cols => s.split a object cols
  | .next generator => s.next a generator

end steps

section meets

variable (a : PersistentArray)

def OwnBlocks (view : List Entry) (coords : List (List Int)) : Prop :=
  ∀ own, calculateBlockCoords a.rowElem a.shape view = .ok own → coords ⊆ own

/-- The load for a key, of an object that is not loaded, asks for blocks of its own, and its
read does not fail. -/
def LoadMeets (fails : ReadFailures) (self : StorageNumpy) (slicedCoord : Key) : Prop :=
  self.numpyFullLoaded = false → ∀ view blockCoord, a.viewComposerNew self slicedCoord = .ok view →
    calculateBlockCoords a.rowElem a.shape view = .ok blockCoord →
      fails blockCoord = none ∧ a.OwnBlocks self.viewSerialization blockCoord

/-- A view of another serialized form, which is not marked as loaded, takes over only
coordinates of its own blocks. -/
def InheritMeets (self : StorageNumpy) (slicedCoord : Key) (full : Bool) : Prop :=
  full = false → ∀ view axes, a.viewComposerNew self slicedCoord = .ok view →
    numpyGetitem self.axes slicedCoord.entries = .ok axes → shapeOf self.axes ≠ shapeOf axes →
      a.OwnBlocks view self.loadedCoordinates

/-- The composer and numpy agree on a key: the serialized view has the cells of the view where
they are still to be loaded, and no others than its object where it is marked as loaded. -/
def ViewMeets (self : StorageNumpy) (slicedCoord : Key) (full : Bool) : Prop :=
  ∀ view axes, a.viewComposerNew self slicedCoord = .ok view →
    numpyGetitem self.axes slicedCoord.entries = .ok axes → shapeOf axes ≠ [] →
    (self.numpyFullLoaded = false → ∀ c, IsCell axes c → Selects a.shape view c) ∧
    (full = true → slicedCoord.truthy → shapeOf self.axes ≠ shapeOf axes →
      ∀ c, Selects a.shape view c → Selects a.shape self.viewSerialization c)

/-- The view of the shape of its object, whose serialized form it keeps, has all of its cells. -/
def WholeMeets (self : StorageNumpy) (slicedCoord : Key) : Prop :=
  ∀ view axes, a.viewComposerNew self slicedCoord = .ok view →
    numpyGetitem self.axes slicedCoord.entries = .ok axes → self.numpyFullLoaded = false →
    slicedCoord.truthy → shapeOf self.axes = shapeOf axes →
      ∀ c, Selects a.shape self.viewSerialization c → Selects a.shape view c

def Session.Meets (s : Session) (fails : Nat → ReadFailures) : Call → Prop
  | .getitem object slicedCoord => ∀ self ∈ s.objects[object]?,
      a.LoadMeets (fails object) self slicedCoord ∧
        a.ViewMeets self slicedCoord self.numpyFullLoaded ∧ a.WholeMeets self slicedCoord
  | .setitem object slicedCoord values =>
      (∀ self ∈ values.bind (s.objects[·]?), a.LoadMeets (fails (values.getD 0)) self Key.all) ∧
        ∀ self ∈ (s.loadValues a fails values).1.objects[object]?,
          a.LoadMeets (fails object) self slicedCoord
  | .split _ _ => True
  | .next generator => ∀ gen ∈ (s.generators[generator]?).join, ∀ self ∈ s.objects[gen.object]?,
      ∀ slc ∈ a.nextSlices self gen.cols gen.position,
        let full := gen.parentNumpyFullLoaded.getD self.numpyFullLoaded
        a.ViewMeets self (.tuple (slc.map Window.toEntry)) full ∧
          a.InheritMeets self (.tuple (slc.map Window.toEntry)) full

/-- The runs from an array, or a stored view of it, of which nothing is loaded, in which all
calls meet the conditions. -/
inductive Session.Reachable : Session → Prop where
  | instantiate {self : StorageNumpy} : a.arrowEnabled = false → a.instantiate false = .ok self →
      Reachable ⟨[self], [], []⟩
  | initializeExistingObject {self : StorageNumpy} (myview : List Entry) : a.arrowEnabled = false →
      a.initializeExistingObject myview = .ok self →
      (∀ c, IsCell self.axes c → Selects a.shape myview c) → Reachable ⟨[self], [], []⟩
  | step {s : Session} (fails : Nat → ReadFailures) (call : Call) : Reachable s →
      s.Meets a fails call → Reachable (s.step a fails call)

end meets

section loops

variable {a : PersistentArray} {o v : StorageNumpy} {cols : Option Bool} {tokens : Option (List Nat)}
  {full : Bool} {position : Nat}

theorem yieldNext_slices (h : a.yieldNext o cols tokens full position = some (.ok v)) :
    ∃ slc, a.nextSlices o cols position = some slc ∧ a.splitView o full slc = .ok v := by
  unfold yieldNext at h
  unfold nextSlices
  split at h
  · obtain ⟨block, hblock, hv⟩ := Option.map_eq_some_iff.mp h
    rw [hblock]
    cases tokens with
    | none => cases hv
    | some tokens => exact ⟨_, rfl, (bind_ok_iff.mp hv).choose_spec.2⟩
  · obtain ⟨i, hi, hv⟩ := Option.map_eq_some_iff.mp h
    obtain ⟨view, hview, hv⟩ := bind_ok_iff.mp hv
    have he : view = v := by
      cases tokens with
      | none => exact Except.ok.inj hv
      | some tokens =>
        obtain ⟨-, -, hv⟩ := bind_ok_iff.mp hv
        exact Except.ok.inj hv
    rw [hi]
    exact ⟨_, rfl, he ▸ hview⟩
  · obtain ⟨i, hi, hv⟩ := Option.map_eq_some_iff.mp h
    rw [hi]
    exact ⟨_, rfl, hv⟩
  · cases h

theorem getElem?_map_of_mapM {α β ε : Type} {f : α → Except ε β} {l : List α} {r : List β}
    (h : l.mapM f = .ok r) (k : Nat) : l[k]?.map f = r[k]?.map .ok := by
  have hall := List.forall₂_iff_get.mp (mapM_ok_iff.mp h)
  by_cases hk : k < l.length
  · have hk' : k < r.length := by rw [← hall.1]; exact hk
    rw [List.getElem?_eq_getElem hk, List.getElem?_eq_getElem hk']
    exact congrArg some (hall.2 k hk hk')
  · rw [List.getElem?_eq_none (by omega), List.getElem?_eq_none (by omega)]
    rfl

theorem split_yieldNext {views : List StorageNumpy} (h : a.split o cols = .ok views) (k : Nat) :
    a.yieldNext o cols (a.getTokens o cols) o.numpyFullLoaded k = views[k]?.map .ok := by
  rw [split, if_neg a.partitionType_ne] at h
  unfold yieldNext
  cases cols with
  | none => exact getElem?_map_of_mapM h k
  | some cols =>
    cases cols with
    | true =>
      change a.splitByCols o _ = _ at h
      rw [splitByCols] at h
      split at h
      · rename_i hshape
        simp only [hshape]
        exact getElem?_map_of_mapM h k
      · cases h
    | false =>
      change a.splitByRows o = _ at h
      rw [splitByRows] at h
      split at h
      · rename_i hshape
        simp only [hshape]
        exact getElem?_map_of_mapM h k
      · cases h

end loops

end PersistentArray

end Hecuba
