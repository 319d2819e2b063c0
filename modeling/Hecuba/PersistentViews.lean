import Hecuba.BlockGeometry
import Hecuba.StorageNumpy

/-! What holds of an array and of the views that `getitem` has made of it. -/

namespace Hecuba

namespace PersistentArray

/-- A view describes itself well enough: its metadata end in its shape, and its serialized
form, which the bounds checks have let through, has at least its dimensions. -/
structure WellFormed (a : PersistentArray) (o : StorageNumpy) : Prop where
  strided : Strided o.axes
  shape_ne : shapeOf o.axes ≠ []
  prod_le : (shapeOf o.axes).prod ≤ a.shape.prod
  metas_prod_le : o.metas.dims.prod ≤ a.shape.prod
  metas_dims : ∃ l, o.metas.dims = l ++ (shapeOf o.axes).map u32
  passes : List.Forall₂ EntryPasses a.shape o.viewSerialization
  steps : List.Forall₂ StepPositive a.shape o.viewSerialization
  ndim_le : (shapeOf o.axes).length ≤ (openBounds a.shape o.viewSerialization).length

/-- An array and the views of it that accesses with ints and positive-step slices give. -/
inductive Reachable (a : PersistentArray) : StorageNumpy → Prop where
  | instantiate {full : Bool} {o : StorageNumpy} : a.instantiate full = .ok o → Reachable a o
  | accessed {o : StorageNumpy} (fails : ReadFailures) (key : Key) :
      Reachable a o → Reachable a (a.getitem fails o key).self
  | view {o v : StorageNumpy} (fails : ReadFailures) (key : Key) :
      Reachable a o → (∀ e ∈ key.entries, PositiveStep e) →
      (a.getitem fails o key).result = .ok (some v) → Reachable a v

section wellFormed

variable {a : PersistentArray} {fails : ReadFailures} {o v : StorageNumpy}

theorem prod_map_u32_le (l : List Nat) : (l.map u32).prod ≤ l.prod := by
  induction l with
  | nil => exact Nat.le_refl _
  | cons d l ih =>
    rw [List.map_cons, List.prod_cons, List.prod_cons]
    exact Nat.mul_le_mul (Nat.mod_le _ _) ih

theorem shapeOf_whole (shape : List Nat) : shapeOf (shape.map (.range 0 1)) = shape := by
  induction shape with
  | nil => rfl
  | cons d shape ih => rw [List.map_cons, shapeOf, ih]

theorem calculateNblocks_ok {view : List Entry} {n : Nat} (hl : view.length = a.shape.length)
    (h : a.calculateNblocks view = .ok n) : List.Forall₂ EntryPasses a.shape view := by
  refine (@calculateListOfRanges_ok_iff a.rowElem _ _ hl).mp ?_
  rw [calculateNblocks] at h
  cases hr : calculateListOfRangesOfBlockCoords a.rowElem a.shape view with
  | error e =>
    rw [hr] at h
    cases h
  | ok l => exact ⟨l, rfl⟩

theorem calculateNblocks_ok_iff {view : List Entry} (hl : view.length = a.shape.length) :
    (∃ n, a.calculateNblocks view = .ok n) ↔ List.Forall₂ EntryPasses a.shape view := by
  refine ⟨fun ⟨n, hn⟩ => calculateNblocks_ok hl hn, fun h => ?_⟩
  obtain ⟨l, hl⟩ := (@calculateListOfRanges_ok_iff a.rowElem _ _ hl).mpr h
  exact ⟨_, by rw [calculateNblocks, hl]; rfl⟩

theorem instantiate_wellFormed {full : Bool} (h : a.instantiate full = .ok o) : WellFormed a o := by
  rw [PersistentArray.instantiate] at h
  cases hn : a.calculateNblocks (a.shape.map fun _ => Entry.slice ⟨none, none, none⟩) with
  | error e =>
    rw [hn] at h
    cases h
  | ok n =>
    rw [hn] at h
    cases h
    have hopen (shape : List Nat) :
        (openBounds shape (shape.map fun _ => Entry.slice ⟨none, none, none⟩)).length = shape.length := by
      induction shape with
      | nil => rfl
      | cons d shape ih => rw [List.map_cons, openBounds, List.length_cons, ih, List.length_cons]
    exact {
      strided := by
        intro start step n hm
        obtain ⟨d, -, hd⟩ := List.mem_map.mp hm
        cases hd
        decide
      shape_ne := by
        rw [shapeOf_whole]
        exact a.shape_ne
      prod_le := by rw [shapeOf_whole]
      metas_prod_le := prod_map_u32_le a.shape
      metas_dims := ⟨[], by rw [shapeOf_whole]; rfl⟩
      passes := calculateNblocks_ok (List.length_map _) hn
      steps := by
        rw [List.forall₂_map_right_iff]
        exact List.forall₂_same.mpr fun d _ => show (0 : Int) < 1 by decide
      ndim_le := by rw [shapeOf_whole, hopen] }

theorem createLazyPersistentView_spec {self : StorageNumpy} {key : Key}
    (h : a.createLazyPersistentView self key = .ok v) : ∃ view n,
      a.viewComposerNew self key = .ok view ∧ a.calculateNblocks view = .ok n ∧
      v = { self with
        metas := a.harrayMetadata (shapeOf self.axes), viewSerialization := view, nBlocks := some n } := by
  rw [createLazyPersistentView] at h
  cases hv : a.viewComposerNew self key with
  | error e =>
    rw [hv] at h
    cases h
  | ok view =>
    cases hn : a.calculateNblocks view with
    | error e =>
      rw [hv] at h
      change (a.calculateNblocks view >>= _) = _ at h
      rw [hn] at h
      cases h
    | ok n =>
      rw [hv] at h
      change (a.calculateNblocks view >>= _) = _ at h
      rw [hn] at h
      cases h
      exact ⟨view, n, rfl, hn, rfl⟩

theorem viewComposerNew_eq {key : Key} (hl : o.viewSerialization.length = a.shape.length) :
    a.viewComposerNew o key = composeEntries a.shape o.viewSerialization key.entries := by
  rw [viewComposerNew, viewComposerInternal, if_neg (not_not.mpr hl)]

theorem WellFormed.length_eq (h : WellFormed a o) : o.viewSerialization.length = a.shape.length :=
  h.passes.length_eq.symm

/-- What `array_finalize` gives a view: the serialized form of its object, or the one that is
composed with its key. -/
theorem arrayFinalize_spec {axes : List Axis} {key : Key} (h : a.arrayFinalize o axes key = .ok v) :
    v.axes = axes ∧ v.loadedCoordinates = o.loadedCoordinates ∧
      if key.truthy then
        v.numpyFullLoaded = true ∧ if shapeOf o.axes = shapeOf axes then
          v.viewSerialization = o.viewSerialization
        else a.viewComposerNew o key = .ok v.viewSerialization
      else v.numpyFullLoaded = o.numpyFullLoaded ∧ v.viewSerialization = o.viewSerialization := by
  unfold arrayFinalize at h
  dsimp only at h
  split at h
  · rename_i htruthy
    rw [if_pos htruthy]
    split at h
    · rename_i hsame
      rw [if_pos hsame]
      cases h
      exact ⟨rfl, rfl, rfl, rfl⟩
    · rename_i hdiff
      rw [if_neg hdiff]
      obtain ⟨w, hw, ⟨⟩⟩ := bind_ok_iff.mp h
      obtain ⟨view, n, hview, -, rfl⟩ := createLazyPersistentView_spec hw
      exact ⟨rfl, rfl, rfl, hview⟩
  · rename_i hfalsy
    rw [if_neg hfalsy]
    cases h
    exact ⟨rfl, rfl, rfl, rfl⟩

/-- The view that `array_finalize` sets up for a key that numpy has taken. -/
theorem arrayFinalize_wellFormed (h : WellFormed a o) {axes : List Axis} {key : Key}
    (hkey : ∀ e ∈ key.entries, PositiveStep e) (haxes : numpyGetitem o.axes key.entries = .ok axes)
    (hne : shapeOf axes ≠ []) (hok : a.arrayFinalize o axes key = .ok v) : WellFormed a v := by
  obtain ⟨hlen, hcount, hstrided, hprod⟩ := numpyGetitem_spec haxes
  rw [arrayFinalize] at hok
  split at hok
  · split at hok
    · rename_i hsame
      cases hok
      exact {
        strided := hstrided h.strided
        shape_ne := hne
        prod_le := hprod.trans h.prod_le
        metas_prod_le := h.metas_prod_le
        metas_dims := hsame ▸ h.metas_dims
        passes := h.passes
        steps := h.steps
        ndim_le := hsame ▸ h.ndim_le }
    · cases hc : a.createLazyPersistentView { o with axes := axes, nBlocks := none } key with
      | error e =>
        rw [hc] at hok
        cases hok
      | ok w =>
        rw [hc] at hok
        cases hok
        obtain ⟨view, n, hview, hn, rfl⟩ := createLazyPersistentView_spec hc
        have hcomposed := (viewComposerNew_eq (show _ = _ from h.length_eq)).symm.trans hview
        obtain ⟨hsteps, hopen⟩ := composeEntries_spec h.steps hkey (hlen.trans h.ndim_le) hcomposed
        have hle := h.ndim_le
        exact {
          strided := hstrided h.strided
          shape_ne := hne
          prod_le := hprod.trans h.prod_le
          metas_prod_le := (prod_map_u32_le _).trans (hprod.trans h.prod_le)
          metas_dims := ⟨[], rfl⟩
          passes := calculateNblocks_ok hsteps.length_eq.symm hn
          steps := hsteps
          ndim_le := by
            show (shapeOf axes).length ≤ (openBounds a.shape view).length
            omega }
  · rename_i hfalsy
    cases hok
    -- an index of 0, or no index: the metadata stay those of the object
    have hmetas : ∃ l, o.metas.dims = l ++ (shapeOf axes).map u32 := by
      obtain ⟨l, hl⟩ := h.metas_dims
      cases key with
      | slice s => exact absurd rfl hfalsy
      | tuple entries =>
        cases entries with
        | nil =>
          have hsame : axes = o.axes := by
            rw [Key.entries] at haxes
            cases hax : o.axes <;> rw [hax] at haxes <;> cases haxes <;> rfl
          exact ⟨l, hsame ▸ hl⟩
        | cons => exact absurd rfl hfalsy
      | int i =>
        obtain ⟨n, hn⟩ := shapeOf_int haxes
        rw [hn] at hl
        exact ⟨l ++ [u32 n], by rw [hl, List.map_cons, List.append_assoc, List.singleton_append]⟩
    exact {
      strided := hstrided h.strided
      shape_ne := hne
      prod_le := hprod.trans h.prod_le
      metas_prod_le := h.metas_prod_le
      metas_dims := hmetas
      passes := h.passes
      steps := h.steps
      ndim_le := by
        have hle := h.ndim_le
        show (shapeOf axes).length ≤ (openBounds a.shape o.viewSerialization).length
        omega }

theorem loadBlocks_self {new : List (List Int)} :
    (a.loadBlocks fails o new).self.axes = o.axes ∧ (a.loadBlocks fails o new).self.metas = o.metas ∧
      (a.loadBlocks fails o new).self.viewSerialization = o.viewSerialization := by
  unfold loadBlocks
  dsimp only
  split
  · exact ⟨rfl, rfl, rfl⟩
  · split
    · exact ⟨rfl, rfl, rfl⟩
    · split <;> exact ⟨rfl, rfl, rfl⟩

/-- An access changes nothing of the object but what it knows to be loaded. -/
theorem getitem_self {key : Key} : (a.getitem fails o key).self.axes = o.axes ∧
    (a.getitem fails o key).self.metas = o.metas ∧
      (a.getitem fails o key).self.viewSerialization = o.viewSerialization := by
  change (a.loadFor fails o key).self.axes = _ ∧ (a.loadFor fails o key).self.metas = _ ∧
    (a.loadFor fails o key).self.viewSerialization = _
  unfold loadFor
  split
  · exact ⟨rfl, rfl, rfl⟩
  · split
    · exact ⟨rfl, rfl, rfl⟩
    · unfold selectAndLoadBlocks
      split
      · exact ⟨rfl, rfl, rfl⟩
      · exact loadBlocks_self

theorem WellFormed.of_eq (h : WellFormed a o) (h1 : v.axes = o.axes) (h2 : v.metas = o.metas)
    (h3 : v.viewSerialization = o.viewSerialization) : WellFormed a v where
  strided := h1 ▸ h.strided
  shape_ne := h1 ▸ h.shape_ne
  prod_le := h1 ▸ h.prod_le
  metas_prod_le := h2 ▸ h.metas_prod_le
  metas_dims := by rw [h1, h2]; exact h.metas_dims
  passes := h3 ▸ h.passes
  steps := h3 ▸ h.steps
  ndim_le := by rw [h1, h3]; exact h.ndim_le

theorem WellFormed.accessed (h : WellFormed a o) (fails : ReadFailures) (key : Key) : WellFormed a (a.getitem fails o key).self :=
  h.of_eq getitem_self.1 getitem_self.2.1 getitem_self.2.2

theorem getitem_view {key : Key} (h : (a.getitem fails o key).result = .ok (some v)) :
    (a.loadFor fails o key).result = .ok () ∧ ∃ axes, numpyGetitem o.axes key.entries = .ok axes ∧
      shapeOf axes ≠ [] ∧ a.arrayFinalize (a.getitem fails o key).self axes key = .ok v := by
  obtain ⟨⟨⟩, hload, h⟩ := bind_ok_iff.mp h
  obtain ⟨axes, haxes, h⟩ := bind_ok_iff.mp h
  split at h
  · cases h
  · rename_i hne
    obtain ⟨w, hw, ⟨⟩⟩ := bind_ok_iff.mp h
    exact ⟨hload, axes, (@getitem_self a fails o key).1 ▸ haxes, hne, hw⟩

theorem Reachable.wellFormed (h : Reachable a o) : WellFormed a o := by
  induction h with
  | instantiate h => exact instantiate_wellFormed h
  | accessed fails key _ ih => exact ih.accessed fails key
  | view fails key _ hkey hok ih =>
    obtain ⟨-, axes, haxes, hne, hfinal⟩ := getitem_view hok
    exact arrayFinalize_wellFormed (ih.accessed fails key) hkey (by rw [getitem_self.1]; exact haxes) hne hfinal

end wellFormed

end PersistentArray

end Hecuba
