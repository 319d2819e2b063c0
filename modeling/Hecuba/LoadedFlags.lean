import Hecuba.PlainKeys

/-! The objects that are marked as loaded, in the runs whose calls meet the conditions. -/

namespace Hecuba

namespace PersistentArray

/-- What is marked as loaded has the blocks of its serialized view, and of its cells, in memory. -/
def FlagHolds (a : PersistentArray) (loaded : List (List Int)) (o : StorageNumpy) : Prop :=
  o.numpyFullLoaded = true → (∀ c, Selects a.shape o.viewSerialization c → a.blockOf c ∈ loaded) ∧
    ∀ c, IsCell o.axes c → a.blockOf c ∈ loaded

/-- `_n_blocks` is the number of blocks of the serialized view. -/
def CountsBlocks (a : PersistentArray) (o : StorageNumpy) : Prop :=
  ∀ n, o.nBlocks = some (some n) → ∃ own,
    calculateBlockCoords a.rowElem a.shape o.viewSerialization = .ok own ∧ own.length = n

/-- What is known of any object: the blocks it counts are in memory, and are its own unless
it is loaded; its cells are in memory, or are those of its serialized view. -/
structure Sound (a : PersistentArray) (loaded : List (List Int)) (o : StorageNumpy) : Prop where
  shape_ne : shapeOf o.axes ≠ []
  nodup : o.loadedCoordinates.Nodup
  counted : ∀ coord ∈ o.loadedCoordinates, a.Stored coord → coord ∈ loaded
  own : o.numpyFullLoaded = false → a.OwnBlocks o.viewSerialization o.loadedCoordinates
  blocks : CountsBlocks a o
  flag : FlagHolds a loaded o
  cells : (∀ c, IsCell o.axes c → a.blockOf c ∈ loaded) ∨
    ∀ c, IsCell o.axes c → Selects a.shape o.viewSerialization c

section objects

variable {a : PersistentArray} {fails : ReadFailures} {loaded : List (List Int)} {o v : StorageNumpy}

theorem FlagHolds.append (h : FlagHolds a loaded o) (more : List (List Int)) :
    FlagHolds a (loaded ++ more) o := fun hfull =>
  ⟨fun c hc => List.mem_append_left _ ((h hfull).1 c hc), fun c hc => List.mem_append_left _ ((h hfull).2 c hc)⟩

theorem Sound.append (h : Sound a loaded o) (more : List (List Int)) : Sound a (loaded ++ more) o where
  shape_ne := h.shape_ne
  nodup := h.nodup
  counted coord hm hs := List.mem_append_left _ (h.counted coord hm hs)
  own := h.own
  blocks := h.blocks
  flag := h.flag.append more
  cells := h.cells.imp_left fun hall c hc => List.mem_append_left _ (hall c hc)

theorem loadNumpySlices_error {coord : List (List Int)} {e : PyError} (hread : fails coord = none)
    (h : a.loadNumpySlices fails coord = .error e) : ∀ c ∈ coord, ¬ a.Stored c := by
  unfold loadNumpySlices at h
  rw [hread] at h
  dsimp only at h
  split at h
  · rename_i hnil
    intro c hc hs
    have hm : c ∈ coord.filter (a.Stored ·) := List.mem_filter.mpr ⟨hc, decide_eq_true hs⟩
    rw [hnil] at hm
    exact List.not_mem_nil hm
  · cases h

theorem loadNumpySlices_ok {coord found : List (List Int)} (h : a.loadNumpySlices fails coord = .ok found) :
    ∀ c ∈ coord, a.Stored c → c ∈ found := by
  unfold loadNumpySlices at h
  split at h
  · cases h
  · dsimp only at h
    split at h
    · cases h
    · cases h
      exact fun c hc hs => List.mem_filter.mpr ⟨hc, decide_eq_true hs⟩

theorem foldl_mul_length (ls : List (List Int)) (k : Nat) :
    ls.foldl (fun n l => n * l.length) k = k * (product ls).length := by
  induction ls generalizing k with
  | nil => exact (Nat.mul_one k).symm
  | cons l ls ih =>
    have hlen : (product (l :: ls)).length = l.length * (product ls).length := by
      simp [product, List.length_flatMap]
    rw [List.foldl_cons, ih, hlen, Nat.mul_assoc]

theorem blocks_of_calculateNblocks {view : List Entry} {n : Nat} (h : a.calculateNblocks view = .ok n) :
    ∃ own, calculateBlockCoords a.rowElem a.shape view = .ok own ∧ own.length = n := by
  obtain ⟨ls, hls, ⟨⟩⟩ := bind_ok_iff.mp h
  refine ⟨product ls, ?_, ?_⟩
  · rw [calculateBlockCoords, hls]
    rfl
  · rw [foldl_mul_length, Nat.one_mul]

theorem arrayFinalize_blocks {axes : List Axis} {key : Key} (hblocks : CountsBlocks a o)
    (h : a.arrayFinalize o axes key = .ok v) : CountsBlocks a v := by
  unfold arrayFinalize at h
  dsimp only at h
  split at h
  · split at h
    · cases h
      intro n hn
      cases ho : o.nBlocks with
      | none =>
        rw [ho] at hn
        cases hn
      | some m =>
        rw [ho] at hn
        exact hblocks n (ho.trans hn)
    · obtain ⟨w, hw, ⟨⟩⟩ := bind_ok_iff.mp h
      obtain ⟨view, m, -, hm, rfl⟩ := createLazyPersistentView_spec hw
      rintro n ⟨⟩
      exact blocks_of_calculateNblocks hm
  · cases h
    rintro n ⟨⟩

/-- No block can be missing from the count while all that is counted is the object's own. -/
theorem blockOf_mem_of_count {view : List Entry} {own coords : List (List Int)}
    (hown : calculateBlockCoords a.rowElem a.shape view = .ok own) (hsub : coords ⊆ own)
    (hnodup : coords.Nodup) (hlen : own.length = coords.length) {c : List Int}
    (hc : Selects a.shape view c) : a.blockOf c ∈ coords :=
  ((List.subperm_of_subset hnodup hsub).perm_of_length_le hlen.le).mem_iff.mpr (blockOf_mem hc hown)

theorem OwnBlocks.union {view : List Entry} {coords new : List (List Int)} (h : a.OwnBlocks view coords)
    (hnew : a.OwnBlocks view new) : a.OwnBlocks view (coords ++ new).dedup := by
  intro own hown coord hm
  rcases List.mem_append.mp (List.mem_dedup.mp hm) with hm | hm
  · exact h own hown hm
  · exact hnew own hown hm

theorem loadBlocks_own {new : List (List Int)} (h : a.OwnBlocks o.viewSerialization o.loadedCoordinates)
    (hnew : a.OwnBlocks o.viewSerialization new) :
    a.OwnBlocks (a.loadBlocks fails o new).self.viewSerialization
      (a.loadBlocks fails o new).self.loadedCoordinates := by
  unfold loadBlocks
  dsimp only
  split
  · exact h
  · split
    · exact h
    · split <;> exact h.union hnew

/-- A load keeps what is known of an object, and brings the blocks it asks for. -/
theorem loadBlocks_sound {new : List (List Int)} (h : Sound a loaded o) (hno : o.numpyFullLoaded = false)
    (hread : fails new = none) (hnew : a.OwnBlocks o.viewSerialization new) :
    Sound a (loaded ++ (a.loadBlocks fails o new).loaded) (a.loadBlocks fails o new).self ∧
      ((a.loadBlocks fails o new).result = .ok () →
        ∀ c ∈ new, a.Stored c → c ∈ loaded ++ (a.loadBlocks fails o new).loaded) := by
  have hunion : (o.loadedCoordinates ++ new).dedup.Nodup := List.nodup_dedup _
  have hownUnion := (h.own hno).union hnew
  unfold loadBlocks
  dsimp only
  split
  · rename_i hsame
    -- no new block
    have hperm : o.loadedCoordinates.Perm (o.loadedCoordinates ++ new).dedup := by
      refine (List.subperm_of_subset h.nodup fun c hc => ?_).perm_of_length_le hsame.le
      exact List.mem_dedup.mpr (List.mem_append_left _ hc)
    refine ⟨h.append [], fun _ c hc hs => List.mem_append_left _ (h.counted c ?_ hs)⟩
    exact hperm.mem_iff.mpr (List.mem_dedup.mpr (List.mem_append_right _ hc))
  · cases hblocks : o.nBlocks with
    | none => exact ⟨h.append [], by rintro ⟨⟩⟩
    | some nBlocks =>
      have hsound {found : List (List Int)} (hfound : ∀ c ∈ new, a.Stored c → c ∈ loaded ++ found) :
          Sound a (loaded ++ found) { o with
            nBlocks := some nBlocks
            numpyFullLoaded := decide (nBlocks = some (o.loadedCoordinates ++ new).dedup.length)
            loadedCoordinates := (o.loadedCoordinates ++ new).dedup } := by
        have hcounted : ∀ c ∈ (o.loadedCoordinates ++ new).dedup, a.Stored c → c ∈ loaded ++ found := by
          intro c hc hs
          rcases List.mem_append.mp (List.mem_dedup.mp hc) with hc | hc
          · exact List.mem_append_left _ (h.counted c hc hs)
          · exact hfound c hc hs
        refine ⟨h.shape_ne, hunion, hcounted, fun _ => hownUnion, hblocks ▸ h.blocks, fun hfull => ?_,
          (h.append found).cells⟩
        have hfull' : nBlocks = some (o.loadedCoordinates ++ new).dedup.length := of_decide_eq_true hfull
        obtain ⟨own, hown, hlen⟩ := h.blocks _ (by rw [hblocks, hfull'])
        have hall : ∀ c, Selects a.shape o.viewSerialization c → a.blockOf c ∈ loaded ++ found := fun c hc =>
          hcounted _ (blockOf_mem_of_count hown (hownUnion own hown) hunion hlen hc) (blockOf_stored hc.inArray)
        exact ⟨hall, fun c hc => (h.append found).cells.elim (fun hin => hin c hc) fun hin => hall c (hin c hc)⟩
      dsimp only
      cases hload : a.loadNumpySlices fails new with
      | error e =>
        exact ⟨hsound fun c hc hs => absurd hs (loadNumpySlices_error hread hload c hc), by rintro ⟨⟩⟩
      | ok found =>
        have hfound : ∀ c ∈ new, a.Stored c → c ∈ loaded ++ found := fun c hc hs =>
          List.mem_append_right _ (loadNumpySlices_ok hload c hc hs)
        exact ⟨hsound hfound, fun _ => hfound⟩

/-- Before an object that is not loaded is indexed, the cells of the composed view are brought. -/
theorem loadFor_sound {key : Key} (h : Sound a loaded o) (hmeets : a.LoadMeets fails o key) :
    Sound a (loaded ++ (a.loadFor fails o key).loaded) (a.loadFor fails o key).self ∧
      ((a.loadFor fails o key).result = .ok () → o.numpyFullLoaded = false →
        ∃ view, a.viewComposerNew o key = .ok view ∧
          ∀ c, Selects a.shape view c → a.blockOf c ∈ loaded ++ (a.loadFor fails o key).loaded) := by
  unfold loadFor
  split
  · rename_i hfull
    refine ⟨h.append [], fun _ hno => ?_⟩
    rw [hfull] at hno
    cases hno
  · rename_i hfull
    have hno : o.numpyFullLoaded = false := eq_false_of_ne_true hfull
    cases hview : a.viewComposerNew o key with
    | error e => exact ⟨h.append [], by rintro ⟨⟩⟩
    | ok view =>
      dsimp only
      unfold selectAndLoadBlocks
      cases hcoord : calculateBlockCoords a.rowElem a.shape view with
      | error e => exact ⟨h.append [], by rintro ⟨⟩⟩
      | ok blockCoord =>
        obtain ⟨hread, hown⟩ := hmeets hno view blockCoord hview hcoord
        obtain ⟨hsound, hbrings⟩ := loadBlocks_sound h hno hread hown
        refine ⟨hsound, fun hok _ => ⟨view, rfl, fun c hc => ?_⟩⟩
        exact hbrings hok _ (blockOf_mem hc hcoord) (blockOf_stored hc.inArray)

/-- A load of an object that counts only its own blocks leaves it so. -/
theorem loadFor_own {key : Key} (h : a.OwnBlocks o.viewSerialization o.loadedCoordinates)
    (hmeets : a.LoadMeets fails o key) :
    a.OwnBlocks (a.loadFor fails o key).self.viewSerialization
      (a.loadFor fails o key).self.loadedCoordinates := by
  unfold loadFor
  split
  · exact h
  · rename_i hfull
    cases hview : a.viewComposerNew o key with
    | error e => exact h
    | ok view =>
      dsimp only
      unfold selectAndLoadBlocks
      cases hcoord : calculateBlockCoords a.rowElem a.shape view with
      | error e => exact h
      | ok blockCoord =>
        exact loadBlocks_own h (hmeets (eq_false_of_ne_true hfull) view blockCoord hview hcoord).2

/-- The view of an access, for which the blocks of its cells have been brought. -/
theorem getitem_view_sound {key : Key} (h : Sound a loaded o) (hload : a.LoadMeets fails o key)
    (hmeets : a.ViewMeets o key o.numpyFullLoaded) (hwhole : a.WholeMeets o key)
    (hok : (a.getitem fails o key).result = .ok (some v)) :
    Sound a (loaded ++ (a.getitem fails o key).loaded) v := by
  obtain ⟨hdone, axes, haxes, hne, hfinal⟩ := getitem_view hok
  obtain ⟨hself, hbrings⟩ := loadFor_sound h hload
  obtain ⟨hshape, -, hser⟩ := @getitem_self a fails o key
  obtain ⟨rfl, hcoords, hspec⟩ := arrayFinalize_spec hfinal
  rw [hshape, hser] at hspec
  have hcells : ∀ c, IsCell v.axes c → a.blockOf c ∈ loaded ++ (a.getitem fails o key).loaded := by
    intro c hc
    cases hfull : o.numpyFullLoaded with
    | true => exact List.mem_append_left _ ((h.flag hfull).2 c (numpyGetitem_cells haxes hc))
    | false =>
      obtain ⟨view, hview, hblocks⟩ := hbrings hdone hfull
      exact hblocks c ((hmeets view v.axes hview haxes hne).1 hfull c hc)
  have hown : v.numpyFullLoaded = false → a.OwnBlocks v.viewSerialization v.loadedCoordinates := by
    intro hno
    by_cases htruthy : key.truthy = true
    · rw [if_pos htruthy] at hspec
      exact absurd (hspec.1.symm.trans hno) (by decide)
    · rw [if_neg htruthy] at hspec
      rw [hspec.2, hcoords, ← hser]
      exact hself.own (hspec.1.symm.trans hno)
  refine ⟨hne, hcoords ▸ hself.nodup, hcoords ▸ hself.counted, hown, arrayFinalize_blocks hself.blocks hfinal,
    fun hv => ⟨?_, hcells⟩, .inl hcells⟩
  by_cases htruthy : key.truthy = true
  · rw [if_pos htruthy] at hspec
    obtain ⟨-, hspec⟩ := hspec
    split at hspec
    · -- the shape of the object, and its serialized form
      rename_i hsame
      rw [hspec]
      cases hfull : o.numpyFullLoaded with
      | true => exact fun c hc => List.mem_append_left _ ((h.flag hfull).1 c hc)
      | false =>
        obtain ⟨view, hview, hblocks⟩ := hbrings hdone hfull
        exact fun c hc => hblocks c (hwhole view v.axes hview haxes hfull htruthy hsame c hc)
    · rename_i hdiff
      have hview : a.viewComposerNew o key = .ok v.viewSerialization := by
        rw [← hspec, viewComposerNew, viewComposerNew, hser]
      cases hfull : o.numpyFullLoaded with
      | true =>
        intro c hc
        have hin := (hmeets _ v.axes hview haxes hne).2 hfull htruthy hdiff c hc
        exact List.mem_append_left _ ((h.flag hfull).1 c hin)
      | false =>
        obtain ⟨view, hview', hblocks⟩ := hbrings hdone hfull
        cases hview.symm.trans hview'
        exact hblocks
  · rw [if_neg htruthy] at hspec
    rw [hspec.2, ← hser]
    exact (hself.flag (hspec.1 ▸ hv)).1

theorem countInts_windows (slc : List Window) : countInts (slc.map Window.toEntry) = 0 := by
  rw [countInts, List.countP_map]
  exact List.countP_eq_zero.mpr fun w _ => Bool.false_ne_true

/-- A view of `split` brings nothing, and is marked as its object was. -/
theorem splitView_sound {full : Bool} {slc : List Window} (h : Sound a loaded o)
    (hfull : full = true → o.numpyFullLoaded = true)
    (hown : full = false → a.OwnBlocks o.viewSerialization o.loadedCoordinates)
    (hmeets : a.ViewMeets o (.tuple (slc.map Window.toEntry)) full)
    (hinherit : a.InheritMeets o (.tuple (slc.map Window.toEntry)) full) (hok : a.splitView o full slc = .ok v) :
    Sound a loaded v := by
  obtain ⟨axes, haxes, hok⟩ := bind_ok_iff.mp hok
  obtain ⟨w, hfinal, ⟨⟩⟩ := bind_ok_iff.mp hok
  obtain ⟨rfl, hcoords, hspec⟩ := arrayFinalize_spec hfinal
  have hne : shapeOf w.axes ≠ [] := by
    have hlen := (numpyGetitem_spec haxes).2.1
    rw [countInts_windows, Nat.add_zero] at hlen
    intro hnil
    rw [hnil] at hlen
    exact h.shape_ne (List.length_eq_zero_iff.mp hlen)
  have hsub : ∀ c, IsCell w.axes c → IsCell o.axes c := fun c => numpyGetitem_cells haxes
  -- the serialized form is that of the object, or the composed one
  have hser : w.viewSerialization = o.viewSerialization ∨
      ((Key.tuple (slc.map Window.toEntry)).truthy = true ∧ shapeOf o.axes ≠ shapeOf w.axes ∧
        a.viewComposerNew o (.tuple (slc.map Window.toEntry)) = .ok w.viewSerialization) := by
    split at hspec
    · rename_i htruthy
      obtain ⟨-, hspec⟩ := hspec
      split at hspec
      · exact .inl hspec
      · rename_i hdiff
        exact .inr ⟨htruthy, hdiff, hspec⟩
    · exact .inl hspec.2
  have hflag : full = true → ∀ c, Selects a.shape w.viewSerialization c → a.blockOf c ∈ loaded := by
    intro hf c hc
    refine (h.flag (hfull hf)).1 c ?_
    rcases hser with hsame | ⟨htruthy, hdiff, hview⟩
    · exact hsame ▸ hc
    · exact (hmeets _ _ hview haxes hne).2 hf htruthy hdiff c hc
  have hcells : (∀ c, IsCell w.axes c → a.blockOf c ∈ loaded) ∨
      ∀ c, IsCell w.axes c → Selects a.shape w.viewSerialization c := by
    cases hfull' : o.numpyFullLoaded with
    | true => exact .inl fun c hc => (h.flag hfull').2 c (hsub c hc)
    | false =>
      rcases hser with hsame | ⟨-, -, hview⟩
      · rw [hsame]
        exact h.cells.imp (fun hall c hc => hall c (hsub c hc)) fun hall c hc => hall c (hsub c hc)
      · exact .inr ((hmeets _ _ hview haxes hne).1 hfull')
  exact {
    shape_ne := hne
    nodup := hcoords ▸ h.nodup
    counted := hcoords ▸ h.counted
    own := fun hno => by
      change a.OwnBlocks w.viewSerialization w.loadedCoordinates
      rw [hcoords]
      rcases hser with hsame | ⟨-, hdiff, hview⟩
      · exact hsame ▸ hown hno
      · exact hinherit hno _ _ hview haxes hdiff
    blocks := (arrayFinalize_blocks h.blocks hfinal : CountsBlocks a w)
    flag := fun hf => ⟨hflag hf, fun c hc => (h.flag (hfull hf)).2 c (hsub c hc)⟩
    cells := hcells }

theorem setitem_sound {key : Key} (h : Sound a loaded o) (hload : a.LoadMeets fails o key) :
    Sound a (loaded ++ (a.setitem fails o key).loaded) (a.setitem fails o key).self := by
  unfold setitem
  cases hview : a.viewComposerNew o key with
  | error e => exact h.append []
  | ok view =>
    dsimp only
    cases hcoord : calculateBlockCoords a.rowElem a.shape view with
    | error e => exact h.append []
    | ok blockCoords =>
      dsimp only
      split
      · exact h.append []
      · rename_i hfull
        have hno := eq_false_of_ne_true hfull
        obtain ⟨hread, hown⟩ := hload hno view blockCoords hview hcoord
        exact (loadBlocks_sound h hno hread hown).1

theorem setitem_own {key : Key} (h : a.OwnBlocks o.viewSerialization o.loadedCoordinates)
    (hload : a.LoadMeets fails o key) :
    a.OwnBlocks (a.setitem fails o key).self.viewSerialization
      (a.setitem fails o key).self.loadedCoordinates := by
  unfold setitem
  cases hview : a.viewComposerNew o key with
  | error e => exact h
  | ok view =>
    dsimp only
    cases hcoord : calculateBlockCoords a.rowElem a.shape view with
    | error e => exact h
    | ok blockCoords =>
      dsimp only
      split
      · exact h
      · rename_i hfull
        exact loadBlocks_own h (hload (eq_false_of_ne_true hfull) view blockCoords hview hcoord).2

theorem loadFor_full {key : Key} (h : o.numpyFullLoaded = true) : (a.loadFor fails o key).self = o := by
  rw [loadFor, if_pos h]

theorem setitem_full {key : Key} (h : o.numpyFullLoaded = true) : (a.setitem fails o key).self = o := by
  unfold setitem
  split
  · rfl
  · split
    · rfl
    · rw [if_pos h]

end objects

section sessions

variable {a : PersistentArray} {fails : Nat → ReadFailures} {s : Session}

/-- What is left of the moment in which a loop read the flag of its object. -/
structure BegunWith (a : PersistentArray) (o : StorageNumpy) (full : Bool) : Prop where
  loaded : full = true → o.numpyFullLoaded = true
  own : full = false → a.OwnBlocks o.viewSerialization o.loadedCoordinates

/-- All objects are sound, and the objects of the loops are as their loops began with them. -/
structure SessionSound (a : PersistentArray) (s : Session) : Prop where
  objects : ∀ o ∈ s.objects, Sound a s.loaded o
  generators : ∀ gen ∈ s.generators, ∀ g ∈ gen, ∀ full ∈ g.parentNumpyFullLoaded,
    ∃ o, s.objects[g.object]? = some o ∧ BegunWith a o full

/-- A call on one object may only mark it as loaded, and count blocks of its own. -/
theorem SessionSound.apply {α : Type} (h : SessionSound a s) {object : Nat} {o : StorageNumpy}
    (ho : s.objects[object]? = some o) {out : Outcome α} (hself : Sound a (s.loaded ++ out.loaded) out.self)
    (hfull : o.numpyFullLoaded = true → out.self = o)
    (hown : a.OwnBlocks o.viewSerialization o.loadedCoordinates →
      a.OwnBlocks out.self.viewSerialization out.self.loadedCoordinates) :
    SessionSound a (s.apply object out) where
  objects w hw := by
    rcases List.mem_or_eq_of_mem_set hw with hw | rfl
    · exact (h.objects w hw).append out.loaded
    · exact hself
  generators gen hgen g hg full hparent := by
    obtain ⟨w, hw, hbegun⟩ := h.generators gen hgen g hg full hparent
    by_cases hsame : object = g.object
    · obtain rfl : w = o := Option.some.inj (hw.symm.trans (hsame ▸ ho))
      refine ⟨out.self, ?_, fun hf => ?_, fun hf => hown (hbegun.own hf)⟩
      · rw [Session.apply, ← hsame, List.getElem?_set_self', ho]
        rfl
      · rw [hfull (hbegun.loaded hf)]
        exact hbegun.loaded hf
    · exact ⟨w, by rw [Session.apply, List.getElem?_set_ne hsame]; exact hw, hbegun⟩

theorem SessionSound.push (h : SessionSound a s) {v : StorageNumpy} (hv : Sound a s.loaded v) :
    SessionSound a { s with objects := s.objects ++ [v] } where
  objects w hw := by
    rcases List.mem_append.mp hw with hw | hw
    · exact h.objects w hw
    · rwa [List.mem_singleton.mp hw]
  generators gen hgen g hg full hparent := by
    obtain ⟨w, hw, hbegun⟩ := h.generators gen hgen g hg full hparent
    obtain ⟨hlt, -⟩ := List.getElem?_eq_some_iff.mp hw
    exact ⟨w, by rw [List.getElem?_append_left hlt]; exact hw, hbegun⟩

theorem SessionSound.setGenerator (h : SessionSound a s) (generator : Nat) {gen : Option SplitGenerator}
    (hgen : ∀ g ∈ gen, ∀ full ∈ g.parentNumpyFullLoaded,
      ∃ o, s.objects[g.object]? = some o ∧ BegunWith a o full) :
    SessionSound a { s with generators := s.generators.set generator gen } where
  objects := h.objects
  generators gen' hgen' := by
    rcases List.mem_or_eq_of_mem_set hgen' with hold | rfl
    · exact h.generators gen' hold
    · exact hgen

theorem getitem_sound (h : SessionSound a s) {object : Nat} {key : Key}
    (hmeets : s.Meets a fails (.getitem object key)) : SessionSound a (s.getitem a fails object key) := by
  unfold Session.getitem
  cases ho : s.objects[object]? with
  | none => exact h
  | some self =>
    obtain ⟨hload, hview, hwhole⟩ := hmeets self ho
    have hsound := h.objects self (List.mem_of_getElem? ho)
    have happly : SessionSound a (s.apply object (a.getitem (fails object) self key)) :=
      h.apply ho (loadFor_sound hsound hload).1 loadFor_full fun hown => loadFor_own hown hload
    dsimp only
    split
    · rename_i view hok
      exact happly.push (getitem_view_sound hsound hload hview hwhole hok)
    · exact happly

theorem loadValues_sound (h : SessionSound a s) {values : Option Nat}
    (hmeets : ∀ self ∈ values.bind (s.objects[·]?), a.LoadMeets (fails (values.getD 0)) self Key.all) :
    SessionSound a (s.loadValues a fails values).1 := by
  unfold Session.loadValues
  cases hself : values.bind (s.objects[·]?) with
  | none => exact h
  | some self =>
    obtain ⟨object, rfl, ho⟩ := Option.bind_eq_some_iff.mp hself
    have hsound := h.objects self (List.mem_of_getElem? ho)
    have hload := hmeets self hself
    dsimp only
    split
    · exact h
    · exact h.apply ho (loadFor_sound hsound hload).1 loadFor_full fun hown => loadFor_own hown hload

theorem sessionSetitem_sound (h : SessionSound a s) {object : Nat} {key : Key} {values : Option Nat}
    (hmeets : s.Meets a fails (.setitem object key values)) :
    SessionSound a (s.setitem a fails object key values) := by
  have hvalues := loadValues_sound h hmeets.1
  have hmeets := hmeets.2
  unfold Session.setitem
  generalize s.loadValues a fails values = r at hvalues hmeets ⊢
  obtain ⟨s, done⟩ := r
  cases done with
  | false => exact hvalues
  | true =>
    dsimp only
    cases ho : s.objects[object]? with
    | none => exact hvalues
    | some self =>
      have hsound := hvalues.objects self (List.mem_of_getElem? ho)
      have hload := hmeets self ho
      exact hvalues.apply ho (setitem_sound hsound hload) setitem_full fun hown => setitem_own hown hload

theorem split_sound (h : SessionSound a s) (object : Nat) (cols : Option Bool) :
    SessionSound a (s.split a object cols) := by
  unfold Session.split
  split
  · exact h
  · refine ⟨h.objects, fun gen hgen g hg full hparent => ?_⟩
    rcases List.mem_append.mp hgen with hgen | hgen
    · exact h.generators gen hgen g hg full hparent
    · cases List.mem_singleton.mp hgen
      cases hg
      cases hparent

theorem next_sound (h : SessionSound a s) {generator : Nat} (hmeets : s.Meets a fails (.next generator)) :
    SessionSound a (s.next a generator) := by
  unfold Session.next
  cases hgen : (s.generators[generator]?).join with
  | none => exact h
  | some gen =>
    dsimp only
    cases ho : s.objects[gen.object]? with
    | none => exact h
    | some self =>
      have hmem : some gen ∈ s.generators := List.mem_of_getElem? (Option.join_eq_some_iff.mp hgen)
      have hsound := h.objects self (List.mem_of_getElem? ho)
      have hbegun : BegunWith a self (gen.parentNumpyFullLoaded.getD self.numpyFullLoaded) := by
        cases hparent : gen.parentNumpyFullLoaded with
        | none => exact ⟨id, hsound.own⟩
        | some full =>
          obtain ⟨o, ho', hbegun⟩ := h.generators _ hmem gen rfl full hparent
          rwa [Option.some.inj (ho.symm.trans ho')]
      dsimp only
      split
      · rename_i view hview
        obtain ⟨slc, hslc, hsplit⟩ := yieldNext_slices hview
        obtain ⟨hmeetsView, hinherit⟩ := hmeets gen hgen self ho slc hslc
        have hsoundView := splitView_sound hsound hbegun.loaded hbegun.own hmeetsView hinherit hsplit
        refine (h.push hsoundView).setGenerator generator ?_
        rintro g ⟨⟩ full ⟨⟩
        obtain ⟨hlt, -⟩ := List.getElem?_eq_some_iff.mp ho
        exact ⟨self, by rw [List.getElem?_append_left hlt]; exact ho, hbegun⟩
      · exact h.setGenerator generator (by rintro g ⟨⟩)

theorem step_sound (h : SessionSound a s) {call : Call} (hmeets : s.Meets a fails call) :
    SessionSound a (s.step a fails call) := by
  cases call with
  | getitem object key => exact getitem_sound h hmeets
  | setitem object key values => exact sessionSetitem_sound h hmeets
  | split object cols => exact split_sound h object cols
  | next generator => exact next_sound h hmeets

theorem whole_selects {shape : List Nat} {c : List Int} (h : IsCell (shape.map (.range 0 1)) c) :
    Selects shape (shape.map fun _ => Entry.slice ⟨none, none, none⟩) c := by
  induction shape generalizing c with
  | nil =>
    obtain ⟨xs, hxs, rfl⟩ := h
    rw [List.forall₂_nil_right_iff.mp hxs]
    trivial
  | cons d shape ih =>
    obtain ⟨k, hk, rest, hrest, rfl⟩ := isCell_range_iff.mp h
    have hin : (0 : Int) ≤ 0 + 1 * k ∧ (0 : Int) + 1 * k < d := by omega
    exact selects_cons_iff.mpr ⟨_, rest, ⟨⟨hin.1, hin.2, one_dvd _⟩, hin⟩, ih hrest, rfl⟩

/-- Nothing is loaded at first, and nothing is marked as loaded. -/
theorem fresh_sound {o : StorageNumpy} {n : Nat} (hne : shapeOf o.axes ≠ [])
    (hcoords : o.loadedCoordinates = []) (hfull : o.numpyFullLoaded = false)
    (hn : a.calculateNblocks o.viewSerialization = .ok n) (hblocks : o.nBlocks = some (some n))
    (hcells : ∀ c, IsCell o.axes c → Selects a.shape o.viewSerialization c) :
    SessionSound a ⟨[o], [], []⟩ where
  objects w hw := by
    cases List.mem_singleton.mp hw
    exact {
      shape_ne := hne
      nodup := by rw [hcoords]; exact List.nodup_nil
      counted := by rw [hcoords]; simp
      own := fun _ own _ => by rw [hcoords]; exact List.nil_subset own
      blocks := fun m hm => by
        cases hblocks.symm.trans hm
        exact blocks_of_calculateNblocks hn
      flag := fun hf => absurd (hfull.symm.trans hf) Bool.false_ne_true
      cells := .inr hcells }
  generators gen hgen := absurd hgen List.not_mem_nil

theorem reachable_sound (h : Session.Reachable a s) : SessionSound a s := by
  induction h with
  | instantiate _ hok =>
    obtain ⟨n, hn, ⟨⟩⟩ := bind_ok_iff.mp hok
    exact fresh_sound (by rw [shapeOf_whole]; exact a.shape_ne) rfl rfl hn rfl fun c => whole_selects
  | initializeExistingObject myview _ hok hcells =>
    obtain ⟨axes, -, hok⟩ := bind_ok_iff.mp hok
    split at hok
    · cases hok
    · rename_i hne
      obtain ⟨n, hn, ⟨⟩⟩ := bind_ok_iff.mp hok
      exact fresh_sound hne rfl rfl hn rfl hcells
  | step fails call _ hmeets ih => exact step_sound ih hmeets

/-- In the runs whose calls all meet the conditions, what is marked as loaded is in memory. -/
theorem loaded_flags_hold (h : Session.Reachable a s) : ∀ o ∈ s.objects, FlagHolds a s.loaded o :=
  fun o ho => ((reachable_sound h).objects o ho).flag

end sessions

section inputs

/-- Four blocks. -/
def squareArray : PersistentArray := doubles [44, 44] (by decide) (by decide) (by decide)

def squareBase : StorageNumpy where
  axes := [.range 0 1 44, .range 0 1 44]
  metas := squareArray.harrayMetadata [44, 44]
  viewSerialization := [.slice ⟨none, none, none⟩, .slice ⟨none, none, none⟩]
  nBlocks := some (some 4)
  loadedCoordinates := []
  numpyFullLoaded := false

/-- `[0:22, 0:22]` -/
def cornerKey : Key := .tuple [.slice ⟨some 0, some 22, none⟩, .slice ⟨some 0, some 22, none⟩]

theorem squareBase_aligned : Aligned squareArray.shape squareBase.viewSerialization squareBase.axes := by
  have hx : AxisOf 44 (.slice ⟨none, none, none⟩) (.range 0 1 44) := by
    refine ⟨by decide, by decide, fun _ => rfl, fun k => ?_⟩
    change k < 44 ↔ (0 : Int) + 1 * k < 44
    omega
  exact ⟨hx, hx, trivial⟩

/-- Rows 22 to 43. -/
def lastRows : StorageNumpy :=
  { squareBase with
    axes := [.range 22 1 22, .range 0 1 44]
    viewSerialization := [.slice ⟨some 22, some 44, some 1⟩, .slice ⟨some 0, some 44, some 1⟩]
    nBlocks := some (some 2) }

theorem lastRows_aligned : Aligned squareArray.shape lastRows.viewSerialization lastRows.axes := by
  have hx : AxisOf 44 (.slice ⟨some 22, some 44, some 1⟩) (.range 22 1 22) := by
    refine ⟨by decide, by decide, fun _ => rfl, fun k => ?_⟩
    change k < 22 ↔ (22 : Int) + 1 * k < 44
    omega
  have hy : AxisOf 44 (.slice ⟨some 0, some 44, some 1⟩) (.range 0 1 44) := by
    refine ⟨by decide, by decide, fun _ => rfl, fun k => ?_⟩
    change k < 44 ↔ (0 : Int) + 1 * k < 44
    omega
  exact ⟨hx, hy, trivial⟩

/-- The reads do not fail. -/
def allRead : Nat → ReadFailures := fun _ _ => none

def squareSession : Session := ⟨[squareBase], [], []⟩

/-- The array is split by rows before anything is read, and then the last rows are. -/
def rowCalls : List Call := [.split 0 (some false), .next 0, .next 0, .getitem 2 Key.all]

theorem square_rows_meet {self : StorageNumpy} (position : Nat) (haxes : self.axes = squareBase.axes)
    (hser : self.viewSerialization = squareBase.viewSerialization) (hcoords : self.loadedCoordinates = [])
    {slc : List Window} (hslc : slc = [squareArray.blockWindow position, (none, none)]) (full : Bool) :
    squareArray.ViewMeets self (.tuple (slc.map Window.toEntry)) full ∧
      squareArray.InheritMeets self (.tuple (slc.map Window.toEntry)) full := by
  have haligned : Aligned squareArray.shape self.viewSerialization self.axes := by
    rw [haxes, hser]
    exact squareBase_aligned
  have hR : 0 < squareArray.rowElem := squareArray.rowElem_pos
  refine ⟨plain_viewMeets haligned ?_ full, fun _ view axes _ _ _ own _ => ?_⟩
  · subst hslc
    simp [Key.entries, Window.toEntry, blockWindow, PlainEntry]
    omega
  · rw [hcoords]
    exact List.nil_subset own

theorem square_flags_hold :
    let s := rowCalls.foldl (Session.step squareArray allRead) squareSession
    s.objects.map (·.numpyFullLoaded) = [false, false, true, true] ∧
      ∀ o ∈ s.objects, FlagHolds squareArray s.loaded o := by
  have h0 : Session.Reachable squareArray squareSession := .instantiate rfl rfl
  have h1 := h0.step allRead (.split 0 (some false)) trivial
  have h2 := h1.step allRead (.next 0) (by
    rintro gen ⟨⟩ self ⟨⟩ slc ⟨⟩
    exact square_rows_meet 0 rfl rfl rfl rfl _)
  have h3 := h2.step allRead (.next 0) (by
    rintro gen ⟨⟩ self ⟨⟩ slc ⟨⟩
    exact square_rows_meet 22 rfl rfl rfl rfl _)
  have hplain : ∀ e ∈ Key.all.entries, PlainEntry e := by simp [Key.entries, Key.all, PlainEntry]
  have h4 := h3.step allRead (.getitem 2 Key.all) (by
    rintro self ⟨⟩
    refine ⟨fun _ view blockCoord hview hcoord => ⟨rfl, fun own hown => ?_⟩,
      plain_viewMeets lastRows_aligned hplain _, plain_wholeMeets lastRows_aligned hplain⟩
    cases hview
    cases hcoord
    cases hown
    decide)
  exact ⟨rfl, loaded_flags_hold h4⟩

/-- A corner of the array is read, the array is split by rows, and the corner of the second of
the views is read. -/
def cornerCalls : List Call :=
  [.getitem 0 cornerKey, .split 0 (some false), .next 0, .next 0, .getitem 3 cornerKey]

/-- The view of the last rows has counted the first block of the array as one of its two. -/
theorem second_rows_not_loaded : ¬ ∀ (a : PersistentArray) (o : StorageNumpy) (calls : List Call),
    a.arrowEnabled = false → a.instantiate false = .ok o →
      ∀ w ∈ (calls.foldl (Session.step a allRead) ⟨[o], [], []⟩).objects,
        FlagHolds a (calls.foldl (Session.step a allRead) ⟨[o], [], []⟩).loaded w := by
  intro h
  have hall := h squareArray squareBase cornerCalls rfl rfl
  generalize hs : cornerCalls.foldl (Session.step squareArray allRead) ⟨[squareBase], [], []⟩ = s at hall
  have hview : s.objects[3]?.map (fun o => (o.numpyFullLoaded, o.axes)) =
      some (true, [.range 22 1 22, .range 0 1 44]) := by
    rw [← hs]
    decide
  have hloaded : [1, 1] ∉ s.loaded := by
    rw [← hs]
    decide
  obtain ⟨w, hw, hwe⟩ := Option.map_eq_some_iff.mp hview
  obtain ⟨hfull, haxes⟩ := Prod.mk.inj hwe
  have hcell : IsCell w.axes [22, 22] := by
    rw [haxes]
    exact ⟨[0, 22], by decide, by decide⟩
  exact hloaded ((hall w (List.mem_of_getElem? hw) hfull).2 _ hcell)

end inputs

end PersistentArray

end Hecuba
