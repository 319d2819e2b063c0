import Hecuba.PersistentViews

/-! When the views of `split` partition the cells of an object. The blocks are counted for the
object's own shape and cut with the row of its array. -/

namespace Hecuba

theorem mem_block_iff {R k x : Nat} (hR : 0 < R) : k * R ≤ x ∧ x < k * R + R ↔ x / R = k := by
  rw [Nat.div_eq_iff hR]
  omega

namespace PersistentArray

/-- Every cell of the object belongs to exactly one of the views. -/
def SplitCovers (a : PersistentArray) (o : StorageNumpy) (cols : Option Bool) : Prop :=
  ∃ views, a.split o cols = .ok views ∧ (∀ v ∈ views, ∀ c, IsCell v.axes c → IsCell o.axes c) ∧
    ∀ c, IsCell o.axes c → ∃! k : Nat, ∃ v : StorageNumpy, views[k]? = some v ∧ IsCell v.axes c

section views

variable {a : PersistentArray} {o v : StorageNumpy} {full : Bool}

def WindowsEnd (a : PersistentArray) (o : StorageNumpy) (ws : List Window) : Prop :=
  ∀ p ∈ ws.zip (openBounds a.shape o.viewSerialization), 0 ≤ windowEnd p.2.1 p.2.2 p.1

theorem createLazy_windows_iff (h : WellFormed a o) {ws : List Window}
    (hl : ws.length ≤ (shapeOf o.axes).length) (axes : List Axis) :
    (∃ v, a.createLazyPersistentView { o with axes := axes, nBlocks := none }
      (.tuple (ws.map Window.toEntry)) = .ok v) ↔ WindowsEnd a o ws := by
  have hopen := hl.trans h.ndim_le
  have hview : a.viewComposerNew { o with axes := axes, nBlocks := none } (.tuple (ws.map Window.toEntry)) =
      .ok (composeWindows a.shape o.viewSerialization ws) :=
    (viewComposerNew_eq (show _ = _ from h.length_eq)).trans (composeEntries_windows h.steps hopen)
  rw [WindowsEnd, ← composeWindows_passes a.shape_pos h.passes hopen]
  have hpositive : ∀ e ∈ ws.map Window.toEntry, PositiveStep e := by
    intro e he
    obtain ⟨w, -, rfl⟩ := List.mem_map.mp he
    exact fun step hstep => absurd hstep (by simp)
  have hlen : (composeWindows a.shape o.viewSerialization ws).length = a.shape.length :=
    (composeEntries_spec h.steps hpositive (by rwa [List.length_map])
      (composeEntries_windows h.steps hopen)).1.length_eq.symm
  rw [← calculateNblocks_ok_iff hlen, createLazyPersistentView, hview]
  constructor
  · rintro ⟨v, hv⟩
    change (a.calculateNblocks _ >>= _) = _ at hv
    cases hn : a.calculateNblocks (composeWindows a.shape o.viewSerialization ws) with
    | error e =>
      rw [hn] at hv
      cases hv
    | ok n => exact ⟨n, rfl⟩
  · rintro ⟨n, hn⟩
    exact ⟨_, by change (a.calculateNblocks _ >>= _) = _; rw [hn]; rfl⟩

/-- A view of `split` is made unless it has too many indexes, or a part of the object whose
serialized form would end before the array. -/
theorem splitView_ok_iff (h : WellFormed a o) {ws : List Window} (hne : ws ≠ []) :
    (∃ v, a.splitView o full ws = .ok v) ↔ ws.length ≤ (shapeOf o.axes).length ∧
      (windowShape ws (shapeOf o.axes) = shapeOf o.axes ∨ WindowsEnd a o ws) := by
  by_cases hl : ws.length ≤ (shapeOf o.axes).length
  · obtain ⟨axes, hok, hshape, -⟩ := numpyGetitem_windows hl
    have htruthy : (Key.tuple (ws.map Window.toEntry)).truthy = true := by
      cases ws with
      | nil => exact absurd rfl hne
      | cons => rfl
    rw [and_iff_right hl, splitView, hok, ← createLazy_windows_iff h hl axes]
    change (∃ v, (a.arrayFinalize o axes _ >>= _) = _) ↔ _
    rw [arrayFinalize, if_pos htruthy, ← hshape]
    by_cases hsame : shapeOf axes = shapeOf o.axes
    · rw [if_pos hsame.symm]
      exact iff_of_true ⟨_, rfl⟩ (.inl hsame)
    · rw [if_neg (Ne.symm hsame), or_iff_right hsame]
      constructor
      · rintro ⟨v, hv⟩
        cases hc : a.createLazyPersistentView { o with axes := axes, nBlocks := none }
            (.tuple (ws.map Window.toEntry)) with
        | error e =>
          rw [hc] at hv
          cases hv
        | ok w => exact ⟨w, rfl⟩
      · rintro ⟨w, hw⟩
        rw [hw]
        exact ⟨_, rfl⟩
  · refine iff_of_false ?_ (fun hh => hl hh.1)
    rintro ⟨v, hv⟩
    rw [splitView] at hv
    cases hax : numpyGetitem o.axes (ws.map Window.toEntry) with
    | error e =>
      rw [hax] at hv
      cases hv
    | ok axes =>
      have hlen := (numpyGetitem_spec hax).1
      rw [List.length_map] at hlen
      exact hl hlen

theorem splitView_cells {ws : List Window} (hl : ws.length ≤ (shapeOf o.axes).length)
    (h : a.splitView o full ws = .ok v) (c : List Int) :
    IsCell v.axes c ↔ ∃ xs, InGrid (shapeOf o.axes) xs ∧ InWindows ws xs ∧ cellAt o.axes xs = c := by
  obtain ⟨axes, hok, -, hcells⟩ := numpyGetitem_windows hl
  rw [splitView, hok] at h
  change (a.arrayFinalize o axes _ >>= _) = _ at h
  cases hf : a.arrayFinalize o axes (.tuple (ws.map Window.toEntry)) with
  | error e =>
    rw [hf] at h
    cases h
  | ok w =>
    rw [hf] at h
    cases h
    rw [← hcells, (arrayFinalize_spec hf).1]

/-- Views cut by windows partition the cells when the windows partition the positions. -/
theorem covers_iff (hs : Strided o.axes) {wss : List (List Window)} {views : List StorageNumpy}
    (hl : ∀ ws ∈ wss, ws.length ≤ (shapeOf o.axes).length)
    (h : List.Forall₂ (fun ws v => a.splitView o full ws = .ok v) wss views) :
    ((∀ v ∈ views, ∀ c, IsCell v.axes c → IsCell o.axes c) ∧
      ∀ c, IsCell o.axes c → ∃! k : Nat, ∃ v : StorageNumpy, views[k]? = some v ∧ IsCell v.axes c) ↔
    ∀ xs, InGrid (shapeOf o.axes) xs → ∃! k : Nat, ∃ ws, wss[k]? = some ws ∧ InWindows ws xs := by
  have hcells {ws : List Window} {v : StorageNumpy} (hm : ws ∈ wss) (hv : a.splitView o full ws = .ok v)
      {xs : List Nat} (hxs : InGrid (shapeOf o.axes) xs) : IsCell v.axes (cellAt o.axes xs) ↔ InWindows ws xs := by
    rw [splitView_cells (hl ws hm) hv]
    constructor
    · rintro ⟨ys, hys, hw, he⟩
      rwa [cellAt_injective hs hys hxs he] at hw
    · exact fun hw => ⟨xs, hxs, hw, rfl⟩
  have hk {xs : List Nat} (hxs : InGrid (shapeOf o.axes) xs) (k : Nat) :
      (∃ v, views[k]? = some v ∧ IsCell v.axes (cellAt o.axes xs)) ↔
        ∃ ws, wss[k]? = some ws ∧ InWindows ws xs := by
    constructor
    · rintro ⟨v, hv, hc⟩
      obtain ⟨hlt, hget⟩ := List.getElem?_eq_some_iff.mp hv
      have hlt' : k < wss.length := by rw [h.length_eq]; exact hlt
      have hview := (List.forall₂_iff_get.mp h).2 k hlt' hlt
      rw [List.get_eq_getElem, List.get_eq_getElem, hget] at hview
      exact ⟨wss[k], List.getElem?_eq_getElem hlt', (hcells (List.getElem_mem hlt') hview hxs).mp hc⟩
    · rintro ⟨ws, hws, hw⟩
      obtain ⟨hlt, hget⟩ := List.getElem?_eq_some_iff.mp hws
      have hlt' : k < views.length := by rw [← h.length_eq]; exact hlt
      have hview := (List.forall₂_iff_get.mp h).2 k hlt hlt'
      rw [List.get_eq_getElem, List.get_eq_getElem, hget] at hview
      exact ⟨views[k], List.getElem?_eq_getElem hlt', (hcells (List.mem_of_getElem? hws) hview hxs).mpr hw⟩
  constructor
  · rintro ⟨-, hall⟩ xs hxs
    have hh := hall _ ⟨xs, hxs, rfl⟩
    simpa only [hk hxs] using hh
  · intro hall
    refine ⟨fun v hv c hc => ?_, ?_⟩
    · obtain ⟨k, hlt, hget⟩ := List.getElem_of_mem hv
      have hlt' : k < wss.length := by rw [h.length_eq]; exact hlt
      have hview := (List.forall₂_iff_get.mp h).2 k hlt' hlt
      rw [List.get_eq_getElem, List.get_eq_getElem, hget] at hview
      obtain ⟨xs, hxs, -, he⟩ := (splitView_cells (hl _ (List.getElem_mem hlt')) hview c).mp hc
      exact ⟨xs, hxs, he⟩
    · rintro c ⟨xs, hxs, rfl⟩
      simpa only [hk hxs] using hall xs hxs

/-- The views of a list of windows partition the object when all of them can be made, and the
windows partition its positions. -/
theorem covers_windows_iff (h : WellFormed a o) {β : Type} {l : List β} {ws : β → List Window}
    {guard : β → Prop} {f : β → Except PyError StorageNumpy} (hne : ∀ b ∈ l, ws b ≠ [])
    (hf : ∀ b ∈ l, ∀ v, f b = .ok v ↔ guard b ∧ a.splitView o full (ws b) = .ok v) :
    (∃ views, l.mapM f = .ok views ∧ (∀ v ∈ views, ∀ c, IsCell v.axes c → IsCell o.axes c) ∧
      ∀ c, IsCell o.axes c → ∃! k : Nat, ∃ v : StorageNumpy, views[k]? = some v ∧ IsCell v.axes c) ↔
    (∀ b ∈ l, guard b ∧ (ws b).length ≤ (shapeOf o.axes).length ∧
      (windowShape (ws b) (shapeOf o.axes) = shapeOf o.axes ∨ WindowsEnd a o (ws b))) ∧
    ∀ xs, InGrid (shapeOf o.axes) xs → ∃! k : Nat, ∃ b, l[k]? = some b ∧ InWindows (ws b) xs := by
  have hget (k : Nat) (xs : List Nat) : (∃ w, (l.map ws)[k]? = some w ∧ InWindows w xs) ↔
      ∃ b, l[k]? = some b ∧ InWindows (ws b) xs := by
    rw [List.getElem?_map]
    cases l[k]? <;> simp
  have hmade {views : List StorageNumpy} (hviews : List.Forall₂ (fun b v => f b = .ok v) l views) :
      (∀ b ∈ l, guard b ∧ (ws b).length ≤ (shapeOf o.axes).length ∧
        (windowShape (ws b) (shapeOf o.axes) = shapeOf o.axes ∨ WindowsEnd a o (ws b))) ∧
      List.Forall₂ (fun w v => a.splitView o full w = .ok v) (l.map ws) views := by
    have hboth : List.Forall₂ (fun b v => guard b ∧ a.splitView o full (ws b) = .ok v) l views := by
      refine List.forall₂_iff_get.mpr ⟨hviews.length_eq, fun k hk hk' => ?_⟩
      exact (hf _ (List.get_mem l ⟨k, hk⟩) _).mp ((List.forall₂_iff_get.mp hviews).2 k hk hk')
    refine ⟨fun b hb => ?_, List.forall₂_map_left_iff.mpr (hboth.imp fun _ _ hbv => hbv.2)⟩
    obtain ⟨k, hk, rfl⟩ := List.getElem_of_mem hb
    have hbv := (List.forall₂_iff_get.mp hboth).2 k hk (by rw [← hviews.length_eq]; exact hk)
    rw [List.get_eq_getElem] at hbv
    exact ⟨hbv.1, (splitView_ok_iff h (hne _ hb)).mp ⟨_, hbv.2⟩⟩
  have hcovers {views : List StorageNumpy}
      (hl : ∀ b ∈ l, (ws b).length ≤ (shapeOf o.axes).length)
      (hviews : List.Forall₂ (fun w v => a.splitView o full w = .ok v) (l.map ws) views) :=
    @covers_iff a o full h.strided (l.map ws) views
      (fun w hw => by obtain ⟨b, hb, rfl⟩ := List.mem_map.mp hw; exact hl b hb) hviews
  simp only [hget] at hcovers
  constructor
  · rintro ⟨views, hviews, hcells⟩
    obtain ⟨hall, hall₂⟩ := hmade (mapM_ok_iff.mp hviews)
    exact ⟨hall, (hcovers (fun b hb => (hall b hb).2.1) hall₂).mp hcells⟩
  · rintro ⟨hall, hgrid⟩
    have hex : ∃ views, List.Forall₂ (fun b v => f b = .ok v) l views := by
      have hone (b : β) (hb : b ∈ l) : ∃ v, f b = .ok v := by
        obtain ⟨hguard, hok⟩ := hall b hb
        obtain ⟨v, hv⟩ := (splitView_ok_iff h (hne b hb)).mpr hok
        exact ⟨v, (hf b hb v).mpr ⟨hguard, hv⟩⟩
      clear hmade hcovers hget hgrid hall hf hne
      induction l with
      | nil => exact ⟨[], List.Forall₂.nil⟩
      | cons b l ih =>
        obtain ⟨v, hv⟩ := hone b List.mem_cons_self
        obtain ⟨views, hviews⟩ := ih fun b hb => hone b (List.mem_cons_of_mem _ hb)
        exact ⟨v :: views, List.Forall₂.cons hv hviews⟩
    obtain ⟨views, hviews⟩ := hex
    exact ⟨views, mapM_ok_iff.mpr hviews, (hcovers (fun b hb => (hall b hb).2.1) (hmade hviews).2).mpr hgrid⟩

end views

section windows

variable {a : PersistentArray} {o : StorageNumpy}

theorem blockWindow_mem {k x : Nat} : InWindow (a.blockWindow (k * a.rowElem)) x ↔ x / a.rowElem = k := by
  rw [← mem_block_iff a.rowElem_pos, InWindow, blockWindow]
  simp

theorem inWindows_blocks {ccs xs : List Nat} (hl : ccs.length = xs.length) :
    InWindows ((ccs.map (· * a.rowElem)).map a.blockWindow) xs ↔ xs.map (· / a.rowElem) = ccs := by
  induction ccs generalizing xs with
  | nil =>
    obtain rfl : xs = [] := List.length_eq_zero_iff.mp hl.symm
    exact iff_of_true trivial rfl
  | cons c ccs ih =>
    obtain ⟨x, xs, rfl⟩ := List.exists_cons_of_length_eq_add_one hl.symm
    rw [List.map_cons, List.map_cons, InWindows, blockWindow_mem, ih (by simpa using hl), List.map_cons,
      List.cons.injEq]

theorem blockWindow_length {i n : Nat} (hn : 0 < n) :
    Window.length (a.blockWindow i) n = n ↔ i = 0 ∧ n ≤ a.rowElem := by
  have hR := a.rowElem_pos
  simp only [Window.length, Window.first, blockWindow, Option.getD_some]
  omega

theorem windowEnd_block {size i : Nat} {s : Bounds} :
    windowEnd size s (a.blockWindow i) = s.start + (i + a.rowElem : Nat) * s.step := by
  have hR := a.rowElem_pos
  have hne : ((i + a.rowElem : Nat) : Int) ≠ 0 := by omega
  rw [windowEnd, blockWindow, removenones_stop rfl]
  exact (congrArg _ (if_neg hne)).trans (if_neg (Int.not_lt.mpr (Int.natCast_nonneg _)))

theorem windowEnd_whole {size : Nat} {s : Bounds} :
    windowEnd size s (none, none) = s.start + size * s.step := by
  rw [windowEnd, composeIndex, removenones]
  exact if_neg (by simp)

theorem openBounds_step {shape : List Nat} {view : List Entry} (h : List.Forall₂ StepPositive shape view) :
    ∀ p ∈ openBounds shape view, 0 < p.2.step := by
  induction h with
  | nil => simp [openBounds]
  | @cons size e shape view he _ ih =>
    cases e with
    | int i => exact ih
    | slice s =>
      rw [openBounds, List.forall_mem_cons]
      exact ⟨he, ih⟩

theorem openBounds_length_le (shape : List Nat) (view : List Entry) :
    (openBounds shape view).length ≤ shape.length := by
  induction shape generalizing view with
  | nil => exact Nat.le_refl _
  | cons size shape ih =>
    match view with
    | [] => exact Nat.zero_le _
    | .int i :: view => exact (ih view).trans (Nat.le_succ _)
    | .slice s :: view => exact Nat.succ_le_succ (ih view)

/-- The parts of `range(0, n, _row_elem)` are the blocks of a dimension. -/
theorem listOfClusters_unique {n x : Nat} (hx : x < n) : ∃! k : Nat, ∃ i,
    (a.listOfClusters n)[k]? = some i ∧ InWindow (a.blockWindow i) x := by
  have hR := a.rowElem_pos
  have hget (k i : Nat) : (a.listOfClusters n)[k]? = some i ↔
      k < (n + a.rowElem - 1) / a.rowElem ∧ k * a.rowElem = i := by
    rw [listOfClusters, List.getElem?_map]
    by_cases hk : k < (n + a.rowElem - 1) / a.rowElem
    · rw [List.getElem?_range hk, Option.map_some, Option.some.injEq, and_iff_right hk]
    · rw [List.getElem?_eq_none (by rw [List.length_range]; omega)]
      exact iff_of_false (by simp) fun hh => hk hh.1
  simp only [hget]
  refine ⟨x / a.rowElem, ⟨_, ⟨?_, rfl⟩, blockWindow_mem.mpr rfl⟩, ?_⟩
  · rw [lt_blocks_iff hR]
    exact Nat.lt_of_le_of_lt (Nat.div_mul_le_self x a.rowElem) hx
  · rintro k ⟨i, ⟨-, rfl⟩, hw⟩
    exact (blockWindow_mem.mp hw).symm

theorem mem_listOfClusters {n i : Nat} :
    i ∈ a.listOfClusters n ↔ ∃ k < (n + a.rowElem - 1) / a.rowElem, k * a.rowElem = i := by
  simp [listOfClusters]

/-- All blocks of a dimension end after the start of the array when the first one does. -/
theorem block_end_nonneg {s : Bounds} {i : Nat} (hs : 0 < s.step) (h : 0 ≤ s.start + a.rowElem * s.step) :
    0 ≤ s.start + (i + a.rowElem : Nat) * s.step := by
  have hi : 0 ≤ (i : Int) * s.step := Int.mul_nonneg (by omega) hs.le
  rw [Nat.cast_add, Int.add_mul]
  omega

end windows

section cases

variable {a : PersistentArray} {o : StorageNumpy}

/-- The blocks of an object are those of its own shape. -/
def ownBlocks (a : PersistentArray) (o : StorageNumpy) : List Nat :=
  blocksDim o.metas (a.rowElements o.metas.dims.length)

theorem getBlockIds_ccs (h : WellFormed a o) :
    (a.getBlockIds o.metas).map (·.ccs) =
      (List.range (a.ownBlocks o).prod).map (unRowMajor (a.ownBlocks o)) := by
  have hr : 0 < a.rowElements o.metas.dims.length := a.rowElements_pos _
  have hprod : (a.ownBlocks o).prod < 2 ^ 63 := by
    have h1 := @blocksDim_prod_le_dims o.metas _ hr
    have h2 : a.shape.prod ≤ a.elemSize * a.shape.prod := Nat.le_mul_of_pos_left _ a.elemSize_pos
    have h3 := h.metas_prod_le
    have h4 := a.fits
    rw [ownBlocks]
    omega
  have hne : a.ownBlocks o ≠ [] := by
    obtain ⟨l, hl⟩ := h.metas_dims
    rw [ownBlocks, blocksDim, hl]
    simpa using fun _ => h.shape_ne
  rw [getBlockIds, ← ownBlocks, foldl_mul_u64 _ (by decide), Nat.one_mul, u64_of_lt (by omega), List.map_map]
  refine List.map_congr_left fun n hn => ?_
  have hidx := getIndexes_eq hne (blocksDim_lt hr) hprod (List.mem_range.mp hn)
  rw [Function.comp, getNextPartitionIdxs]
  split <;> exact hidx

theorem split_none_eq (hne : a.partitionType ≠ .columnar) :
    a.split o none = (a.getBlockIds o.metas).mapM fun block =>
      token ((a.getBlockIds o.metas).map (·.clusterId)) block.clusterId >>= fun _ =>
        a.splitView o o.numpyFullLoaded ((block.ccs.map (· * a.rowElem)).map a.blockWindow) := by
  rw [split, if_neg hne]
  dsimp only
  rw [splitByBlocks, getTokens]
  cases a.arrowOn o <;> rfl

theorem token_bind_ok {tokens : List Nat} {id : Nat} {x : Except PyError StorageNumpy} {v : StorageNumpy} :
    (token tokens id >>= fun _ => x) = .ok v ↔ id ∈ tokens ∧ x = .ok v := by
  rw [token]
  split
  · rename_i hm
    exact (and_iff_right hm).symm
  · rename_i hm
    exact iff_of_false (by rintro ⟨⟩) fun hh => hm hh.1

theorem zeros_inGrid {shape : List Nat} (h : 0 ∉ shape) : InGrid shape (List.replicate shape.length 0) := by
  refine inGrid_iff.mpr ⟨List.length_replicate, fun i hi => ?_⟩
  rw [List.getD_eq_getElem _ _ (by simpa using hi), List.getElem_replicate, List.getD_eq_getElem _ _ hi]
  exact Nat.pos_of_ne_zero fun h0 => h (h0 ▸ List.getElem_mem hi)

/-- The blocks of an object of its own number of dimensions hold each position once. -/
theorem blocks_unique_iff (h : WellFormed a o) (hl : o.metas.dims.length = (shapeOf o.axes).length)
    {xs : List Nat} (hxs : InGrid (shapeOf o.axes) xs) :
    (∃! k : Nat, ∃ b, (a.getBlockIds o.metas)[k]? = some b ∧
      InWindows ((b.ccs.map (· * a.rowElem)).map a.blockWindow) xs) ↔
      InGrid (a.ownBlocks o) (xs.map (· / a.rowElem)) := by
  have hlen : (a.ownBlocks o).length = xs.length := by
    rw [ownBlocks, blocksDim, List.length_map, hl, hxs.length_eq]
  have hk (k : Nat) : (∃ b, (a.getBlockIds o.metas)[k]? = some b ∧
      InWindows ((b.ccs.map (· * a.rowElem)).map a.blockWindow) xs) ↔
      k < (a.ownBlocks o).prod ∧ xs.map (· / a.rowElem) = unRowMajor (a.ownBlocks o) k := by
    have hccs := congrArg (·[k]?) (getBlockIds_ccs h)
    simp only [List.getElem?_map] at hccs
    by_cases hlt : k < (a.ownBlocks o).prod
    · rw [List.getElem?_range hlt, Option.map_some] at hccs
      obtain ⟨b, hb, hbc⟩ := Option.map_eq_some_iff.mp hccs
      have hbl : b.ccs.length = xs.length := by rw [hbc, (unRowMajor_inGrid hlt).length_eq, hlen]
      rw [hb, and_iff_right hlt, ← hbc, ← inWindows_blocks hbl]
      simp
    · have hnone : (List.range (a.ownBlocks o).prod)[k]? = none :=
        List.getElem?_eq_none (by rw [List.length_range]; omega)
      rw [hnone, Option.map_none, Option.map_eq_none_iff] at hccs
      rw [hccs]
      exact iff_of_false (by simp) fun hh => hlt hh.1
  simp only [hk]
  constructor
  · rintro ⟨k, ⟨hlt, he⟩, -⟩
    rw [he]
    exact unRowMajor_inGrid hlt
  · intro hgrid
    refine ⟨rowMajor (a.ownBlocks o) (xs.map (· / a.rowElem)), ⟨rowMajor_lt hgrid,
      (unRowMajor_rowMajor hgrid).symm⟩, ?_⟩
    rintro k ⟨hlt, he⟩
    rw [he, rowMajor_unRowMajor hlt]

theorem mem_take_of_mem_zip {α β : Type} {l : List α} {m : List β} {p : α × β} (h : p ∈ l.zip m) :
    p.2 ∈ m.take l.length := by
  obtain ⟨i, hi, rfl⟩ := List.getElem_of_mem h
  rw [List.length_zip] at hi
  rw [List.getElem_zip, List.mem_take_iff_getElem]
  exact ⟨i, by omega, rfl⟩

theorem exists_mem_zip {α β : Type} {l : List α} {m : List β} {q : β} (h : q ∈ m.take l.length) :
    ∃ x, (x, q) ∈ l.zip m := by
  obtain ⟨i, hi, rfl⟩ := List.mem_take_iff_getElem.mp h
  have hl : i < l.length := by omega
  refine ⟨l[i], ?_⟩
  rw [← List.getElem_zip (h := by rw [List.length_zip]; omega)]
  exact List.getElem_mem _

theorem windowsEnd_blocks {ccs : List Nat} :
    WindowsEnd a o ((ccs.map (· * a.rowElem)).map a.blockWindow) ↔
      ∀ p ∈ ccs.zip (openBounds a.shape o.viewSerialization),
        0 ≤ p.2.2.start + (p.1 * a.rowElem + a.rowElem : Nat) * p.2.2.step := by
  rw [WindowsEnd, List.map_map, List.zip_map_left, List.forall_mem_map]
  exact forall₂_congr fun p _ => by rw [Prod.map_fst, Prod.map_snd, Function.comp, windowEnd_block]; rfl

theorem windowShape_zeros {shape : List Nat} (h0 : 0 ∉ shape) :
    windowShape (((List.replicate shape.length 0).map (· * a.rowElem)).map a.blockWindow) shape = shape ↔
      ∀ d ∈ shape, d ≤ a.rowElem := by
  induction shape with
  | nil => exact iff_of_true rfl (by simp)
  | cons d shape ih =>
    have hd : 0 < d := Nat.pos_of_ne_zero fun h => h0 (h ▸ List.mem_cons_self)
    rw [List.length_cons, List.replicate_succ, List.map_cons, List.map_cons, windowShape, List.cons.injEq,
      blockWindow_length hd, ih fun h => h0 (List.mem_cons_of_mem _ h), Nat.zero_mul, and_iff_right rfl,
      List.forall_mem_cons]

/-- The first `n` positions of a dimension do not end before the array. -/
def EndsInside (n : Nat) (p : Nat × Bounds) : Prop := 0 ≤ p.2.start + n * p.2.step

/-- The blocks counted for the object reach its end when they are cut with the row of its
array, and none of them ends before the array. -/
def BlocksMatch (a : PersistentArray) (o : StorageNumpy) : Prop :=
  0 ∈ shapeOf o.axes ∨
    (o.metas.dims.length = (shapeOf o.axes).length ∧
      List.Forall₂ (fun d b => d ≤ b * a.rowElem) (shapeOf o.axes) (a.ownBlocks o) ∧
      ((∀ d ∈ shapeOf o.axes, d ≤ a.rowElem) ∨
        ∀ p ∈ (openBounds a.shape o.viewSerialization).take (shapeOf o.axes).length,
          EndsInside a.rowElem p))

theorem ccs_inGrid (h : WellFormed a o) {b : PartitionIdxs} (hb : b ∈ a.getBlockIds o.metas) :
    InGrid (a.ownBlocks o) b.ccs := by
  have hm : b.ccs ∈ (a.getBlockIds o.metas).map (·.ccs) := List.mem_map_of_mem hb
  rw [getBlockIds_ccs h] at hm
  obtain ⟨n, hn, he⟩ := List.mem_map.mp hm
  rw [← he]
  exact unRowMajor_inGrid (List.mem_range.mp hn)

theorem ownBlocks_length : (a.ownBlocks o).length = o.metas.dims.length := by
  rw [ownBlocks, blocksDim, List.length_map]

theorem blocksMatch_of_covers (h : WellFormed a o)
    (hall : ∀ b ∈ a.getBlockIds o.metas,
      ((b.ccs.map (· * a.rowElem)).map a.blockWindow).length ≤ (shapeOf o.axes).length ∧
      (windowShape ((b.ccs.map (· * a.rowElem)).map a.blockWindow) (shapeOf o.axes) = shapeOf o.axes ∨
        WindowsEnd a o ((b.ccs.map (· * a.rowElem)).map a.blockWindow)))
    (hgrid : ∀ xs, InGrid (shapeOf o.axes) xs → ∃! k : Nat, ∃ b, (a.getBlockIds o.metas)[k]? = some b ∧
      InWindows ((b.ccs.map (· * a.rowElem)).map a.blockWindow) xs) : BlocksMatch a o := by
  by_cases h0 : 0 ∈ shapeOf o.axes
  · exact .inl h0
  -- the block of the first position
  have hzeros := zeros_inGrid h0
  obtain ⟨k, ⟨b, hb, hw⟩, -⟩ := hgrid _ hzeros
  have hmem := List.mem_of_getElem? hb
  obtain ⟨hlen, hends⟩ := hall b hmem
  have hccs := (ccs_inGrid h hmem).length_eq.trans ownBlocks_length
  rw [List.length_map, List.length_map, hccs] at hlen
  obtain ⟨l, hl⟩ := h.metas_dims
  have hdims : o.metas.dims.length = (shapeOf o.axes).length := by
    rw [hl, List.length_append, List.length_map] at hlen ⊢
    omega
  have hfirst : b.ccs = List.replicate (shapeOf o.axes).length 0 := by
    rw [inWindows_blocks (by rw [hccs, hdims, List.length_replicate]), List.map_replicate, Nat.zero_div] at hw
    exact hw.symm
  refine .inr ⟨hdims, ?_, ?_⟩
  · have hlast : InGrid (shapeOf o.axes) ((shapeOf o.axes).map (· - 1)) := by
      refine List.forall₂_map_left_iff.mpr (List.forall₂_same.mpr fun d hd => ?_)
      have hne : d ≠ 0 := fun he => h0 (he ▸ hd)
      omega
    have hin := (blocks_unique_iff h hdims hlast).mp (hgrid _ hlast)
    rw [InGrid, List.map_map, List.forall₂_map_left_iff] at hin
    refine hin.imp fun d b' hlt => ?_
    rw [Function.comp, Nat.div_lt_iff_lt_mul a.rowElem_pos] at hlt
    omega
  · rw [hfirst] at hends
    rcases hends with hwhole | hends
    · exact .inl ((windowShape_zeros h0).mp hwhole)
    · refine .inr fun p hp => ?_
      rw [windowsEnd_blocks] at hends
      obtain ⟨x, hx⟩ := @exists_mem_zip _ _ (List.replicate (shapeOf o.axes).length 0) _ p
        (by rwa [List.length_replicate])
      have hx0 : x = 0 := List.eq_of_mem_replicate (List.of_mem_zip hx).1
      have hh := hends _ hx
      rw [hx0, Nat.zero_mul, Nat.zero_add] at hh
      exact hh

theorem rowElem_le (h : WellFormed a o) (hl : o.metas.dims.length = (shapeOf o.axes).length) :
    a.rowElem ≤ a.rowElements o.metas.dims.length :=
  a.rowElements_anti _ _ (hl ▸ h.ndim_le.trans (openBounds_length_le _ _))

theorem getBlockIds_eq_nil (h : WellFormed a o) (h0 : 0 ∈ shapeOf o.axes) : a.getBlockIds o.metas = [] := by
  obtain ⟨l, hl⟩ := h.metas_dims
  have hzero : (a.ownBlocks o).prod = 0 := by
    refine Nat.eq_zero_of_not_pos fun hpos => ?_
    have hr := a.rowElements_pos o.metas.dims.length
    have hmem : (0 + a.rowElements o.metas.dims.length - 1) / a.rowElements o.metas.dims.length ∈
        a.ownBlocks o :=
      List.mem_map.mpr ⟨0, by rw [hl]; exact List.mem_append_right _ (List.mem_map.mpr ⟨0, h0, rfl⟩), rfl⟩
    rw [Nat.zero_add, Nat.div_eq_of_lt (by omega)] at hmem
    exact absurd (List.prod_pos_iff_forall_pos_nat.mp hpos 0 hmem) (Nat.lt_irrefl 0)
  have hccs := getBlockIds_ccs h
  rw [hzero, List.range_zero, List.map_nil] at hccs
  exact List.map_eq_nil_iff.mp hccs

theorem ownBlocks_le_one (h : WellFormed a o) (hdims : o.metas.dims.length = (shapeOf o.axes).length)
    (hsmall : ∀ d ∈ shapeOf o.axes, d ≤ a.rowElem) {i : Nat} (hi : i < (a.ownBlocks o).length) :
    (a.ownBlocks o)[i] ≤ 1 := by
  have him : i < o.metas.dims.length := by rwa [← ownBlocks_length]
  have his : i < (shapeOf o.axes).length := by omega
  have hget : (a.ownBlocks o)[i] = (o.metas.dims[i] + a.rowElements o.metas.dims.length - 1) /
      a.rowElements o.metas.dims.length := List.getElem_map _
  obtain ⟨l, hl⟩ := h.metas_dims
  have hnil : l = [] := by
    rw [hl, List.length_append, List.length_map] at hdims
    exact List.length_eq_zero_iff.mp (by omega)
  have hdim : o.metas.dims[i] ≤ (shapeOf o.axes)[i] := by
    have he : o.metas.dims[i] = u32 (shapeOf o.axes)[i] := by
      simp only [hl, hnil, List.nil_append, List.getElem_map]
    rw [he]
    exact Nat.mod_le _ _
  have hle := hsmall _ (List.getElem_mem his)
  have hr := rowElem_le h hdims
  have hr1 := a.rowElements_pos o.metas.dims.length
  rw [hget]
  refine Nat.le_of_lt_succ (Nat.div_lt_of_lt_mul ?_)
  omega

theorem ccs_eq_zeros (h : WellFormed a o) (hdims : o.metas.dims.length = (shapeOf o.axes).length)
    (hsmall : ∀ d ∈ shapeOf o.axes, d ≤ a.rowElem) {b : PartitionIdxs} (hb : b ∈ a.getBlockIds o.metas) :
    b.ccs = List.replicate (shapeOf o.axes).length 0 := by
  have hgrid := ccs_inGrid h hb
  refine List.eq_replicate_iff.mpr ⟨by rw [hgrid.length_eq, ownBlocks_length, hdims], fun c hc => ?_⟩
  obtain ⟨i, hi, rfl⟩ := List.getElem_of_mem hc
  have hg := inGrid_iff.mp hgrid
  have hib : i < (a.ownBlocks o).length := by omega
  have hlt := hg.2 i hib
  rw [List.getD_eq_getElem _ _ hi, List.getD_eq_getElem _ _ hib] at hlt
  have hbound := ownBlocks_le_one h hdims hsmall hib
  omega

theorem covers_of_blocksMatch (h : WellFormed a o) (hm : BlocksMatch a o) :
    (∀ b ∈ a.getBlockIds o.metas,
      ((b.ccs.map (· * a.rowElem)).map a.blockWindow).length ≤ (shapeOf o.axes).length ∧
      (windowShape ((b.ccs.map (· * a.rowElem)).map a.blockWindow) (shapeOf o.axes) = shapeOf o.axes ∨
        WindowsEnd a o ((b.ccs.map (· * a.rowElem)).map a.blockWindow))) ∧
    ∀ xs, InGrid (shapeOf o.axes) xs → ∃! k : Nat, ∃ b, (a.getBlockIds o.metas)[k]? = some b ∧
      InWindows ((b.ccs.map (· * a.rowElem)).map a.blockWindow) xs := by
  by_cases h0 : 0 ∈ shapeOf o.axes
  · -- no blocks and no positions
    have hnil := getBlockIds_eq_nil h h0
    refine ⟨by rw [hnil]; simp, fun xs hxs => ?_⟩
    obtain ⟨i, hi, he⟩ := List.getElem_of_mem h0
    have hlt := (inGrid_iff.mp hxs).2 i hi
    rw [List.getD_eq_getElem _ _ hi, he] at hlt
    exact absurd hlt (Nat.not_lt_zero _)
  · obtain ⟨hdims, hreach, hends⟩ := hm.resolve_left h0
    refine ⟨fun b hb => ⟨?_, ?_⟩, fun xs hxs => (blocks_unique_iff h hdims hxs).mpr ?_⟩
    · rw [List.length_map, List.length_map, (ccs_inGrid h hb).length_eq, ownBlocks_length, hdims]
    · rcases hends with hsmall | hends
      · -- a single block
        refine .inl ?_
        rw [ccs_eq_zeros h hdims hsmall hb]
        exact (windowShape_zeros h0).mpr hsmall
      · refine .inr (windowsEnd_blocks.mpr fun p hp => ?_)
        have htake := mem_take_of_mem_zip hp
        rw [(ccs_inGrid h hb).length_eq, ownBlocks_length, hdims] at htake
        exact block_end_nonneg (openBounds_step h.steps _ (List.mem_of_mem_take htake)) (hends _ htake)
    · have hall := List.forall₂_iff_get.mp hreach
      refine inGrid_iff.mpr ⟨by rw [List.length_map, hxs.length_eq, hall.1], fun i hi => ?_⟩
      have his : i < (shapeOf o.axes).length := by rw [hall.1]; exact hi
      have hix : i < xs.length := by rw [hxs.length_eq]; exact his
      have hlt := (inGrid_iff.mp hxs).2 i his
      have hle : (shapeOf o.axes)[i] ≤ (a.ownBlocks o)[i] * a.rowElem := hall.2 i his hi
      rw [List.getD_eq_getElem _ _ hix, List.getD_eq_getElem _ _ his] at hlt
      rw [List.getD_eq_getElem _ _ (by rwa [List.length_map]), List.getElem_map,
        List.getD_eq_getElem _ _ hi, Nat.div_lt_iff_lt_mul a.rowElem_pos]
      omega

theorem splitCovers_none_iff (h : WellFormed a o) : SplitCovers a o none ↔ BlocksMatch a o := by
  let ws : PartitionIdxs → List Window := fun b => (b.ccs.map (· * a.rowElem)).map a.blockWindow
  have hne : ∀ b ∈ a.getBlockIds o.metas, ws b ≠ [] := by
    intro b hb hnil
    have hlen := (ccs_inGrid h hb).length_eq.trans ownBlocks_length
    obtain ⟨l, hl⟩ := h.metas_dims
    rw [List.map_eq_nil_iff.mp (List.map_eq_nil_iff.mp hnil), hl, List.length_append, List.length_map,
      List.length_nil] at hlen
    exact h.shape_ne (List.length_eq_zero_iff.mp (by omega))
  have hf : ∀ b ∈ a.getBlockIds o.metas, ∀ v,
      (token ((a.getBlockIds o.metas).map (·.clusterId)) b.clusterId >>= fun _ =>
        a.splitView o o.numpyFullLoaded (ws b)) = .ok v ↔
        True ∧ a.splitView o o.numpyFullLoaded (ws b) = .ok v := by
    intro b hb v
    rw [token_bind_ok, true_and, and_iff_right (List.mem_map_of_mem hb)]
  rw [SplitCovers, split_none_eq a.partitionType_ne, covers_windows_iff h hne hf]
  simp only [true_and]
  exact ⟨fun hh => blocksMatch_of_covers h hh.1 hh.2, covers_of_blocksMatch h⟩

/-- All columns are in one block, or the rows and the first block of columns end inside the
array; and the clusters of the columns have tokens, where tokens are asked for. -/
def ColsMatch (a : PersistentArray) (o : StorageNumpy) : Prop :=
  ((shapeOf o.axes).getD 1 0 ≤ a.rowElem ∨
    ((∀ p ∈ (openBounds a.shape o.viewSerialization)[0]?, EndsInside p.1 p) ∧
      ∀ p ∈ (openBounds a.shape o.viewSerialization)[1]?, EndsInside a.rowElem p)) ∧
  (a.arrowOn o = true → ∀ k < ((shapeOf o.axes).getD 1 0 + a.rowElem - 1) / a.rowElem,
    k ∈ (a.getBlockIds o.metas).map (·.clusterId))

def RowsMatch (a : PersistentArray) (o : StorageNumpy) : Prop :=
  (shapeOf o.axes).getD 0 0 ≤ a.rowElem ∨
    ((∀ p ∈ (openBounds a.shape o.viewSerialization)[1]?, EndsInside p.1 p) ∧
      ∀ p ∈ (openBounds a.shape o.viewSerialization)[0]?, EndsInside a.rowElem p)

theorem whole_length (n : Nat) : Window.length (none, none) n = n := by
  simp [Window.length, Window.first]

/-- The parts of a dimension can be made when the first of them can. -/
theorem clusters_end_iff {n : Nat} {s : Bounds} {Q : Prop} (hs : 0 < s.step) :
    (∀ i ∈ a.listOfClusters n, Window.length (a.blockWindow i) n = n ∨
      (Q ∧ 0 ≤ s.start + (i + a.rowElem : Nat) * s.step)) ↔
    n ≤ a.rowElem ∨ (Q ∧ 0 ≤ s.start + a.rowElem * s.step) := by
  have hR := a.rowElem_pos
  constructor
  · intro hall
    rcases Nat.eq_zero_or_pos n with rfl | hn
    · exact .inl (Nat.zero_le _)
    · have hfirst : 0 ∈ a.listOfClusters n := by
        refine mem_listOfClusters.mpr ⟨0, ?_, Nat.zero_mul _⟩
        rw [lt_blocks_iff hR, Nat.zero_mul]
        exact hn
      rcases hall 0 hfirst with hwhole | hends
      · exact .inl ((blockWindow_length hn).mp hwhole).2
      · rw [Nat.zero_add] at hends
        exact .inr hends
  · rintro (hsmall | ⟨hq, hends⟩) i hi
    · obtain ⟨k, hk, rfl⟩ := mem_listOfClusters.mp hi
      rw [lt_blocks_iff hR] at hk
      have hk0 : k = 0 := by
        by_contra hne
        have hle : a.rowElem ≤ k * a.rowElem := Nat.le_mul_of_pos_left _ (by omega)
        omega
      exact .inl ((blockWindow_length (by omega)).mpr ⟨by rw [hk0, Nat.zero_mul], hsmall⟩)
    · exact .inr ⟨hq, block_end_nonneg hs hends⟩

theorem exists_two {α : Type} {l : List α} (h : 2 ≤ l.length) : ∃ x y rest, l = x :: y :: rest := by
  match l, h with
  | x :: y :: rest, _ => exact ⟨x, y, rest, rfl⟩

/-- Views of the parts of one dimension partition the object when the first of them can be
made, and all have their tokens. -/
theorem covers_clusters_iff (h : WellFormed a o) {n : Nat} {s : Bounds} {Q : Prop} (hs : 0 < s.step)
    {ws : Nat → List Window} {guard : Nat → Prop} {f : Nat → Except PyError StorageNumpy} {full : Bool}
    (hlen : ∀ i, (ws i).length = 2) (hdims : 2 ≤ (shapeOf o.axes).length)
    (hf : ∀ i ∈ a.listOfClusters n, ∀ v, f i = .ok v ↔ guard i ∧ a.splitView o full (ws i) = .ok v)
    (hparts : ∀ i, (windowShape (ws i) (shapeOf o.axes) = shapeOf o.axes ∨ WindowsEnd a o (ws i)) ↔
      (Window.length (a.blockWindow i) n = n ∨
        (Q ∧ 0 ≤ s.start + (i + a.rowElem : Nat) * s.step)))
    (hgrid : ∀ xs, InGrid (shapeOf o.axes) xs →
      ∃ x < n, ∀ i, InWindows (ws i) xs ↔ InWindow (a.blockWindow i) x) :
    (∃ views, (a.listOfClusters n).mapM f = .ok views ∧
      (∀ v ∈ views, ∀ c, IsCell v.axes c → IsCell o.axes c) ∧
      ∀ c, IsCell o.axes c → ∃! k : Nat, ∃ v : StorageNumpy, views[k]? = some v ∧ IsCell v.axes c) ↔
    (n ≤ a.rowElem ∨ (Q ∧ 0 ≤ s.start + a.rowElem * s.step)) ∧ ∀ i ∈ a.listOfClusters n, guard i := by
  have hne : ∀ i ∈ a.listOfClusters n, ws i ≠ [] := by
    intro i _ hnil
    have h2 := hlen i
    rw [hnil] at h2
    cases h2
  rw [covers_windows_iff h hne hf, ← clusters_end_iff hs]
  constructor
  · rintro ⟨hall, -⟩
    exact ⟨fun i hi => (hparts i).mp (hall i hi).2.2, fun i hi => (hall i hi).1⟩
  · rintro ⟨hends, hguard⟩
    refine ⟨fun i hi => ⟨hguard i hi, (hlen i).le.trans hdims, (hparts i).mpr (hends i hi)⟩, fun xs hxs => ?_⟩
    obtain ⟨x, hx, hin⟩ := hgrid xs hxs
    simp only [hin]
    exact listOfClusters_unique hx

theorem splitCovers_cols_iff (h : WellFormed a o) (hdims : 2 ≤ (shapeOf o.axes).length) :
    SplitCovers a o (some true) ↔ ColsMatch a o := by
  obtain ⟨n₀, n, rest, hshape⟩ := exists_two hdims
  obtain ⟨p₀, p₁, more, hopen⟩ := exists_two (hdims.trans h.ndim_le)
  have hs : 0 < p₁.2.step := openBounds_step h.steps p₁ (by rw [hopen]; simp)
  have hf : ∀ i ∈ a.listOfClusters n, ∀ v,
      a.yieldCols o (a.getTokens o (some true)) o.numpyFullLoaded i = .ok v ↔
      (a.arrowOn o = true → i / a.rowElem ∈ (a.getBlockIds o.metas).map (·.clusterId)) ∧
        a.splitView o o.numpyFullLoaded [(none, none), a.blockWindow i] = .ok v := by
    intro i _ v
    rw [yieldCols, bind_ok_iff]
    cases harrow : a.arrowOn o with
    | false =>
      rw [getTokens, harrow]
      constructor
      · rintro ⟨view, hview, ⟨⟩⟩
        exact ⟨fun hf => absurd hf (by decide), hview⟩
      · exact fun hh => ⟨v, hh.2, rfl⟩
    | true =>
      rw [getTokens, harrow]
      constructor
      · rintro ⟨view, hview, htoken⟩
        obtain ⟨hm, ⟨⟩⟩ := token_bind_ok.mp htoken
        exact ⟨fun _ => hm, hview⟩
      · exact fun hh => ⟨v, hh.2, token_bind_ok.mpr ⟨hh.1 rfl, rfl⟩⟩
  have hparts : ∀ i, (windowShape [(none, none), a.blockWindow i] (shapeOf o.axes) = shapeOf o.axes ∨
      WindowsEnd a o [(none, none), a.blockWindow i]) ↔
      (Window.length (a.blockWindow i) n = n ∨
        (EndsInside p₀.1 p₀ ∧ 0 ≤ p₁.2.start + (i + a.rowElem : Nat) * p₁.2.step)) := by
    intro i
    refine or_congr ?_ ?_
    · rw [hshape, windowShape, windowShape, windowShape, whole_length, List.cons.injEq, List.cons.injEq,
        and_iff_right rfl, and_iff_left rfl]
    · rw [WindowsEnd, hopen, List.zip_cons_cons, List.zip_cons_cons, List.zip_nil_left, List.forall_mem_cons,
        List.forall_mem_singleton, windowEnd_whole, windowEnd_block]
      rfl
  have hgrid : ∀ xs, InGrid (shapeOf o.axes) xs → ∃ x < n, ∀ i,
      InWindows [(none, none), a.blockWindow i] xs ↔ InWindow (a.blockWindow i) x := by
    intro xs hxs
    rw [hshape] at hxs
    obtain ⟨x₀, ys, -, hys, rfl⟩ := List.forall₂_cons_right_iff.mp hxs
    obtain ⟨x, zs, hx, -, rfl⟩ := List.forall₂_cons_right_iff.mp hys
    refine ⟨x, hx, fun i => ?_⟩
    simp [InWindows, InWindow]
  have hcovers := covers_clusters_iff h hs (fun _ => rfl) hdims hf hparts hgrid
  rw [SplitCovers, split, if_neg a.partitionType_ne]
  dsimp only
  rw [splitByCols, hshape]
  refine hcovers.trans ?_
  rw [ColsMatch, hshape, hopen]
  refine and_congr ?_ ?_
  · simp [EndsInside]
  · simp only [mem_listOfClusters, forall_exists_index, and_imp, forall_apply_eq_imp_iff₂,
      Nat.mul_div_cancel _ a.rowElem_pos]
    exact ⟨fun hh harrow k hk => hh k hk harrow, fun hh k hk harrow => hh harrow k hk⟩

theorem splitCovers_rows_iff (h : WellFormed a o) (hdims : 2 ≤ (shapeOf o.axes).length) :
    SplitCovers a o (some false) ↔ RowsMatch a o := by
  obtain ⟨n, n₁, rest, hshape⟩ := exists_two hdims
  obtain ⟨p₀, p₁, more, hopen⟩ := exists_two (hdims.trans h.ndim_le)
  have hs : 0 < p₀.2.step := openBounds_step h.steps p₀ (by rw [hopen]; simp)
  have hf : ∀ i ∈ a.listOfClusters n, ∀ v, a.yieldRows o o.numpyFullLoaded i = .ok v ↔
      True ∧ a.splitView o o.numpyFullLoaded [a.blockWindow i, (none, none)] = .ok v :=
    fun _ _ _ => by rw [true_and, yieldRows]
  have hparts : ∀ i, (windowShape [a.blockWindow i, (none, none)] (shapeOf o.axes) = shapeOf o.axes ∨
      WindowsEnd a o [a.blockWindow i, (none, none)]) ↔
      (Window.length (a.blockWindow i) n = n ∨
        (EndsInside p₁.1 p₁ ∧ 0 ≤ p₀.2.start + (i + a.rowElem : Nat) * p₀.2.step)) := by
    intro i
    refine or_congr ?_ ?_
    · rw [hshape, windowShape, windowShape, windowShape, whole_length, List.cons.injEq, List.cons.injEq,
        and_iff_left rfl, and_iff_left rfl]
    · rw [WindowsEnd, hopen, List.zip_cons_cons, List.zip_cons_cons, List.zip_nil_left, List.forall_mem_cons,
        List.forall_mem_singleton, windowEnd_whole, windowEnd_block, and_comm]
      rfl
  have hgrid : ∀ xs, InGrid (shapeOf o.axes) xs → ∃ x < n, ∀ i,
      InWindows [a.blockWindow i, (none, none)] xs ↔ InWindow (a.blockWindow i) x := by
    intro xs hxs
    rw [hshape] at hxs
    obtain ⟨x, ys, hx, hys, rfl⟩ := List.forall₂_cons_right_iff.mp hxs
    obtain ⟨x₁, zs, -, -, rfl⟩ := List.forall₂_cons_right_iff.mp hys
    refine ⟨x, hx, fun i => ?_⟩
    simp [InWindows, InWindow]
  have hcovers := covers_clusters_iff h hs (fun _ => rfl) hdims hf hparts hgrid
  rw [SplitCovers, split, if_neg a.partitionType_ne]
  dsimp only
  rw [splitByRows, hshape]
  refine hcovers.trans ?_
  rw [RowsMatch, hshape, hopen]
  simp [EndsInside]

/-- Exactly these objects are partitioned by their views, however they are split. -/
theorem split_covers_iff (h : Reachable a o) :
    (SplitCovers a o none ∧ (2 ≤ (shapeOf o.axes).length →
      SplitCovers a o (some true) ∧ SplitCovers a o (some false))) ↔
    BlocksMatch a o ∧ (2 ≤ (shapeOf o.axes).length → ColsMatch a o ∧ RowsMatch a o) := by
  have hw := h.wellFormed
  refine and_congr (splitCovers_none_iff hw) (forall_congr' fun hdims => ?_)
  exact and_congr (splitCovers_cols_iff hw hdims) (splitCovers_rows_iff hw hdims)

end cases

section inputs

/-- Rows of blocks of 22 doubles. -/
def tableArray : PersistentArray := doubles [30, 600] (by decide) (by decide) (by decide)

def tableBase : StorageNumpy where
  axes := [.range 0 1 30, .range 0 1 600]
  metas := tableArray.harrayMetadata [30, 600]
  viewSerialization := [.slice ⟨none, none, none⟩, .slice ⟨none, none, none⟩]
  nBlocks := some (some 56)
  loadedCoordinates := []
  numpyFullLoaded := true

def tableRow : StorageNumpy where
  axes := [.fixed 1, .range 0 1 600]
  metas := tableArray.harrayMetadata [600]
  viewSerialization := [.int 1, .slice ⟨none, none, none⟩]
  nBlocks := some (some 28)
  loadedCoordinates := []
  numpyFullLoaded := true

theorem tableBase_reachable : Reachable tableArray tableBase :=
  @Reachable.instantiate tableArray true tableBase rfl

theorem tableRow_reachable : Reachable tableArray tableRow :=
  .view (fun _ => none) (.int 1) tableBase_reachable (by simp [Key.entries, PositiveStep]) rfl

theorem split_covers_table : SplitCovers tableArray tableBase none ∧
    (2 ≤ (shapeOf tableBase.axes).length →
      SplitCovers tableArray tableBase (some true) ∧ SplitCovers tableArray tableBase (some false)) :=
  (split_covers_iff tableBase_reachable).mpr
    ⟨.inr ⟨rfl, by decide, .inr (by unfold EndsInside; decide)⟩, fun _ =>
      ⟨⟨.inr (by unfold EndsInside; decide), by decide⟩, .inr (by unfold EndsInside; decide)⟩⟩

/-- The 600 cells of a row are in two blocks of 512, of which the views take 22 each. -/
theorem row_split_misses : ¬ ∀ (a : PersistentArray) (o : StorageNumpy), Reachable a o →
    SplitCovers a o none ∧ (2 ≤ (shapeOf o.axes).length →
      SplitCovers a o (some true) ∧ SplitCovers a o (some false)) := by
  intro h
  have hcovers := (h _ _ tableRow_reachable).1
  rcases (splitCovers_none_iff tableRow_reachable.wellFormed).mp hcovers with h0 | ⟨-, hreach, -⟩
  · revert h0
    decide
  · revert hreach
    decide

end inputs

end PersistentArray

end Hecuba
