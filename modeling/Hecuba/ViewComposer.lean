import Hecuba.BasicIndexing

/-! The serialized form of a view: an index or a slice of the whole array for each of its
dimensions. Composing it with the key of an access, and the blocks that it covers. -/

namespace Hecuba

/-- A slice without Nones. -/
structure Bounds where
  start : Int
  stop : Int
  step : Int
  deriving DecidableEq

/-- A number is as good as None when it is zero. -/
def removenones (n : Slice) (maxstop : Int) : Bounds where
  start := n.start.getD 0
  stop := match n.stop with
    | none | some 0 => maxstop
    | some stop => stop
  step := match n.step with
    | none | some 0 => 1
    | some step => step

theorem removenones_stop {n : Slice} {maxstop stop : Int} (h : n.stop = some stop) :
    (removenones n maxstop).stop = if stop = 0 then maxstop else stop := by
  rw [removenones]
  dsimp only
  rw [h]
  split
  · rename_i heq
    cases heq
  · rename_i heq
    cases heq
    rfl
  · rename_i hne heq
    cases heq
    rw [if_neg hne]

/-- The index in the slice `s` of position `pos`. -/
def composeIndex (s : Bounds) (pos : Int) : Int :=
  if pos < 0 then s.stop + pos * s.step else s.start + pos * s.step

/-- The base cases of the composer, on one dimension. -/
def composeEntry (size : Nat) : Entry → Entry → Except PyError Entry
  | .int i, _ => .ok (.int i)
  | .slice old, .int i => .ok (.int (composeIndex (removenones old size) i))
  | .slice old, .slice new =>
    let old := removenones old size
    let new := removenones new size
    let newstart := composeIndex old new.start
    let newstop := composeIndex old new.stop
    if 0 ≤ old.step ∧ 0 ≤ new.step then
      .ok (.slice ⟨some newstart, some (min newstop old.stop), some (old.step * new.step)⟩)
    else .error (.notImplementedError "slice with negative steps")

/-- The recursive case: integers of the old view are skipped. -/
def composeEntries : List Nat → List Entry → List Entry → Except PyError (List Entry)
  | _, old, [] => .ok old
  | size :: shape, .slice o :: old, n :: new => do
    let entry ← composeEntry size (.slice o) n
    let rest ← composeEntries shape old new
    .ok (entry :: rest)
  | _ :: shape, .int i :: old, n :: new =>
    -- `old[j]` is read before `j < len(old)` is checked
    if old = [] then .error .indexError else do
      let rest ← composeEntries shape old (n :: new)
      .ok (.int i :: rest)
  | _, _, _ :: _ => .ok []

def viewComposerInternal (shape : List Nat) (old new : List Entry) : Except PyError (List Entry) :=
  if old.length ≠ shape.length then
    .error (.typeError "old needs to be a tuple with the same dimensions as the numpy")
  else composeEntries shape old new

/-- A value equal to the size is let through. -/
def checkValueInShape (value : Int) (size axis : Nat) : Except PyError Unit :=
  if value < 0 ∨ size < value then .error (.outOfBounds value axis size) else .ok ()

/-- The first and the last block of one dimension. -/
def blockRange (rowElem size axis : Nat) : Entry → Except PyError (Int × Int)
  | .int i => do
    checkValueInShape i size axis
    .ok (i / rowElem, i / rowElem)
  | .slice s => do
    let n := removenones s size
    checkValueInShape (n.stop - 1) size axis
    .ok (n.start / rowElem, (n.stop - 1) / rowElem)

def blockRanges (rowElem : Nat) : Nat → List Nat → List Entry → Except PyError (List (Int × Int))
  | axis, size :: shape, i :: view => do
    let range ← blockRange rowElem size axis i
    let rest ← blockRanges rowElem (axis + 1) shape view
    .ok (range :: rest)
  | _, _, _ => .ok []

def calculateListOfRangesOfBlockCoords (rowElem : Nat) (shape : List Nat) (view : List Entry) :
    Except PyError (List (List Int)) := do
  let ranges ← blockRanges rowElem 0 shape view
  .ok (ranges.map fun (first, last) => (List.range (last + 1 - first).toNat).map fun k : Nat => first + k)

/-- `itertools.product` -/
def product : List (List Int) → List (List Int)
  | [] => [[]]
  | l :: ls => l.flatMap fun b => (product ls).map (b :: ·)

def calculateBlockCoords (rowElem : Nat) (shape : List Nat) (view : List Entry) :
    Except PyError (List (List Int)) := do
  let l ← calculateListOfRangesOfBlockCoords rowElem shape view
  .ok (product l)

section bounds

variable {rowElem : Nat}

/-- An entry that the bounds checks let through. -/
def EntryPasses (size : Nat) : Entry → Prop
  | .int i => 0 ≤ i ∧ i ≤ size
  | .slice s => 1 ≤ (removenones s size).stop ∧ (removenones s size).stop ≤ size + 1

def StepPositive (size : Nat) : Entry → Prop
  | .int _ => True
  | .slice s => 0 < (removenones s size).step

theorem checkValueInShape_eq_ok {value : Int} {size axis : Nat} :
    checkValueInShape value size axis = .ok () ↔ 0 ≤ value ∧ value ≤ size := by
  rw [checkValueInShape]
  split
  · exact iff_of_false (by simp) (by omega)
  · exact iff_of_true rfl (by omega)

theorem blockRange_ok_iff {size axis : Nat} {e : Entry} :
    (∃ range, blockRange rowElem size axis e = .ok range) ↔ EntryPasses size e := by
  have hcheck (value : Int) (range : Int × Int) :
      (∃ r, (checkValueInShape value size axis >>= fun _ => Except.ok range) = .ok r) ↔
        0 ≤ value ∧ value ≤ size := by
    rw [← @checkValueInShape_eq_ok value size axis]
    simp only [bind_ok_iff]
    exact ⟨fun ⟨_, ⟨⟩, hc, _⟩ => hc, fun hc => ⟨range, (), hc, rfl⟩⟩
  cases e with
  | int i => exact hcheck i _
  | slice s =>
    refine (hcheck _ _).trans ?_
    rw [EntryPasses]
    omega

theorem blockRanges_ok_iff {axis : Nat} {shape : List Nat} {view : List Entry}
    (h : view.length = shape.length) :
    (∃ ranges, blockRanges rowElem axis shape view = .ok ranges) ↔ List.Forall₂ EntryPasses shape view := by
  induction shape generalizing axis view with
  | nil =>
    obtain rfl : view = [] := List.length_eq_zero_iff.mp h
    exact iff_of_true ⟨[], rfl⟩ List.Forall₂.nil
  | cons size shape ih =>
    obtain ⟨e, view, rfl⟩ := List.exists_cons_of_length_eq_add_one h
    rw [List.forall₂_cons, ← @blockRange_ok_iff rowElem size axis e, ← @ih (axis + 1) view (by simpa using h)]
    constructor
    · rintro ⟨ranges, hr⟩
      obtain ⟨range, hrange, hr⟩ := bind_ok_iff.mp hr
      obtain ⟨rest, hrest, -⟩ := bind_ok_iff.mp hr
      exact ⟨⟨range, hrange⟩, ⟨rest, hrest⟩⟩
    · rintro ⟨⟨range, hrange⟩, rest, hrest⟩
      exact ⟨range :: rest, by rw [blockRanges, hrange, hrest]; rfl⟩

theorem calculateListOfRanges_ok_iff {shape : List Nat} {view : List Entry}
    (h : view.length = shape.length) :
    (∃ l, calculateListOfRangesOfBlockCoords rowElem shape view = .ok l) ↔
      List.Forall₂ EntryPasses shape view := by
  rw [← @blockRanges_ok_iff rowElem 0 shape view h, calculateListOfRangesOfBlockCoords]
  constructor
  · rintro ⟨l, hl⟩
    obtain ⟨ranges, hr, -⟩ := bind_ok_iff.mp hl
    exact ⟨ranges, hr⟩
  · rintro ⟨ranges, hr⟩
    rw [hr]
    exact ⟨_, rfl⟩

end bounds

section compose

/-- The dimensions that a view has not fixed, with the sizes of the array. -/
def openBounds : List Nat → List Entry → List (Nat × Bounds)
  | size :: shape, .slice s :: view => (size, removenones s size) :: openBounds shape view
  | _ :: shape, .int _ :: view => openBounds shape view
  | _, _ => []

/-- Where a window of a dimension ends in the array. -/
def windowEnd (size : Nat) (s : Bounds) (w : Window) : Int :=
  composeIndex s (removenones ⟨w.1.map Int.ofNat, w.2.map Int.ofNat, none⟩ size).stop

def composeWindow (size : Nat) (s : Bounds) (w : Window) : Entry :=
  .slice ⟨some (composeIndex s (w.1.getD 0 : Nat)), some (min (windowEnd size s w) s.stop), some s.step⟩

def composeWindows : List Nat → List Entry → List Window → List Entry
  | _, view, [] => view
  | size :: shape, .slice s :: view, w :: ws =>
    composeWindow size (removenones s size) w :: composeWindows shape view ws
  | _ :: shape, .int i :: view, ws => .int i :: composeWindows shape view ws
  | _, _, _ => []

theorem composeEntry_window {size : Nat} {s : Slice} (w : Window) (hs : 0 < (removenones s size).step) :
    composeEntry size (.slice s) w.toEntry = .ok (composeWindow size (removenones s size) w) := by
  have hstart : ((w.1.map Int.ofNat).getD 0) = ((w.1.getD 0 : Nat) : Int) := by
    cases w.1 <;> rfl
  rw [Window.toEntry, composeEntry]
  simp only [removenones, hstart]
  rw [if_pos ⟨by simpa [removenones] using hs.le, by decide⟩, Int.mul_one]
  rfl

theorem composeEntries_windows {shape : List Nat} {view : List Entry} {ws : List Window}
    (hsteps : List.Forall₂ StepPositive shape view) (h : ws.length ≤ (openBounds shape view).length) :
    composeEntries shape view (ws.map Window.toEntry) = .ok (composeWindows shape view ws) := by
  induction hsteps generalizing ws with
  | nil =>
    obtain rfl : ws = [] := List.length_eq_zero_iff.mp (Nat.le_zero.mp h)
    rfl
  | @cons size e shape view he hrest ih =>
    cases ws with
    | nil => rfl
    | cons w ws =>
      cases e with
      | int i =>
        have hopen : view ≠ [] := by
          rintro rfl
          cases shape <;> exact absurd h (by simp [openBounds])
        have hh := @ih (w :: ws) h
        rw [List.map_cons] at hh ⊢
        rw [composeEntries, if_neg hopen, hh]
        rfl
      | slice s =>
        rw [List.map_cons, composeEntries, composeEntry_window w he, ih (Nat.le_of_succ_le_succ h)]
        rfl

theorem composeWindow_passes {size : Nat} {s : Bounds} (w : Window) (hsize : 1 ≤ size) (hs : 1 ≤ s.stop)
    (hs' : s.stop ≤ size + 1) : EntryPasses size (composeWindow size s w) ↔ 0 ≤ windowEnd size s w := by
  rw [composeWindow, EntryPasses]
  rw [removenones_stop rfl]
  split <;> omega

/-- The composition passes the bounds checks when each of the windows ends in the array. -/
theorem composeWindows_passes {shape : List Nat} {view : List Entry} {ws : List Window}
    (hpos : ∀ d ∈ shape, 1 ≤ d) (h : List.Forall₂ EntryPasses shape view)
    (hl : ws.length ≤ (openBounds shape view).length) :
    List.Forall₂ EntryPasses shape (composeWindows shape view ws) ↔
      ∀ p ∈ ws.zip (openBounds shape view), 0 ≤ windowEnd p.2.1 p.2.2 p.1 := by
  induction h generalizing ws with
  | nil =>
    obtain rfl : ws = [] := List.length_eq_zero_iff.mp (Nat.le_zero.mp hl)
    exact iff_of_true List.Forall₂.nil (by simp)
  | @cons size e shape view he hrest ih =>
    have hpos' : ∀ d ∈ shape, 1 ≤ d := fun d hd => hpos d (List.mem_cons_of_mem _ hd)
    cases ws with
    | nil => exact iff_of_true (List.Forall₂.cons he hrest) (by simp)
    | cons w ws =>
      cases e with
      | int i =>
        rw [composeWindows, List.forall₂_cons, ih hpos' hl, and_iff_right he]
        · rfl
        · exact List.cons_ne_nil _ _
      | slice s =>
        rw [composeWindows, List.forall₂_cons, ih hpos' (Nat.le_of_succ_le_succ hl), openBounds,
          List.zip_cons_cons, List.forall_mem_cons,
          composeWindow_passes w (hpos size List.mem_cons_self) he.1 he.2]

end compose

section keys

theorem composeEntry_step {size : Nat} {old new e : Entry} (hold : StepPositive size old)
    (hnew : PositiveStep new) (h : composeEntry size old new = .ok e) : StepPositive size e := by
  cases old with
  | int i =>
    cases h
    trivial
  | slice o =>
    cases new with
    | int i =>
      cases h
      trivial
    | slice n =>
      rw [composeEntry] at h
      split at h
      · cases h
        have hn : 0 < (removenones n size).step := by
          rw [removenones]
          dsimp only
          split
          · decide
          · decide
          · rename_i heq
            exact hnew _ heq
        have hmul : 0 < (removenones o size).step * (removenones n size).step := Int.mul_pos hold hn
        rw [StepPositive, removenones]
        dsimp only
        split
        · decide
        · decide
        · rename_i heq
          rw [← Option.some.inj heq]
          exact hmul
      · cases h

theorem composeEntries_spec {shape : List Nat} {view new composed : List Entry}
    (hsteps : List.Forall₂ StepPositive shape view) (hnew : ∀ e ∈ new, PositiveStep e)
    (hl : new.length ≤ (openBounds shape view).length)
    (h : composeEntries shape view new = .ok composed) :
    List.Forall₂ StepPositive shape composed ∧
      (openBounds shape view).length = (openBounds shape composed).length + countInts new := by
  induction hsteps generalizing new composed with
  | nil =>
    obtain rfl : new = [] := List.length_eq_zero_iff.mp (Nat.le_zero.mp hl)
    cases h
    exact ⟨List.Forall₂.nil, rfl⟩
  | @cons size e shape view he hrest ih =>
    cases new with
    | nil =>
      cases h
      exact ⟨List.Forall₂.cons he hrest, rfl⟩
    | cons n new =>
      cases e with
      | int i =>
        rw [composeEntries] at h
        split at h
        · cases h
        · obtain ⟨rest, hc, ⟨⟩⟩ := bind_ok_iff.mp h
          obtain ⟨h1, h2⟩ := ih hnew hl hc
          exact ⟨List.Forall₂.cons trivial h1, h2⟩
      | slice s =>
        rw [composeEntries] at h
        obtain ⟨entry, hentry, h⟩ := bind_ok_iff.mp h
        obtain ⟨rest, hc, ⟨⟩⟩ := bind_ok_iff.mp h
        obtain ⟨h1, h2⟩ := ih (fun e he => hnew e (List.mem_cons_of_mem _ he)) (Nat.le_of_succ_le_succ hl) hc
        have hstep := composeEntry_step he (hnew n List.mem_cons_self) hentry
        refine ⟨List.Forall₂.cons hstep h1, ?_⟩
        cases n with
        | int i =>
          cases hentry
          rw [openBounds, List.length_cons, h2, openBounds, countInts, countInts, List.countP_cons]
          rfl
        | slice n =>
          rw [composeEntry] at hentry
          split at hentry
          · cases hentry
            rw [openBounds, openBounds, List.length_cons, List.length_cons, h2, countInts, countInts,
              List.countP_cons]
            simp only [Bool.false_eq_true, if_false]
            omega
          · cases hentry

end keys

end Hecuba
