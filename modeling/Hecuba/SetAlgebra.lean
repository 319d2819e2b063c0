import Hecuba.EmbeddedSetRows

/-! The methods of the embedded sets that take other sets. -/

namespace Hecuba

open Program

variable {α : Type} {s : SetSchema} {A : Sets α} {D : Set (SetRow α)} {key v : PyObject α}

namespace SetOperand

def elements (A : Sets α) : SetOperand α → Set (PyObject α)
  | .pySet values => {v | v ∈ values}
  | .embedded key => A key

/-- A set of Python has each element once, of the columns of the dictionary. -/
def Valid (s : SetSchema) : SetOperand α → Prop
  | .pySet values => values.Nodup ∧ ∀ v ∈ values, Shaped s.setTypes v
  | .embedded key => Shaped s.primaryKeys key

def missing (D : Set (SetRow α)) : SetOperand α → Set (PyObject α)
  | .pySet _ => ∅
  | .embedded key => unseen D key

variable {other : SetOperand α}

@[simp] theorem missing_empty (other : SetOperand α) : other.missing ∅ = ∅ := by
  cases other <;> rfl

theorem shaped (h : other.Valid s) {w : SetWorld α} (hw : At s A D w) (hv : v ∈ other.elements A) : Shaped s.setTypes v := by
  cases other with
  | pySet values => exact h.2 v hv
  | embedded key => exact (hw.shaped key v hv).2

variable [DecidableEq α] (h : other.Valid s)

include h

theorem iter_triple : Triple (At s A D) (other.iter s) (fun l w => Shown (other.elements A) (other.missing D) l ∧ At s A D w)
    Never := by
  cases other with
  | pySet values => exact Triple.pure fun w hw => ⟨⟨h.1, fun _ hv => hv, fun _ hv _ => hv⟩, hw⟩
  | embedded key => exact Hecuba.iter_triple h

theorem len_triple : Triple (At s A D) (other.len s)
    (fun n w => (∃ l, Shown (other.elements A) (other.missing D) l ∧ n = l.length) ∧ At s A D w) Never := by
  cases other with
  | pySet values => exact Triple.pure fun w hw => ⟨⟨values, ⟨h.1, fun _ hv => hv, fun _ hv _ => hv⟩, rfl⟩, hw⟩
  | embedded key => exact Hecuba.len_triple h

theorem contains_decides (hv : Shaped s.setTypes v) :
    Triple (At s A D) (other.contains s v) (fun b w => At s A D w ∧ (b = true ↔ v ∈ other.elements A)) Never := by
  cases other with
  | pySet values => exact Triple.pure fun w hw => ⟨hw, List.elem_iff⟩
  | embedded key => exact Hecuba.contains_decides h hv

end SetOperand

theorem Shown.length_le {S S' : Set (PyObject α)} {l l' : List (PyObject α)} (h : Shown S ∅ l) (h' : Shown S' ∅ l')
    (hsub : S ⊆ S') : l.length ≤ l'.length :=
  (List.subperm_of_subset h.nodup fun v hv => h'.all v (hsub (h.mem v hv)) (Set.notMem_empty v)).length_le

theorem Shown.mem_iff {S : Set (PyObject α)} {l : List (PyObject α)} (h : Shown S ∅ l) : v ∈ l ↔ v ∈ S :=
  ⟨h.mem v, fun hv => h.all v hv (Set.notMem_empty v)⟩

@[simp] theorem unseen_empty (key : PyObject α) : unseen ∅ key = ∅ := rfl

def unionOf (A : Sets α) (others : List (SetOperand α)) : Set (PyObject α) := {v | ∃ other ∈ others, v ∈ other.elements A}

def missingOf (D : Set (SetRow α)) (others : List (SetOperand α)) : Set (PyObject α) :=
  {v | ∃ other ∈ others, v ∈ other.missing D}

theorem unionOf_cons (A : Sets α) (other : SetOperand α) (others : List (SetOperand α)) :
    unionOf A (other :: others) = other.elements A ∪ unionOf A others := by
  ext v
  simp [unionOf]

theorem missingOf_cons (D : Set (SetRow α)) (other : SetOperand α) (others : List (SetOperand α)) :
    missingOf D (other :: others) = other.missing D ∪ missingOf D others := by
  ext v
  simp [missingOf]

theorem unionOf_append (A : Sets α) (others others' : List (SetOperand α)) :
    unionOf A (others ++ others') = unionOf A others ∪ unionOf A others' := by
  ext v
  simp [unionOf, or_and_right, exists_or]

theorem unionOf_singleton (A : Sets α) (other : SetOperand α) : unionOf A [other] = other.elements A := by
  ext v
  simp [unionOf]

variable [DecidableEq α]

section algebra

variable (hkey : Shaped s.primaryKeys key) {others : List (SetOperand α)} (hothers : ∀ other ∈ others, other.Valid s)

theorem mem_insertAll (values result : List (PyObject α)) :
    v ∈ values.foldl (fun result value => result.insert value) result ↔ v ∈ result ∨ v ∈ values := by
  induction values generalizing result with
  | nil => simp
  | cons a values ih =>
    rw [List.foldl_cons, ih, List.mem_insert_iff, List.mem_cons]
    tauto

theorem nodup_insertAll {values result : List (PyObject α)} (h : result.Nodup) :
    (values.foldl (fun result value => result.insert value) result).Nodup := by
  induction values generalizing result with
  | nil => exact h
  | cons a values ih => exact ih h.insert

theorem Shown.insertAll {S S' missing missing' : Set (PyObject α)} {result values : List (PyObject α)}
    (h : Shown S missing result) (h' : Shown S' missing' values) :
    Shown (S ∪ S') (missing ∪ missing') (values.foldl (fun result value => result.insert value) result) := by
  refine ⟨nodup_insertAll h.nodup, fun v hv => ?_, fun v hv hmissing => ?_⟩
  · exact ((mem_insertAll values result).mp hv).imp (h.mem v) (h'.mem v)
  · rw [Set.mem_union, not_or] at hmissing
    exact (mem_insertAll values result).mpr (hv.imp (fun hv => h.all v hv hmissing.1) fun hv => h'.all v hv hmissing.2)

include hothers in
theorem unionFrom_triple {S missing : Set (PyObject α)} {result : List (PyObject α)} (h : Shown S missing result) :
    Triple (At s A D) (EmbeddedSet.unionFrom s others result)
      (fun l w => Shown (S ∪ unionOf A others) (missing ∪ missingOf D others) l ∧ At s A D w) Never := by
  induction others generalizing S missing result with
  | nil =>
    apply Triple.pure
    intro w hw
    have hnone : unionOf A [] = ∅ := by simp [unionOf]
    have hshown : missingOf D [] = ∅ := by simp [missingOf]
    rw [hnone, hshown, Set.union_empty, Set.union_empty]
    exact ⟨h, hw⟩
  | cons other others ih =>
    apply (SetOperand.iter_triple (hothers other List.mem_cons_self)).bind
    intro values
    apply Triple.assume
    intro hvalues
    have hrest := ih (fun o ho => hothers o (List.mem_cons_of_mem _ ho)) (h.insertAll hvalues)
    rwa [Set.union_assoc, Set.union_assoc, ← unionOf_cons, ← missingOf_cons] at hrest

include hkey

theorem union_triple (hothers : ∀ other ∈ others, other.Valid s) :
    Triple (At s A D) (EmbeddedSet.union s (deletedKey key) others)
      (fun l w => Shown (A key ∪ unionOf A others) (unseen D key ∪ missingOf D others) l ∧ At s A D w) Never := by
  apply (iter_triple hkey).bind
  intro values
  apply Triple.assume
  intro hvalues
  have hnone : Shown (∅ : Set (PyObject α)) ∅ [] := ⟨List.nodup_nil, nofun, nofun⟩
  have hstart := hnone.insertAll hvalues
  rw [Set.empty_union, Set.empty_union] at hstart
  exact unionFrom_triple hothers hstart

/-- A loop over the elements that the queries show, with a test that asks the other sets. -/
theorem filter_triple {p : PyObject α → SetProgram α Bool} {q : PyObject α → Prop}
    (hp : ∀ v, Shaped s.setTypes v → Triple (At s A D) (p v) (fun b w => At s A D w ∧ (b = true ↔ q v)) Never) :
    Triple (At s A D) (do
        let values ← EmbeddedSet.iter s (deletedKey key)
        Program.filter p values)
      (fun l w => Shown {v | v ∈ A key ∧ q v} (unseen D key) l ∧ At s A D w) Never := by
  apply (iter_triple hkey).bind
  intro values
  apply Triple.assume
  intro hvalues w hw
  have hloop := Triple.filter (l := values) fun v hv => hp v (hw.shaped key v (hvalues.mem v hv)).2
  apply hloop.post _ w hw
  rintro l w' ⟨hw', hsub, hmem⟩
  refine ⟨⟨hvalues.nodup.sublist hsub, fun v hv => ?_, fun v hv hseen => ?_⟩, hw'⟩
  · obtain ⟨hin, hq⟩ := (hmem v).mp hv
    exact ⟨hvalues.mem v hin, hq⟩
  · exact (hmem v).mpr ⟨hvalues.all v hv.1 hseen, hv.2⟩

theorem intersection_triple (hothers : ∀ other ∈ others, other.Valid s) :
    Triple (At s A D) (EmbeddedSet.intersection s (deletedKey key) others)
      (fun l w => Shown {v | v ∈ A key ∧ ∀ other ∈ others, v ∈ other.elements A} (unseen D key) l ∧ At s A D w) Never := by
  apply filter_triple hkey
  intro v hv
  exact Triple.all fun other hother => SetOperand.contains_decides (hothers other hother) hv

theorem difference_triple (hothers : ∀ other ∈ others, other.Valid s) :
    Triple (At s A D) (EmbeddedSet.difference s (deletedKey key) others)
      (fun l w => Shown (A key \ unionOf A others) (unseen D key) l ∧ At s A D w) Never := by
  apply filter_triple hkey (q := fun v => v ∉ unionOf A others)
  intro v hv
  have hany := Triple.any (l := others) (p := fun other => other.contains s v) (P := At s A D) (E := Never)
    (q := fun other => v ∈ other.elements A) fun other hother => SetOperand.contains_decides (hothers other hother) hv
  apply hany.bind
  intro b
  apply Triple.pure
  rintro w ⟨hw, hb⟩
  refine ⟨hw, ?_⟩
  rw [Bool.not_eq_true', ← Bool.not_eq_true, hb]
  rfl

end algebra

section comparison

variable (hkey : Shaped s.primaryKeys key) {other : SetOperand α} (hother : other.Valid s)

include hkey hother

/-- With nothing left to write the lengths only spare a loop that would fail. -/
theorem issubset_triple : Triple (At s A D) (EmbeddedSet.issubset s (deletedKey key) other)
    (fun b w => (D = ∅ → (b = true ↔ A key ⊆ other.elements A)) ∧ At s A D w) Never := by
  apply (len_triple hkey).bind
  intro n
  apply Triple.assume
  rintro ⟨l, hl, rfl⟩
  apply (SetOperand.len_triple hother).bind
  intro m
  apply Triple.assume
  rintro ⟨l', hl', rfl⟩
  by_cases hlt : l'.length < l.length
  · rw [if_pos hlt]
    apply Triple.pure
    intro w hw
    refine ⟨fun hD => iff_of_false (by decide) fun hsub => ?_, hw⟩
    rw [hD, unseen_empty] at hl
    rw [hD, SetOperand.missing_empty] at hl'
    have hle := hl.length_le hl' hsub
    omega
  · rw [if_neg hlt]
    apply (iter_triple hkey).bind
    intro values
    apply Triple.assume
    intro hvalues w hw
    have hloop := Triple.all (l := values) fun v hv =>
      SetOperand.contains_decides hother (hw.shaped key v (hvalues.mem v hv)).2 (A := A) (D := D)
    apply hloop.post _ w hw
    rintro b w' ⟨hw', hb⟩
    refine ⟨fun hD => hb.trans ⟨fun hall v hv => hall v ?_, fun hsub v hv => hsub (hvalues.mem v hv)⟩, hw'⟩
    rw [hD, unseen_empty] at hvalues
    exact hvalues.mem_iff.mpr hv

theorem issuperset_triple : Triple (At s A D) (EmbeddedSet.issuperset s (deletedKey key) other)
    (fun b w => (D = ∅ → (b = true ↔ other.elements A ⊆ A key)) ∧ At s A D w) Never := by
  apply (len_triple hkey).bind
  intro n
  apply Triple.assume
  rintro ⟨l, hl, rfl⟩
  apply (SetOperand.len_triple hother).bind
  intro m
  apply Triple.assume
  rintro ⟨l', hl', rfl⟩
  by_cases hlt : l.length < l'.length
  · rw [if_pos hlt]
    apply Triple.pure
    intro w hw
    refine ⟨fun hD => iff_of_false (by decide) fun hsub => ?_, hw⟩
    rw [hD, unseen_empty] at hl
    rw [hD, SetOperand.missing_empty] at hl'
    have hle := hl'.length_le hl hsub
    omega
  · rw [if_neg hlt]
    apply (SetOperand.iter_triple hother).bind
    intro values
    apply Triple.assume
    intro hvalues w hw
    have hloop := Triple.all (l := values) (E := Never) fun v hv =>
      contains_decides hkey (SetOperand.shaped hother hw (hvalues.mem v hv)) (A := A) (D := D)
    apply hloop.post _ w hw
    rintro b w' ⟨hw', hb⟩
    refine ⟨fun hD => hb.trans ⟨fun hall v hv => hall v ?_, fun hsub v hv => hsub (hvalues.mem v hv)⟩, hw'⟩
    rw [hD, SetOperand.missing_empty] at hvalues
    exact hvalues.mem_iff.mpr hv

end comparison

section update

variable (hkey : Shaped s.primaryKeys key) {others : List (SetOperand α)}

/-- Rows that may be missing of one set are not missing in the others. -/
def OnlyOf (s : SetSchema) (key : PyObject α) (D : Set (SetRow α)) : Prop :=
  ∀ row ∈ D, ∃ v, Shaped s.setTypes v ∧ row = setRow key v

/-- The other set may be the one that is updated. -/
theorem elements_set (other : SetOperand α) (T : Set (PyObject α)) :
    other.elements (A.set key (A key ∪ T)) ⊆ other.elements A ∪ T := by
  intro v hv
  cases other with
  | pySet values => exact .inl hv
  | embedded key' =>
    rcases Sets.mem_set.mp hv with ⟨rfl, hin⟩ | ⟨-, hin⟩
    · exact hin
    · exact .inl hin

/-- What `update` has done after some of the other sets. -/
def Updated (s : SetSchema) (A : Sets α) (D : Set (SetRow α)) (key : PyObject α) (others done todo : List (SetOperand α))
    (w : SetWorld α) : Prop :=
  done ++ todo = others ∧ ∃ T D', T ⊆ unionOf A done ∧
    (D = ∅ → unionOf A done ⊆ A key ∪ T ∧ OnlyOf s key D') ∧ At s (A.set key (A key ∪ T)) D' w

include hkey

/-- Only the set that is updated can have rows that are missing. -/
theorem elements_shown {w : SetWorld α} {other : SetOperand α} (hother : other.Valid s) {T : Set (PyObject α)}
    {values : List (PyObject α)} (hw : At s (A.set key (A key ∪ T)) D w) (hD : OnlyOf s key D)
    (h : Shown (other.elements (A.set key (A key ∪ T))) (other.missing D) values) :
    other.elements A ⊆ A key ∪ {v | v ∈ values} := by
  intro v hv
  cases other with
  | pySet l => exact .inr (h.all v hv (Set.notMem_empty v))
  | embedded key' =>
    by_cases hkk : key' = key
    · exact .inl (hkk ▸ hv)
    · have hin : v ∈ A.set key (A key ∪ T) key' := Sets.mem_set.mpr (.inr ⟨hkk, hv⟩)
      refine .inr (h.all v hin fun hmissing => ?_)
      obtain ⟨v', hv', heq⟩ := hD _ hmissing
      exact hkk (setRow_injective hother (hw.shaped key' v hin).2 hkey hv' heq).1

theorem update_triple (hothers : ∀ other ∈ others, other.Valid s) :
    Triple (At s A D) (EmbeddedSet.update s (deletedKey key) others)
      (fun _ w => ∃ T D', T ⊆ unionOf A others ∧ (D = ∅ → unionOf A others ⊆ A key ∪ T) ∧
        At s (A.set key (A key ∪ T)) D' w) Never := by
  have hstep : ∀ done (other : SetOperand α) todo, Triple (Updated s A D key others done (other :: todo))
      (do
        let values ← other.iter s
        Program.forEach (EmbeddedSet.add s (deletedKey key)) values)
      (fun _ => Updated s A D key others (done ++ [other]) todo) Never := by
    rintro done other todo w ⟨hsplit, T, D', hT, hD, hw⟩
    have hother : other.Valid s := hothers other (by rw [← hsplit]; simp)
    have hiter := SetOperand.iter_triple hother (A := A.set key (A key ∪ T)) (D := D')
    apply hiter.bind _ w hw
    intro values
    apply Triple.assume
    intro hvalues
    have hshaped : ∀ v ∈ values, Shaped s.setTypes v := fun v hv => SetOperand.shaped hother hw (hvalues.mem v hv)
    have hadd := addAll_triple hkey hshaped (A := A.set key (A key ∪ T)) (D := D')
    rw [Sets.set_set, Sets.set_self, Set.union_assoc] at hadd
    apply hadd.post
    intro _ w' hw'
    refine ⟨by simpa using hsplit, T ∪ {v | v ∈ values}, _, ?_, fun hempty => ⟨?_, ?_⟩, hw'⟩
    · rw [unionOf_append, unionOf_singleton]
      rintro v (hv | hv)
      · exact .inl (hT hv)
      · rcases elements_set other T (hvalues.mem v hv) with hv | hv
        · exact .inr hv
        · exact .inl (hT hv)
    · rw [unionOf_append, unionOf_singleton]
      rintro v (hv | hv)
      · rcases (hD hempty).1 hv with hv | hv
        · exact .inl hv
        · exact .inr (.inl hv)
      · rcases elements_shown hkey hother hw (hD hempty).2 hvalues hv with hv | hv
        · exact .inl hv
        · exact .inr (.inr hv)
    · rintro row (hrow | ⟨v, hv, rfl⟩)
      · exact (hD hempty).2 row hrow
      · exact ⟨v, hshaped v hv, rfl⟩
  have hloop := Triple.forEach (Updated s A D key others) hstep others
  apply hloop.mono
  · intro w hw
    have hsame : A.set key (A key ∪ ∅) = A := Sets.set_eq_self (Set.union_empty _)
    refine ⟨rfl, ∅, D, Set.empty_subset _, fun hempty => ⟨?_, ?_⟩, by rwa [hsame]⟩
    · simp [unionOf]
    · rw [hempty]
      exact nofun
  · rintro _ w ⟨-, T, D', hT, hD, hw⟩
    exact ⟨T, D', hT, fun hempty => (hD hempty).1, hw⟩
  · exact fun _ _ h => h

end update

end Hecuba
