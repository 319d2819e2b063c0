import Mathlib.Logic.Function.Basic
import Mathlib.Logic.Relation

/-! The names of the StorageDicts of a client: the rows of hecuba.istorage, the tables and the objects.
A storage_id is a hash of a name, and is written as that name here. -/

namespace Hecuba

/-- The names and types of the keys and of the columns. -/
structure DictSpec where
  primaryKeys : List (String × String)
  columns : List (String × String)
  deriving DecidableEq

structure IStorageMetas where
  spec : DictSpec
  name : String

structure NamedDict where
  spec : DictSpec
  isPersistent : Bool
  storageId : Option String
  table : String
  tokens : Bool
  istorageMetas : Option IStorageMetas
  hcache : Bool

structure Registry where
  istorage : String → Option IStorageMetas
  tables : String → Option DictSpec
  objects : List NamedDict

inductive RegistryCall where
  | create (spec : DictSpec)
  | instantiate (spec : DictSpec) (name : String)
  | makePersistent (i : Nat) (name : String)
  | stopPersistent (i : Nat)
  | deletePersistent (i : Nat)

inductive RegistryError where
  | alreadyPersistent
  | notPersistent
  | schema
  | hcache
  | noTable
  | noObject
  deriving DecidableEq

/-- The object with which the class is defined, before it has a name. -/
def NamedDict.volatile (spec : DictSpec) : NamedDict := ⟨spec, false, none, "", false, none, false⟩

namespace Registry

-- `accepts` says whether the statements of an hcache can be prepared on a table of another specification.
variable (accepts : DictSpec → DictSpec → Bool) (r : Registry)

/-- `CREATE TABLE IF NOT EXISTS` -/
def createTables (name : String) (spec : DictSpec) : Registry :=
  { r with tables := Function.update r.tables name (some ((r.tables name).getD spec)) }

def setupHcache (name : String) (spec : DictSpec) : Bool := (r.tables name).any (accepts spec)

def storeMeta (storageId : String) (metas : IStorageMetas) : Registry :=
  { r with istorage := Function.update r.istorage storageId (some metas) }

/-- The table stays when the hcache cannot be set up. -/
def persistMetadata (storageId name : String) (spec : DictSpec) : Except RegistryError Unit × Registry :=
  let created := r.createTables name spec
  if created.setupHcache accepts name spec then (.ok (), created.storeMeta storageId ⟨spec, name⟩)
  else (.error .hcache, created)

def setObject (i : Nat) (obj : NamedDict) : Registry := { r with objects := r.objects.set i obj }

/-- `StorageDict(name)` of a class with a specification. An exception leaves no object. -/
def instantiate (spec : DictSpec) (name : String) : Except RegistryError Unit × Registry :=
  match r.istorage name with
  | some metas =>
    if metas.spec = spec then
      if r.setupHcache accepts metas.name spec then
        (.ok (), { r with objects := r.objects ++ [⟨spec, true, some name, metas.name, true, some metas, true⟩] })
      else (.error .hcache, r)
    else (.error .schema, r)
  | none =>
    match r.persistMetadata accepts name name spec with
    | (.ok _, r') => (.ok (), { r' with objects := r'.objects ++ [⟨spec, true, some name, name, true, none, true⟩] })
    | (.error e, r') => (.error e, r')

/-- The metadata is looked up for an object without tokens. -/
def metasOf (obj : NamedDict) (storageId : String) : Option IStorageMetas :=
  if obj.tokens then obj.istorageMetas else r.istorage storageId

def makePersistent (i : Nat) (obj : NamedDict) (name : String) : Except RegistryError Unit × Registry :=
  if obj.isPersistent then (.error .alreadyPersistent, r)
  else
    let storageId := obj.storageId.getD name
    let metas := r.metasOf obj storageId
    let obj' := { obj with
      isPersistent := true, storageId := some storageId, table := name, tokens := true, istorageMetas := metas }
    if metas.any (fun m => decide (m.spec ≠ obj.spec)) then (.error .schema, r.setObject i obj')
    else
      match r.persistMetadata accepts storageId name obj.spec with
      | (.ok _, r') => (.ok (), r'.setObject i { obj' with hcache := true })
      | (.error e, r') => (.error e, r'.setObject i obj')

def stopPersistent (i : Nat) (obj : NamedDict) : Except RegistryError Unit × Registry :=
  if obj.isPersistent then (.ok (), r.setObject i { obj with isPersistent := false, storageId := none, hcache := false })
  else (.error .notPersistent, r)

/-- The storage_id stays when there is no table to drop. -/
def deletePersistent (i : Nat) (obj : NamedDict) : Except RegistryError Unit × Registry :=
  if obj.isPersistent then
    if obj.hcache then
      match r.tables obj.table with
      | some _ =>
        let dropped := { r with
          tables := Function.update r.tables obj.table none
          istorage := Function.update r.istorage (obj.storageId.getD obj.table) none }
        (.ok (), dropped.setObject i { obj with isPersistent := false, storageId := none })
      | none => (.error .noTable, r.setObject i { obj with isPersistent := false })
    else (.error .hcache, r)
  else (.error .notPersistent, r)

def step : RegistryCall → Except RegistryError Unit × Registry
  | .create spec => (.ok (), { r with objects := r.objects ++ [.volatile spec] })
  | .instantiate spec name => r.instantiate accepts spec name
  | .makePersistent i name =>
    match r.objects[i]? with
    | some obj => r.makePersistent accepts i obj name
    | none => (.error .noObject, r)
  | .stopPersistent i =>
    match r.objects[i]? with
    | some obj => r.stopPersistent i obj
    | none => (.error .noObject, r)
  | .deletePersistent i =>
    match r.objects[i]? with
    | some obj => r.deletePersistent i obj
    | none => (.error .noObject, r)

/-- The specification that was found under the first name is not that of the object. -/
def refuses (obj : NamedDict) : Bool := obj.istorageMetas.any fun m => decide (m.spec ≠ obj.spec)

/-- The row of each table in hecuba.istorage says how the table is. -/
def Consistent : Prop := ∀ name, r.istorage name = (r.tables name).map fun spec => ⟨spec, name⟩

/-- An object that has had a name before takes another one only if it is free, or has the specification
of the object. -/
def Safe : RegistryCall → Prop
  | .makePersistent i name => ∀ obj, r.objects[i]? = some obj → obj.isPersistent = false →
      obj.storageId.getD name = name ∧ (obj.tokens = true → refuses obj = true ∨
        ∀ spec, r.tables name = some spec → spec = obj.spec ∨ accepts obj.spec spec = false)
  | _ => True

/-- The storage_id of a persistent object is that of its table. -/
def Named (obj : NamedDict) : Prop := obj.isPersistent = true → obj.storageId = some obj.table

section consistency

variable {accepts : DictSpec → DictSpec → Bool} {r : Registry} {name : String} {spec : DictSpec}

theorem createTables_of_some {t : DictSpec} (h : r.tables name = some t) : r.createTables name spec = r := by
  have hsame : Function.update r.tables name (some ((r.tables name).getD spec)) = r.tables := by
    rw [h, Option.getD_some, ← h]
    exact Function.update_eq_self name r.tables
  unfold createTables
  rw [hsame]

theorem Consistent.store (h : Consistent r) (hspec : ∀ t, r.tables name = some t → t = spec) :
    Consistent ((r.createTables name spec).storeMeta name ⟨spec, name⟩) := by
  have htable : (r.tables name).getD spec = spec := by
    cases ht : r.tables name with
    | none => rfl
    | some t => exact hspec t ht
  intro n
  simp only [storeMeta, createTables, htable]
  by_cases hn : n = name
  · rw [hn, Function.update_self, Function.update_self]
    rfl
  · rw [Function.update_of_ne hn, Function.update_of_ne hn]
    exact h n

/-- A table is only left without a row when its own specification is refused. -/
theorem Consistent.persistMetadata (haccepts : ∀ spec, accepts spec spec = true) (h : Consistent r)
    (hspec : ∀ t, r.tables name = some t → t = spec ∨ accepts spec t = false) :
    Consistent (r.persistMetadata accepts name name spec).2 := by
  unfold Registry.persistMetadata
  cases ht : r.tables name with
  | none =>
    have hsetup : (r.createTables name spec).setupHcache accepts name spec = true := by
      simp [setupHcache, createTables, ht, haccepts]
    simp only [hsetup, if_true]
    exact h.store fun t ht' => by rw [ht] at ht'; cases ht'
  | some t =>
    rw [createTables_of_some ht]
    rcases hspec t ht with rfl | hrefused
    · have hsetup : r.setupHcache accepts name t = true := by simp [setupHcache, ht, haccepts]
      simp only [hsetup, if_true]
      have hstore : Consistent ((r.createTables name t).storeMeta name ⟨t, name⟩) :=
        h.store fun t' ht' => Option.some.inj (ht'.symm.trans ht)
      rwa [createTables_of_some ht] at hstore
    · have hsetup : r.setupHcache accepts name spec = false := by simp [setupHcache, ht, hrefused]
      simp only [hsetup, Bool.false_eq_true, if_false]
      exact h

theorem persistMetadata_objects (storageId : String) :
    (r.persistMetadata accepts storageId name spec).2.objects = r.objects := by
  simp only [persistMetadata]
  split <;> rfl

theorem persistMetadata_ok {storageId : String} {r' : Registry} (h : r.persistMetadata accepts storageId name spec = (.ok (), r')) :
    r' = (r.createTables name spec).storeMeta storageId ⟨spec, name⟩ := by
  simp only [persistMetadata] at h
  split at h
  · exact (Prod.mk.inj h).2.symm
  · cases h

/-- What holds of the registry and of its objects. -/
structure WellNamed (r : Registry) : Prop where
  consistent : Consistent r
  named : ∀ obj ∈ r.objects, Named obj

theorem named_of_volatile {obj : NamedDict} (h : obj.isPersistent = false) : Named obj := fun hp =>
  absurd (hp.symm.trans h) (by decide)

theorem WellNamed.setObject (h : WellNamed r) {i : Nat} {obj : NamedDict} (hobj : Named obj) : WellNamed (r.setObject i obj) := by
  refine ⟨h.consistent, fun o ho => ?_⟩
  rcases List.mem_or_eq_of_mem_set ho with ho | rfl
  · exact h.named o ho
  · exact hobj

theorem WellNamed.append (h : WellNamed r) {obj : NamedDict} (hobj : Named obj) : WellNamed { r with objects := r.objects ++ [obj] } := by
  refine ⟨h.consistent, fun o ho => ?_⟩
  rcases List.mem_append.mp ho with ho | ho
  · exact h.named o ho
  · exact List.mem_singleton.mp ho ▸ hobj

theorem WellNamed.persistMetadata (haccepts : ∀ spec, accepts spec spec = true) (h : WellNamed r)
    (hspec : ∀ t, r.tables name = some t → t = spec ∨ accepts spec t = false) :
    WellNamed (r.persistMetadata accepts name name spec).2 :=
  ⟨h.consistent.persistMetadata haccepts hspec, fun o ho => h.named o (persistMetadata_objects name ▸ ho)⟩

theorem Consistent.tables_none (h : Consistent r) (hnone : r.istorage name = none) : r.tables name = none :=
  Option.map_eq_none_iff.mp ((h name).symm.trans hnone)

theorem Consistent.tables_some (h : Consistent r) {metas : IStorageMetas} (hsome : r.istorage name = some metas) :
    r.tables name = some metas.spec ∧ metas.name = name := by
  obtain ⟨spec, hspec, rfl⟩ := Option.map_eq_some_iff.mp ((h name).symm.trans hsome)
  exact ⟨hspec, rfl⟩

theorem WellNamed.instantiate (haccepts : ∀ spec, accepts spec spec = true) (h : WellNamed r) :
    WellNamed (r.instantiate accepts spec name).2 := by
  unfold Registry.instantiate
  cases hmetas : r.istorage name with
  | some metas =>
    obtain ⟨-, hname⟩ := h.consistent.tables_some hmetas
    dsimp only
    split
    · split
      · exact h.append fun _ => congrArg some hname.symm
      · exact h
    · exact h
  | none =>
    have hfree := h.consistent.tables_none hmetas
    have hwell : WellNamed (r.persistMetadata accepts name name spec).2 :=
      h.persistMetadata haccepts fun t ht => by rw [hfree] at ht; cases ht
    dsimp only
    split
    · rename_i r' hstored
      rw [hstored] at hwell
      exact hwell.append fun _ => rfl
    · rename_i e r' hstored
      rw [hstored] at hwell
      exact hwell

theorem WellNamed.makePersistent (haccepts : ∀ spec, accepts spec spec = true) (h : WellNamed r) {i : Nat} {obj : NamedDict}
    (hi : r.objects[i]? = some obj) (hsafe : Safe accepts r (.makePersistent i name)) :
    WellNamed (r.makePersistent accepts i obj name).2 := by
  unfold Registry.makePersistent
  split
  · exact h
  · rename_i hvolatile
    obtain ⟨hid, htokens⟩ := hsafe obj hi (Bool.eq_false_iff.mpr hvolatile)
    dsimp only
    rw [hid]
    split
    · exact h.setObject fun _ => by rfl
    · rename_i hchecked
      have hspec : ∀ t, r.tables name = some t → t = obj.spec ∨ accepts obj.spec t = false := by
        intro t ht
        cases hnew : obj.tokens with
        | true =>
          rw [metasOf, if_pos hnew] at hchecked
          rcases htokens hnew with hrefused | hfits
          · exact absurd hrefused hchecked
          · exact hfits t ht
        | false =>
          rw [metasOf, if_neg (by rw [hnew]; decide)] at hchecked
          have hmetas := h.consistent name
          rw [ht, Option.map_some] at hmetas
          rw [hmetas] at hchecked
          exact .inl (by simpa using hchecked)
      have hwell := h.persistMetadata haccepts hspec
      split
      · rename_i r' hstored
        rw [hstored] at hwell
        exact hwell.setObject fun _ => rfl
      · rename_i e r' hstored
        rw [hstored] at hwell
        exact hwell.setObject fun _ => rfl

theorem WellNamed.deletePersistent (h : WellNamed r) {i : Nat} {obj : NamedDict} (hi : r.objects[i]? = some obj) :
    WellNamed (r.deletePersistent i obj).2 := by
  unfold Registry.deletePersistent
  split
  · rename_i hpersistent
    have hid := h.named obj (List.mem_of_getElem? hi) hpersistent
    split
    · split
      · apply WellNamed.setObject _ (named_of_volatile rfl)
        refine ⟨fun n => ?_, h.named⟩
        simp only [hid, Option.getD_some]
        by_cases hn : n = obj.table
        · rw [hn, Function.update_self, Function.update_self]
          rfl
        · rw [Function.update_of_ne hn, Function.update_of_ne hn]
          exact h.consistent n
      · exact h.setObject (named_of_volatile rfl)
    · exact h
  · exact h

theorem WellNamed.step (haccepts : ∀ spec, accepts spec spec = true) (h : WellNamed r) {call : RegistryCall} (hsafe : Safe accepts r call) :
    WellNamed (r.step accepts call).2 := by
  cases call with
  | create spec => exact h.append (named_of_volatile rfl)
  | instantiate spec name => exact h.instantiate haccepts
  | makePersistent i name =>
    cases hi : r.objects[i]? with
    | none => simpa [Registry.step, hi] using h
    | some obj => simpa [Registry.step, hi] using h.makePersistent haccepts hi hsafe
  | stopPersistent i =>
    cases hi : r.objects[i]? with
    | none => simpa [Registry.step, hi] using h
    | some obj =>
      simp only [Registry.step, hi, Registry.stopPersistent]
      split
      · exact h.setObject (named_of_volatile rfl)
      · exact h
  | deletePersistent i =>
    cases hi : r.objects[i]? with
    | none => simpa [Registry.step, hi] using h
    | some obj => simpa [Registry.step, hi] using h.deletePersistent hi

end consistency

section runs

variable (accepts : DictSpec → DictSpec → Bool)

def empty : Registry := ⟨fun _ => none, fun _ => none, []⟩

abbrev Run : Registry → Registry → Prop :=
  Relation.ReflTransGen fun r r' => ∃ call, r' = (r.step accepts call).2

/-- A run whose steps are all safe. -/
abbrev SafeRun : Registry → Registry → Prop :=
  Relation.ReflTransGen fun r r' => ∃ call, Safe accepts r call ∧ r' = (r.step accepts call).2

variable {accepts} {r r' : Registry} {i : Nat} {name : String}

theorem wellNamed_of_safeRun (haccepts : ∀ spec, accepts spec spec = true) (h : SafeRun accepts empty r) : WellNamed r := by
  induction h with
  | refl => exact ⟨fun _ => rfl, nofun⟩
  | tail _ hstep ih =>
    obtain ⟨call, hsafe, rfl⟩ := hstep
    exact ih.step haccepts hsafe

/-- An object that becomes persistent leaves its row where the table is looked for, with its own
specification. -/
theorem makePersistent_ok {obj : NamedDict} (hi : r.objects[i]? = some obj)
    (hok : (r.step accepts (.makePersistent i name)).1 = .ok ()) :
    (r.step accepts (.makePersistent i name)).2.istorage (obj.storageId.getD name) = some ⟨obj.spec, name⟩ ∧
      (r.step accepts (.makePersistent i name)).2.tables = (r.createTables name obj.spec).tables := by
  simp only [Registry.step, hi, Registry.makePersistent] at hok ⊢
  split at hok
  · cases hok
  · rename_i hvolatile
    rw [if_neg hvolatile]
    split at hok
    · cases hok
    · rename_i hchecked
      rw [if_neg hchecked]
      cases hstored : r.persistMetadata accepts (obj.storageId.getD name) name obj.spec with
      | mk answer created =>
        rw [hstored] at hok
        cases answer with
        | error e => cases hok
        | ok _ =>
          rw [persistMetadata_ok hstored]
          exact ⟨Function.update_self _ _ _, rfl⟩

/-- The columns of a statement are looked for by their names. -/
def columnsFound (spec table : DictSpec) : Bool :=
  (spec.primaryKeys ++ spec.columns).all fun c => c.1 ∈ (table.primaryKeys ++ table.columns).map Prod.fst

theorem columnsFound_self (spec : DictSpec) : columnsFound spec spec = true :=
  List.all_eq_true.mpr fun _ hc => decide_eq_true (List.mem_map_of_mem hc)

def counts : DictSpec := ⟨[("word", "text")], [("n", "int")]⟩

def labels : DictSpec := ⟨[("word", "text")], [("n", "text")]⟩

/-- Two dictionaries with a name each, and the first is stopped. -/
def twoNames : Registry :=
  (((empty.step columnsFound (.instantiate counts "app.counts")).2.step columnsFound
    (.instantiate labels "app.labels")).2.step columnsFound (.stopPersistent 0)).2

theorem twoNames_safeRun : SafeRun columnsFound empty twoNames :=
  ((Relation.ReflTransGen.refl.tail ⟨.instantiate counts "app.counts", trivial, rfl⟩).tail
    ⟨.instantiate labels "app.labels", trivial, rfl⟩).tail ⟨.stopPersistent 0, trivial, rfl⟩

/-- What no call changes of an object: its specification and, once it has had a name, the metadata that was
found under that name. -/
structure Kept (obj obj' : NamedDict) : Prop where
  spec : obj'.spec = obj.spec
  tokens : obj.tokens = true → obj'.tokens = true
  metas : obj.tokens = true → obj'.istorageMetas = obj.istorageMetas

theorem Kept.refl (obj : NamedDict) : Kept obj obj := ⟨rfl, id, fun _ => rfl⟩

/-- A call adds objects at the end, or changes one of them in its place. -/
inductive Changes (r : Registry) : List NamedDict → Prop where
  | append (new : List NamedDict) : Changes r (r.objects ++ new)
  | set (j : Nat) (obj obj' : NamedDict) (hj : r.objects[j]? = some obj) (hkept : Kept obj obj') :
      Changes r (r.objects.set j obj')

theorem Changes.same (h : r'.objects = r.objects) : Changes r r'.objects := by
  have happend : Changes r (r.objects ++ []) := .append []
  rwa [List.append_nil, ← h] at happend

theorem Changes.makePersistent {obj : NamedDict} (hi : r.objects[i]? = some obj) :
    Changes r (r.makePersistent accepts i obj name).2.objects := by
  have hmetas : obj.tokens = true → r.metasOf obj (obj.storageId.getD name) = obj.istorageMetas := fun h => if_pos h
  unfold Registry.makePersistent
  split
  · exact .same rfl
  · dsimp only
    split
    · exact .set i obj _ hi ⟨rfl, fun _ => rfl, hmetas⟩
    · have hobjects : (r.persistMetadata accepts (obj.storageId.getD name) name obj.spec).2.objects = r.objects :=
        persistMetadata_objects _
      split
      · rename_i stored hstored
        rw [hstored] at hobjects
        rw [Registry.setObject, hobjects]
        exact .set i obj _ hi ⟨rfl, fun _ => rfl, hmetas⟩
      · rename_i e stored hstored
        rw [hstored] at hobjects
        rw [Registry.setObject, hobjects]
        exact .set i obj _ hi ⟨rfl, fun _ => rfl, hmetas⟩

theorem Changes.deletePersistent {obj : NamedDict} (hi : r.objects[i]? = some obj) :
    Changes r (r.deletePersistent i obj).2.objects := by
  unfold Registry.deletePersistent
  split
  · split
    · split
      · exact .set i obj _ hi ⟨rfl, id, fun _ => rfl⟩
      · exact .set i obj _ hi ⟨rfl, id, fun _ => rfl⟩
    · exact .same rfl
  · exact .same rfl

theorem Changes.instantiate {spec : DictSpec} : Changes r (r.instantiate accepts spec name).2.objects := by
  unfold Registry.instantiate
  split
  · split
    · split
      · exact .append _
      · exact .same rfl
    · exact .same rfl
  · have hobjects : (r.persistMetadata accepts name name spec).2.objects = r.objects := persistMetadata_objects _
    split
    · rename_i stored hstored
      rw [hstored] at hobjects
      rw [hobjects]
      exact .append _
    · rename_i e stored hstored
      rw [hstored] at hobjects
      exact .same hobjects

theorem step_changes (call : RegistryCall) : Changes r (r.step accepts call).2.objects := by
  cases call with
  | create spec => exact .append _
  | instantiate spec name => exact .instantiate
  | makePersistent i name =>
    cases hi : r.objects[i]? with
    | none => simpa only [Registry.step, hi] using Changes.same rfl
    | some obj => simpa only [Registry.step, hi] using Changes.makePersistent hi
  | stopPersistent i =>
    cases hi : r.objects[i]? with
    | none => simpa only [Registry.step, hi] using Changes.same rfl
    | some obj =>
      simp only [Registry.step, hi, Registry.stopPersistent]
      split
      · exact .set i obj _ hi ⟨rfl, id, fun _ => rfl⟩
      · exact .same rfl
  | deletePersistent i =>
    cases hi : r.objects[i]? with
    | none => simpa only [Registry.step, hi] using Changes.same rfl
    | some obj => simpa only [Registry.step, hi] using Changes.deletePersistent hi

theorem Changes.kept {objects : List NamedDict} (h : Changes r objects) {obj : NamedDict} (hi : r.objects[i]? = some obj) :
    ∃ obj', objects[i]? = some obj' ∧ Kept obj obj' := by
  obtain ⟨hlt, hobj⟩ := List.getElem?_eq_some_iff.mp hi
  cases h with
  | append new => exact ⟨obj, by rw [List.getElem?_append_left hlt, hi], .refl obj⟩
  | set j o o' hj hkept =>
    by_cases hij : j = i
    · obtain rfl : o = obj := Option.some.inj (hj.symm.trans (hij ▸ hi))
      exact ⟨o', by rw [hij, List.getElem?_set_self hlt], hkept⟩
    · exact ⟨obj, by rw [List.getElem?_set_ne hij, hi], .refl obj⟩

/-- The object has had a name, and another specification was found there. -/
def RefusedAt (i : Nat) (r : Registry) : Prop := ∃ obj, r.objects[i]? = some obj ∧ obj.tokens = true ∧ refuses obj = true

theorem RefusedAt.step (h : RefusedAt i r) (call : RegistryCall) : RefusedAt i (r.step accepts call).2 := by
  obtain ⟨obj, hi, htokens, hrefuses⟩ := h
  have hchanges : Changes r (r.step accepts call).2.objects := step_changes call
  obtain ⟨obj', hi', hkept⟩ := hchanges.kept hi
  refine ⟨obj', hi', hkept.tokens htokens, ?_⟩
  rwa [refuses, hkept.metas htokens, hkept.spec]

theorem RefusedAt.run (h : RefusedAt i r) (hrun : Run accepts r r') : RefusedAt i r' := by
  induction hrun with
  | refl => exact h
  | tail _ hstep ih =>
    obtain ⟨call, rfl⟩ := hstep
    exact ih.step call

/-- The first answer that says so leaves the object refused. -/
theorem refusedAt_of_schema (hrefused : (r.step accepts (.makePersistent i name)).1 = .error .schema) :
    RefusedAt i (r.step accepts (.makePersistent i name)).2 := by
  cases hi : r.objects[i]? with
  | none =>
    simp only [Registry.step, hi] at hrefused
    cases hrefused
  | some obj =>
    obtain ⟨hlt, -⟩ := List.getElem?_eq_some_iff.mp hi
    simp only [Registry.step, hi, Registry.makePersistent] at hrefused ⊢
    split at hrefused
    · cases hrefused
    · rename_i hvolatile
      rw [if_neg hvolatile]
      split at hrefused
      · rename_i hother
        rw [if_pos hother]
        exact ⟨_, List.getElem?_set_self hlt, rfl, hother⟩
      · split at hrefused
        · cases hrefused
        · rename_i e stored hstored
          simp only [persistMetadata] at hstored
          split at hstored
          · cases hstored
          · obtain ⟨he, -⟩ := Prod.mk.inj hstored
            cases he
            cases hrefused

theorem RefusedAt.answer (h : RefusedAt i r) (name : String) :
    ((r.step accepts (.makePersistent i name)).1 = .error .schema ∨
      (r.step accepts (.makePersistent i name)).1 = .error .alreadyPersistent) ∧
      (r.step accepts (.makePersistent i name)).2.tables = r.tables ∧
      (r.step accepts (.makePersistent i name)).2.istorage = r.istorage := by
  obtain ⟨obj, hi, htokens, hrefuses⟩ := h
  have hmetas : r.metasOf obj (obj.storageId.getD name) = obj.istorageMetas := if_pos htokens
  have hother : obj.istorageMetas.any (fun m => decide (m.spec ≠ obj.spec)) = true := hrefuses
  simp only [Registry.step, hi, Registry.makePersistent]
  split
  · exact ⟨.inr rfl, rfl, rfl⟩
  · rw [hmetas, if_pos hother]
    exact ⟨.inl rfl, rfl, rfl⟩

/-- A dictionary with a name, and an object of another specification. -/
def oneName : Registry :=
  ((empty.step columnsFound (.instantiate labels "app.labels")).2.step columnsFound (.create counts)).2

end runs

end Registry

end Hecuba
