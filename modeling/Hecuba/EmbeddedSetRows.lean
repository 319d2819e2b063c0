import Hecuba.EmbeddedSet
import Mathlib.Data.List.Perm.Basic
import Mathlib.Data.Set.Insert
import Mathlib.Logic.Function.Basic

/-! What the rows of a dictionary of sets say, and what each request does to the sets. -/

namespace Hecuba

variable {α : Type}

/-- A key or an element of `n` columns, as the client gives it and reads it. -/
def Shaped (n : Nat) (v : PyObject α) : Prop :=
  (n = 1 ∧ v.elements = none) ∨ (n ≠ 1 ∧ ∃ items, v = .tuple items ∧ items.length = n)

/-- The set of each key. -/
abbrev Sets (α : Type) := PyObject α → Set (PyObject α)

def setRow (key value : PyObject α) : SetRow α := deletedKey key ++ deletedKey value

/-- The table and what is written of it hold the sets. `D` has the rows that may be missing in the
table. -/
structure Stores (s : SetSchema) (A : Sets α) (D : Set (SetRow α)) (t : SetTable α) : Prop where
  shaped : ∀ key v, v ∈ A key → Shaped s.primaryKeys key ∧ Shaped s.setTypes v
  rows : ∀ row, row ∈ t.db ∨ row ∈ t.pending ↔ ∃ key v, v ∈ A key ∧ row = setRow key v
  pending : ∀ row ∈ t.pending, row ∈ D
  cache : ∀ row ∈ t.cache, row ∈ t.db ∨ row ∈ t.pending
  nodup : t.db.Nodup
  cacheNodup : t.cache.Nodup

variable {s : SetSchema} {A : Sets α} {D : Set (SetRow α)} {t : SetTable α} {key v : PyObject α} {n : Nat}

theorem Shaped.length (h : Shaped n v) : (deletedKey v).length = n := by
  rcases h with ⟨rfl, hv⟩ | ⟨-, items, rfl, hlen⟩
  · rw [deletedKey, hv, Option.getD_none, List.length_singleton]
  · exact hlen

theorem Shaped.injective {v' : PyObject α} (h : Shaped n v) (h' : Shaped n v') (heq : deletedKey v = deletedKey v') :
    v = v' := by
  rcases h with ⟨hn, hv⟩ | ⟨hn, items, rfl, hlen⟩
  · rcases h' with ⟨-, hv'⟩ | ⟨hn', -⟩
    · rw [deletedKey, deletedKey, hv, hv', Option.getD_none, Option.getD_none] at heq
      exact List.head_eq_of_cons_eq heq
    · exact absurd hn hn'
  · rcases h' with ⟨hn', -⟩ | ⟨-, items', rfl, hlen'⟩
    · exact absurd hn' hn
    · exact congrArg PyObject.tuple heq

theorem setRow_length (hkey : Shaped s.primaryKeys key) (hv : Shaped s.setTypes v) :
    (setRow key v).length = s.primaryKeys + s.setTypes := by
  rw [setRow, List.length_append, hkey.length, hv.length]

theorem setRow_injective {key' v' : PyObject α} (hkey : Shaped s.primaryKeys key) (hv : Shaped s.setTypes v)
    (hkey' : Shaped s.primaryKeys key') (hv' : Shaped s.setTypes v') (heq : setRow key v = setRow key' v') :
    key = key' ∧ v = v' := by
  obtain ⟨hk, hr⟩ := List.append_inj heq (hkey.length.trans hkey'.length.symm)
  exact ⟨hkey.injective hkey' hk, hv.injective hv' hr⟩

theorem valueOf_setRow (hkey : Shaped s.primaryKeys key) (hv : Shaped s.setTypes v) : s.valueOf (setRow key v) = v := by
  have hdrop : (setRow key v).drop s.primaryKeys = deletedKey v := List.drop_left' hkey.length
  unfold SetSchema.valueOf
  rw [hdrop]
  rcases hv with ⟨hn, hv⟩ | ⟨hn, items, rfl, hlen⟩
  · rw [hn, deletedKey, hv]
    rfl
  · split
    · rename_i heq _
      exact absurd heq hn
    · rfl

theorem keyOf_setRow (hkey : Shaped s.primaryKeys key) : s.keyOf (setRow key v) = key := by
  have htake : (setRow key v).take s.primaryKeys = deletedKey key := List.take_left' hkey.length
  unfold SetSchema.keyOf
  rw [htake]
  rcases hkey with ⟨hn, hv⟩ | ⟨hn, items, rfl, hlen⟩
  · rw [hn, deletedKey, hv]
    rfl
  · split
    · rename_i heq _
      exact absurd heq hn
    · rfl

theorem Stores.mono {D' : Set (SetRow α)} (h : Stores s A D t) (hD : D ⊆ D') : Stores s A D' t :=
  { h with pending := fun row hrow => hD (h.pending row hrow) }

variable [DecidableEq α]

/-- The condition of the queries selects the rows of the key. -/
theorem joinKeysQuery_setRow {key' : PyObject α} (hkey : Shaped s.primaryKeys key) (hkey' : Shaped s.primaryKeys key') :
    s.joinKeysQuery (deletedKey key) (setRow key' v) = true ↔ key = key' := by
  have htake : (setRow key' v).take s.primaryKeys = deletedKey key' := List.take_left' hkey'.length
  have hall : (deletedKey key).take s.primaryKeys = deletedKey key := List.take_of_length_le hkey.length.le
  unfold SetSchema.joinKeysQuery
  rw [hkey.length, Nat.min_self, htake, hall, beq_iff_eq]
  constructor
  · exact fun h => hkey.injective hkey' h.symm
  · exact fun h => by rw [h]

section moves

theorem mem_foldl_insert (l db : List (SetRow α)) (row : SetRow α) :
    row ∈ l.foldl (fun db row => db.insert row) db ↔ row ∈ db ∨ row ∈ l := by
  induction l generalizing db with
  | nil => simp
  | cons a l ih =>
    rw [List.foldl_cons, ih, List.mem_insert_iff, List.mem_cons]
    tauto

theorem nodup_foldl_insert {l db : List (SetRow α)} (h : db.Nodup) : (l.foldl (fun db row => db.insert row) db).Nodup := by
  induction l generalizing db with
  | nil => exact h
  | cons a l ih => exact ih h.insert

theorem Stores.move (h : Stores s A D t) (m : SetMove) : Stores s A D (t.move m) := by
  obtain ⟨hshaped, hrows, hpending, hcache, hnodup, hcacheNodup⟩ := h
  cases m with
  | evict i =>
    exact ⟨hshaped, hrows, hpending, fun row hrow => hcache row (List.mem_of_mem_eraseIdx hrow), hnodup,
      hcacheNodup.sublist (List.eraseIdx_sublist _ _)⟩
  | apply i =>
    simp only [SetTable.move]
    split
    · rename_i row hi
      have hview : ∀ r, (r ∈ t.db.insert row ∨ r ∈ t.pending.eraseIdx i) ↔ (r ∈ t.db ∨ r ∈ t.pending) := by
        intro r
        obtain ⟨hlt, rfl⟩ := List.getElem?_eq_some_iff.mp hi
        rw [List.mem_insert_iff, ← (List.getElem_cons_eraseIdx_perm hlt).mem_iff, List.mem_cons]
        tauto
      exact ⟨hshaped, fun r => (hview r).trans (hrows r), fun r hr => hpending r (List.mem_of_mem_eraseIdx hr),
        fun r hr => (hview r).mpr (hcache r hr), hnodup.insert, hcacheNodup⟩
    · exact ⟨hshaped, hrows, hpending, hcache, hnodup, hcacheNodup⟩

theorem Stores.moves (h : Stores s A D t) (moves : List SetMove) : Stores s A D (moves.foldl SetTable.move t) := by
  induction moves generalizing t with
  | nil => exact h
  | cons m moves ih => exact ih (h.move m)

theorem Stores.flush (h : Stores s A D t) : Stores s A ∅ t.flush := by
  obtain ⟨hshaped, hrows, hpending, hcache, hnodup, hcacheNodup⟩ := h
  have hview : ∀ r, (r ∈ t.flush.db ∨ r ∈ t.flush.pending) ↔ (r ∈ t.db ∨ r ∈ t.pending) := by
    intro r
    simp [SetTable.flush, mem_foldl_insert]
  exact ⟨hshaped, fun r => (hview r).trans (hrows r), nofun, fun r hr => (hview r).mpr (hcache r hr),
    nodup_foldl_insert hnodup, hcacheNodup⟩

end moves

section requests

open Program

abbrev At (s : SetSchema) (A : Sets α) (D : Set (SetRow α)) (w : SetWorld α) : Prop := Stores s A D w.table

def Sets.set (A : Sets α) (key : PyObject α) (S : Set (PyObject α)) : Sets α := Function.update A key S

theorem Sets.mem_set {S : Set (PyObject α)} {key' v' : PyObject α} :
    v' ∈ A.set key S key' ↔ (key' = key ∧ v' ∈ S) ∨ (key' ≠ key ∧ v' ∈ A key') := by
  unfold Sets.set
  by_cases h : key' = key
  · rw [h, Function.update_self]
    simp
  · rw [Function.update_of_ne h]
    simp [h]

/-- A request sees the table after what has happened beside it. -/
theorem request_triple {β : Type} {f : SetTable α → Except DictError β × SetTable α} {Q : β → SetTable α → Prop}
    {E : DictError → SetTable α → Prop}
    (h : ∀ t, Stores s A D t → match f t with
      | (.ok b, t') => Q b t'
      | (.error e, t') => E e t') :
    Triple (At s A D) (request f) (fun b w => Q b w.table) (fun e w => E e w.table) := by
  intro w hw
  have hafter := h _ (hw.moves (w.schedule.headD []))
  unfold request
  cases hf : f ((w.schedule.headD []).foldl SetTable.move w.table) with
  | mk result t' =>
    rw [hf] at hafter
    cases result with
    | ok b => exact hafter
    | error e => exact hafter

variable (hkey : Shaped s.primaryKeys key) (hv : Shaped s.setTypes v)

include hkey hv

omit [DecidableEq α] in
theorem Stores.mem_view (h : Stores s A D t) : (setRow key v ∈ t.db ∨ setRow key v ∈ t.pending) ↔ v ∈ A key := by
  rw [h.rows]
  constructor
  · rintro ⟨key', v', hmem, heq⟩
    obtain ⟨hkey', hv'⟩ := h.shaped key' v' hmem
    obtain ⟨rfl, rfl⟩ := setRow_injective hkey hv hkey' hv' heq
    exact hmem
  · exact fun hmem => ⟨key, v, hmem, rfl⟩

/-- The rows after a change of one element. -/
theorem Stores.rows_set (h : Stores s A D t) {S : Set (PyObject α)} (hS : ∀ v', v' ≠ v → (v' ∈ S ↔ v' ∈ A key))
    (row : SetRow α) : (∃ key' v', v' ∈ A.set key S key' ∧ row = setRow key' v') ↔
      (row = setRow key v ∧ v ∈ S) ∨ (row ≠ setRow key v ∧ (row ∈ t.db ∨ row ∈ t.pending)) := by
  have hother : ∀ key' v', v' ∈ A key' → ¬ (key' = key ∧ v' = v) → setRow key' v' ≠ setRow key v := by
    intro key' v' hmem hne heq
    obtain ⟨hkey', hv'⟩ := h.shaped key' v' hmem
    exact hne (setRow_injective hkey' hv' hkey hv heq)
  rw [h.rows]
  constructor
  · rintro ⟨key', v', hmem, rfl⟩
    rcases Sets.mem_set.mp hmem with ⟨rfl, hin⟩ | ⟨hne, hin⟩
    · by_cases hvv : v' = v
      · exact .inl ⟨by rw [hvv], hvv ▸ hin⟩
      · have hold := (hS v' hvv).mp hin
        exact .inr ⟨hother key' v' hold fun h => hvv h.2, key', v', hold, rfl⟩
    · exact .inr ⟨hother key' v' hin fun h => hne h.1, key', v', hin, rfl⟩
  · rintro (⟨rfl, hmem⟩ | ⟨hne, key', v', hmem, rfl⟩)
    · exact ⟨key, v, Sets.mem_set.mpr (.inl ⟨rfl, hmem⟩), rfl⟩
    · refine ⟨key', v', ?_, rfl⟩
      by_cases hkk : key' = key
      · have hvv : v' ≠ v := fun heq => hne (by rw [hkk, heq])
        exact Sets.mem_set.mpr (.inl ⟨hkk, (hS v' hvv).mpr (hkk ▸ hmem)⟩)
      · exact Sets.mem_set.mpr (.inr ⟨hkk, hmem⟩)

theorem putRow_triple : Triple (At s A D) (s.putRow (setRow key v))
    (fun _ => At s (A.set key (insert v (A key))) (insert (setRow key v) D)) Never := by
  refine request_triple (Q := fun _ => Stores s (A.set key (insert v (A key))) (insert (setRow key v) D)) (E := Never) ?_
  intro t h
  have hrows := h.rows_set hkey hv (S := insert v (A key)) fun v' hv' => by simp [hv']
  obtain ⟨hshaped, -, hpending, hcache, hnodup, hcacheNodup⟩ := h
  simp only [setRow_length hkey hv, if_true]
  refine ⟨fun key' v' hmem => ?_, fun row => ?_, fun row hrow => ?_, fun row hrow => ?_, hnodup, ?_⟩
  · rcases Sets.mem_set.mp hmem with ⟨rfl, rfl | hin⟩ | ⟨-, hin⟩
    · exact ⟨hkey, hv⟩
    · exact hshaped key' v' hin
    · exact hshaped key' v' hin
  · rw [hrows, List.mem_append, List.mem_singleton]
    by_cases heq : row = setRow key v <;> simp [heq]
  · rcases List.mem_append.mp hrow with hrow | hrow
    · exact .inr (hpending row hrow)
    · exact .inl (List.mem_singleton.mp hrow)
  · rw [List.mem_append, List.mem_singleton]
    rcases List.mem_cons.mp hrow with rfl | hrow
    · exact .inr (.inr rfl)
    · exact (hcache row (List.mem_of_mem_erase hrow)).imp_right .inl
  · exact List.nodup_cons.mpr ⟨fun hmem => (hcacheNodup.mem_erase_iff.mp hmem).1 rfl, hcacheNodup.erase _⟩

theorem getRow_triple : Triple (At s A D) (s.getRow (setRow key v)) (fun _ w => v ∈ A key ∧ At s A D w)
    (fun _ w => v ∉ A key ∧ At s A ∅ w) := by
  apply request_triple (Q := fun _ t => v ∈ A key ∧ Stores s A D t) (E := fun _ t => v ∉ A key ∧ Stores s A ∅ t)
  intro t h
  have hview := h.mem_view hkey hv
  have hflush := h.flush.mem_view hkey hv
  have hafter := h.flush
  simp only [setRow_length hkey hv, if_true]
  by_cases hin : setRow key v ∈ t.cache
  · simp only [hin, if_true]
    refine ⟨hview.mp (h.cache _ hin), { h with cache := fun row hrow => ?_, cacheNodup := ?_ }⟩
    · rcases List.mem_cons.mp hrow with rfl | hrow
      · exact h.cache _ hin
      · exact h.cache _ (List.mem_of_mem_erase hrow)
    · exact List.nodup_cons.mpr ⟨fun hmem => (h.cacheNodup.mem_erase_iff.mp hmem).1 rfl, h.cacheNodup.erase _⟩
  · simp only [hin, if_false]
    by_cases hdb : setRow key v ∈ t.flush.db
    · simp only [hdb, if_true]
      refine ⟨hflush.mp (.inl hdb), { hafter.mono (Set.empty_subset D) with cache := fun row hrow => ?_, cacheNodup := ?_ }⟩
      · rcases List.mem_cons.mp hrow with rfl | hrow
        · exact .inl hdb
        · exact hafter.cache row hrow
      · exact List.nodup_cons.mpr ⟨hin, h.cacheNodup⟩
    · simp only [hdb, if_false]
      refine ⟨fun hmem => ?_, hafter⟩
      rcases hflush.mpr hmem with hdb' | hpending
      · exact hdb hdb'
      · exact absurd hpending List.not_mem_nil

theorem deleteRow_triple : Triple (At s A D) (s.deleteRow (setRow key v))
    (fun _ => At s (A.set key (A key \ {v})) ∅) Never := by
  refine request_triple (Q := fun _ => Stores s (A.set key (A key \ {v})) ∅) (E := Never) ?_
  intro t h
  have hrows := h.flush.rows_set hkey hv (S := A key \ {v}) fun v' hv' => by simp [hv']
  obtain ⟨hshaped, -, -, hcache, hnodup, hcacheNodup⟩ := h.flush
  have hcacheNodup' : t.cache.Nodup := hcacheNodup
  simp only [setRow_length hkey hv, if_true]
  refine ⟨fun key' v' hmem => ?_, fun row => ?_, nofun, fun row hrow => ?_, hnodup.erase _, hcacheNodup.erase _⟩
  · rcases Sets.mem_set.mp hmem with ⟨rfl, hin, -⟩ | ⟨-, hin⟩
    · exact hshaped key' v' hin
    · exact hshaped key' v' hin
  · rw [hrows, hnodup.mem_erase_iff]
    simp [SetTable.flush]
  · obtain ⟨hne, hin⟩ := hcacheNodup'.mem_erase_iff.mp hrow
    rcases hcache row hin with hdb | hpending
    · exact .inl (hnodup.mem_erase_iff.mpr ⟨hne, hdb⟩)
    · exact absurd hpending List.not_mem_nil

end requests

section queries

open Program

/-- The elements of a set, or all but some that may be missing. -/
structure Shown (S missing : Set (PyObject α)) (l : List (PyObject α)) : Prop where
  nodup : l.Nodup
  mem : ∀ v ∈ l, v ∈ S
  all : ∀ v ∈ S, v ∉ missing → v ∈ l

/-- The elements that the queries of the table may not show. -/
def unseen (D : Set (SetRow α)) (key : PyObject α) : Set (PyObject α) := {v | setRow key v ∈ D}

/-- The rows of a key in the table, with their elements. -/
theorem Stores.shown (h : Stores s A D t) (hkey : Shaped s.primaryKeys key) :
    Shown (A key) (unseen D key) ((t.db.filter (s.joinKeysQuery (deletedKey key))).map s.valueOf) := by
  have hrow : ∀ row ∈ t.db.filter (s.joinKeysQuery (deletedKey key)), s.valueOf row ∈ A key ∧ row = setRow key (s.valueOf row) := by
    intro row hrow
    obtain ⟨hdb, hquery⟩ := List.mem_filter.mp hrow
    obtain ⟨key', v, hmem, rfl⟩ := (h.rows row).mp (.inl hdb)
    obtain ⟨hkey', hv⟩ := h.shaped key' v hmem
    obtain rfl := (joinKeysQuery_setRow hkey hkey').mp hquery
    rw [valueOf_setRow hkey hv]
    exact ⟨hmem, rfl⟩
  refine ⟨?_, fun v hv => ?_, fun v hv hD => ?_⟩
  · apply List.Nodup.map_on _ (h.nodup.filter _)
    intro row hin row' hin' heq
    rw [(hrow row hin).2, (hrow row' hin').2, heq]
  · obtain ⟨row, hin, rfl⟩ := List.mem_map.mp hv
    exact (hrow row hin).1
  · have hshaped := h.shaped key v hv
    refine List.mem_map.mpr ⟨setRow key v, List.mem_filter.mpr ⟨?_, ?_⟩, valueOf_setRow hkey hshaped.2⟩
    · rcases (h.mem_view hkey hshaped.2).mpr hv with hdb | hpending
      · exact hdb
      · exact absurd (h.pending _ hpending) hD
    · exact (joinKeysQuery_setRow hkey hkey).mpr rfl

theorem query_triple {β : Type} {R : β → Prop} (g : SetTable α → β) (hR : ∀ t, Stores s A D t → R (g t)) :
    Triple (At s A D) (request fun t => (.ok (g t), t)) (fun b w => R b ∧ At s A D w) Never :=
  request_triple (f := fun t => (.ok (g t), t)) (Q := fun b t => R b ∧ Stores s A D t) (E := Never) fun t h => ⟨hR t h, h⟩

theorem iter_triple (hkey : Shaped s.primaryKeys key) : Triple (At s A D) (EmbeddedSet.iter s (deletedKey key))
    (fun l w => Shown (A key) (unseen D key) l ∧ At s A D w) Never := by
  have hselect : Triple (At s A D) (s.select (deletedKey key))
      (fun rows w => Shown (A key) (unseen D key) (rows.map s.valueOf) ∧ At s A D w) Never := query_triple _ fun t h => h.shown hkey
  exact hselect.bind fun rows => .pure fun w hw => hw

theorem len_triple (hkey : Shaped s.primaryKeys key) : Triple (At s A D) (EmbeddedSet.len s (deletedKey key))
    (fun n w => (∃ l, Shown (A key) (unseen D key) l ∧ n = l.length) ∧ At s A D w) Never :=
  query_triple (R := fun n => ∃ l, Shown (A key) (unseen D key) l ∧ n = l.length) _ fun _ h => ⟨_, h.shown hkey, (List.length_map _).symm⟩

theorem flush_triple : Triple (At s A D) SetSchema.flush (fun _ => At s A ∅) Never :=
  request_triple (f := fun t => (.ok (), t.flush)) (Q := fun _ => Stores s A ∅) (E := Never) fun _ h => h.flush

theorem Sets.set_eq_self {S : Set (PyObject α)} (h : S = A key) : A.set key S = A := by
  rw [h]
  exact Function.update_eq_self key A

theorem Sets.set_remove_missing (h : v ∉ A key) : A.set key (A key \ {v}) = A :=
  Sets.set_eq_self (Set.ext fun _ => ⟨fun hv => hv.1, fun hv => ⟨hv, fun heq => h (heq ▸ hv)⟩⟩)

theorem Sets.set_remove_nil (A : Sets α) (key : PyObject α) : A.set key (A key \ {v | v ∈ ([] : List (PyObject α))}) = A :=
  Sets.set_eq_self (by ext v; simp)

@[simp] theorem Sets.set_self (A : Sets α) (key : PyObject α) (S : Set (PyObject α)) : A.set key S key = S := by
  simp [Sets.set]

@[simp] theorem Sets.set_set (A : Sets α) (key : PyObject α) (S S' : Set (PyObject α)) :
    (A.set key S).set key S' = A.set key S' := by
  simp [Sets.set]

end queries

section methods

open Program

variable (hkey : Shaped s.primaryKeys key) (hv : Shaped s.setTypes v)

include hkey hv

omit [DecidableEq α] in
theorem makeKey_setRow : s.makeKey (setRow key v) = pure (setRow key v) := by
  unfold SetSchema.makeKey
  rw [if_pos (.inr (setRow_length hkey hv))]

theorem add_triple : Triple (At s A D) (EmbeddedSet.add s (deletedKey key) v)
    (fun _ => At s (A.set key (insert v (A key))) (insert (setRow key v) D)) Never := by
  change Triple _ (s.setitem (setRow key v)) _ _
  unfold SetSchema.setitem
  rw [makeKey_setRow hkey hv]
  exact putRow_triple hkey hv

/-- A row that is not found has been looked for in the table, with nothing left to write. -/
theorem contains_triple {E : DictError → SetWorld α → Prop} : Triple (At s A D) (EmbeddedSet.contains s (deletedKey key) v)
    (fun b w => (b = true ∧ v ∈ A key ∧ At s A D w) ∨ (b = false ∧ v ∉ A key ∧ At s A ∅ w)) E := by
  change Triple _ (s.hasKey (setRow key v)) _ _
  unfold SetSchema.hasKey
  rw [makeKey_setRow hkey hv]
  apply Triple.tryCatch (F := fun _ w => v ∉ A key ∧ At s A ∅ w)
  · exact (getRow_triple hkey hv).bind fun _ => .pure fun w hw => .inl ⟨rfl, hw⟩
  · exact fun _ => .pure fun w hw => .inr ⟨rfl, hw⟩

theorem contains_decides {E : DictError → SetWorld α → Prop} : Triple (At s A D) (EmbeddedSet.contains s (deletedKey key) v)
    (fun b w => At s A D w ∧ (b = true ↔ v ∈ A key)) E := by
  apply (contains_triple hkey hv).post
  rintro b w (⟨rfl, hmem, hw⟩ | ⟨rfl, hmem, hw⟩)
  · exact ⟨hw, by simp [hmem]⟩
  · exact ⟨hw.mono (Set.empty_subset D), by simp [hmem]⟩

theorem remove_triple : Triple (At s A D) (EmbeddedSet.remove s (deletedKey key) v)
    (fun _ w => v ∈ A key ∧ At s (A.set key (A key \ {v})) ∅ w)
    (fun e w => e = .keyError ∧ v ∉ A key ∧ At s A ∅ w) := by
  apply (contains_triple hkey hv).bind
  rintro (_ | _)
  · apply Triple.throw
    rintro w (⟨hb, -⟩ | ⟨-, hmem, hw⟩)
    · cases hb
    · exact ⟨rfl, hmem, hw⟩
  · rintro w (⟨-, hmem, hw⟩ | ⟨hb, -⟩)
    · exact ((deleteRow_triple hkey hv).mono (fun _ h => h) (fun _ _ h => ⟨hmem, h⟩) fun _ _ h => h.elim) w hw
    · cases hb

theorem discard_triple : Triple (At s A D) (EmbeddedSet.discard s (deletedKey key) v)
    (fun _ => At s (A.set key (A key \ {v})) ∅) Never := by
  apply Triple.tryCatch (F := Never)
  · apply (contains_triple hkey hv).bind
    rintro (_ | _)
    · rintro w (⟨hb, -⟩ | ⟨-, hmem, hw⟩)
      · cases hb
      · change At s (A.set key (A key \ {v})) ∅ w
        rwa [Sets.set_remove_missing hmem]
    · rintro w (⟨-, -, hw⟩ | ⟨hb, -⟩)
      · exact deleteRow_triple hkey hv w hw
      · cases hb
  · exact fun e w h => h.elim

end methods

section loops

open Program

variable (hkey : Shaped s.primaryKeys key)

include hkey

/-- The elements that a query shows are there when they are removed, one after the other. -/
theorem clear_triple : Triple (At s A D) (EmbeddedSet.clear s (deletedKey key))
    (fun _ w => ∃ l, Shown (A key) (unseen D key) l ∧ At s (A.set key (A key \ {v | v ∈ l})) D w) Never := by
  apply (iter_triple hkey).bind
  intro l
  apply Triple.assume
  intro hl
  have hstep : ∀ done a todo, Triple
      (fun w => done ++ a :: todo = l ∧ At s (A.set key (A key \ {v | v ∈ done})) D w)
      (EmbeddedSet.remove s (deletedKey key) a)
      (fun _ w => (done ++ [a]) ++ todo = l ∧ At s (A.set key (A key \ {v | v ∈ done ++ [a]})) D w) Never := by
    rintro done a todo w ⟨rfl, hw⟩
    have hnew : a ∉ done := (List.nodup_middle.mp hl.nodup).notMem ∘ fun h => List.mem_append_left _ h
    have hmem : a ∈ A.set key (A key \ {v | v ∈ done}) key := by
      rw [Sets.set_self]
      exact ⟨hl.mem a (by simp), hnew⟩
    have hsets : (A.set key (A key \ {v | v ∈ done})).set key (A.set key (A key \ {v | v ∈ done}) key \ {a}) =
        A.set key (A key \ {v | v ∈ done ++ [a]}) := by
      rw [Sets.set_set, Sets.set_self]
      congr 1
      ext v
      simp [and_assoc]
    have hremove := remove_triple hkey (hw.shaped key a hmem).2 (A := A.set key (A key \ {v | v ∈ done})) (D := D)
    rw [hsets] at hremove
    apply hremove.mono (fun _ h => h) (fun _ w' hw' => ?_) (fun _ _ h => absurd hmem h.2.1) w hw
    exact ⟨by simp, hw'.2.mono (Set.empty_subset D)⟩
  have hloop := Triple.forEach (fun done todo w => done ++ todo = l ∧ At s (A.set key (A key \ {v | v ∈ done})) D w) hstep l
  apply hloop.mono
  · intro w hw
    rw [Sets.set_remove_nil]
    exact ⟨rfl, hw⟩
  · rintro _ w ⟨-, hw⟩
    exact ⟨l, hl, hw⟩
  · exact fun _ _ h => h

theorem addAll_triple {values : List (PyObject α)} (hvalues : ∀ v ∈ values, Shaped s.setTypes v) :
    Triple (At s A D) (Program.forEach (EmbeddedSet.add s (deletedKey key)) values)
      (fun _ => At s (A.set key (A key ∪ {v | v ∈ values})) (D ∪ {row | ∃ v ∈ values, row = setRow key v})) Never := by
  induction values generalizing A D with
  | nil =>
    apply Triple.pure
    intro w hw
    have hsame : A.set key (A key ∪ {v | v ∈ ([] : List (PyObject α))}) = A := Sets.set_eq_self (by ext v; simp)
    rw [hsame]
    exact hw.mono Set.subset_union_left
  | cons a values ih =>
    apply (add_triple hkey (hvalues a List.mem_cons_self)).bind
    intro _
    have hrest := ih (A := A.set key (insert a (A key))) (D := insert (setRow key a) D) fun v hv => hvalues v (List.mem_cons_of_mem _ hv)
    have hsets : (A.set key (insert a (A key))).set key (A.set key (insert a (A key)) key ∪ {v | v ∈ values}) =
        A.set key (A key ∪ {v | v ∈ a :: values}) := by
      rw [Sets.set_set, Sets.set_self]
      congr 1
      ext v
      simp only [Set.mem_union, Set.mem_insert_iff, Set.mem_ofPred_eq, List.mem_cons]
      tauto
    rw [hsets] at hrest
    apply hrest.post
    intro _ w hw
    apply hw.mono
    rintro row ((rfl | hrow) | ⟨v, hv, rfl⟩)
    · exact .inr ⟨a, List.mem_cons_self, rfl⟩
    · exact .inl hrow
    · exact .inr ⟨v, List.mem_cons_of_mem _ hv, rfl⟩

theorem clearIfAny_triple : Triple (At s A D) (EmbeddedSet.clearIfAny s (deletedKey key))
    (fun _ w => ∃ l, Shown (A key) (unseen D key) l ∧ At s (A.set key (A key \ {v | v ∈ l})) D w) Never := by
  apply (len_triple hkey).bind
  intro n
  apply Triple.assume
  rintro ⟨l, hl, rfl⟩
  by_cases hlen : l.length = 0
  · rw [if_neg (not_not.mpr hlen)]
    apply Triple.pure
    intro w hw
    obtain rfl := List.eq_nil_of_length_eq_zero hlen
    exact ⟨[], hl, by rwa [Sets.set_remove_nil]⟩
  · rw [if_pos hlen]
    exact clear_triple hkey

/-- What an assignment does: the elements that its queries do not show stay. -/
theorem assign_triple {values : List (PyObject α)} (hvalues : ∀ v ∈ values, Shaped s.setTypes v) :
    Triple (At s A D) (EmbeddedSet.assign s (deletedKey key) values)
      (fun _ w => ∃ l, Shown (A key) (unseen D key) l ∧ At s (A.set key ((A key \ {v | v ∈ l}) ∪ {v | v ∈ values}))
        (D ∪ {row | ∃ v ∈ values, row = setRow key v}) w) Never := by
  apply (clearIfAny_triple hkey).bind
  rintro _ w ⟨l, hl, hw⟩
  have hadd := addAll_triple hkey hvalues (A := A.set key (A key \ {v | v ∈ l})) (D := D)
  rw [Sets.set_set, Sets.set_self] at hadd
  exact (hadd.post fun _ w' hw' => ⟨l, hl, hw'⟩) w hw

end loops

end Hecuba
