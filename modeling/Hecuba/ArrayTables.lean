import Hecuba.ArrayStores
import Hecuba.Fallible

/-! The table that each array goes to, whatever arrays were opened before it, and when that is the
table it was opened on. -/

namespace Hecuba

variable {S K V : Type}

/-- The static cache, when it is there, is of the static table. -/
def Statics.Points (s : Statics) (tables : List TableId) : Prop :=
  ∀ pointer, s.cache = some pointer → ∃ id, s.metadata = some id ∧ tables[pointer]? = some id

theorem Statics.Points.append {s : Statics} {tables : List TableId} (h : s.Points tables) (more : List TableId) : s.Points (tables ++ more) := by
  intro pointer hpointer
  obtain ⟨id, hid, htable⟩ := h pointer hpointer
  exact ⟨id, hid, List.getElem?_append_left (List.getElem?_eq_some_iff.mp htable).1 ▸ htable⟩

namespace ArrayProcess

def tables (p : ArrayProcess S K V) : List TableId := p.caches.map ArrayCache.table

theorem tableOf_eq (p : ArrayProcess S K V) (pointer : Option Nat) : p.tableOf pointer = pointer.bind fun i => p.tables[i]? := by
  simp [tableOf, tables]

/-- What the part of a constructor that makes caches leaves. -/
structure Grows (p p' : ArrayProcess S K V) : Prop where
  caches : ∃ new, p'.caches = p.caches ++ new
  stores : p'.stores = p.stores
  content : p'.content = p.content

theorem Grows.refl (p : ArrayProcess S K V) : p.Grows p := ⟨⟨[], (List.append_nil _).symm⟩, rfl, rfl⟩

theorem Grows.trans {p p' p'' : ArrayProcess S K V} (h : p.Grows p') (h' : p'.Grows p'') : p.Grows p'' := by
  obtain ⟨new, hnew⟩ := h.caches
  obtain ⟨new', hnew'⟩ := h'.caches
  refine ⟨⟨new ++ new', ?_⟩, h'.stores.trans h.stores, h'.content.trans h.content⟩
  rw [hnew', hnew, List.append_assoc]

theorem Grows.tables {p p' : ArrayProcess S K V} (h : p.Grows p') : ∃ more, p'.tables = p.tables ++ more := by
  obtain ⟨new, hnew⟩ := h.caches
  refine ⟨new.map ArrayCache.table, ?_⟩
  rw [ArrayProcess.tables, hnew, List.map_append]
  rfl

theorem Grows.tableOf {p p' : ArrayProcess S K V} (h : p.Grows p') {pointer : Option Nat} {id : TableId}
    (hid : p.tableOf pointer = some id) : p'.tableOf pointer = some id := by
  obtain ⟨more, hmore⟩ := h.tables
  rw [tableOf_eq] at hid ⊢
  obtain ⟨i, rfl, hi⟩ := Option.bind_eq_some_iff.mp hid
  rw [hmore]
  exact (List.getElem?_append_left (List.getElem?_eq_some_iff.mp hi).1).trans hi

theorem Grows.points {p p' : ArrayProcess S K V} (h : p.Grows p') (hp : p.arrays.Points p.tables)
    (harrays : p'.arrays = p.arrays) : p'.arrays.Points p'.tables := by
  obtain ⟨more, hmore⟩ := h.tables
  rw [harrays, hmore]
  exact hp.append more

end ArrayProcess

theorem toOption_elim {ε α : Type} (o : Option α) (x : Except ε α) : (o.elim x Except.ok).toOption = o.or x.toOption := by
  cases o with
  | none => rfl
  | some a => rfl

section statics

variable {s : Statics} {caches : List (ArrayCache K V)} {metadata : Except WriterFault TableId}
  {cache : TableId → Except WriterFault (ArrayCache K V)}

theorem Statics.get_caches : ∃ new, (s.get caches metadata cache).2.1 = caches ++ new := by
  unfold Statics.get
  cases s.metadata.elim metadata Except.ok with
  | error e => exact ⟨[], (List.append_nil _).symm⟩
  | ok id =>
    dsimp only
    cases s.cache with
    | some pointer => exact ⟨[], (List.append_nil _).symm⟩
    | none =>
      cases cache id with
      | error e => exact ⟨[], (List.append_nil _).symm⟩
      | ok c => exact ⟨[c], rfl⟩

/-- What the static variables become, and the pointer to the static cache. -/
theorem Statics.get_spec (h : s.Points (caches.map ArrayCache.table))
    (hcache : ∀ id c, cache id = .ok c → c.table = id) :
    (s.get caches metadata cache).1.Points ((s.get caches metadata cache).2.1.map ArrayCache.table) ∧
      (s.get caches metadata cache).1.metadata = s.metadata.or metadata.toOption ∧
      ∀ pointer, (s.get caches metadata cache).2.2 = .ok pointer → (s.get caches metadata cache).1.cache = some pointer := by
  unfold Statics.get
  cases hid : s.metadata.elim metadata Except.ok with
  | error e =>
    have hnone : s.metadata.or metadata.toOption = none := by rw [← toOption_elim, hid]; rfl
    have hmetadata : s.metadata = s.metadata.or metadata.toOption := by rw [hnone, (Option.or_eq_none_iff.mp hnone).1]
    exact ⟨h, hmetadata, fun _ hp => by cases hp⟩
  | ok id =>
    have hmetadata : s.metadata.or metadata.toOption = some id := by rw [← toOption_elim, hid]; rfl
    dsimp only
    cases hc : s.cache with
    | some pointer =>
      refine ⟨?_, hmetadata.symm, fun _ hp => congrArg some (Except.ok.inj hp)⟩
      intro pointer' hpointer
      obtain ⟨id', hid', htable⟩ := h pointer' (hc.trans hpointer)
      rw [hid'] at hmetadata
      exact ⟨id', hmetadata.symm, htable⟩
    | none =>
      cases hnew : cache id with
      | error e => exact ⟨fun _ hp => (by cases hp), hmetadata.symm, fun _ hp => by cases hp⟩
      | ok c =>
        refine ⟨?_, hmetadata.symm, fun _ hp => congrArg some (Except.ok.inj hp)⟩
        rintro _ ⟨⟩
        refine ⟨id, rfl, ?_⟩
        rw [← hcache id c hnew]
        simp

end statics

namespace Opening

/-- The table that a construction leaves to all later arrays, if it is the first to do so. -/
def shares (o : Opening) : Option TableId :=
  if o.columnar then none
  else
    match o.snSingleTable with
    | none => none
    | some single =>
      if single ≠ "false".toList then
        (o.tableMetadata o.table o.keyspace ArrayProcess.keysNames ArrayProcess.columnsNames).toOption
      else none

/-- Where the rows of an array go, after a table that is left to all arrays. -/
def writeTable (o : Opening) (shared : Option TableId) : Option TableId :=
  if o.columnar then if o.arrowEnabled then some (lowerName o.keyspace, lowerName o.tableBuffer) else none
  else if o.snSingleTable = some "false".toList then some o.id else some (shared.getD o.id)

/-- Where the rows of an array come from. -/
def readTable (o : Opening) (shared : Option TableId) : Option TableId :=
  if o.columnar then if o.arrowEnabled then some o.id else none
  else if o.snSingleTable = some "false".toList then some o.id else some (shared.getD o.id)

/-- An array that is not columnar, with a table of its own or one that is shared on purpose. -/
def Fits (o : Opening) (shared : Option TableId) : Prop :=
  o.columnar = false ∧ (o.snSingleTable = some "false".toList ∨ shared.getD o.id = o.id)

theorem Fits.writeTable {o : Opening} {shared : Option TableId} (h : o.Fits shared) : o.writeTable shared = some o.id := by
  obtain ⟨hplain, hmultiple | hshared⟩ := h
  · rw [Opening.writeTable, hplain, if_neg Bool.false_ne_true, if_pos hmultiple]
  · rw [Opening.writeTable, hplain, if_neg Bool.false_ne_true, hshared, ite_self]

theorem Fits.readTable {o : Opening} {shared : Option TableId} (h : o.Fits shared) : o.readTable shared = some o.id := by
  obtain ⟨hplain, hmultiple | hshared⟩ := h
  · rw [Opening.readTable, hplain, if_neg Bool.false_ne_true, if_pos hmultiple]
  · rw [Opening.readTable, hplain, if_neg Bool.false_ne_true, hshared, ite_self]

theorem tableBuffer_ne {o : Opening} (h : o.columnar = true) : lowerName o.tableBuffer ≠ lowerName o.table := by
  intro heq
  have hlen : o.tableBuffer.length = o.table.length := by
    simpa only [lowerName, List.length_map] using congrArg List.length heq
  have hsix : 6 ≤ o.table.length := by
    simp only [columnar, Bool.and_eq_true, decide_eq_true_eq] at h
    exact h.1
  have hbuffer : "_buffer".toList.length = 7 := by decide
  simp only [tableBuffer, List.length_append, List.length_take, hbuffer] at hlen
  omega

theorem fits_of_writeTable {o : Opening} {shared : Option TableId} (h : o.writeTable shared = some o.id) : o.Fits shared := by
  unfold writeTable at h
  split at h
  · rename_i hcolumnar
    split at h
    · exact absurd (congrArg Prod.snd (Option.some.inj h)) (tableBuffer_ne hcolumnar)
    · cases h
  · rename_i hplain
    refine ⟨by simpa using hplain, ?_⟩
    split at h
    · rename_i hmultiple
      exact .inl hmultiple
    · exact .inr (Option.some.inj h)

theorem tableMetadata_ok {o : Opening} {table keyspace : Str} {keysNames columnsNames : List Str} {id : TableId}
    (h : o.tableMetadata table keyspace keysNames columnsNames = .ok id) : id = (lowerName keyspace, lowerName table) := by
  simp only [tableMetadata] at h
  split at h
  · cases h
  · split at h
    · cases h
    · split at h
      · cases h
      · split at h
        · split at h
          · cases h
          · exact (Except.ok.inj h).symm
        · cases h

end Opening

/-- The table that a process leaves to all its arrays: that of the first construction in the
single-table mode that Cassandra knows. -/
def sharedTable (os : List Opening) : Option TableId := os.findSome? Opening.shares

theorem sharedTable_append (os : List Opening) (o : Opening) : sharedTable (os ++ [o]) = (sharedTable os).or o.shares := by
  rw [sharedTable, List.findSome?_append]
  cases hs : o.shares with
  | none => simp [sharedTable, hs]
  | some t => simp [sharedTable, hs]

theorem openings_append (calls calls' : List (ArrayCall K V)) : openings (calls ++ calls') = openings calls ++ openings calls' :=
  List.filterMap_append

theorem openings_construct (os : List Opening) : openings (os.map (ArrayCall.construct : Opening → ArrayCall K V)) = os := by
  induction os with
  | nil => rfl
  | cons o os ih => exact congrArg (o :: ·) ih

@[simp] theorem openings_nil : openings ([] : List (ArrayCall K V)) = [] := rfl

@[simp] theorem openings_store (i : Nat) (rows : List (K × V)) : openings [.store i rows] = [] := rfl

@[simp] theorem openings_read (i : Nat) (keys : List K) : openings [(.read i keys : ArrayCall K V)] = [] := rfl

namespace ArrayProcess

theorem onCache_tables {A : Type} (p : ArrayProcess S K V) (pointer : Option Nat)
    (calls : CachedRows S K V → A × CachedRows S K V) : (p.onCache pointer calls).1.tables = p.tables := by
  unfold onCache
  cases hc : pointer.bind fun i => p.caches[i]?.map fun c => (i, c) with
  | none => rfl
  | some e =>
    obtain ⟨i, c⟩ := e
    obtain ⟨j, -, hj⟩ := Option.bind_eq_some_iff.mp hc
    obtain ⟨c', hget, heq⟩ := Option.map_eq_some_iff.mp hj
    cases heq
    have htable : p.tables[i]? = some c.table := by rw [tables, List.getElem?_map, hget]; rfl
    obtain ⟨hi, hget⟩ := List.getElem?_eq_some_iff.mp htable
    simp only [tables, List.map_set]
    rw [← hget]
    exact List.set_getElem_self hi

theorem onCache_stores {A : Type} (p : ArrayProcess S K V) (pointer : Option Nat)
    (calls : CachedRows S K V → A × CachedRows S K V) :
    (p.onCache pointer calls).1.stores = p.stores ∧ (p.onCache pointer calls).1.arrays = p.arrays := by
  unfold onCache
  split
  · exact ⟨rfl, rfl⟩
  · exact ⟨rfl, rfl⟩

theorem onCache_content {A : Type} (p : ArrayProcess S K V) (pointer : Option Nat)
    (calls : CachedRows S K V → A × CachedRows S K V) {t : TableId} (ht : p.tableOf pointer ≠ some t) :
    (p.onCache pointer calls).1.content t = p.content t := by
  unfold onCache
  cases hc : pointer.bind fun i => p.caches[i]?.map fun c => (i, c) with
  | none => rfl
  | some e =>
    obtain ⟨i, c⟩ := e
    have htable : p.tableOf pointer = some c.table := by
      obtain ⟨j, rfl, hj⟩ := Option.bind_eq_some_iff.mp hc
      obtain ⟨c', hget, heq⟩ := Option.map_eq_some_iff.mp hj
      cases heq
      simp [tableOf, hget]
    refine Function.update_of_ne ?_ _ _
    rintro rfl
    exact ht htable

theorem onCache_reads {A : Type} (p : ArrayProcess S K V) (pointer : Option Nat)
    {calls : CachedRows S K V → A × CachedRows S K V} (h : ∀ t, (calls t).2.content = t.content) :
    (p.onCache pointer calls).1.content = p.content := by
  unfold onCache
  split
  · rfl
  · rename_i i c hc
    dsimp only
    rw [h]
    exact Function.update_eq_self _ _

/-- The statics of a process that has made some constructions. -/
structure Reached (p : ArrayProcess S K V) (os : List Opening) : Prop where
  points : p.arrays.Points p.tables
  shared : p.arrays.metadata = sharedTable os

/-- The caches of each array are of the table it was opened on. -/
def Separate (p : ArrayProcess S K V) : Prop :=
  ∀ store ∈ p.stores, p.tableOf store.cache = some store.opened ∧ p.tableOf store.readCache = some store.opened

theorem start_reached (content : TableId → S) : (start content : ArrayProcess S K V).Reached [] :=
  ⟨fun _ h => (by cases h), rfl⟩

/-- What a call leaves as it was, unless it is a construction. -/
structure Keeps (p p' : ArrayProcess S K V) : Prop where
  tables : p'.tables = p.tables
  stores : p'.stores = p.stores
  arrays : p'.arrays = p.arrays

theorem onCache_keeps {A : Type} (p : ArrayProcess S K V) (pointer : Option Nat)
    (calls : CachedRows S K V → A × CachedRows S K V) : p.Keeps (p.onCache pointer calls).1 :=
  ⟨onCache_tables p pointer calls, (onCache_stores p pointer calls).1, (onCache_stores p pointer calls).2⟩

theorem Keeps.tableOf {p p' : ArrayProcess S K V} (h : p.Keeps p') (pointer : Option Nat) :
    p'.tableOf pointer = p.tableOf pointer := by
  rw [tableOf_eq, tableOf_eq, h.tables]

theorem Keeps.reached {os : List Opening} {p p' : ArrayProcess S K V} (h : p.Keeps p') (hr : p.Reached os) : p'.Reached os := by
  refine ⟨?_, ?_⟩
  · rw [h.arrays, h.tables]
    exact hr.points
  · rw [h.arrays]
    exact hr.shared

theorem Keeps.separate {p p' : ArrayProcess S K V} (h : p.Keeps p') (hs : p.Separate) : p'.Separate := by
  intro store hstore
  rw [h.stores] at hstore
  rw [h.tableOf, h.tableOf]
  exact hs store hstore

end ArrayProcess

variable [DecidableEq K]

theorem Opening.cacheTable_table {o : Opening} {keysNames columnsNames : List Str} {id : TableId} {c : ArrayCache K V}
    (h : o.cacheTable K V keysNames columnsNames id = .ok c) : c.table = id := by
  simp only [cacheTable] at h
  split at h
  · cases h
  · split at h
    · rw [← Except.ok.inj h]
    · cases h

namespace ArrayProcess

section constructor

variable (p : ArrayProcess S K V) (o : Opening)

theorem newCache_spec (table : Str) (keysNames columnsNames : List Str) :
    p.Grows (p.newCache o table keysNames columnsNames).1 ∧
      (p.newCache o table keysNames columnsNames).1.arrays = p.arrays ∧
      ∀ pointer, (p.newCache o table keysNames columnsNames).2 = .ok pointer →
        (p.newCache o table keysNames columnsNames).1.tableOf (some pointer) = some (lowerName o.keyspace, lowerName table) := by
  unfold newCache
  cases hnew : o.tableMetadata table o.keyspace keysNames columnsNames >>= o.cacheTable K V keysNames columnsNames with
  | error e => exact ⟨.refl p, rfl, fun _ hp => by cases hp⟩
  | ok c =>
    refine ⟨⟨⟨[c], rfl⟩, rfl, rfl⟩, rfl, ?_⟩
    intro pointer hpointer
    obtain rfl := Except.ok.inj hpointer
    cases hmetadata : o.tableMetadata table o.keyspace keysNames columnsNames with
    | error e =>
      rw [hmetadata] at hnew
      cases hnew
    | ok id =>
      rw [hmetadata] at hnew
      have htable : c.table = id := Opening.cacheTable_table hnew
      simp [tableOf, htable, Opening.tableMetadata_ok hmetadata]

theorem getStaticMetadataCache_spec :
    p.Grows (p.getStaticMetadataCache o).1 ∧ (p.getStaticMetadataCache o).1.arrays = p.arrays :=
  ⟨⟨Statics.get_caches, rfl, rfl⟩, rfl⟩

theorem getStaticcache_spec (hp : p.arrays.Points p.tables) :
    p.Grows (p.getStaticcache o).1 ∧ (p.getStaticcache o).1.arrays.Points (p.getStaticcache o).1.tables ∧
      (p.getStaticcache o).1.arrays.metadata =
        p.arrays.metadata.or (o.tableMetadata o.table o.keyspace keysNames columnsNames).toOption ∧
      ∀ pointer, (p.getStaticcache o).2 = .ok pointer →
        (p.getStaticcache o).1.tableOf (some pointer) = some (p.arrays.metadata.getD o.id) := by
  obtain ⟨hpoints, hmetadata, hcache⟩ := @Statics.get_spec K V p.arrays p.caches
    (o.tableMetadata o.table o.keyspace keysNames columnsNames) (o.cacheTable K V keysNames columnsNames) hp
    fun _ _ => Opening.cacheTable_table
  refine ⟨⟨Statics.get_caches, rfl, rfl⟩, hpoints, hmetadata, ?_⟩
  intro pointer hpointer
  obtain ⟨id, hid, htable⟩ := hpoints pointer (hcache pointer hpointer)
  rw [tableOf_eq]
  refine htable.trans ?_
  rw [hmetadata] at hid
  cases hshared : p.arrays.metadata with
  | some shared =>
    rw [hshared] at hid
    exact hid.symm
  | none =>
    rw [hshared, Option.none_or] at hid
    cases hown : o.tableMetadata o.table o.keyspace keysNames columnsNames with
    | error e =>
      rw [hown] at hid
      cases hid
    | ok own =>
      rw [hown] at hid
      rw [← Option.some.inj hid, Opening.tableMetadata_ok hown]
      rfl

/-- What the constructor leaves once it has the caches of the array. -/
structure HasCaches (r : ArrayProcess S K V × Except WriterFault (Nat × Nat)) : Prop where
  grows : p.Grows r.1
  points : r.1.arrays.Points r.1.tables
  shared : r.1.arrays.metadata = p.arrays.metadata.or o.shares
  tables : ∀ write read, r.2 = .ok (write, read) → ∃ t t',
    r.1.tableOf (some write) = some t ∧ o.writeTable p.arrays.metadata = some t ∧
      r.1.tableOf (some read) = some t' ∧ o.readTable p.arrays.metadata = some t'

theorem plainCaches_spec (hp : p.arrays.Points p.tables) (hplain : o.columnar = false) :
    p.HasCaches o (p.plainCaches o) := by
  have hwrite : o.writeTable p.arrays.metadata = o.readTable p.arrays.metadata := by
    simp [Opening.writeTable, Opening.readTable, hplain]
  unfold plainCaches
  cases hsingle : o.snSingleTable with
  | none =>
    have hshares : o.shares = none := by simp [Opening.shares, hsingle]
    exact ⟨.refl p, hp, by rw [hshares, Option.or_none], fun _ _ h => by cases h⟩
  | some single =>
    dsimp only
    by_cases hoff : single = "false".toList
    · obtain ⟨hgrows, harrays, htable⟩ := newCache_spec p o o.table keysNames columnsNames
      have hshares : o.shares = none := by
        simp only [Opening.shares, hsingle, hoff, ne_eq, not_true_eq_false, if_false, ite_self]
      have hown : o.readTable p.arrays.metadata = some o.id := by
        simp only [Opening.readTable, hplain, hsingle, hoff, Bool.false_eq_true, if_false, if_true]
      rw [if_neg (not_not.mpr hoff)]
      refine ⟨hgrows, hgrows.points hp harrays, by rw [hshares, Option.or_none, harrays], ?_⟩
      intro write read h
      obtain ⟨pointer, hpointer, heq⟩ := map_ok_iff.mp h
      obtain ⟨rfl, rfl⟩ := Prod.mk.inj heq
      have hid := htable pointer hpointer
      exact ⟨o.id, o.id, hid, hwrite.trans hown, hid, hown⟩
    · obtain ⟨hgrows, hpoints, hmetadata, htable⟩ := getStaticcache_spec p o hp
      have hshares : o.shares = (o.tableMetadata o.table o.keyspace keysNames columnsNames).toOption := by
        simp only [Opening.shares, hplain, hsingle, Bool.false_eq_true, if_false, ne_eq, hoff, not_false_eq_true, if_true]
      have hshared : o.readTable p.arrays.metadata = some (p.arrays.metadata.getD o.id) := by
        simp only [Opening.readTable, hplain, hsingle, Bool.false_eq_true, if_false, Option.some.injEq, hoff]
      rw [if_pos hoff]
      refine ⟨hgrows, hpoints, by rw [hshares, hmetadata], ?_⟩
      intro write read h
      obtain ⟨pointer, hpointer, heq⟩ := map_ok_iff.mp h
      obtain ⟨rfl, rfl⟩ := Prod.mk.inj heq
      have hid := htable pointer hpointer
      exact ⟨_, _, hid, hwrite.trans hshared, hid, hshared⟩

theorem columnarCaches_spec (hp : p.arrays.Points p.tables) (hcolumnar : o.columnar = true)
    (harrow : o.arrowEnabled = true) : p.HasCaches o (p.columnarCaches o) := by
  have hshares : o.shares = none := by simp [Opening.shares, hcolumnar]
  have hwrite : o.writeTable p.arrays.metadata = some (lowerName o.keyspace, lowerName o.tableBuffer) := by
    simp [Opening.writeTable, hcolumnar, harrow]
  have hread : o.readTable p.arrays.metadata = some o.id := by simp [Opening.readTable, hcolumnar, harrow]
  obtain ⟨hgrows, harrays, htable⟩ := newCache_spec p o o.tableBuffer keysArrowNames columnsBufferNames
  unfold columnarCaches
  generalize p.newCache o o.tableBuffer keysArrowNames columnsBufferNames = buffer at hgrows harrays htable
  obtain ⟨q, pointer⟩ := buffer
  dsimp only at hgrows harrays htable
  cases pointer with
  | error e =>
    exact ⟨hgrows, hgrows.points hp harrays, by rw [hshares, Option.or_none, harrays], fun _ _ h => by cases h⟩
  | ok write =>
    obtain ⟨hgrows', harrays', htable'⟩ := newCache_spec q o o.table keysArrowNames columnsArrowNames
    have hall := hgrows.trans hgrows'
    have hsame := harrays'.trans harrays
    refine ⟨hall, hall.points hp hsame, ?_, ?_⟩
    · rw [hshares, Option.or_none]
      exact congrArg Statics.metadata hsame
    intro write' read h
    obtain ⟨pointer, hpointer, heq⟩ := map_ok_iff.mp h
    obtain ⟨rfl, rfl⟩ := Prod.mk.inj heq
    exact ⟨_, _, hgrows'.tableOf (htable write rfl), hwrite, htable' pointer hpointer, hread⟩

/-- What a construction leaves, and where the caches of a new array lead. -/
structure Constructed (r : ArrayProcess S K V × Except WriterFault ArrayDataStore) : Prop where
  grows : p.Grows r.1
  points : r.1.arrays.Points r.1.tables
  shared : r.1.arrays.metadata = p.arrays.metadata.or o.shares
  opened : ∀ store, r.2 = .ok store → store.opened = o.id ∧
    r.1.tableOf store.cache = o.writeTable p.arrays.metadata ∧
    r.1.tableOf store.readCache = o.readTable p.arrays.metadata

theorem finish_spec {r : ArrayProcess S K V × Except WriterFault (Nat × Nat)} (h : p.HasCaches o r) :
    p.Constructed o (finish o r) := by
  obtain ⟨q, result⟩ := r
  cases result with
  | error e => exact ⟨h.grows, h.points, h.shared, fun _ hstore => by cases hstore⟩
  | ok pointers =>
    obtain ⟨write, read⟩ := pointers
    obtain ⟨hgrows, harrays⟩ := getStaticMetadataCache_spec q o
    refine ⟨h.grows.trans hgrows, hgrows.points h.points harrays, ?_, ?_⟩
    · exact (congrArg Statics.metadata harrays).trans h.shared
    intro store hstore
    obtain ⟨t, t', hwrite, ht, hread, ht'⟩ := h.tables write read rfl
    obtain ⟨pointer, -, rfl⟩ := map_ok_iff.mp hstore
    exact ⟨rfl, (hgrows.tableOf hwrite).trans ht.symm, (hgrows.tableOf hread).trans ht'.symm⟩

theorem construct_spec (hp : p.arrays.Points p.tables) : p.Constructed o (p.construct o) := by
  unfold construct
  cases hcolumnar : o.columnar with
  | false => exact finish_spec p o (plainCaches_spec p o hp hcolumnar)
  | true =>
    cases harrow : o.arrowEnabled with
    | true => exact finish_spec p o (columnarCaches_spec p o hp hcolumnar harrow)
    | false =>
      have hshares : o.shares = none := by simp [Opening.shares, hcolumnar]
      refine ⟨.refl p, hp, ?_, ?_⟩
      · rw [hshares, Option.or_none]
        rfl
      · rintro _ ⟨⟩
        simp [tableOf, Opening.writeTable, Opening.readTable, hcolumnar, harrow]

end constructor

section calls

variable (D : Database S K V) {p : ArrayProcess S K V} {os : List Opening}

theorem store_keeps (p : ArrayProcess S K V) (i : Nat) (rows : List (K × V)) : p.Keeps (p.step D (.store i rows)).1 := by
  rw [step]
  cases p.stores[i]? with
  | none => exact ⟨rfl, rfl, rfl⟩
  | some store => exact onCache_keeps p _ _

theorem read_keeps (p : ArrayProcess S K V) (i : Nat) (keys : List K) : p.Keeps (p.step D (.read i keys)).1 := by
  rw [step]
  cases p.stores[i]? with
  | none => exact ⟨rfl, rfl, rfl⟩
  | some store => exact onCache_keeps p _ _

theorem step_accesses (p : ArrayProcess S K V) (call : ArrayCall K V) {a : ArrayAccess V} (ha : a ∈ (p.step D call).2) :
    ∃ store ∈ p.stores, a.opened = store.opened ∧
      (a.table = p.tableOf store.cache ∨ a.table = p.tableOf store.readCache) := by
  cases call with
  | construct o =>
    rw [step] at ha
    split at ha
    · cases ha
    · cases ha
  | store i rows =>
    rw [step] at ha
    cases hstore : p.stores[i]? with
    | none =>
      rw [hstore] at ha
      cases ha
    | some store =>
      rw [hstore] at ha
      obtain ⟨row, -, rfl⟩ := List.mem_map.mp ha
      exact ⟨store, List.mem_of_getElem? hstore, rfl, .inl rfl⟩
  | read i keys =>
    rw [step] at ha
    cases hstore : p.stores[i]? with
    | none =>
      rw [hstore] at ha
      cases ha
    | some store =>
      rw [hstore] at ha
      obtain ⟨rows, -, rfl⟩ := List.mem_map.mp ha
      exact ⟨store, List.mem_of_getElem? hstore, rfl, .inr rfl⟩

theorem construct_reached (hr : p.Reached os) (o : Opening) : (p.step D (.construct o)).1.Reached (os ++ [o]) := by
  have hc := construct_spec p o hr.points
  have hshared : (p.construct o).1.arrays.metadata = sharedTable (os ++ [o]) := by
    rw [hc.shared, hr.shared, sharedTable_append]
  rw [step]
  cases hnew : p.construct o with
  | mk q result =>
    rw [hnew] at hc hshared
    cases result with
    | error e => exact ⟨hc.points, hshared⟩
    | ok store => exact ⟨hc.points, hshared⟩

theorem construct_separate (hr : p.Reached os) (hs : p.Separate) (o : Opening)
    (hfits : ∀ store, (p.construct o).2 = .ok store → o.Fits (sharedTable os)) :
    (p.step D (.construct o)).1.Separate := by
  have hc := construct_spec p o hr.points
  rw [step]
  cases hnew : p.construct o with
  | mk q result =>
    rw [hnew] at hc hfits
    have hold : ∀ store ∈ p.stores, q.tableOf store.cache = some store.opened ∧ q.tableOf store.readCache = some store.opened :=
      fun store hstore => ⟨hc.grows.tableOf (hs store hstore).1, hc.grows.tableOf (hs store hstore).2⟩
    cases result with
    | error e =>
      intro store hstore
      exact hold store (hc.grows.stores ▸ hstore)
    | ok new =>
      intro store hstore
      rcases List.mem_append.mp hstore with hin | hin
      · exact hold store (hc.grows.stores ▸ hin)
      · obtain rfl := List.mem_singleton.mp hin
        obtain ⟨hopened, hcache, hread⟩ := hc.opened store rfl
        rw [hr.shared] at hcache hread
        have hfit := hfits store rfl
        rw [hopened]
        exact ⟨hcache.trans hfit.writeTable, hread.trans hfit.readTable⟩

theorem step_reached (hr : p.Reached os) (call : ArrayCall K V) :
    (p.step D call).1.Reached (os ++ openings [call]) := by
  cases call with
  | construct o => exact construct_reached D hr o
  | store i rows =>
    rw [openings_store, List.append_nil]
    exact (store_keeps D p i rows).reached hr
  | read i keys =>
    rw [openings_read, List.append_nil]
    exact (read_keeps D p i keys).reached hr

theorem after_reached (hr : p.Reached os) (calls : List (ArrayCall K V)) :
    (p.after D calls).Reached (os ++ openings calls) := by
  induction calls generalizing p os with
  | nil =>
    rw [openings_nil, List.append_nil]
    exact hr
  | cons call calls ih =>
    have hcons : openings (call :: calls) = openings [call] ++ openings calls := openings_append [call] calls
    rw [hcons, ← List.append_assoc]
    exact ih (step_reached D hr call)

/-- The run, from the step: the condition is on each construction, after those before it. -/
theorem accesses_separate (hr : p.Reached os) (hs : p.Separate) {calls : List (ArrayCall K V)}
    (hfits : ∀ before o later, calls = before ++ .construct o :: later →
      ∀ store, ((p.after D before).construct o).2 = .ok store → o.Fits (sharedTable (os ++ openings before))) :
    ∀ a ∈ p.accesses D calls, a.table = some a.opened := by
  induction calls generalizing p os with
  | nil => exact fun _ ha => by cases ha
  | cons call calls ih =>
    intro a ha
    rcases List.mem_append.mp ha with hnow | hlater
    · obtain ⟨store, hstore, hopened, htable⟩ := step_accesses D p call hnow
      rw [hopened]
      rcases htable with htable | htable
      · exact htable.trans (hs store hstore).1
      · exact htable.trans (hs store hstore).2
    · have hstep : (p.step D call).1.Separate := by
        cases call with
        | construct o =>
          refine construct_separate D hr hs o fun store hstore => ?_
          have hh := hfits [] o calls rfl store hstore
          rwa [openings_nil, List.append_nil] at hh
        | store i rows => exact (store_keeps D p i rows).separate hs
        | read i keys => exact (read_keeps D p i keys).separate hs
      refine ih (step_reached D hr call) hstep (fun before o later hcalls store hstore => ?_) a hlater
      have hcons : openings (call :: before) = openings [call] ++ openings before := openings_append [call] before
      rw [List.append_assoc, ← hcons]
      exact hfits (call :: before) o later (congrArg (call :: ·) hcalls) store hstore

theorem getCrows_content (keys : List K) (t : CachedRows S K V) : (getCrows D keys t).2.content = t.content := by
  induction keys generalizing t with
  | nil => rfl
  | cons key keys ih =>
    have hget : (t.get D key).2.content = t.content := by
      unfold CachedRows.get
      split
      · rfl
      · split
        · rfl
        · rfl
    exact (ih _).trans hget

theorem step_content (hr : p.Reached os) (call : ArrayCall K V) {t : TableId}
    (ht : ∀ a ∈ (p.step D call).2, a.table ≠ some t) : (p.step D call).1.content t = p.content t := by
  cases call with
  | construct o =>
    have hc := (construct_spec p o hr.points).grows.content
    rw [step]
    split
    · rename_i hnew
      rw [hnew] at hc
      exact congrFun hc t
    · rename_i hnew
      rw [hnew] at hc
      exact congrFun hc t
  | store i rows =>
    rw [step] at ht ⊢
    cases hstore : p.stores[i]? with
    | none => rfl
    | some store =>
      rw [hstore] at ht
      cases rows with
      | nil => exact congrFun (onCache_reads p store.cache fun _ => rfl) t
      | cons row rows => exact onCache_content p store.cache _ (ht _ List.mem_cons_self)
  | read i keys =>
    rw [step]
    cases hstore : p.stores[i]? with
    | none => rfl
    | some store => exact congrFun (onCache_reads p store.readCache (getCrows_content D keys)) t

/-- A table that no row is put into or got from stays as it was. -/
theorem after_content (hr : p.Reached os) (calls : List (ArrayCall K V)) {t : TableId}
    (ht : ∀ a ∈ p.accesses D calls, a.table ≠ some t) : (p.after D calls).content t = p.content t := by
  induction calls generalizing p os with
  | nil => rfl
  | cons call calls ih =>
    have hlater := ih (step_reached D hr call) fun a ha => ht a (List.mem_append_right _ ha)
    exact hlater.trans (step_content D hr call fun a ha => ht a (List.mem_append_left _ ha))

end calls

/-- Every row of every array, in every order of calls with these constructions, goes to and comes
from the table that the array was opened on. -/
def OwnTables (D : Database S K V) (content : TableId → S) (os : List Opening) : Prop :=
  ∀ calls : List (ArrayCall K V), openings calls = os →
    ∀ a ∈ (start content).accesses D calls, a.table = some a.opened

theorem accesses_append (D : Database S K V) (p : ArrayProcess S K V) (calls calls' : List (ArrayCall K V)) :
    p.accesses D (calls ++ calls') = p.accesses D calls ++ (p.after D calls).accesses D calls' := by
  induction calls generalizing p with
  | nil => rfl
  | cons call calls ih =>
    rw [List.cons_append, accesses, ih, accesses, List.append_assoc]
    rfl

/-- The arrays of a process go to their own tables when each of them is not columnar, and has
either a table of its own or the name of the table that the process shares. -/
theorem ownTables_iff [Inhabited K] [Inhabited V] (D : Database S K V) (content : TableId → S) (os : List Opening) :
    OwnTables D content os ↔ ∀ calls o store, openings calls ++ [o] <+: os →
      (((start content).after D calls).construct o).2 = .ok store → o.Fits (sharedTable (openings calls)) := by
  constructor
  · intro h calls o store hextends hstore
    obtain ⟨later, hlater⟩ := hextends
    have hr := after_reached D (start_reached content) calls
    have hc := construct_spec ((start content).after D calls) o hr.points
    obtain ⟨hopened, hcache, -⟩ := hc.opened store hstore
    apply Opening.fits_of_writeTable
    rw [List.nil_append] at hr
    rw [← hr.shared, ← hcache, ← hopened]
    -- one row into the new array, before the constructions that follow
    let put : ArrayCall K V := .store ((start content).after D calls).stores.length [(default, default)]
    refine h (calls ++ (.construct o :: put :: later.map .construct)) ?_ ⟨_, _, [default]⟩ ?_
    · rw [openings_append, ← hlater, List.append_assoc]
      exact congrArg (fun os => openings calls ++ o :: os) (openings_construct later)
    · rw [accesses_append]
      apply List.mem_append_right
      apply List.mem_append_right
      apply List.mem_append_left
      have hstores := hc.grows.stores
      have hnew : ((start content).after D calls).construct o = ((((start content).after D calls).construct o).1, .ok store) := by
        rw [← hstore]
      have hstep : (((start content).after D calls).step D (.construct o)).1 =
          { (((start content).after D calls).construct o).1 with
            stores := ((start content).after D calls).stores ++ [store] } := by
        rw [step, hnew, ← hstores]
      rw [hstep, step, List.getElem?_concat_length]
      exact List.mem_cons_self
  · intro h calls hcalls
    refine accesses_separate D (start_reached content) (fun _ hstore => by cases hstore) ?_
    rintro before o later rfl store hstore
    refine h before o store ?_ hstore
    rw [← hcalls, openings_append]
    exact List.prefix_append_right_inj _ |>.mpr ⟨openings later, rfl⟩

/-- The tables of arrays in two keyspaces, with hecuba.istorage. -/
def numpyTables : Cassandra where
  columns id :=
    if id.2 = "istorage".toList then ("storage_id".toList, true) :: metadataColumns.map fun name => (name, false)
    else [("storage_id".toList, true), ("cluster_id".toList, true), ("block_id".toList, false), ("payload".toList, false)]
  invalidQuery := "Invalid query"

/-- An array in the single-table mode. -/
def numpyIn (keyspace : String) : Opening :=
  ⟨"HECUBA_StorageNumpy".toList, keyspace.toList, some "true".toList, none, none, numpyTables⟩

/-- The second array is opened in another keyspace, and its row goes to the first. -/
theorem two_keyspaces_not_own : ¬ ∀ (D : Database Unit Nat Nat) (os : List Opening), OwnTables D (fun _ => ()) os := by
  intro h
  let D : Database Unit Nat Nat := ⟨fun _ _ => (), fun _ _ => []⟩
  let calls : List (ArrayCall Nat Nat) := [.construct (numpyIn "ks1"), .construct (numpyIn "ks2"), .store 1 [(1, 2)]]
  have haccesses : (start fun _ => ()).accesses D calls =
      [⟨("ks2".toList, "hecuba_storagenumpy".toList), some ("ks1".toList, "hecuba_storagenumpy".toList), [2]⟩] := by
    rfl
  have hown := h D [numpyIn "ks1", numpyIn "ks2"] calls rfl _ (haccesses ▸ List.mem_cons_self)
  revert hown
  decide

end ArrayProcess

end Hecuba
