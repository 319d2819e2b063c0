import Mathlib.Order.Defs.LinearOrder
import Hecuba.ResolvedReads
import Hecuba.SequentialTable

/-! A table with a cache against one without. A select may return several rows, but the
cache keeps one for each key, so the two differ once a key is remembered with a row that
is not all of its select. -/

namespace Hecuba

inductive Access (K V : Type) where
  | putCrow (keys : K) (values : V)
  | getCrow (keys : K)
  | deleteCrow (keys : K)

/-- The table as its one client sees it: a write takes effect before the next call. -/
structure CachedRows (S K V : Type) where
  content : S
  cache : Option (KVCache K V)

variable {S K V : Type} [DecidableEq K] (D : Database S K V)

namespace CachedRows

def new (cacheSize : Nat) (content : S) : CachedRows S K V :=
  ⟨content, if h : 0 < cacheSize then some (KVCache.new cacheSize h) else none⟩

def put (t : CachedRows S K V) (keys : K) (values : V) : CachedRows S K V :=
  ⟨D.apply t.content (.insert keys values), t.cache.map fun kv => kv.add keys values⟩

def delete (t : CachedRows S K V) (keys : K) : CachedRows S K V :=
  ⟨D.apply t.content (.delete keys), t.cache.map fun kv => kv.remove keys⟩

/-- A row found in the cache is returned alone; of the rows of a select the first is kept. -/
def get (t : CachedRows S K V) (keys : K) : List V × CachedRows S K V :=
  match t.cache.bind fun kv => kv.get keys with
  | some (value, kv) => ([value], { t with cache := some kv })
  | none =>
    match D.select t.content keys with
    | [] => ([], t)
    | value :: rest => (value :: rest, { t with cache := t.cache.map fun kv => kv.add keys value })

/-- What the calls of `get_crow` return, one after the other. -/
def results (t : CachedRows S K V) : List (Access K V) → List (List V)
  | [] => []
  | .putCrow keys values :: rest => (t.put D keys values).results rest
  | .deleteCrow keys :: rest => (t.delete D keys).results rest
  | .getCrow keys :: rest => (t.get D keys).1 :: (t.get D keys).2.results rest

end CachedRows

/-- Each `get_crow` of a key with a row put or read before, and not deleted since, comes
when the table holds that row under the key and no other. -/
def Unambiguous (remembered : K → Option V) (content : S) : List (Access K V) → Prop
  | [] => True
  | .putCrow keys values :: rest =>
    Unambiguous (Function.update remembered keys (some values))
      (D.apply content (.insert keys values)) rest
  | .deleteCrow keys :: rest =>
    Unambiguous (Function.update remembered keys none) (D.apply content (.delete keys)) rest
  | .getCrow keys :: rest =>
    (∀ values, remembered keys = some values → D.select content keys = [values]) ∧
      Unambiguous (Function.update remembered keys
        ((remembered keys).or (D.select content keys).head?)) content rest

theorem results_uncached (content : S) (accesses : List (Access K V)) :
    (CachedRows.mk content none).results D accesses =
      (CachedRows.new 0 content).results D accesses := rfl

theorem get_uncached (content : S) (keys : K) :
    (CachedRows.mk content none).get D keys = (D.select content keys, ⟨content, none⟩) := by
  simp only [CachedRows.get, Option.bind_none]
  cases D.select content keys <;> rfl

theorem get_hit {c c' : KVCache K V} {keys : K} {values : V} (content : S)
    (hg : c.get keys = some (values, c')) :
    (CachedRows.mk content (some c)).get D keys = ([values], ⟨content, some c'⟩) := by
  simp [CachedRows.get, hg]

theorem get_absent {c : KVCache K V} {keys : K} {content : S} (hg : c.get keys = none)
    (hrows : D.select content keys = []) :
    (CachedRows.mk content (some c)).get D keys = ([], ⟨content, some c⟩) := by
  simp [CachedRows.get, hg, hrows]

theorem get_fetched {c : KVCache K V} {keys : K} {values : V} {others : List V} {content : S}
    (hg : c.get keys = none) (hrows : D.select content keys = values :: others) :
    (CachedRows.mk content (some c)).get D keys = (values :: others, ⟨content, some (c.add keys values)⟩) := by
  simp [CachedRows.get, hg, hrows]

section

variable {D}

theorem results_of_unambiguous {c : KVCache K V} {remembered : K → Option V} {content : S}
    {accesses : List (Access K V)}
    (hc : ∀ keys values, c.find keys = some values → remembered keys = some values)
    (h : Unambiguous D remembered content accesses) :
    (CachedRows.mk content (some c)).results D accesses =
      (CachedRows.mk content none).results D accesses := by
  induction accesses generalizing c remembered content with
  | nil => rfl
  | cons a rest ih =>
    cases a with
    | putCrow keys values =>
      refine ih (c := c.add keys values) (fun k v hf => ?_) h
      rcases KVCache.find_add hf with ⟨rfl, rfl⟩ | ⟨hne, hf⟩
      · exact Function.update_self ..
      · rw [Function.update_of_ne hne]
        exact hc k v hf
    | deleteCrow keys =>
      refine ih (c := c.remove keys) (fun k v hf => ?_) h
      obtain ⟨hne, hf⟩ := KVCache.find_remove hf
      rw [Function.update_of_ne hne]
      exact hc k v hf
    | getCrow keys =>
      obtain ⟨hsel, hrest⟩ := h
      rw [CachedRows.results, CachedRows.results, get_uncached]
      cases hf : c.find keys with
      | some values =>
        obtain ⟨c', hg⟩ := KVCache.exists_get hf
        have hr := hc keys values hf
        rw [get_hit D content hg, hsel values hr]
        congr 1
        rw [hr, Option.some_or, ← hr, Function.update_eq_self] at hrest
        exact ih (fun k v hk => hc k v ((KVCache.get_eq_some hg).2 k v hk)) hrest
      | none =>
        have hg : c.get keys = none := KVCache.get_eq_none.mpr hf
        cases hrows : D.select content keys with
        | nil =>
          rw [get_absent D hg hrows]
          congr 1
          rw [hrows, List.head?_nil] at hrest
          refine ih (fun k v hk => ?_) hrest
          by_cases hkk : k = keys
          · rw [hkk, hf] at hk
            cases hk
          · rw [Function.update_of_ne hkk]
            exact hc k v hk
        | cons values others =>
          rw [get_fetched D hg hrows]
          congr 1
          rw [hrows, List.head?_cons] at hrest
          refine ih (fun k v hk => ?_) hrest
          rcases KVCache.find_add hk with ⟨rfl, rfl⟩ | ⟨hne, hk⟩
          · rw [Function.update_self]
            -- a row remembered for this key is the only one that the select returns
            cases hr : remembered k with
            | none => rfl
            | some v' =>
              have hv := hsel v' hr
              rw [hrows] at hv
              rw [(List.cons.inj hv).1]
              rfl
          · rw [Function.update_of_ne hne]
            exact hc k v hk

/-- With room for every key used, the cache holds exactly what is remembered. -/
theorem unambiguous_of_results {c : KVCache K V} {content : S} {accesses : List (Access K V)}
    (hroom : c.items.length + accesses.length ≤ c.maxCacheSize)
    (h : (CachedRows.mk content (some c)).results D accesses =
      (CachedRows.mk content none).results D accesses) :
    Unambiguous D c.find content accesses := by
  induction accesses generalizing c content with
  | nil => trivial
  | cons a rest ih =>
    rw [List.length_cons] at hroom
    cases a with
    | putCrow keys values =>
      have hadd := KVCache.length_add c keys values
      rw [Unambiguous, ← KVCache.find_add_of_room (by omega)]
      exact ih (by rw [hadd.2]; omega) h
    | deleteCrow keys =>
      have hrem := KVCache.length_remove c keys
      rw [Unambiguous, ← KVCache.find_remove_eq]
      exact ih (by rw [hrem.2]; omega) h
    | getCrow keys =>
      rw [CachedRows.results, CachedRows.results, get_uncached] at h
      obtain ⟨hrow, htail⟩ := List.cons.inj h
      cases hf : c.find keys with
      | some values =>
        obtain ⟨c', hg⟩ := KVCache.exists_get hf
        rw [get_hit D content hg] at hrow htail
        obtain ⟨hfind, hlen⟩ := KVCache.get_keeps hg
        refine ⟨fun v hv => ?_, ?_⟩
        · rw [← Option.some.inj (hf.symm.trans hv)]
          exact hrow.symm
        · rw [hf, Option.some_or, ← hf, Function.update_eq_self, ← hfind]
          exact ih (by rw [hlen.2]; omega) htail
      | none =>
        have hg : c.get keys = none := KVCache.get_eq_none.mpr hf
        refine ⟨fun v hv => ?_, ?_⟩
        · rw [hf] at hv
          cases hv
        · rw [hf, Option.none_or]
          cases hrows : D.select content keys with
          | nil =>
            rw [get_absent D hg hrows] at htail
            rw [List.head?_nil, ← hf, Function.update_eq_self]
            exact ih (by omega) htail
          | cons values others =>
            rw [get_fetched D hg hrows] at htail
            have hadd := KVCache.length_add c keys values
            rw [List.head?_cons, ← KVCache.find_add_of_room (by omega)]
            exact ih (by rw [hadd.2]; omega) htail

end

omit [DecidableEq K] in
theorem new_pos {n : Nat} (hn : 0 < n) (content : S) :
    (CachedRows.new n content : CachedRows S K V) = ⟨content, some (KVCache.new n hn)⟩ := by
  rw [CachedRows.new, dif_pos hn]

/-- A cache of any size leaves the results of `get_crow` as they are without it exactly
when no row remembered for a key differs from what the table then holds under it. -/
theorem results_eq_iff (content : S) (accesses : List (Access K V)) :
    (∀ n, 0 < n → (CachedRows.new n content).results D accesses =
      (CachedRows.new 0 content).results D accesses) ↔
      Unambiguous D (fun _ => none) content accesses := by
  have hnew (n : Nat) (hn : 0 < n) : (KVCache.new n hn : KVCache K V).find = fun _ => none := rfl
  constructor
  · intro h
    have hn : 0 < accesses.length + 1 := Nat.succ_pos _
    have hr := h _ hn
    rw [new_pos hn, ← results_uncached] at hr
    exact unambiguous_of_results (c := KVCache.new _ hn)
      (by simp only [KVCache.new, List.length_nil]; omega) hr
  · intro h n hn
    rw [new_pos hn, ← results_uncached]
    exact results_of_unambiguous (fun k v hf => by rw [hnew n hn] at hf; cases hf) h

def Call.access : Call K V → Option (Access K V)
  | .putCrow keys values => some (.putCrow keys.content values)
  | .getCrow keys => some (.getCrow keys)
  | .deleteCrow keys => some (.deleteCrow keys)
  | _ => none

section

variable {D}

theorem answers_of_accesses {N : Nat} (P : Params N K V) (w : Fin N) (content : S)
    {calls : List (Call K V)} (hc : ∀ a ∈ calls, a.access.isSome = true) {q : Seq K V}
    (hq : q.lazyWriteEnabled = false) :
    (calls.foldl (Seq.call (D.rowsAfter content) P w) q).answers = q.answers ++
      (CachedRows.mk (D.after content q.effects) q.cache).results D (calls.filterMap Call.access) := by
  induction calls generalizing q with
  | nil => simp [CachedRows.results]
  | cons a rest ih =>
    have hflush : q.flush P = q := by simp [Seq.flush, hq]
    have ih := fun q => ih (fun b hb => hc b (List.mem_cons_of_mem _ hb)) (q := q)
    have ha := hc a List.mem_cons_self
    rw [List.foldl_cons, List.filterMap_cons]
    cases a with
    | putCrow keys values =>
      have hcall : q.call (D.rowsAfter content) P w (.putCrow keys values) =
          { q with
            effects := q.effects ++ [.insert keys.content values]
            accepted := q.accepted + 1
            cache := q.cache.map fun kv => kv.add keys.content values } := by
        simp [Seq.call, Client.program, Seq.exec, Seq.write, Seq.addToCache, hq]
      rw [hcall, ih _ (by exact hq), after_append]
      rfl
    | deleteCrow keys =>
      have hcall : q.call (D.rowsAfter content) P w (.deleteCrow keys) =
          { q with
            effects := q.effects ++ [.delete keys]
            cache := q.cache.map fun kv => kv.remove keys } := by
        simp only [Seq.call, Client.program]
        split <;> simp [Seq.exec, hflush, Seq.removeFromCache]
      rw [hcall, ih _ (by exact hq), after_append]
      rfl
    | getCrow keys =>
      have hcall : q.call (D.rowsAfter content) P w (.getCrow keys) =
          q.lookup (D.rowsAfter content) P keys := rfl
      rw [hcall, Seq.lookup, hflush]
      simp only [Call.access, CachedRows.results, CachedRows.get]
      cases hg : q.cache.bind fun kv => kv.get keys with
      | some hit =>
        obtain ⟨value, kv⟩ := hit
        refine (ih _ (by exact hq)).trans ?_
        simp
      | none =>
        simp only [Seq.select, Database.rowsAfter]
        cases hr : D.select (D.after content q.effects) keys with
        | cons value others =>
          refine (ih _ (by exact hq)).trans ?_
          simp [Seq.addToCache]
        | nil =>
          refine (ih _ (by exact hq)).trans ?_
          simp
    | _ => cases ha

theorem answers_of_run {N : Nat} (P : Params N K V) (w : Fin N) (content : S)
    {calls : List (Call K V)} (hc : ∀ a ∈ calls, a.access.isSome = true) :
    (Seq.run (D.rowsAfter content) P w calls).answers =
      (CachedRows.new (P.cacheSize w) content).results D (calls.filterMap Call.access) :=
  answers_of_accesses P w content hc rfl

end

section

variable {R : Type} [LinearOrder R]

/-- A table whose rows under a key stand in the order of the primary key columns that are
not among the keys; `place` reads them from a row. -/
def clustered (place : V → R) : Database (K → List (R × V)) K V where
  apply table
    | .insert keys values => Function.update table keys
        ((table keys).filter (fun row => row.1 < place values) ++
          (place values, values) :: (table keys).filter fun row => place values < row.1)
    | .delete keys => Function.update table keys []
  select table keys := (table keys).map Prod.snd

/-- Each `get_crow` of a key put, or read with a row, and not deleted since, comes when the
table holds one row under the key. -/
def OneRowWhenRead (place : V → R) (known : K → Bool) (table : K → List (R × V)) :
    List (Access K V) → Prop
  | [] => True
  | .putCrow keys values :: rest =>
    OneRowWhenRead place (Function.update known keys true)
      ((clustered place).apply table (.insert keys values)) rest
  | .deleteCrow keys :: rest =>
    OneRowWhenRead place (Function.update known keys false)
      ((clustered place).apply table (.delete keys)) rest
  | .getCrow keys :: rest =>
    (known keys = true → (table keys).length = 1) ∧
      OneRowWhenRead place (Function.update known keys (known keys || !(table keys).isEmpty))
        table rest

theorem isSome_update (remembered : K → Option V) (keys : K) (values : Option V) :
    (fun k => (Function.update remembered keys values k).isSome) =
      Function.update (fun k => (remembered k).isSome) keys values.isSome := by
  funext k
  by_cases hk : k = keys
  · simp [hk]
  · simp [hk]

theorem unambiguous_clustered_iff {place : V → R} {remembered : K → Option V}
    {table : K → List (R × V)}
    (h : ∀ keys values, remembered keys = some values → values ∈ (table keys).map Prod.snd)
    (accesses : List (Access K V)) :
    Unambiguous (clustered place) remembered table accesses ↔
      OneRowWhenRead place (fun keys => (remembered keys).isSome) table accesses := by
  induction accesses generalizing remembered table with
  | nil => exact Iff.rfl
  | cons a rest ih =>
    cases a with
    | putCrow keys values =>
      rw [Unambiguous, OneRowWhenRead, ih, isSome_update]
      · rfl
      · intro k v hv
        by_cases hk : k = keys
        · subst hk
          simp only [Function.update_self, Option.some.injEq] at hv
          simp [clustered, hv]
        · rw [Function.update_of_ne hk] at hv
          simpa [clustered, Function.update_of_ne hk] using h k v hv
    | deleteCrow keys =>
      rw [Unambiguous, OneRowWhenRead, ih, isSome_update]
      · rfl
      · intro k v hv
        by_cases hk : k = keys
        · subst hk
          simp only [Function.update_self] at hv
          cases hv
        · rw [Function.update_of_ne hk] at hv
          simpa [clustered, Function.update_of_ne hk] using h k v hv
    | getCrow keys =>
      rw [Unambiguous, OneRowWhenRead]
      have hknown : (fun k => (Function.update remembered keys ((remembered keys).or
          ((clustered place).select table keys).head?) k).isSome) =
          Function.update (fun k => (remembered k).isSome) keys
            ((remembered keys).isSome || !(table keys).isEmpty) := by
        rw [isSome_update]
        cases hrow : table keys <;> simp [clustered, hrow]
      refine and_congr ⟨fun hsel hk => ?_, fun hone values hv => ?_⟩ ?_
      · obtain ⟨values, hv⟩ := Option.isSome_iff_exists.mp hk
        have hlen := congrArg List.length (hsel values hv)
        simpa [clustered] using hlen
      · obtain ⟨row, hrow⟩ := List.length_eq_one_iff.mp (hone (by rw [hv]; rfl))
        have hmem := h keys values hv
        rw [hrow, List.map_singleton, List.mem_singleton] at hmem
        simp [clustered, hrow, hmem]
      · rw [ih, hknown]
        intro k v hv
        by_cases hk : k = keys
        · subst hk
          rw [Function.update_self, Option.or_eq_some_iff] at hv
          rcases hv with hv | ⟨-, hv⟩
          · exact h k v hv
          · exact List.mem_of_head? hv
        · rw [Function.update_of_ne hk] at hv
          exact h k v hv

theorem oneRow_of_full_key (place : V → Unit) {known : K → Bool} {table : K → List (Unit × V)}
    (ht : ∀ keys, (table keys).length ≤ 1)
    (hknown : ∀ keys, known keys = true → table keys ≠ []) (accesses : List (Access K V)) :
    OneRowWhenRead place known table accesses := by
  induction accesses generalizing known table with
  | nil => trivial
  | cons a rest ih =>
    cases a with
    | putCrow keys values =>
      refine ih (fun k => ?_) (fun k hk => ?_)
      · by_cases hkk : k = keys
        · simp [clustered, hkk]
        · simpa [clustered, hkk] using ht k
      · by_cases hkk : k = keys
        · simp [clustered, hkk]
        · rw [Function.update_of_ne hkk] at hk
          simpa [clustered, hkk] using hknown k hk
    | deleteCrow keys =>
      refine ih (fun k => ?_) (fun k hk => ?_)
      · by_cases hkk : k = keys
        · simp [clustered, hkk]
        · simpa [clustered, hkk] using ht k
      · by_cases hkk : k = keys
        · simp [hkk] at hk
        · rw [Function.update_of_ne hkk] at hk
          simpa [clustered, hkk] using hknown k hk
    | getCrow keys =>
      refine ⟨fun hk => ?_, ih ht fun k hk => ?_⟩
      · have hpos := List.length_pos_iff.mpr (hknown keys hk)
        have hle := ht keys
        omega
      · by_cases hkk : k = keys
        · subst hkk
          rw [Function.update_self, Bool.or_eq_true] at hk
          rcases hk with hk | hk
          · exact hknown k hk
          · simpa using hk
        · rw [Function.update_of_ne hkk] at hk
          exact hknown k hk

/-- A table read by its full primary key. -/
theorem unambiguous_of_full_key (place : V → Unit) {table : K → List (Unit × V)}
    (ht : ∀ keys, (table keys).length ≤ 1) (accesses : List (Access K V)) :
    Unambiguous (clustered place) (fun _ => none) table accesses :=
  (unambiguous_clustered_iff (fun _ _ hv => by cases hv) accesses).mpr
    (oneRow_of_full_key place ht (fun _ hk => by cases hk) accesses)

end

end Hecuba
