import Hecuba.GetReturns
import Hecuba.ResolvedReads

/-! Read your writes: what `get_crow` returns, from the cache or from the database, is the
row of the last `put_crow` of the key, if no `delete_crow` came after it. -/

namespace Hecuba

section

variable {K V : Type} [DecidableEq K]

def Call.onRows (rows : K → Option V) : Call K V → K → Option V
  | .putCrow keys values => Function.update rows keys.content (some values)
  | .deleteCrow keys => Function.update rows keys none
  | _ => rows

/-- The rows that the gets among the calls should return, from the rows put before them. -/
def readsOf (rows : K → Option V) : List (Call K V) → List (List V)
  | [] => []
  | .getCrow keys :: calls => (rows keys).toList :: readsOf rows calls
  | a :: calls => readsOf (a.onRows rows) calls

end

variable {N T : Nat} {K C D : Type}

def Call.onWholeRows : Call K (Values C D) → Prop
  | .putCrow _ values => ∀ c, (values c).isSome = true
  | .getCrow _ | .deleteCrow _ => True
  | _ => False

variable [DecidableEq K]

def selectAfter (effects : List (Effect K (Values C D))) (keys : K) : Option (Values C D) :=
  (contentOf effects keys).map fun r c => some (r c)

def rowsLeft (effects : List (Effect K (Values C D))) (keys : K) : List (Values C D) := (selectAfter effects keys).toList

/-- The statements asked for leave the rows put, and the cache holds nothing else. -/
structure Coherent (q : Seq K (Values C D)) (rows : K → Option (Values C D)) : Prop where
  eager : q.lazyWriteEnabled = false
  kept : ∀ keys, selectAfter q.effects keys = rows keys
  cache : ∀ kv ∈ q.cache, ∀ keys values, kv.find keys = some values → rows keys = some values

theorem selectAfter_insert (effects : List (Effect K (Values C D))) (key : K)
    {values : Values C D} (hv : ∀ c, (values c).isSome = true) :
    selectAfter (effects ++ [.insert key values]) =
      Function.update (selectAfter effects) key (some values) := by
  funext k
  rw [selectAfter, contentOf_append, applyEffect]
  by_cases hk : k = key
  · subst hk
    simp only [Function.update_self, Option.map_some, Option.some.injEq]
    funext c
    obtain ⟨d, hd⟩ := Option.isSome_iff_exists.mp (hv c)
    rw [hd]
    rfl
  · rw [Function.update_of_ne hk, Function.update_of_ne hk]
    rfl

theorem selectAfter_delete (effects : List (Effect K (Values C D))) (key : K) :
    selectAfter (effects ++ [.delete key]) = Function.update (selectAfter effects) key none := by
  funext k
  rw [selectAfter, contentOf_append, applyEffect]
  by_cases hk : k = key
  · subst hk
    simp
  · rw [Function.update_of_ne hk, Function.update_of_ne hk]
    rfl

theorem coherent_new (cacheSize : Nat) :
    Coherent (Seq.new cacheSize) fun _ : K => (none : Option (Values C D)) := by
  refine ⟨rfl, fun _ => rfl, fun kv hkv keys values hf => ?_⟩
  simp only [Seq.new] at hkv
  split at hkv
  · obtain rfl := Option.some.inj hkv
    cases hf
  · cases hkv

theorem coherent_put (P : Params N K (Values C D)) (w : Fin N) {q : Seq K (Values C D)}
    {rows : K → Option (Values C D)} (h : Coherent q rows) (keys : TupleRow K)
    {values : Values C D} (hv : ∀ c, (values c).isSome = true) :
    Coherent (q.call rowsLeft P w (.putCrow keys values))
      (Function.update rows keys.content (some values)) ∧
      (q.call rowsLeft P w (.putCrow keys values)).answers = q.answers := by
  have hq : q.call rowsLeft P w (.putCrow keys values) =
      { q with
        effects := q.effects ++ [.insert keys.content values]
        accepted := q.accepted + 1
        cache := q.cache.map fun kv => kv.add keys.content values } := by
    simp [Seq.call, Client.program, Seq.exec, Seq.write, Seq.addToCache, h.eager]
  rw [hq]
  refine ⟨⟨h.eager, fun k => ?_, fun kv hkv k v hf => ?_⟩, rfl⟩
  · rw [selectAfter_insert _ _ hv, funext h.kept]
  · obtain ⟨kv', hkv', rfl⟩ := Option.map_eq_some_iff.mp hkv
    rcases KVCache.find_add hf with ⟨rfl, rfl⟩ | ⟨hne, hf⟩
    · exact Function.update_self _ _ _
    · rw [Function.update_of_ne hne]
      exact h.cache kv' hkv' k v hf

theorem coherent_delete (P : Params N K (Values C D)) (w : Fin N) {q : Seq K (Values C D)}
    {rows : K → Option (Values C D)} (h : Coherent q rows) (keys : K) :
    Coherent (q.call rowsLeft P w (.deleteCrow keys)) (Function.update rows keys none) ∧
      (q.call rowsLeft P w (.deleteCrow keys)).answers = q.answers := by
  have hq : q.call rowsLeft P w (.deleteCrow keys) =
      { q with
        effects := q.effects ++ [.delete keys]
        cache := q.cache.map fun kv => kv.remove keys } := by
    simp only [Seq.call, Client.program]
    split <;> simp [Seq.exec, Seq.removeFromCache, Seq.flush, h.eager]
  rw [hq]
  refine ⟨⟨h.eager, fun k => ?_, fun kv hkv k v hf => ?_⟩, rfl⟩
  · rw [selectAfter_delete, funext h.kept]
  · obtain ⟨kv', hkv', rfl⟩ := Option.map_eq_some_iff.mp hkv
    obtain ⟨hne, hf⟩ := KVCache.find_remove hf
    rw [Function.update_of_ne hne]
    exact h.cache kv' hkv' k v hf

theorem coherent_get (P : Params N K (Values C D)) (w : Fin N) {q : Seq K (Values C D)}
    {rows : K → Option (Values C D)} (h : Coherent q rows) (keys : K) :
    Coherent (q.call rowsLeft P w (.getCrow keys)) rows ∧
      (q.call rowsLeft P w (.getCrow keys)).answers = q.answers ++ [(rows keys).toList] := by
  have hflush : q.flush P = q := by simp [Seq.flush, h.eager]
  have hq : q.call rowsLeft P w (.getCrow keys) = q.lookup rowsLeft P keys := rfl
  rw [hq, Seq.lookup, hflush]
  cases hc : q.cache.bind fun kv => kv.get keys with
  | some hit =>
    obtain ⟨values, kv'⟩ := hit
    obtain ⟨kv, hkv, hget⟩ := Option.bind_eq_some_iff.mp hc
    obtain ⟨hfind, hsub⟩ := KVCache.get_eq_some hget
    refine ⟨⟨h.eager, h.kept, fun kv'' hkv'' k v hf => ?_⟩, ?_⟩
    · obtain rfl := Option.some.inj hkv''
      exact h.cache kv hkv k v (hsub k v hf)
    · rw [h.cache kv hkv keys values hfind]
      rfl
  | none =>
    simp only [Seq.select, rowsLeft, h.kept]
    cases hr : rows keys with
    | none => exact ⟨⟨h.eager, h.kept, h.cache⟩, rfl⟩
    | some values =>
      refine ⟨⟨h.eager, h.kept, fun kv hkv k v hf => ?_⟩, rfl⟩
      obtain ⟨kv', hkv', rfl⟩ := Option.map_eq_some_iff.mp hkv
      rcases KVCache.find_add hf with ⟨rfl, rfl⟩ | ⟨-, hf⟩
      · exact hr
      · exact h.cache kv' hkv' k v hf

/-- The sequential table returns what was put, whatever the cache evicts. -/
theorem run_reads (P : Params N K (Values C D)) (w : Fin N) {calls : List (Call K (Values C D))}
    (hc : ∀ a ∈ calls, a.onWholeRows) {q : Seq K (Values C D)} {rows : K → Option (Values C D)}
    (h : Coherent q rows) :
    (calls.foldl (Seq.call rowsLeft P w) q).answers = q.answers ++ readsOf rows calls := by
  induction calls generalizing q rows with
  | nil => simp [readsOf]
  | cons a calls ih =>
    have ih {q : Seq K (Values C D)} {rows : K → Option (Values C D)} (h : Coherent q rows) :=
      ih (fun b hb => hc b (List.mem_cons_of_mem _ hb)) h
    have ha := hc a List.mem_cons_self
    rw [List.foldl_cons]
    cases a with
    | putCrow keys values =>
      obtain ⟨hcoh, hans⟩ := coherent_put P w h keys ha
      rw [ih hcoh, hans]
      rfl
    | deleteCrow keys =>
      obtain ⟨hcoh, hans⟩ := coherent_delete P w h keys
      rw [ih hcoh, hans]
      rfl
    | getCrow keys =>
      obtain ⟨hcoh, hans⟩ := coherent_get P w h keys
      rw [ih hcoh, hans, List.append_assoc]
      rfl
    | writeToCassandra | writeColumn | enableLazyWrite | disableLazyWrite | flushElements =>
      exact ha.elim

variable [DecidableEq (Values C D)]

theorem rowsOf_select {P : Params N K (Values C D)} {s : State N T K (Values C D)}
    (h : Reachable P s) {w : Fin N} (hselect : P.selectRows = fun log keys => (Table.select log keys).toList)
    (hts : P.disableTimestamps w = false) (hfresh : s.FreshRows w) {keys : K}
    {rest : List (Instr N K (Values C D))} (ht : (s.clients w).todo = .select keys :: rest) :
    s.rowsOf P w keys = rowsLeft ((s.clients w).issued.map Statement.effect) keys :=
  rowsOf_resolved h (D := keyedRows) (hselect ▸ resolves_select) hts hfresh ht

theorem answers_of_idle {P : Params N K (Values C D)} {s : State N T K (Values C D)}
    (h : Reachable P s) {w : Fin N} (hselect : P.selectRows = fun log keys => (Table.select log keys).toList)
    (hts : P.disableTimestamps w = false) (hops : ∀ a ∈ (s.clients w).calls, a.onWholeRows)
    (hfresh : s.FreshRows w) (hidle : (s.clients w).isIdle = true) :
    (s.clients w).answers = readsOf (fun _ => none) (s.clients w).calls := by
  have hrun : (s.clients w).resume rowsLeft P w =
      Seq.run rowsLeft P w (s.clients w).calls :=
    reachable_resume (Q := fun s => s.FreshRows w) (fun _ _ hm hq => freshRows_of_move hm hq)
      (fun a ha hq keys rest ht _ => rowsOf_select ha hselect hts hq ht) h hfresh
  rw [resume_of_idle P w hidle, Seq.run] at hrun
  have hreads := run_reads P w hops (coherent_new (P.cacheSize w))
  rw [← hrun] at hreads
  exact hreads

/-- Every `get_crow` of a table with timestamps and out of lazy mode returns the row put
last, or none after a delete, and it does return when the writes before it have been
acknowledged. -/
theorem read_your_writes {P : Params N K (Values C D)} {s : State N T K (Values C D)}
    (h : Reachable P s) {w : Fin N} (hselect : P.selectRows = fun log keys => (Table.select log keys).toList)
    (hts : P.disableTimestamps w = false) (hops : ∀ a ∈ (s.clients w).calls, a.onWholeRows)
    (hfresh : s.FreshRows w) :
    ((s.clients w).isIdle = true →
      (s.clients w).answers = readsOf (fun _ => none) (s.clients w).calls) ∧
    ∀ keys, (s.clients w).calls.getLast? = some (.getCrow keys) →
      (∀ r ∈ s.requests, r.writer = w → r ∈ s.acked) → ∀ now, ∃ n s',
        s.run P (List.replicate n (.client w now)) = some s' ∧ (s'.clients w).isIdle = true ∧
        (s'.clients w).answers = readsOf (fun _ => none) (s.clients w).calls := by
  refine ⟨answers_of_idle h hselect hts hops hfresh, fun keys hlast hacked now => ?_⟩
  have hlazy : .enableLazyWrite ∉ (s.clients w).calls := fun hm => hops _ hm
  obtain ⟨n, s', hrun, hidle, hcalls⟩ := get_returns h hlazy hlast hacked now
  have hfresh' : s'.FreshRows w := by
    have hrows (v : Fin N) : (s'.clients v).rows = (s.clients v).rows := by
      rw [Client.rows, Client.rows, hcalls]
    simpa only [State.FreshRows, hrows] using hfresh
  refine ⟨n, s', hrun, hidle, ?_⟩
  rw [← hcalls w]
  exact answers_of_idle (h.trans (reachable_run hrun)) hselect hts (by rwa [hcalls w]) hfresh' hidle

/-- Two rows put, the first of them out of the cache again when it is read; the second is
deleted and read. -/
def putAndGet (w : Fin N) (t : Fin T) : List (Action N T Nat (Values (Fin 2) Nat)) :=
  [.call w (.putCrow ⟨5, 0⟩ fun c => some (some c)), .client w 3, .client w 3, .client w 3, .client w 3,
    .call w (.putCrow ⟨6, 1⟩ fun _ => some none), .client w 3, .client w 3, .client w 3, .client w 3,
    .call w (.getCrow 5), .client w 3, .client w 3,
    .worker, .worker, .worker, .worker, .worker, .worker, .worker, .worker, .worker, .worker,
    .apply 1, .apply 0, .enter t 0 true, .callback t, .callback t, .enter t 0 true, .callback t,
    .callback t, .client w 3, .client w 3,
    .call w (.deleteCrow 6), .client w 3, .apply 2, .client w 3, .client w 3, .call w (.getCrow 6)]

theorem read_your_writes_evicted :
    ∃ s : State 1 1 Nat (Values (Fin 2) Nat), Reachable twoColumns s ∧ ∃ n s',
      s.run twoColumns (List.replicate n (.client 0 5)) = some s' ∧
      (s'.clients 0).answers = [[fun c : Fin 2 => some (some c.val)], []] := by
  obtain ⟨s, hs, hp⟩ := exists_reachable (T := 1) (P := twoColumns) (putAndGet 0 0) (fun s =>
    decide ((∀ r ∈ s.requests, r ∈ s.acked) ∧ (s.clients 0).rows = [0, 1] ∧
      (s.clients 0).calls = [.putCrow ⟨5, 0⟩ fun c => some (some c), .putCrow ⟨6, 1⟩ fun _ => some none,
        .getCrow 5, .deleteCrow 6, .getCrow 6])) (by decide +kernel)
  obtain ⟨hacked, hrows, hcalls⟩ := of_decide_eq_true hp
  have hfresh : s.FreshRows 0 := by
    refine ⟨by rw [hrows]; decide, fun v hv => ?_⟩
    exact (hv (Subsingleton.elim v 0)).elim
  have hops : ∀ a ∈ (s.clients 0).calls, a.onWholeRows := by
    rw [hcalls]
    simp [Call.onWholeRows]
  obtain ⟨n, s', hrun, -, hans⟩ := (read_your_writes hs rfl rfl hops hfresh).2 6
    (by rw [hcalls]; rfl) (fun r hr _ => hacked r hr) 5
  refine ⟨s, hs, n, s', hrun, hans.trans ?_⟩
  rw [hcalls]
  decide

end Hecuba
