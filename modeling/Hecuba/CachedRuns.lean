import Hecuba.CacheTransparency
import Hecuba.RetryDeadlock

/-! Runs of the write protocol with a cache and without one. In every order in which the
database applies the statements, a client gets what its calls return one after the other,
so a cache can be noticed exactly where it can be noticed there. -/

namespace Hecuba

variable {N T : Nat} {S K V : Type} [DecidableEq K]

def Params.withCacheSize (P : Params N K V) (w : Fin N) (n : Nat) : Params N K V :=
  { P with cacheSize := Function.update P.cacheSize w n }

variable [DecidableEq V] {D : Database S K V}

/-- A run in which the client of `w` has made these calls and is done with them, each write
with a key row of its own. -/
structure Ran (P : Params N K V) (w : Fin N) (calls : List (Call K V)) (s : State N T K V) : Prop where
  reachable : Reachable P s
  calls : (s.clients w).calls = calls
  idle : (s.clients w).isIdle = true
  fresh : s.FreshRows w

/-- Every run gives the results of the calls done one after the other. -/
theorem answers_of_ran {P : Params N K V} {s : State N T K V} {w : Fin N} {calls : List (Call K V)}
    {content : S} (hres : D.Resolves content P.selectRows) (hts : P.disableTimestamps w = false)
    (hc : ∀ a ∈ calls, a.access.isSome = true) (h : Ran P w calls s) :
    (s.clients w).answers =
      (CachedRows.new (P.cacheSize w) content).results D (calls.filterMap Call.access) := by
  have hrun : (s.clients w).resume (D.rowsAfter content) P w =
      Seq.run (D.rowsAfter content) P w (s.clients w).calls :=
    reachable_resume (Q := fun s => s.FreshRows w) (fun _ _ hm hq => freshRows_of_move hm hq)
      (fun a ha hq keys rest ht _ => rowsOf_resolved ha hres hts hq ht) h.reachable h.fresh
  rw [resume_of_idle P w h.idle, h.calls] at hrun
  rw [← answers_of_run P w content hc, ← hrun]
  rfl

structure Client.AtRest (c : Client N K V) : Prop where
  sending : c.sending = .idle
  flushing : c.flushing = none
  todo : c.todo = []
  eager : c.lazyWriteEnabled = false
  acknowledged : c.ncallbacks = 0
  clean : c.dirtyBlocks = []

structure State.Free (s : State N T K V) (t : Fin T) : Prop where
  data : s.data = []
  pending : s.sempendingData = 0
  worker : s.worker = .waiting
  inFlight : s.inFlight = []
  permits : 0 < s.semmaxcallbacks
  thread : s.threads t = .idle

/-- Only the client of `w` has made calls, and they are done. -/
structure Done (P : Params N K V) (w : Fin N) (t : Fin T) (calls : List (Call K V))
    (s : State N T K V) : Prop where
  reachable : Reachable P s
  client : (s.clients w).AtRest
  free : s.Free t
  calls : (s.clients w).calls = calls
  others : ∀ v, v ≠ w → (s.clients v).calls = []

theorem Done.next {P : Params N K V} {w : Fin N} {t : Fin T} {calls : List (Call K V)}
    {s s' : State N T K V} (h : Done P w t calls s) {c : Client N K V} {a : Call K V}
    (hrun : Relation.ReflTransGen (ProtocolStep P) s s') (hclients : s'.clients = Function.update s.clients w c)
    (hc : c.AtRest) (hcalls : c.calls = (s.clients w).calls ++ [a]) (hfree : s'.Free t) :
    Done P w t (calls ++ [a]) s' := by
  have hw : s'.clients w = c := by rw [hclients, Function.update_self]
  refine ⟨h.reachable.trans hrun, by rwa [hw], hfree, by rw [hw, hcalls, h.calls], ?_⟩
  intro v hv
  rw [hclients, Function.update_of_ne hv]
  exact h.others v hv

theorem exists_pushed {P : Params N K V} (hb : 0 < P.writerBuffer) {w : Fin N} {t : Fin T}
    {s : State N T K V} (hrest : (s.clients w).AtRest) (hfree : s.Free t) (keys : TupleRow K) (values : V) :
    ∃ s' c r, Relation.ReflTransGen (ProtocolStep P) s s' ∧ s'.clients = Function.update s.clients w c ∧
      Client.AtRest { c with ncallbacks := c.ncallbacks - 1 } ∧
      c.calls = (s.clients w).calls ++ [.putCrow keys values] ∧ r.writer = w ∧ s'.data = [r] ∧
      s'.sempendingData = 1 ∧ State.Free { s' with data := [], sempendingData := 0 } t := by
  obtain ⟨hs, hf, ht, hl, h0, hd⟩ := hrest
  obtain ⟨hdata, hsem, hw, hfl, hp, hth⟩ := hfree
  have hrun : ∃ s' c r, s.run P [.call w (.putCrow keys values), .client w 0, .client w 0, .client w 0,
      .client w 0] = some s' ∧ s'.clients = Function.update s.clients w c ∧
      Client.AtRest { c with ncallbacks := c.ncallbacks - 1 } ∧
      c.calls = (s.clients w).calls ++ [.putCrow keys values] ∧ r.writer = w ∧ s'.data = [r] ∧
      s'.sempendingData = 1 ∧ State.Free { s' with data := [], sempendingData := 0 } t := by
    simp [State.run, State.step, Client.isIdle, hs, hf, ht, hl, hdata, hsem, h0, hd, State.setClient,
      State.stepClient, Client.program, State.stepInstr, State.queueAsyncQuery, hb, Client.exec, Client.addToCache]
    exact ⟨_, rfl, ⟨rfl, rfl, rfl, rfl, rfl, rfl⟩, rfl, ⟨rfl, rfl, hw, hfl, hp, hth⟩⟩
  obtain ⟨s', c, r, hr, hrest⟩ := hrun
  exact ⟨s', c, r, reachable_run hr, hrest⟩

theorem exists_request_sent {P : Params N K V} {t : Fin T} {s : State N T K V} {r : Request N K V}
    (hdata : s.data = [r]) (hsem : s.sempendingData = 1)
    (hfree : State.Free { s with data := [], sempendingData := 0 } t) :
    ∃ s' st, Relation.ReflTransGen (ProtocolStep P) s s' ∧ s'.clients = s.clients ∧ s'.inFlight = [(r, st)] ∧
      s'.sent = s.sent ++ [st] ∧
      State.Free { s' with inFlight := [], semmaxcallbacks := s'.semmaxcallbacks + 1 } t := by
  obtain ⟨-, -, hw, hfl, hp, hth⟩ := hfree
  have hrun : ∃ s' st, s.run P [.worker, .worker, .worker, .worker, .worker] = some s' ∧
      s'.clients = s.clients ∧ s'.inFlight = [(r, st)] ∧ s'.sent = s.sent ++ [st] ∧
      State.Free { s' with inFlight := [], semmaxcallbacks := s'.semmaxcallbacks + 1 } t := by
    have hpermit : 0 < s.semmaxcallbacks := hp
    have hwaiting : s.worker = .waiting := hw
    have hnone : s.inFlight = [] := hfl
    simp [State.run, State.step, State.stepWorker, hdata, hsem, hwaiting, hpermit, hnone, State.recordBinding,
      State.execute]
    exact ⟨rfl, rfl, rfl, rfl, Nat.succ_pos _, hth⟩
  obtain ⟨s', st, hr, hrest⟩ := hrun
  exact ⟨s', st, reachable_run hr, hrest⟩

theorem exists_acked {P : Params N K V} {t : Fin T} {s : State N T K V} {r : Request N K V} {st : Statement N K V}
    {sent : List (Statement N K V)} (hfl : s.inFlight = [(r, st)]) (hsent : s.sent = sent ++ [st])
    (hfree : State.Free { s with inFlight := [], semmaxcallbacks := s.semmaxcallbacks + 1 } t) :
    ∃ s', Relation.ReflTransGen (ProtocolStep P) s s' ∧ s'.clients = Function.update s.clients r.writer
        { s.clients r.writer with ncallbacks := (s.clients r.writer).ncallbacks - 1 } ∧ s'.Free t := by
  obtain ⟨hdata, hsem, hw, -, -, hth⟩ := hfree
  have hrun : ∃ s', s.run P [.apply sent.length, .enter t 0 true, .callback t, .callback t] = some s' ∧
      s'.clients = Function.update s.clients r.writer
        { s.clients r.writer with ncallbacks := (s.clients r.writer).ncallbacks - 1 } ∧ s'.Free t := by
    have hidle : s.threads t = .idle := hth
    simp [State.run, State.step, State.enterCallback, hsent, hidle, hfl, State.setThread, State.stepCallback,
      State.finishCallback, State.setClient]
    exact ⟨hdata, hsem, hw, rfl, Nat.succ_pos _, by simp⟩
  obtain ⟨s', hr, hrest⟩ := hrun
  exact ⟨s', reachable_run hr, hrest⟩

theorem exists_put {P : Params N K V} (hb : 0 < P.writerBuffer) {w : Fin N} {t : Fin T}
    {s : State N T K V} {calls : List (Call K V)} (h : Done P w t calls s) (keys : TupleRow K)
    (values : V) : ∃ s', Done P w t (calls ++ [.putCrow keys values]) s' := by
  obtain ⟨s₁, c, r, hpushed, hclients₁, hrest, hcalls, rfl, hdata, hsem, hfree₁⟩ :=
    exists_pushed (P := P) hb h.client h.free keys values
  obtain ⟨s₂, st, hsent, hclients₂, hfl, hlast, hfree₂⟩ := exists_request_sent (P := P) hdata hsem hfree₁
  obtain ⟨s₃, hacked, hclients₃, hfree₃⟩ := exists_acked (P := P) hfl hlast hfree₂
  have hc : s₂.clients r.writer = c := by rw [hclients₂, hclients₁, Function.update_self]
  refine ⟨s₃, h.next (hpushed.trans (hsent.trans hacked)) ?_ hrest hcalls hfree₃⟩
  rw [hclients₃, hc, hclients₂, hclients₁, Function.update_idem]

theorem exists_delete {P : Params N K V} {w : Fin N} (hts : P.disableTimestamps w = false)
    {t : Fin T} {s : State N T K V} {calls : List (Call K V)} (h : Done P w t calls s) (keys : K) :
    ∃ s', Done P w t (calls ++ [.deleteCrow keys]) s' := by
  obtain ⟨hs, hf, ht, hl, h0, hd⟩ := h.client
  obtain ⟨hdata, hsem, hw, hfl, hp, hth⟩ := h.free
  have hrun : ∃ s' c, s.run P [.call w (.deleteCrow keys), .client w 0, .apply s.sent.length,
      .client w 0, .client w 0] = some s' ∧ s'.clients = Function.update s.clients w c ∧ c.AtRest ∧
      c.calls = (s.clients w).calls ++ [.deleteCrow keys] ∧ s'.Free t := by
    simp [State.run, State.step, Client.isIdle, hs, hf, ht, hl, h0, hd, hts, State.setClient,
      State.stepClient, Client.program, State.stepInstr, State.executeDelete, Client.exec]
    exact ⟨_, rfl, ⟨rfl, rfl, rfl, rfl, rfl, rfl⟩, rfl, ⟨hdata, hsem, hw, hfl, hp, hth⟩⟩
  obtain ⟨s', c, hr, hclients, hrest, hcalls, hfree⟩ := hrun
  exact ⟨s', h.next (reachable_run hr) hclients hrest hcalls hfree⟩

theorem exists_get {P : Params N K V} {w : Fin N} {t : Fin T} {s : State N T K V}
    {calls : List (Call K V)} (h : Done P w t calls s) (keys : K) :
    ∃ s', Done P w t (calls ++ [.getCrow keys]) s' := by
  obtain ⟨hs, hf, ht, hl, h0, hd⟩ := h.client
  have hrun : ∃ actions s' c, s.run P actions = some s' ∧ s'.clients = Function.update s.clients w c ∧
      c.AtRest ∧ c.calls = (s.clients w).calls ++ [.getCrow keys] ∧ s'.Free t := by
    obtain ⟨hdata, hsem, hw, hfl, hp, hth⟩ := h.free
    cases hg : (s.clients w).cache.bind fun kv => kv.get keys with
    | some hit =>
      refine ⟨[.call w (.getCrow keys), .client w 0], ?_⟩
      simp [State.run, State.step, Client.isIdle, hs, hf, ht, hl, h0, hd, State.setClient,
        State.stepClient, Client.program, State.stepInstr, Client.exec, hg]
      exact ⟨_, rfl, ⟨rfl, rfl, rfl, rfl, rfl, rfl⟩, rfl, ⟨hdata, hsem, hw, hfl, hp, hth⟩⟩
    | none =>
      refine ⟨[.call w (.getCrow keys), .client w 0, .client w 0, .client w 0, .client w 0], ?_⟩
      cases hrows : P.selectRows (s.applied.filter fun st => st.table = w) keys with
      | nil =>
        simp [State.run, State.step, Client.isIdle, hs, hf, ht, hl, h0, hd, State.setClient,
          State.stepClient, Client.program, State.stepInstr, Client.exec, hg, Client.startFlush,
          Client.isWriteCompleted, State.rowsOf, hrows]
        exact ⟨_, rfl, ⟨rfl, rfl, rfl, rfl, rfl, rfl⟩, rfl, ⟨hdata, hsem, hw, hfl, hp, hth⟩⟩
      | cons values others =>
        simp [State.run, State.step, Client.isIdle, hs, hf, ht, hl, h0, hd, State.setClient,
          State.stepClient, Client.program, State.stepInstr, Client.exec, hg, Client.startFlush,
          Client.isWriteCompleted, State.rowsOf, hrows, Client.addToCache]
        exact ⟨_, rfl, ⟨rfl, rfl, rfl, rfl, rfl, rfl⟩, rfl, ⟨hdata, hsem, hw, hfl, hp, hth⟩⟩
  obtain ⟨actions, s', c, hr, hclients, hrest, hcalls, hfree⟩ := hrun
  exact ⟨s', h.next (reachable_run hr) hclients hrest hcalls hfree⟩

/-- Every sequence of these calls can be run to its end. -/
theorem exists_done {P : Params N K V} (hb : 0 < P.writerBuffer) {w : Fin N}
    (hts : P.disableTimestamps w = false) (t : Fin T) {calls : List (Call K V)}
    (hc : ∀ a ∈ calls, a.access.isSome = true) : ∃ s : State N T K V, Done P w t calls s := by
  induction calls using List.reverseRecOn with
  | nil =>
    refine ⟨State.initial P, .refl, ⟨rfl, rfl, rfl, rfl, rfl, rfl⟩, ?_, rfl, fun _ _ => rfl⟩
    exact ⟨rfl, rfl, rfl, rfl, P.maxCalls_pos, rfl⟩
  | append_singleton calls a ih =>
    obtain ⟨s, hs⟩ := ih fun b hb => hc b (List.mem_append_left _ hb)
    have ha := hc a (List.mem_append_right _ List.mem_cons_self)
    cases a with
    | putCrow keys values => exact exists_put hb hs keys values
    | deleteCrow keys => exact exists_delete hts hs keys
    | getCrow keys => exact exists_get hs keys
    | _ => cases ha

theorem Done.ran {P : Params N K V} {w : Fin N} {t : Fin T} {calls : List (Call K V)}
    {s : State N T K V} (h : Done P w t calls s) (hf : (calls.filterMap Call.payload).Nodup) :
    Ran P w calls s := by
  obtain ⟨hs, hfl, ht, -, -, -⟩ := h.client
  refine ⟨h.reachable, h.calls, by simp [Client.isIdle, hs, hfl, ht], ?_, fun v hv p hp => ?_⟩
  · rwa [Client.rows, h.calls]
  · rw [Client.rows, h.others v hv] at hp
    cases hp

theorem exists_ran {P : Params N K V} (hb : 0 < P.writerBuffer) {w : Fin N}
    (hts : P.disableTimestamps w = false) (t : Fin T) {calls : List (Call K V)}
    (hc : ∀ a ∈ calls, a.access.isSome = true) (hf : (calls.filterMap Call.payload).Nodup) :
    ∃ s : State N T K V, Ran P w calls s := by
  obtain ⟨s, hs⟩ := exists_done hb hts t hc
  exact ⟨s, hs.ran hf⟩

/-- A cache of any size leaves what `get_crow` returns in the runs as it is without one
exactly when no row remembered for a key differs from what the table then holds under it. -/
theorem cache_transparent_iff {P : Params N K V} (hb : 0 < P.writerBuffer) {w : Fin N}
    (hts : P.disableTimestamps w = false) {content : S} (hres : D.Resolves content P.selectRows)
    (t : Fin T) {calls : List (Call K V)} (hc : ∀ a ∈ calls, a.access.isSome = true)
    (hf : (calls.filterMap Call.payload).Nodup) :
    (∀ n, 0 < n → ∀ s s' : State N T K V, Ran (P.withCacheSize w n) w calls s →
      Ran (P.withCacheSize w 0) w calls s' → (s.clients w).answers = (s'.clients w).answers) ↔
      Unambiguous D (fun _ => none) content (calls.filterMap Call.access) := by
  have hanswers (n : Nat) (s : State N T K V) (h : Ran (P.withCacheSize w n) w calls s) :
      (s.clients w).answers = (CachedRows.new n content).results D (calls.filterMap Call.access) := by
    have ha := answers_of_ran (P := P.withCacheSize w n) hres hts hc h
    rwa [show (P.withCacheSize w n).cacheSize w = n from Function.update_self ..] at ha
  have hran (n : Nat) : ∃ s : State N T K V, Ran (P.withCacheSize w n) w calls s :=
    exists_ran (P := P.withCacheSize w n) hb hts t hc hf
  rw [← results_eq_iff]
  constructor
  · intro h n hn
    obtain ⟨s, hs⟩ := hran n
    obtain ⟨s', hs'⟩ := hran 0
    rw [← hanswers n s hs, ← hanswers 0 s' hs', h n hn s s' hs hs']
  · intro h n hn s s' hs hs'
    rw [hanswers n s hs, hanswers 0 s' hs', h n hn]

def twoRows : Nat → List (Nat × Nat × Nat) := Function.update (fun _ => []) 5 [(1, 1, 10), (2, 2, 20)]

def prefixRead : Params 1 Nat (Nat × Nat) where
  maxCalls := 2
  maxCalls_pos := Nat.two_pos
  writerBuffer := 2
  disableTimestamps _ := false
  cacheSize _ := 0
  writerMaxCalls _ := 16
  hash := id
  walk := id
  walk_perm _ := .refl _
  selectRows := (clustered Prod.fst).inStampOrder twoRows

def putReadDeleted : List (Call Nat (Nat × Nat)) :=
  [.putCrow ⟨7, 0⟩ (3, 30), .getCrow 7, .getCrow 5, .putCrow ⟨7, 1⟩ (3, 31), .getCrow 7,
    .deleteCrow 7, .getCrow 7]

theorem cache_transparent_put_deleted :
    (∀ n, 0 < n → ∀ s s' : State 1 1 Nat (Nat × Nat),
      Ran (prefixRead.withCacheSize 0 n) 0 putReadDeleted s →
      Ran (prefixRead.withCacheSize 0 0) 0 putReadDeleted s' →
      (s.clients 0).answers = (s'.clients 0).answers) ∧
    ∃ s : State 1 1 Nat (Nat × Nat), Ran (prefixRead.withCacheSize 0 1) 0 putReadDeleted s ∧
      (s.clients 0).answers = [[(3, 30)], [(1, 10), (2, 20)], [(3, 31)], []] := by
  have hres := resolves_inStampOrder (N := 1) (clustered Prod.fst) twoRows
  have hc : ∀ a ∈ putReadDeleted, a.access.isSome = true := by decide
  constructor
  · refine (cache_transparent_iff (P := prefixRead) (by decide) rfl hres 0 hc (by decide)).mpr ?_
    refine (unambiguous_clustered_iff (fun _ _ hv => by cases hv) _).mpr ?_
    simp [putReadDeleted, Call.access, OneRowWhenRead, clustered, twoRows]
  · obtain ⟨s, hs⟩ : ∃ s : State 1 1 Nat (Nat × Nat), Ran (prefixRead.withCacheSize 0 1) 0 putReadDeleted s :=
      exists_ran (by decide) rfl 0 hc (by decide)
    refine ⟨s, hs, ?_⟩
    rw [answers_of_ran (P := prefixRead.withCacheSize 0 1) hres rfl hc hs]
    decide

/-- The second read of a key with two rows returns the first of them alone. -/
theorem cached_read_drops_rows :
    ¬ ∀ (calls : List (Call Nat (Nat × Nat))) (n : Nat), 0 < n → ∀ s s' : State 1 1 Nat (Nat × Nat),
      Ran (prefixRead.withCacheSize 0 n) 0 calls s → Ran (prefixRead.withCacheSize 0 0) 0 calls s' →
      (s.clients 0).answers = (s'.clients 0).answers := by
  intro h
  have hc : ∀ a ∈ ([.getCrow 5, .getCrow 5] : List (Call Nat (Nat × Nat))), a.access.isSome = true := by
    decide
  have hres := resolves_inStampOrder (N := 1) (clustered Prod.fst) twoRows
  have hran (n : Nat) : ∃ s : State 1 1 Nat (Nat × Nat),
      Ran (prefixRead.withCacheSize 0 n) 0 [.getCrow 5, .getCrow 5] s :=
    exists_ran (P := prefixRead.withCacheSize 0 n) (by decide : 0 < prefixRead.writerBuffer) rfl 0 hc (by decide)
  obtain ⟨s, hs⟩ := hran 1
  obtain ⟨s', hs'⟩ := hran 0
  have heq := h _ 1 Nat.one_pos s s' hs hs'
  rw [answers_of_ran (P := prefixRead.withCacheSize 0 1) hres rfl hc hs,
    answers_of_ran (P := prefixRead.withCacheSize 0 0) hres rfl hc hs'] at heq
  revert heq
  decide

end Hecuba
