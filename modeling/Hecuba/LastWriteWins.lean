import Hecuba.FreshRows
import Hecuba.SequentialTable

/-! Last write wins: whatever the order in which the database applies the statements of a
table with timestamps, it ends with what the calls would have done one after the other. -/

namespace Hecuba

section

variable {N T : Nat} {K V : Type}

def Call.effect : Call K V → Option (Effect K V)
  | .writeToCassandra keys values | .writeColumn keys values | .putCrow keys values =>
    some (.insert keys.content values)
  | .deleteCrow keys => some (.delete keys)
  | _ => none

def effectsOf (calls : List (Call K V)) : List (Effect K V) := calls.filterMap Call.effect

theorem effectsOf_append (calls : List (Call K V)) (a : Call K V) :
    effectsOf (calls ++ [a]) = effectsOf calls ++ a.effect.toList := by
  cases ha : a.effect <;> simp [effectsOf, ha]

variable [DecidableEq K]

theorem calls_of_move {P : Params N K V} {s s' : State N T K V} (hm : ProtocolMove P s s')
    (w : Fin N) : (s.clients w).calls <+: (s'.clients w).calls := by
  rcases move_client hm w with he | hc
  · rw [he]
  · rcases todo_of_move hc with ⟨a, -, hcalls⟩ | ⟨hcalls, -⟩
    · rw [hcalls]
      exact List.prefix_append _ _
    · rw [hcalls]

theorem freshRows_of_move {P : Params N K V} {s s' : State N T K V}
    (hm : ProtocolMove P s s') {w : Fin N} (h : s'.FreshRows w) : s.FreshRows w := by
  have hsub (v : Fin N) : (s.clients v).rows <+: (s'.clients v).rows :=
    (calls_of_move hm v).filterMap Call.payload
  exact ⟨h.1.sublist (hsub w).sublist,
    fun v hv p hp hpw => h.2 v hv p ((hsub v).subset hp) ((hsub w).subset hpw)⟩

variable (rowsAfter : List (Effect K V) → K → List V)

theorem call_eager (P : Params N K V) (w : Fin N) {q : Seq K V} (hq : q.lazyWriteEnabled = false)
    {a : Call K V} (ha : a ≠ .enableLazyWrite) :
    (q.call rowsAfter P w a).lazyWriteEnabled = false ∧
      (q.call rowsAfter P w a).effects = q.effects ++ a.effect.toList := by
  have hflush : q.flush P = q := by simp [Seq.flush, hq]
  cases a with
  | enableLazyWrite => exact (ha rfl).elim
  | writeToCassandra keys values =>
    simp [Seq.call, Client.program, Seq.exec, Seq.write, hq, Call.effect]
  | writeColumn keys values =>
    simp [Seq.call, Client.program, Seq.exec, Seq.write, hq, Call.effect]
  | putCrow keys values =>
    simp [Seq.call, Client.program, Seq.exec, Seq.write, Seq.addToCache, hq, Call.effect]
  | disableLazyWrite | flushElements =>
    simp [Seq.call, Client.program, Seq.exec, hflush, hq, Call.effect]
  | deleteCrow keys =>
    simp only [Seq.call, Client.program]
    split <;> simp [Seq.exec, Seq.removeFromCache, hflush, hq, Call.effect]
  | getCrow keys =>
    simp only [Seq.call, Client.program, List.foldl_cons, List.foldl_nil, Seq.exec, Seq.lookup,
      hflush, Seq.select]
    split
    · simp [hq, Call.effect]
    · split <;> simp [Seq.addToCache, hq, Call.effect]

theorem run_eager (P : Params N K V) (w : Fin N) {calls : List (Call K V)}
    (hc : .enableLazyWrite ∉ calls) :
    (Seq.run rowsAfter P w calls).lazyWriteEnabled = false ∧
      (Seq.run rowsAfter P w calls).effects = effectsOf calls := by
  induction calls using List.reverseRecOn with
  | nil => exact ⟨rfl, rfl⟩
  | append_singleton calls a ih =>
    obtain ⟨hl, he⟩ := ih fun hm => hc (List.mem_append_left _ hm)
    have ha : a ≠ .enableLazyWrite := fun hm => hc (hm ▸ List.mem_append_right _ List.mem_cons_self)
    obtain ⟨hl', he'⟩ := call_eager rowsAfter P w hl ha
    rw [Seq.run, List.foldl_append]
    refine ⟨hl', he'.trans ?_⟩
    rw [show (Seq.run rowsAfter P w calls).effects = _ from he, effectsOf_append]

variable [DecidableEq V]

/-- Between two calls, a client that reads nothing is where its sequential run is. -/
theorem seq_of_idle {P : Params N K V} {s : State N T K V} (h : Reachable P s) {w : Fin N}
    (hc : ∀ keys, .getCrow keys ∉ (s.clients w).calls) (hi : (s.clients w).isIdle = true) :
    (s.clients w).seq = Seq.run rowsAfter P w (s.clients w).calls := by
  have hrun : (s.clients w).resume rowsAfter P w = Seq.run rowsAfter P w (s.clients w).calls :=
    reachable_resume (Q := fun s => ∀ keys, .getCrow keys ∉ (s.clients w).calls)
    (fun a b hm hb keys hk => hb keys ((calls_of_move hm w).subset hk))
    (fun a ha hq keys rest ht _ => (no_select_of_calls ha hq keys (ht ▸ List.mem_cons_self)).elim)
    h hc
  rwa [resume_of_idle P w hi] at hrun

theorem issued_of_idle {P : Params N K V} {s : State N T K V} (h : Reachable P s) {w : Fin N}
    (hc : ∀ keys, .getCrow keys ∉ (s.clients w).calls) (hi : (s.clients w).isIdle = true) :
    (s.clients w).issued.map Statement.effect =
      (Seq.run rowsAfter P w (s.clients w).calls).effects := by
  rw [← seq_of_idle rowsAfter h hc hi, Client.seq, (isIdle_spec hi).2.1]
  simp

end

section

variable {N : Nat} {K V : Type} {P : Params N K V} {w : Fin N} {last : Int}
  {issued log : List (Statement N K V)}

theorem stamped_of_timestamps (hi : StampsIncrease P w issued last)
    (hts : P.disableTimestamps w = false) : ∀ st ∈ issued, st.timestamp.isSome = true := by
  intro st hst
  rw [hi.dated st hst, hts]
  rfl

theorem dated_increasing (hi : StampsIncrease P w issued last)
    (hts : P.disableTimestamps w = false) : (dated issued).Pairwise fun a b => a.1 < b.1 := by
  have hsome := stamped_of_timestamps hi hts
  rw [dated_of_stamped hsome, List.pairwise_map]
  refine hi.increasing.imp_of_mem fun {a b} ha hb hlt => ?_
  obtain ⟨x, hx⟩ := Option.isSome_iff_exists.mp (hsome a ha)
  obtain ⟨y, hy⟩ := Option.isSome_iff_exists.mp (hsome b hb)
  rw [hx, hy]
  exact hlt x hx y hy

theorem mem_dated_iff (hsome : ∀ st ∈ issued, st.timestamp.isSome = true)
    (hm : ∀ st, st ∈ log ↔ st ∈ issued) (x : Int × Effect K V) : x ∈ dated issued ↔ x ∈ dated log := by
  rw [dated_of_stamped hsome, dated_of_stamped fun st hst => hsome st ((hm st).mp hst)]
  simp only [List.mem_map, hm]

end

section

variable {N T : Nat} {K C D : Type} [DecidableEq K]

def State.content (s : State N T K (Values C D)) (w : Fin N) : K → Option (C → Option D) :=
  Table.row (dated (s.applied.filter fun st => st.table = w))

theorem row_of_issued {P : Params N K (Values C D)} {w : Fin N} {last : Int}
    {issued log : List (Statement N K (Values C D))} (hi : StampsIncrease P w issued last)
    (hts : P.disableTimestamps w = false) (hm : ∀ st, st ∈ log ↔ st ∈ issued) :
    Table.row (dated log) = contentOf (issued.map Statement.effect) := by
  have hsome := stamped_of_timestamps hi hts
  have hinc := dated_increasing hi hts
  rw [← Table.row_congr (StampsUnique.of_increasing hinc) (mem_dated_iff hsome hm),
    Table.row_of_increasing hinc, dated_of_stamped hsome, List.map_map]
  rfl

variable [DecidableEq (Values C D)]

/-- Once everything is acknowledged the rows depend on what was asked for, not on the
order in which it arrived. -/
theorem row_of_acknowledged {P : Params N K (Values C D)} {s : State N T K (Values C D)}
    (h : Reachable P s) {w : Fin N} (hts : P.disableTimestamps w = false)
    (hfresh : s.FreshRows w) (h0 : (s.clients w).ncallbacks = 0)
    (hno : ∀ st, ¬ s.AwaitsDelete w st) {log : List (Statement N K (Values C D))}
    (hlog : log.Perm (s.applied.filter fun st => st.table = w)) :
    Table.row (dated log) = contentOf ((s.clients w).issued.map Statement.effect) := by
  have hi := reachable_stampsIncrease h w
  refine row_of_issued hi hts fun st => ?_
  rw [hlog.mem_iff, List.mem_filter, decide_eq_true_eq]
  exact ⟨fun hst => issued_of_applied h hfresh hst.1 hst.2,
    fun hst => ⟨applied_of_issued h hfresh h0 hno hst, hi.table st hst⟩⟩

def Call.isUpdate {V : Type} : Call K V → Bool
  | .putCrow .. | .writeColumn .. | .deleteCrow _ => true
  | _ => false

theorem last_write_wins {P : Params N K (Values C D)} {s : State N T K (Values C D)}
    (h : Reachable P s) {w : Fin N} (hts : P.disableTimestamps w = false)
    (hops : ∀ a ∈ (s.clients w).calls, a.isUpdate = true) (hfresh : s.FreshRows w)
    (hidle : (s.clients w).isIdle = true) (hacked : (s.clients w).ncallbacks = 0)
    (log : List (Statement N K (Values C D)))
    (hlog : log.Perm (s.applied.filter fun st => st.table = w)) :
    Table.row (dated log) = contentOf (effectsOf (s.clients w).calls) := by
  have hread (keys : K) : .getCrow keys ∉ (s.clients w).calls := fun hm => by cases hops _ hm
  have hlazy : .enableLazyWrite ∉ (s.clients w).calls := fun hm => by cases hops _ hm
  have hno (st : Statement N K (Values C D)) : ¬ s.AwaitsDelete w st := by
    rintro ⟨rest, ht⟩
    rw [(isIdle_spec hidle).2.2] at ht
    cases ht
  rw [row_of_acknowledged h hts hfresh hacked hno hlog,
    issued_of_idle (fun _ _ => []) h hread hidle, (run_eager _ P w hlazy).2]

/-- One table with timestamps and rows of two columns, selected as the database does. -/
def twoColumns : Params 1 Nat (Values (Fin 2) Nat) where
  maxCalls := 2
  maxCalls_pos := Nat.two_pos
  writerBuffer := 2
  disableTimestamps _ := false
  cacheSize _ := 1
  writerMaxCalls _ := 16
  hash := id
  walk := id
  walk_perm _ := .refl _
  selectRows log keys := (Table.select log keys).toList

/-- A row written, deleted and written again in one column. The first write fails and is
applied last. -/
def writtenBackwards (w : Fin N) (t : Fin T) : List (Action N T Nat (Values (Fin 2) Nat)) :=
  [.call w (.putCrow ⟨5, 0⟩ fun c => some (some c)), .client w 3, .client w 3, .client w 3, .client w 3,
    .call w (.deleteCrow 5), .client w 3, .apply 0, .client w 3, .client w 3,
    .call w (.writeColumn ⟨5, 1⟩ fun c => if c = 0 then some (some 7) else none), .client w 9,
    .client w 9, .client w 9, .client w 9,
    .worker, .worker, .worker, .worker, .worker, .enter t 0 false,
    .worker, .worker, .worker, .worker, .worker,
    .callback t, .callback t, .callback t, .callback t, .callback t,
    .apply 2, .apply 3, .enter t 1 true, .callback t, .callback t,
    .enter t 0 true, .callback t, .callback t]

theorem last_write_wins_backwards :
    ∃ s : State 1 1 Nat (Values (Fin 2) Nat), Reachable twoColumns s ∧
      s.applied.map Statement.timestamp = [some 4, some 9, some 3] ∧
      (s.content 0 5).map (fun r => (r 0, r 1)) = some (some 7, none) := by
  obtain ⟨s, hs, hp⟩ := exists_reachable (T := 1) (P := twoColumns) (writtenBackwards 0 0) (fun s =>
    decide (s.applied.map Statement.timestamp = [some 4, some 9, some 3] ∧
      (s.clients 0).ncallbacks = 0 ∧ (s.clients 0).isIdle = true ∧ (s.clients 0).rows = [0, 1] ∧
      (s.clients 0).calls = [.putCrow ⟨5, 0⟩ fun c => some (some c), .deleteCrow 5,
        .writeColumn ⟨5, 1⟩ fun c => if c = 0 then some (some 7) else none])) (by decide +kernel)
  obtain ⟨happ, h0, hidle, hrows, hcalls⟩ := of_decide_eq_true hp
  have hfresh : s.FreshRows 0 := by
    refine ⟨by rw [hrows]; decide, fun v hv => ?_⟩
    exact (hv (Subsingleton.elim v 0)).elim
  refine ⟨s, hs, happ, ?_⟩
  have hh := last_write_wins hs rfl (by rw [hcalls]; simp [Call.isUpdate]) hfresh hidle h0 _ (.refl _)
  rw [State.content, hh, hcalls]
  decide

end

end Hecuba
