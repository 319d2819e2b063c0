import Hecuba.LazyTable
import Hecuba.SentInOrder

/-! Lazy writes against eager writes: the rows of a table after its last flush, with its
calls of `enable_lazy_write` and without them. -/

namespace Hecuba

variable {N T : Nat} {K C D : Type} [DecidableEq K] [DecidableEq (Values C D)]

/-- A run in which the table `w` has made the calls and a last `flush_elements`. With
timestamps each call has brought a key row of its own; without them the database applies
the statements of the table in the order in which they were asked for. -/
structure Flushed (P : Params N K (Values C D)) (s : State N T K (Values C D)) (w : Fin N)
    (calls : List (Call K (Values C D))) : Prop where
  reachable : Reachable P s
  calls : (s.clients w).calls = calls ++ [.flushElements]
  idle : (s.clients w).isIdle = true
  fresh : P.disableTimestamps w = false → s.FreshRows w
  ordered : P.disableTimestamps w = true →
    (s.applied.filter fun st => st.table = w) = (s.clients w).issued

section

variable {P : Params N K (Values C D)} {s : State N T K (Values C D)} {w : Fin N}
  {calls : List (Call K (Values C D))}

theorem flushed_of_sent (h : Reachable P s) (hcalls : (s.clients w).calls = calls ++ [.flushElements])
    (hidle : (s.clients w).isIdle = true) (hts : P.disableTimestamps w = true)
    (hf : s.failed = [])
    (hsent : (s.applied.filter fun st => st.table = w) = s.sent.filter fun st => st.table = w) :
    Flushed P s w calls := by
  have h0 := acked_of_flush h (by rw [hcalls, List.getLast?_concat]) hidle
  refine ⟨h, hcalls, hidle, fun hts' => ?_, fun _ => applied_in_order h hts hf hidle h0 hsent⟩
  rw [hts] at hts'
  cases hts'

theorem dirtyBlocks_of_idle (h : Reachable P s)
    (hc : ∀ keys, .getCrow keys ∉ (s.clients w).calls) (hi : (s.clients w).isIdle = true) :
    (s.clients w).dirtyBlocks = (lazyTable P w (s.clients w).calls).dirtyBlocks := by
  rw [lazyTable, ← seq_of_idle _ h hc hi, Client.seq, (isIdle_spec hi).2.1]
  rfl

theorem content_of_flushed (h : Flushed P s w calls) :
    s.content w = contentOf ((s.clients w).issued.map Statement.effect) := by
  have hi := reachable_stampsIncrease h.reachable w
  cases hts : P.disableTimestamps w with
  | true =>
    have hnone : ∀ st ∈ (s.clients w).issued, st.timestamp = none := fun st hst => by
      have hd := hi.dated st hst
      rw [hts, Bool.not_true, Option.isSome_eq_false_iff, Option.isNone_iff_eq_none] at hd
      exact hd
    obtain ⟨hinc, heffects⟩ := dated_of_arrival hnone
    rw [State.content, h.ordered hts, Table.row_of_increasing hinc, heffects]
  | false =>
    have h0 := acked_of_flush h.reachable (by rw [h.calls, List.getLast?_concat]) h.idle
    refine row_of_acknowledged h.reachable hts (h.fresh hts) h0 (fun st => ?_) (.refl _)
    rintro ⟨rest, ht⟩
    rw [(isIdle_spec h.idle).2.2] at ht
    cases ht

theorem content_of_lazy (hc : LazyCalls P calls) (h : Flushed P s w calls) :
    s.content w = (lazyTable P w calls).rows := by
  have hread (keys : K) : .getCrow keys ∉ (s.clients w).calls := by
    rw [h.calls]
    intro hm
    rcases List.mem_append.mp hm with hm | hm
    · exact hc.update _ hm
    · cases List.mem_singleton.mp hm
  have hpark := parkedOnce_run (w := w) (U := fun k => k ∈ calls.filterMap Call.key)
    (fun k k' hk hk' => hc.hashed k hk k' hk') hc.update
    (fun a ha k hk => List.mem_filterMap.mpr ⟨a, ha, hk⟩)
  obtain ⟨hrows, -, hnil, -⟩ := rows_flush P hpark
  have hrun : lazyTable P w (calls ++ [.flushElements]) = (lazyTable P w calls).flush P :=
    lazyTable_append P w calls _
  rw [content_of_flushed h, issued_of_idle (fun _ _ => []) h.reachable hread h.idle, h.calls,
    ← hrows, Seq.rows, hnil, List.map_nil, List.append_nil, ← hrun]
  rfl

theorem content_of_eager (hc : LazyCalls P calls)
    (h : Flushed P s w (calls.filter (· ≠ .enableLazyWrite))) :
    s.content w = contentOf (effectsOf calls) := by
  have hmem (a : Call K (Values C D)) (ha : a ∈ (s.clients w).calls) :
      a ∈ calls ∧ a ≠ .enableLazyWrite ∨ a = .flushElements := by
    rw [h.calls] at ha
    rcases List.mem_append.mp ha with ha | ha
    · exact .inl (by simpa using List.mem_filter.mp ha)
    · exact .inr (List.mem_singleton.mp ha)
  have hread (keys : K) : .getCrow keys ∉ (s.clients w).calls := by
    intro hm
    rcases hmem _ hm with ⟨hm, -⟩ | hm
    · exact hc.update _ hm
    · cases hm
  have hlazy : .enableLazyWrite ∉ (s.clients w).calls := by
    intro hm
    rcases hmem _ hm with ⟨-, hm⟩ | hm
    · exact hm rfl
    · cases hm
  have heffects : effectsOf (calls.filter (· ≠ .enableLazyWrite)) = effectsOf calls := by
    rw [effectsOf, List.filterMap_filter, effectsOf]
    apply List.filterMap_congr
    intro a _
    by_cases ha : a = .enableLazyWrite
    · subst ha
      rfl
    · simp [ha]
  rw [content_of_flushed h, issued_of_idle (fun _ _ => []) h.reachable hread h.idle,
    (run_eager _ P w hlazy).2, h.calls, effectsOf_append, heffects]
  simp [Call.effect]

/-- Lazy mode leaves a table as it would be without it exactly when each write that a
delete has left waiting in dirty_blocks is overwritten by the calls after the delete. -/
theorem lazy_writes_equivalent_iff {s' : State N T K (Values C D)} (hc : LazyCalls P calls)
    (h : Flushed P s w calls) (h' : Flushed P s' w (calls.filter (· ≠ .enableLazyWrite))) :
    s.content w = s'.content w ↔
      ∀ i e, Revives P w calls i e → Overwritten e (effectsOf (calls.drop (i + 1))) := by
  rw [content_of_lazy hc h, content_of_eager hc h']
  exact rows_run_iff hc

end

def parkedAndDeleted (w : Fin N) (t : Fin T) : List (Action N T Nat (Values (Fin 2) Nat)) :=
  [.call w .enableLazyWrite, .client w 3,
    .call w (.putCrow ⟨5, 0⟩ fun c => some (some c)), .client w 3, .client w 3,
    .call w (.deleteCrow 5), .client w 3, .apply 0, .client w 3, .client w 3,
    .call w .flushElements, .client w 3, .client w 3, .client w 3, .client w 3, .client w 3,
    .worker, .worker, .worker, .worker, .worker, .apply 1, .enter t 0 true, .callback t, .callback t,
    .client w 3]

def sentAndDeleted (w : Fin N) (t : Fin T) : List (Action N T Nat (Values (Fin 2) Nat)) :=
  [.call w (.putCrow ⟨5, 0⟩ fun c => some (some c)), .client w 3, .client w 3, .client w 3,
    .client w 3, .call w (.deleteCrow 5), .client w 3, .apply 0, .client w 3, .client w 3,
    .call w .flushElements, .client w 3, .worker, .worker, .worker, .worker, .worker, .apply 1,
    .enter t 0 true, .callback t, .callback t, .client w 3]

def putAndDelete : List (Call Nat (Values (Fin 2) Nat)) :=
  [.enableLazyWrite, .putCrow ⟨5, 0⟩ fun c => some (some c), .deleteCrow 5]

theorem flushed_twoColumns {s : State 1 1 Nat (Values (Fin 2) Nat)} (h : Reachable twoColumns s)
    {calls : List (Call Nat (Values (Fin 2) Nat))}
    (hc : (s.clients 0).calls = calls ++ [.flushElements]) (hi : (s.clients 0).isIdle = true)
    (hn : (s.clients 0).rows.Nodup) : Flushed twoColumns s 0 calls :=
  ⟨h, hc, hi, fun _ => ⟨hn, fun v hv => (hv (Subsingleton.elim v 0)).elim⟩, fun hts => by cases hts⟩

/-- The row that was deleted is back after the flush. -/
theorem deleted_row_revived :
    ∃ s s' : State 1 1 Nat (Values (Fin 2) Nat), LazyCalls twoColumns putAndDelete ∧
      Flushed twoColumns s 0 putAndDelete ∧
      Flushed twoColumns s' 0 (putAndDelete.filter (· ≠ .enableLazyWrite)) ∧
      (s.content 0 5).isSome = true ∧ s'.content 0 5 = none := by
  obtain ⟨s, hs, hp⟩ := exists_reachable (T := 1) (P := twoColumns) (parkedAndDeleted 0 0) (fun s =>
    decide ((s.clients 0).calls = putAndDelete ++ [.flushElements] ∧
      (s.clients 0).isIdle = true ∧ (s.clients 0).rows.Nodup ∧ (s.content 0 5).isSome = true))
    (by decide +kernel)
  obtain ⟨s', hs', hp'⟩ := exists_reachable (T := 1) (P := twoColumns) (sentAndDeleted 0 0) (fun s =>
    decide ((s.clients 0).calls =
        putAndDelete.filter (· ≠ .enableLazyWrite) ++ [.flushElements] ∧
      (s.clients 0).isIdle = true ∧ (s.clients 0).rows.Nodup ∧ s.content 0 5 = none))
    (by decide +kernel)
  obtain ⟨hc, hi, hn, hrow⟩ := of_decide_eq_true hp
  obtain ⟨hc', hi', hn', hrow'⟩ := of_decide_eq_true hp'
  refine ⟨s, s', ⟨?_, ?_⟩, flushed_twoColumns hs hc hi hn, flushed_twoColumns hs' hc' hi' hn',
    hrow, hrow'⟩
  · simp [putAndDelete, Call.isLazyUpdate]
  · exact fun _ _ _ _ h => h

def putDeleteAndPut : List (Call Nat (Values (Fin 2) Nat)) :=
  putAndDelete ++ [.putCrow ⟨5, 1⟩ fun _ => some (some 7)]

def parkedAgain (w : Fin N) (t : Fin T) : List (Action N T Nat (Values (Fin 2) Nat)) :=
  (parkedAndDeleted w t).take 10 ++
    [.call w (.putCrow ⟨5, 1⟩ fun _ => some (some 7)), .client w 3, .client w 3] ++
    (parkedAndDeleted w t).drop 10

def sentAgain (w : Fin N) (t : Fin T) : List (Action N T Nat (Values (Fin 2) Nat)) :=
  (sentAndDeleted w t).take 10 ++
    [.call w (.putCrow ⟨5, 1⟩ fun _ => some (some 7)), .client w 3, .client w 3, .client w 3,
      .client w 3, .call w .flushElements, .client w 3, .worker, .worker, .worker, .worker, .worker,
      .worker, .worker, .worker, .worker, .worker, .apply 2, .apply 1, .enter t 0 true, .callback t,
      .callback t, .enter t 0 true, .callback t, .callback t, .client w 3]

theorem putDeleteAndPut_overwritten (i : Nat) (e : Parked Nat (Values (Fin 2) Nat))
    (h : Revives twoColumns 0 putDeleteAndPut i e) :
    Overwritten e (effectsOf (putDeleteAndPut.drop (i + 1))) := by
  obtain ⟨-, hi, he⟩ := h
  match i, hi with
  | 2, hi =>
    have hk : e.keys.content = 5 := by
      simpa [putDeleteAndPut, putAndDelete] using hi.symm
    refine .inr ⟨⟨fun _ => some (some 7), ?_⟩, fun _ _ _ => ⟨fun _ => some (some 7), ?_, by simp⟩⟩
    all_goals
      rw [hk]
      exact List.mem_singleton.mpr rfl
  | i + 3, hi => cases i <;> cases hi

theorem lazy_writes_equivalent_rewritten :
    ∃ s s' : State 1 1 Nat (Values (Fin 2) Nat), Flushed twoColumns s 0 putDeleteAndPut ∧
      Flushed twoColumns s' 0 (putDeleteAndPut.filter (· ≠ .enableLazyWrite)) ∧
      s.content 0 = s'.content 0 := by
  obtain ⟨s, hs, hp⟩ := exists_reachable (T := 1) (P := twoColumns) (parkedAgain 0 0) (fun s =>
    decide ((s.clients 0).calls = putDeleteAndPut ++ [.flushElements] ∧
      (s.clients 0).isIdle = true ∧ (s.clients 0).rows.Nodup)) (by decide +kernel)
  obtain ⟨s', hs', hp'⟩ := exists_reachable (T := 1) (P := twoColumns) (sentAgain 0 0) (fun s =>
    decide ((s.clients 0).calls =
        putDeleteAndPut.filter (· ≠ .enableLazyWrite) ++ [.flushElements] ∧
      (s.clients 0).isIdle = true ∧ (s.clients 0).rows.Nodup)) (by decide +kernel)
  obtain ⟨hc, hi, hn⟩ := of_decide_eq_true hp
  obtain ⟨hc', hi', hn'⟩ := of_decide_eq_true hp'
  have hcalls : LazyCalls twoColumns putDeleteAndPut :=
    ⟨by simp [putDeleteAndPut, putAndDelete, Call.isLazyUpdate], fun _ _ _ _ h => h⟩
  have h := flushed_twoColumns hs hc hi hn
  have h' := flushed_twoColumns hs' hc' hi' hn'
  exact ⟨s, s', h, h', (lazy_writes_equivalent_iff hcalls h h').mpr putDeleteAndPut_overwritten⟩

end Hecuba
