import Hecuba.PrefetchOrder

/-! When a NULL from `get_cnext` means that all rows have been handed out. -/

namespace Hecuba

namespace Prefetch

variable {Row : Type} {capacity : Nat} {ranges : List (QueryResult Row)} {s s' : State Row}

/-- `completed` is set just before the last abort, and a pop only throws after it. -/
structure Controlled (s : State Row) : Prop where
  completed : s.completed = true ↔ ¬ s.worker.Running
  readEmpty : s.consumer = .readEmpty → s.completed = true
  caught : s.consumer = .caught → s.completed = true

theorem WorkerMove.controlled (h : WorkerMove capacity s s') (hi : Controlled s) : Controlled s' := by
  obtain ⟨hcompleted, hempty, hcaught⟩ := hi
  cases h with
  | go w hrun hrun' _ _ => exact ⟨hcompleted.trans (not_congr (iff_of_true hrun hrun')), hempty, hcaught⟩
  | giveUp hrun _ => exact ⟨hcompleted.trans (not_congr (iff_of_true hrun trivial)), hempty, hcaught⟩
  | push t w hrun hrun' _ _ => exact ⟨hcompleted.trans (not_congr (iff_of_true hrun hrun')), hempty, hcaught⟩
  | complete hw => exact ⟨by simp [Worker.Running], fun _ => rfl, fun _ => rfl⟩
  | abort hw =>
    have hset : s.completed = true := hcompleted.mpr (by simp [hw, Worker.Running])
    refine ⟨by simp [hset, Worker.Running], fun _ => ?_, fun _ => ?_⟩ <;> simpa using hset

theorem ConsumerMove.controlled (h : ConsumerMove s s') (hi : Controlled s) : Controlled s' := by
  obtain ⟨hcompleted, hempty, hcaught⟩ := hi
  cases h with
  | completed _ hd => exact ⟨hcompleted, fun _ => hd, nofun⟩
  | take t data _ _ => exact ⟨hcompleted, nofun, nofun⟩
  | null _ _ => exact ⟨hcompleted, nofun, nofun⟩
  | _ => exact ⟨hcompleted, nofun, nofun⟩

theorem reachable_controlled (h : Reachable capacity ranges s) : Controlled s := by
  induction h with
  | refl => exact ⟨by simp [State.initial, Worker.Running], nofun, nofun⟩
  | tail _ hstep ih =>
    rcases hstep with hw | hc
    · exact (workerStep_move hw).controlled ih
    · exact (consumerStep_move hc).controlled ih

/-- Whenever NULL has been returned, no query had failed and all rows had been handed out. -/
def NullMeansComplete (ranges : List (QueryResult Row)) (s : State Row) : Prop :=
  ∀ pre post, s.results = pre ++ none :: post → (∀ result ∈ ranges, result ≠ none) ∧ pre.reduceOption = allRows ranges

/-- While no query fails, no row is given up. -/
structure Lossless (ranges : List (QueryResult Row)) (s : State Row) : Prop where
  stream : s.stream = allRows ranges
  pending : none ∉ s.worker.pending

theorem WorkerMove.lossless (hc : 0 < capacity) (h : WorkerMove capacity s s') (hi : Lossless ranges s) :
    Lossless ranges s' := by
  obtain ⟨hstream, hpending⟩ := hi
  cases h with
  | go w _ _ hleft hsub =>
    exact ⟨by simpa [State.stream, State.handed, hleft] using hstream, fun h => hpending (hsub h)⟩
  | giveUp _ hwhy => exact absurd hwhy (not_or.mpr ⟨by omega, hpending⟩)
  | push t w _ _ hleft hsub =>
    exact ⟨by simpa [State.stream, State.handed, hleft] using hstream, fun h => hpending (hsub h)⟩
  | complete hw => exact ⟨by simpa [State.stream, State.handed, hw, Worker.left] using hstream, List.not_mem_nil⟩
  | abort hw => exact ⟨by simpa [State.stream, State.handed, hw, Worker.left] using hstream, List.not_mem_nil⟩

theorem ConsumerMove.worker (h : ConsumerMove s s') : s'.worker = s.worker := by
  cases h <;> rfl

theorem ConsumerMove.lossless (h : ConsumerMove s s') (hi : Lossless ranges s) : Lossless ranges s' :=
  ⟨h.stream.trans hi.stream, h.worker ▸ hi.pending⟩

theorem reachable_lossless (hc : 0 < capacity) (hok : ∀ result ∈ ranges, result ≠ none)
    (h : Reachable capacity ranges s) : Lossless ranges s := by
  induction h with
  | refl => exact ⟨rfl, fun h => hok none h rfl⟩
  | tail _ hstep ih =>
    rcases hstep with hw | hc'
    · exact (workerStep_move hw).lossless hc ih
    · exact (consumerStep_move hc').lossless ih

theorem left_of_completed (hi : Controlled s) (hd : s.completed = true) : s.worker.left = [] := by
  have hstopped := hi.completed.mp hd
  cases hw : s.worker <;> simp [hw, Worker.Running, Worker.left] at hstopped ⊢

theorem append_singleton_split {α : Type} {l pre post : List α} {x y : α} (h : l ++ [x] = pre ++ y :: post) :
    (pre = l ∧ y = x) ∨ ∃ post', l = pre ++ y :: post' := by
  rcases List.eq_nil_or_concat' post with rfl | ⟨init, z, rfl⟩
  · obtain ⟨hl, hx⟩ := List.append_inj' h rfl
    exact .inl ⟨hl.symm, (List.cons.inj hx).1.symm⟩
  · refine .inr ⟨init, ?_⟩
    rw [← List.cons_append, ← List.append_assoc] at h
    exact (List.append_inj' h rfl).1

theorem nullMeansComplete_of_ok (hc : 0 < capacity) (hok : ∀ result ∈ ranges, result ≠ none)
    (h : Reachable capacity ranges s) : NullMeansComplete ranges s := by
  induction h with
  | refl =>
    intro pre post h
    simp [State.initial] at h
  | @tail s s' hreach hstep ih =>
    have hlossless := reachable_lossless hc hok hreach
    have hcontrolled := reachable_controlled hreach
    rcases hstep with hw | hcs
    · have hresults : s'.results = s.results := by
        cases workerStep_move hw with
        | abort hw => exact abortCalls_results s
        | _ => rfl
      intro pre post hsplit
      exact ih pre post (hresults ▸ hsplit)
    · cases consumerStep_move hcs with
      | take t data _ hd =>
        intro pre post hsplit
        rcases append_singleton_split hsplit with ⟨-, heq⟩ | ⟨post', hold⟩
        · cases heq
        · exact ih pre post' hold
      | null hconsumer hd =>
        intro pre post hsplit
        rcases append_singleton_split hsplit with ⟨rfl, -⟩ | ⟨post', hold⟩
        · have hset : s.completed = true := hconsumer.elim hcontrolled.readEmpty hcontrolled.caught
          have hleft := left_of_completed hcontrolled hset
          have hstream := hlossless.stream
          rw [State.stream, hd, hleft, List.append_nil, List.append_nil] at hstream
          exact ⟨hok, hstream⟩
        · exact ih pre post' hold
      | _ => exact ih

abbrev Steps (capacity : Nat) : State Row → State Row → Prop := Relation.ReflTransGen (Step capacity)

/-- The consumer takes every row as soon as it is pushed. -/
theorem steps_rows (hc : 0 < capacity) (rows : List Row) (ranges : List (QueryResult Row))
    (results : List (Option Row)) :
    Steps capacity ⟨.nextRow rows ranges, [], false, .idle, results⟩
      ⟨.nextRange ranges, [], false, .idle, results ++ rows.map some⟩ := by
  have hz : capacity ≠ 0 := by omega
  induction rows generalizing results with
  | nil =>
    rw [List.map_nil, List.append_nil]
    exact .single (.inl rfl)
  | cons t rows ih =>
    have hnext : workerStep capacity ⟨.nextRow (t :: rows) ranges, [], false, .idle, results⟩ =
        some ⟨.push t rows ranges, [], false, .idle, results⟩ := by simp [workerStep, hz]
    have hpush : workerStep capacity ⟨.push t rows ranges, [], false, .idle, results⟩ =
        some ⟨.nextRow rows ranges, [t], false, .idle, results⟩ := by simp [workerStep, hc]
    have hrest := ih (results ++ [some t])
    rw [List.append_assoc, List.singleton_append, ← List.map_cons] at hrest
    exact .head (.inl hnext) (.head (.inl hpush) (.head (.inr rfl) (.head (.inr rfl) (.head (.inr rfl) hrest))))

theorem steps_tries (hc : 0 < capacity) (ranges : List (QueryResult Row)) (data : List Row)
    (consumer : Consumer) (results : List (Option Row)) (n : Nat) :
    Steps capacity ⟨.getResult none (maxTries - n) ranges, data, false, consumer, results⟩
      ⟨.complete, data, false, consumer, results⟩ := by
  have hz : capacity ≠ 0 := by omega
  induction n with
  | zero =>
    refine .single (.inl ?_)
    simp [workerStep, hz]
  | succ n ih =>
    by_cases hn : n < maxTries
    · have hstep : workerStep capacity ⟨.getResult none (maxTries - (n + 1)) ranges, data, false, consumer, results⟩ =
          some ⟨.getResult none (maxTries - n) ranges, data, false, consumer, results⟩ := by
        have hle : ¬ maxTries - (n + 1) + 1 > maxTries := by omega
        simp only [workerStep, hz, if_false, hle]
        rw [show maxTries - (n + 1) + 1 = maxTries - n by omega]
      exact .head (.inl hstep) ih
    · rwa [show maxTries - (n + 1) = maxTries - n by omega]

/-- The worker comes to the end of its work with nothing in the queue. -/
theorem steps_complete (hc : 0 < capacity) (ranges : List (QueryResult Row)) (results : List (Option Row)) :
    ∃ results', Steps capacity ⟨.nextRange ranges, [], false, .idle, results⟩
      ⟨.complete, [], false, .idle, results'⟩ := by
  have hz : capacity ≠ 0 := by omega
  induction ranges generalizing results with
  | nil => exact ⟨results, .single (.inl rfl)⟩
  | cons result ranges ih =>
    have hquery : workerStep capacity ⟨.nextRange (result :: ranges), [], false, .idle, results⟩ =
        some ⟨.getResult result 0 ranges, [], false, .idle, results⟩ := by simp [workerStep, hz]
    cases result with
    | none => exact ⟨results, .head (.inl hquery) (steps_tries hc ranges [] .idle results maxTries)⟩
    | some rows =>
      have hrows : workerStep capacity ⟨.getResult (some rows) 0 ranges, [], false, .idle, results⟩ =
          some ⟨.nextRow rows ranges, [], false, .idle, results⟩ := by simp [workerStep, hz]
      obtain ⟨results', hrest⟩ := ih (results ++ rows.map some)
      exact ⟨results', .head (.inl hquery) (.head (.inl hrows) ((steps_rows hc rows ranges results).trans hrest))⟩

theorem exists_null (hc : 0 < capacity) (ranges : List (QueryResult Row)) :
    ∃ s pre, Reachable capacity ranges s ∧ s.results = pre ++ [none] := by
  obtain ⟨results, hsteps⟩ := steps_complete hc ranges []
  refine ⟨⟨.returned, [], true, .idle, results ++ [none]⟩, results, ?_, rfl⟩
  have hend : Steps capacity ⟨.complete, [], false, .idle, results⟩
      ⟨.returned, [], true, .idle, results ++ [none]⟩ :=
    .head (.inl rfl) (.head (.inl rfl) (.head (.inr rfl) (.head (.inr rfl) (.single (.inr rfl)))))
  exact hsteps.trans hend

/-- NULL always means that all rows have been handed out, if and only if no query fails. -/
theorem null_complete_iff {capacity : Nat} (hc : 0 < capacity) (ranges : List (QueryResult Row)) :
    (∀ s, Reachable capacity ranges s → NullMeansComplete ranges s) ↔ ∀ result ∈ ranges, result ≠ none := by
  constructor
  · intro h
    obtain ⟨s, pre, hreach, hresults⟩ := exists_null hc ranges
    exact (h s hreach pre [] hresults).1
  · exact fun hok s hreach => nullMeansComplete_of_ok hc hok hreach

/-- The worker fills the queue of one row, and NULL comes when all three have been handed out. -/
theorem null_complete_two_ranges :
    (∃ s pre, Reachable 1 [some ["a", "b"], some ["c"]] s ∧ s.results = pre ++ [none]) ∧
      ∀ s, Reachable 1 [some ["a", "b"], some ["c"]] s → NullMeansComplete [some ["a", "b"], some ["c"]] s :=
  ⟨exists_null (by decide) _, (null_complete_iff (by decide) [some ["a", "b"], some ["c"]]).mpr (by simp)⟩

/-- The query of the second range fails, and the scan ends after the first one. -/
theorem null_after_failure : ∃ s, Reachable 1 [some ["a"], none, some ["b"]] s ∧
    ¬ NullMeansComplete [some ["a"], none, some ["b"]] s := by
  obtain ⟨s, pre, hreach, hresults⟩ := @exists_null String 1 (by decide) [some ["a"], none, some ["b"]]
  exact ⟨s, hreach, fun h => (h pre [] hresults).1 none (by decide) rfl⟩

end Prefetch

end Hecuba
