import Hecuba.Prefetch
import Mathlib.Data.List.ReduceOption

/-! What the prefetcher hands out. The rows handed out, those in the queue and those that
the worker still has to push are, in this order, the rows of the queries. -/

namespace Hecuba

namespace Prefetch

variable {Row : Type} {capacity : Nat} {ranges : List (QueryResult Row)} {s s' : State Row}

/-- The rows that the worker pushes if no query fails from now on. -/
def Worker.left : Worker Row → List Row
  | .nextRange ranges => allRows ranges
  | .getResult result _ ranges => result.getD [] ++ allRows ranges
  | .nextRow rows ranges => rows ++ allRows ranges
  | .push t rows ranges | .pushBlocked t rows ranges => t :: rows ++ allRows ranges
  | .complete | .abort | .returned => []

/-- The queries that the worker has not seen the result of. -/
def Worker.pending : Worker Row → List (QueryResult Row)
  | .nextRange ranges | .nextRow _ ranges | .push _ _ ranges | .pushBlocked _ _ ranges => ranges
  | .getResult result _ ranges => result :: ranges
  | .complete | .abort | .returned => []

def State.stream (s : State Row) : List Row := s.handed ++ s.data ++ s.worker.left

@[simp] theorem allRows_cons (result : QueryResult Row) (ranges : List (QueryResult Row)) :
    allRows (result :: ranges) = result.getD [] ++ allRows ranges := rfl

@[simp] theorem abortCalls_data (s : State Row) : (abortCalls s).data = s.data := by
  unfold abortCalls
  split <;> rfl

@[simp] theorem abortCalls_completed (s : State Row) : (abortCalls s).completed = s.completed := by
  unfold abortCalls
  split <;> rfl

@[simp] theorem abortCalls_results (s : State Row) : (abortCalls s).results = s.results := by
  unfold abortCalls
  split <;> rfl

@[simp] theorem abortCalls_handed (s : State Row) : (abortCalls s).handed = s.handed :=
  congrArg List.reduceOption (abortCalls_results s)

/-- The worker has not yet set `completed`. -/
def Worker.Running : Worker Row → Prop
  | .abort | .returned => False
  | _ => True

/-- What a step of the worker can do. -/
inductive WorkerMove (capacity : Nat) (s : State Row) : State Row → Prop where
  | go (w : Worker Row) (hrun : s.worker.Running) (hrun' : w.Running) (hleft : w.left = s.worker.left)
      (hpending : w.pending ⊆ s.worker.pending) : WorkerMove capacity s { s with worker := w }
  | giveUp (hrun : s.worker.Running) (hwhy : capacity = 0 ∨ none ∈ s.worker.pending) :
      WorkerMove capacity s { s with worker := .complete }
  | push (t : Row) (w : Worker Row) (hrun : s.worker.Running) (hrun' : w.Running)
      (hleft : s.worker.left = t :: w.left) (hpending : w.pending ⊆ s.worker.pending) :
      WorkerMove capacity s { s with worker := w, data := s.data ++ [t] }
  | complete (hw : s.worker = .complete) : WorkerMove capacity s { s with worker := .abort, completed := true }
  | abort (hw : s.worker = .abort) : WorkerMove capacity s { abortCalls s with worker := .returned }

theorem workerStep_move (h : workerStep capacity s = some s') : WorkerMove capacity s s' := by
  obtain ⟨worker, data, completed, consumer, results⟩ := s
  cases worker with
  | nextRange ranges =>
    cases ranges with
    | nil => cases h; exact .go _ trivial trivial rfl (List.Subset.refl _)
    | cons result ranges =>
      by_cases hz : capacity = 0
      · simp only [workerStep, hz, if_true, Option.some.injEq] at h
        exact h ▸ .giveUp trivial (.inl hz)
      · simp only [workerStep, hz, if_false, Option.some.injEq] at h
        exact h ▸ .go _ trivial trivial rfl (List.Subset.refl _)
  | getResult result tries ranges =>
    by_cases hz : capacity = 0
    · simp only [workerStep, hz, if_true, Option.some.injEq] at h
      exact h ▸ .giveUp trivial (.inl hz)
    · cases result with
      | some rows =>
        simp only [workerStep, hz, if_false, Option.some.injEq] at h
        exact h ▸ .go _ trivial trivial rfl (List.subset_cons_self _ _)
      | none =>
        by_cases ht : tries + 1 > maxTries
        · simp only [workerStep, hz, if_false, ht, if_true, Option.some.injEq] at h
          exact h ▸ .giveUp trivial (.inr List.mem_cons_self)
        · simp only [workerStep, hz, if_false, ht, Option.some.injEq] at h
          exact h ▸ .go _ trivial trivial rfl (List.Subset.refl _)
  | nextRow rows ranges =>
    cases rows with
    | nil => cases h; exact .go _ trivial trivial rfl (List.Subset.refl _)
    | cons t rows =>
      by_cases hz : capacity = 0
      · simp only [workerStep, hz, if_true, Option.some.injEq] at h
        exact h ▸ .giveUp trivial (.inl hz)
      · simp only [workerStep, hz, if_false, Option.some.injEq] at h
        exact h ▸ .go _ trivial trivial rfl (List.Subset.refl _)
  | push t rows ranges =>
    by_cases hl : data.length < capacity
    · simp only [workerStep, hl, if_true, Option.some.injEq] at h
      exact h ▸ .push t _ trivial trivial rfl (List.Subset.refl _)
    · simp only [workerStep, hl, if_false, Option.some.injEq] at h
      exact h ▸ .go _ trivial trivial rfl (List.Subset.refl _)
  | pushBlocked t rows ranges =>
    by_cases hl : data.length < capacity
    · simp only [workerStep, hl, if_true, Option.some.injEq] at h
      exact h ▸ .push t _ trivial trivial rfl (List.Subset.refl _)
    · simp [workerStep, hl] at h
  | complete => cases h; exact .complete rfl
  | abort => cases h; exact .abort rfl
  | returned => cases h

/-- What a step of the consumer can do. -/
inductive ConsumerMove (s : State Row) : State Row → Prop where
  | start (hc : s.consumer = .idle) : ConsumerMove s { s with consumer := .readCompleted }
  | completed (hc : s.consumer = .readCompleted) (hd : s.completed = true) :
      ConsumerMove s { s with consumer := .readEmpty }
  | notCompleted (hc : s.consumer = .readCompleted) (hd : s.completed = false) :
      ConsumerMove s { s with consumer := .pop }
  | notEmpty (hc : s.consumer = .readEmpty) (hd : s.data ≠ []) : ConsumerMove s { s with consumer := .pop }
  | take (t : Row) (data : List Row) (hc : s.consumer = .pop ∨ s.consumer = .popBlocked)
      (hd : s.data = t :: data) : ConsumerMove s ({ s with data := data }.give (some t))
  | block (hc : s.consumer = .pop) (hd : s.data = []) : ConsumerMove s { s with consumer := .popBlocked }
  | again (hc : s.consumer = .caught) (hd : s.data ≠ []) : ConsumerMove s { s with consumer := .readCompleted }
  | null (hc : s.consumer = .readEmpty ∨ s.consumer = .caught) (hd : s.data = []) : ConsumerMove s (s.give none)

theorem consumerStep_move (h : consumerStep s = some s') : ConsumerMove s s' := by
  obtain ⟨worker, data, completed, consumer, results⟩ := s
  cases consumer with
  | idle => cases h; exact .start rfl
  | readCompleted =>
    cases completed with
    | true => cases h; exact .completed rfl rfl
    | false => cases h; exact .notCompleted rfl rfl
  | readEmpty =>
    cases data with
    | nil => cases h; exact .null (.inl rfl) rfl
    | cons t data => cases h; exact .notEmpty rfl (List.cons_ne_nil _ _)
  | pop =>
    cases data with
    | nil => cases h; exact .block rfl rfl
    | cons t data => cases h; exact .take t data (.inl rfl) rfl
  | popBlocked =>
    cases data with
    | nil => cases h
    | cons t data => cases h; exact .take t data (.inr rfl) rfl
  | caught =>
    cases data with
    | nil => cases h; exact .null (.inr rfl) rfl
    | cons t data => cases h; exact .again rfl (List.cons_ne_nil _ _)

theorem WorkerMove.stream (h : WorkerMove capacity s s') : s'.stream <+: s.stream := by
  cases h with
  | go w _ _ hleft _ => simp [State.stream, State.handed, hleft]
  | giveUp _ _ => simp [State.stream, State.handed, Worker.left]
  | push t w _ _ hleft _ => simp [State.stream, State.handed, hleft]
  | complete hw => simp [State.stream, State.handed, Worker.left]
  | abort hw => simp [State.stream, State.handed, Worker.left]

theorem ConsumerMove.stream (h : ConsumerMove s s') : s'.stream = s.stream := by
  cases h with
  | take t data _ hd => simp [State.stream, hd, State.give, State.handed, List.reduceOption_append]
  | null _ _ => simp [State.stream, State.give, State.handed, List.reduceOption_append]
  | _ => rfl

/-- No row is lost in the middle, handed out twice or out of its place. -/
theorem handed_prefix (capacity : Nat) (ranges : List (QueryResult Row)) (s : State Row)
    (h : Reachable capacity ranges s) : s.handed <+: allRows ranges := by
  have hstream : s.stream <+: allRows ranges := by
    induction h with
    | refl => exact List.prefix_rfl
    | tail _ hstep ih =>
      rcases hstep with hw | hc
      · exact (workerStep_move hw).stream.trans ih
      · rw [(consumerStep_move hc).stream]
        exact ih
  exact (List.prefix_append _ _).trans ((List.prefix_append _ _).trans hstream)

/-- In a queue of one row each push but the first one is blocked, until the consumer takes the row before it. -/
theorem handed_prefix_two_ranges :
    (⟨.returned, [], true, .idle, [some "a", some "b", some "c", none]⟩ : State String).handed <+:
      allRows [some ["a", "b"], some ["c"]] := by
  have hfirst : Reachable 1 [some ["a", "b"], some ["c"]]
      ⟨.pushBlocked "b" [] [some ["c"]], ["a"], false, .idle, []⟩ :=
    .head (.inl rfl) (.head (.inl rfl) (.head (.inl rfl) (.head (.inl rfl) (.head (.inl rfl) (.single (.inl rfl))))))
  have hsecond : Relation.ReflTransGen (Step 1)
      (⟨.pushBlocked "b" [] [some ["c"]], ["a"], false, .idle, []⟩ : State String)
      ⟨.pushBlocked "c" [] [], ["b"], false, .idle, [some "a"]⟩ :=
    .head (.inr rfl) (.head (.inr rfl) (.head (.inr rfl) (.head (.inl rfl) (.head (.inl rfl) (.head (.inl rfl)
      (.head (.inl rfl) (.head (.inl rfl) (.single (.inl rfl)))))))))
  have hthird : Relation.ReflTransGen (Step 1)
      (⟨.pushBlocked "c" [] [], ["b"], false, .idle, [some "a"]⟩ : State String)
      ⟨.nextRow [] [], [], false, .idle, [some "a", some "b", some "c"]⟩ :=
    .head (.inr rfl) (.head (.inr rfl) (.head (.inr rfl) (.head (.inl rfl) (.head (.inr rfl) (.head (.inr rfl)
      (.single (.inr rfl)))))))
  have hend : Relation.ReflTransGen (Step 1)
      (⟨.nextRow [] [], [], false, .idle, [some "a", some "b", some "c"]⟩ : State String)
      ⟨.returned, [], true, .idle, [some "a", some "b", some "c", none]⟩ :=
    .head (.inl rfl) (.head (.inl rfl) (.head (.inl rfl) (.head (.inl rfl) (.head (.inr rfl) (.head (.inr rfl)
      (.single (.inr rfl)))))))
  exact handed_prefix 1 _ _ (((hfirst.trans hsecond).trans hthird).trans hend)

end Prefetch

end Hecuba
