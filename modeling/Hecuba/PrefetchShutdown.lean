import Hecuba.PrefetchOrder
import Hecuba.Turns
import Mathlib.Algebra.Order.Group.Multiset

/-! The destructor of the prefetcher, which the consumer calls between two calls of `get_cnext`. It
sets the capacity to zero, aborts until the worker has set `completed`, joins it and deletes the rows
that are left in the queue. -/

namespace Hecuba

namespace Prefetch

inductive Destructor where
  | alive
  | readCompleted
  | abort
  | join
  | drain
  | deleted
  deriving DecidableEq

inductive Turn where
  | worker
  | consumer
  | destructor
  deriving DecidableEq

/-- A blocked push waits for the room that it saw at its start, in `pushCapacity`. `caught` is the row
of a push that has thrown, until the worker deletes it. -/
structure Closing (Row : Type) where
  state : State Row
  capacity : Nat
  pushCapacity : Nat
  caught : Option Row
  destructor : Destructor
  made : List Row
  deleted : List Row

variable {Row : Type}

/-- The row that `make_tuple` makes in a step of the worker. -/
def Worker.makes (capacity : Nat) : Worker Row → List Row
  | .nextRow (t :: _) _ => if capacity = 0 then [] else [t]
  | _ => []

namespace Closing

def initial (capacity : Nat) (ranges : List (QueryResult Row)) : Closing Row :=
  ⟨.initial ranges, capacity, capacity, none, .alive, [], []⟩

variable (c : Closing Row)

def stepWorker : Option (Closing Row) :=
  match c.state.worker with
  | .returned => c.caught.map fun t => { c with caught := none, deleted := c.deleted ++ [t] }
  | .pushBlocked _ _ _ => (workerStep c.pushCapacity c.state).map fun s => { c with state := s }
  | w => (workerStep c.capacity c.state).map fun s =>
    { c with state := s, pushCapacity := c.capacity, made := c.made ++ w.makes c.capacity }

/-- `data.abort()` in the destructor. A push that is blocked throws. -/
def abortPush : Closing Row :=
  match c.state.worker with
  | .pushBlocked t _ _ => { c with state := { c.state with worker := .complete }, caught := some t }
  | _ => c

def stepDestructor : Option (Closing Row) :=
  match c.destructor with
  | .alive => if c.state.consumer = .idle then some { c with capacity := 0, destructor := .readCompleted } else none
  | .readCompleted => some { c with destructor := if c.state.completed then .join else .abort }
  | .abort => some { c.abortPush with destructor := .readCompleted }
  | .join =>
    match c.state.worker, c.caught with
    | .returned, none => some { c with destructor := .drain }
    | _, _ => none
  | .drain =>
    match c.state.data with
    | t :: data => some { c with state := { c.state with data := data }, deleted := c.deleted ++ [t] }
    | [] => some { c with destructor := .deleted }
  | .deleted => none

def step (a : Turn) : Option (Closing Row) :=
  match a with
  | .worker => c.stepWorker
  | .consumer =>
    if c.destructor = .alive then (consumerStep c.state).map fun s => { c with state := s } else none
  | .destructor => c.stepDestructor

end Closing

abbrev Closing.Reachable (capacity : Nat) (ranges : List (QueryResult Row)) : Closing Row → Prop :=
  Relation.ReflTransGen (fun c c' => ∃ a, c.step a = some c') (.initial capacity ranges)

/-- The row that the worker has made and not yet pushed. -/
def Worker.held : Worker Row → List Row
  | .push t _ _ | .pushBlocked t _ _ => [t]
  | _ => []

/-- The rows that the worker still makes if no query fails from now on. -/
def Worker.unmade : Worker Row → List Row
  | .nextRange ranges => allRows ranges
  | .getResult result _ ranges => result.getD [] ++ allRows ranges
  | .nextRow rows ranges | .push _ rows ranges | .pushBlocked _ rows ranges => rows ++ allRows ranges
  | .complete | .abort | .returned => []

/-- How far the worker is from its end once the capacity is zero. -/
def Worker.rank : Worker Row → Nat
  | .push _ _ _ => 7
  | .pushBlocked _ _ _ => 6
  | .nextRow _ _ => 4
  | .nextRange _ | .getResult _ _ _ => 3
  | .complete => 2
  | .abort => 1
  | .returned => 0

variable {c c' : Closing Row} {a : Turn}

/-- What a step of the worker can do. -/
inductive WorkerTurn (c : Closing Row) : Closing Row → Prop where
  | go (w : Worker Row) (capacity : Nat) (hrun : c.state.worker.Running) (hrun' : w.Running)
      (hheld : w.held = c.state.worker.held) (hunmade : w.unmade <+: c.state.worker.unmade)
      (hrank : c.capacity = 0 → w.rank < c.state.worker.rank) :
      WorkerTurn c { c with state := { c.state with worker := w }, pushCapacity := capacity }
  | make (t : Row) (w : Worker Row) (hrun : c.state.worker.Running) (hrun' : w.Running)
      (hheld : c.state.worker.held = []) (hheld' : w.held = [t]) (hunmade : c.state.worker.unmade = t :: w.unmade)
      (hroom : c.capacity ≠ 0) :
      WorkerTurn c
        { c with state := { c.state with worker := w }, pushCapacity := c.capacity, made := c.made ++ [t] }
  | push (t : Row) (w : Worker Row) (capacity : Nat) (hrun : c.state.worker.Running) (hrun' : w.Running)
      (hheld : c.state.worker.held = [t]) (hheld' : w.held = []) (hunmade : w.unmade = c.state.worker.unmade)
      (hrank : w.rank + 1 < c.state.worker.rank) :
      WorkerTurn c
        { c with state := { c.state with worker := w, data := c.state.data ++ [t] }, pushCapacity := capacity }
  | complete (hw : c.state.worker = .complete) :
      WorkerTurn c { c with state := { c.state with worker := .abort, completed := true }, pushCapacity := c.capacity }
  | abort (hw : c.state.worker = .abort) :
      WorkerTurn c { c with state := { abortCalls c.state with worker := .returned }, pushCapacity := c.capacity }
  | delete (t : Row) (hw : c.state.worker = .returned) (hcaught : c.caught = some t) :
      WorkerTurn c { c with caught := none, deleted := c.deleted ++ [t] }

theorem stepWorker_turn (h : c.stepWorker = some c') : WorkerTurn c c' := by
  obtain ⟨⟨worker, data, completed, consumer, results⟩, capacity, pushCapacity, caught, destructor, made, deleted⟩ := c
  cases worker with
  | nextRange ranges =>
    cases ranges with
    | nil =>
      obtain rfl : _ = c' := by simpa [Closing.stepWorker, workerStep, Worker.makes] using h
      exact .go .complete capacity trivial trivial rfl List.prefix_rfl fun _ => by simp [Worker.rank]
    | cons result ranges =>
      by_cases hz : capacity = 0
      · subst hz
        obtain rfl : _ = c' := by simpa [Closing.stepWorker, workerStep, Worker.makes] using h
        exact .go .complete 0 trivial trivial rfl List.nil_prefix fun _ => by simp [Worker.rank]
      · obtain rfl : _ = c' := by simpa [Closing.stepWorker, workerStep, Worker.makes, hz] using h
        exact .go (.getResult result 0 ranges) capacity trivial trivial rfl List.prefix_rfl fun hz' => absurd hz' hz
  | getResult result tries ranges =>
    by_cases hz : capacity = 0
    · subst hz
      obtain rfl : _ = c' := by simpa [Closing.stepWorker, workerStep, Worker.makes] using h
      exact .go .complete 0 trivial trivial rfl List.nil_prefix fun _ => by simp [Worker.rank]
    · cases result with
      | some rows =>
        obtain rfl : _ = c' := by simpa [Closing.stepWorker, workerStep, Worker.makes, hz] using h
        exact .go (.nextRow rows ranges) capacity trivial trivial rfl List.prefix_rfl fun hz' => absurd hz' hz
      | none =>
        by_cases ht : tries + 1 > maxTries
        · obtain rfl : _ = c' := by simpa [Closing.stepWorker, workerStep, Worker.makes, hz, ht] using h
          exact .go .complete capacity trivial trivial rfl List.nil_prefix fun hz' => absurd hz' hz
        · obtain rfl : _ = c' := by simpa [Closing.stepWorker, workerStep, Worker.makes, hz, ht] using h
          exact .go (.getResult none (tries + 1) ranges) capacity trivial trivial rfl List.prefix_rfl
            fun hz' => absurd hz' hz
  | nextRow rows ranges =>
    cases rows with
    | nil =>
      obtain rfl : _ = c' := by simpa [Closing.stepWorker, workerStep, Worker.makes] using h
      exact .go (.nextRange ranges) capacity trivial trivial rfl List.prefix_rfl fun _ => by simp [Worker.rank]
    | cons t rows =>
      by_cases hz : capacity = 0
      · subst hz
        obtain rfl : _ = c' := by simpa [Closing.stepWorker, workerStep, Worker.makes] using h
        exact .go .complete 0 trivial trivial rfl List.nil_prefix fun _ => by simp [Worker.rank]
      · obtain rfl : _ = c' := by simpa [Closing.stepWorker, workerStep, Worker.makes, hz] using h
        exact .make t (.push t rows ranges) trivial trivial rfl rfl rfl hz
  | push t rows ranges =>
    by_cases hl : data.length < capacity
    · obtain rfl : _ = c' := by simpa [Closing.stepWorker, workerStep, Worker.makes, hl] using h
      exact .push t (.nextRow rows ranges) capacity trivial trivial rfl rfl rfl (by simp [Worker.rank])
    · obtain rfl : _ = c' := by simpa [Closing.stepWorker, workerStep, Worker.makes, hl] using h
      exact .go (.pushBlocked t rows ranges) capacity trivial trivial rfl List.prefix_rfl fun _ => by simp [Worker.rank]
  | pushBlocked t rows ranges =>
    by_cases hl : data.length < pushCapacity
    · obtain rfl : _ = c' := by simpa [Closing.stepWorker, workerStep, hl] using h
      exact .push t (.nextRow rows ranges) pushCapacity trivial trivial rfl rfl rfl (by simp [Worker.rank])
    · simp [Closing.stepWorker, workerStep, hl] at h
  | complete =>
    obtain rfl : _ = c' := by simpa [Closing.stepWorker, workerStep, Worker.makes] using h
    exact .complete rfl
  | abort =>
    cases h
    simp only [Worker.makes, List.append_nil]
    exact .abort rfl
  | returned =>
    obtain ⟨t, hcaught, rfl⟩ := Option.map_eq_some_iff.mp h
    exact .delete t rfl hcaught

/-- What a step of the destructor can do. -/
inductive DestructorTurn (c : Closing Row) : Closing Row → Prop where
  | start (hd : c.destructor = .alive) : DestructorTurn c { c with capacity := 0, destructor := .readCompleted }
  | completed (hd : c.destructor = .readCompleted) (hcompleted : c.state.completed = true) :
      DestructorTurn c { c with destructor := .join }
  | notCompleted (hd : c.destructor = .readCompleted) (hcompleted : c.state.completed = false) :
      DestructorTurn c { c with destructor := .abort }
  | wake (t : Row) (rows : List Row) (ranges : List (QueryResult Row)) (hd : c.destructor = .abort)
      (hw : c.state.worker = .pushBlocked t rows ranges) :
      DestructorTurn c
        { c with state := { c.state with worker := .complete }, caught := some t, destructor := .readCompleted }
  | again (hd : c.destructor = .abort) (hw : ∀ t rows ranges, c.state.worker ≠ .pushBlocked t rows ranges) :
      DestructorTurn c { c with destructor := .readCompleted }
  | joined (hd : c.destructor = .join) (hw : c.state.worker = .returned) (hcaught : c.caught = none) :
      DestructorTurn c { c with destructor := .drain }
  | delete (t : Row) (data : List Row) (hd : c.destructor = .drain) (hdata : c.state.data = t :: data) :
      DestructorTurn c { c with state := { c.state with data := data }, deleted := c.deleted ++ [t] }
  | finish (hd : c.destructor = .drain) (hdata : c.state.data = []) :
      DestructorTurn c { c with destructor := .deleted }

theorem stepDestructor_turn (h : c.stepDestructor = some c') : DestructorTurn c c' := by
  obtain ⟨⟨worker, data, completed, consumer, results⟩, capacity, pushCapacity, caught, destructor, made, deleted⟩ := c
  cases destructor with
  | alive =>
    simp only [Closing.stepDestructor, Option.ite_none_right_eq_some] at h
    obtain ⟨-, heq⟩ := h
    cases heq
    exact .start rfl
  | readCompleted =>
    cases completed with
    | true => cases h; exact .completed rfl rfl
    | false => cases h; exact .notCompleted rfl rfl
  | abort =>
    cases worker with
    | pushBlocked t rows ranges => cases h; exact .wake t rows ranges rfl rfl
    | _ => cases h; exact .again rfl nofun
  | join =>
    cases worker with
    | returned =>
      cases caught with
      | none => cases h; exact .joined rfl rfl rfl
      | some t => cases h
    | _ => cases h
  | drain =>
    cases data with
    | nil => cases h; exact .finish rfl rfl
    | cons t data => cases h; exact .delete t data rfl rfl
  | deleted => cases h

theorem step_turn (h : c.step a = some c') : WorkerTurn c c' ∨ DestructorTurn c c' ∨
    (c.destructor = .alive ∧ ∃ s, ConsumerMove c.state s ∧ c' = { c with state := s }) := by
  cases a with
  | worker => exact .inl (stepWorker_turn h)
  | destructor => exact .inr (.inl (stepDestructor_turn h))
  | consumer =>
    simp only [Closing.step, Option.ite_none_right_eq_some] at h
    obtain ⟨halive, hmap⟩ := h
    obtain ⟨s, hs, rfl⟩ := Option.map_eq_some_iff.mp hmap
    exact .inr (.inr ⟨halive, s, consumerStep_move hs, rfl⟩)

/-- What holds between the destructor and the worker. -/
structure InStep (c : Closing Row) : Prop where
  capacity : c.destructor ≠ .alive → c.capacity = 0
  completed : c.state.completed = true ↔ ¬ c.state.worker.Running
  caught : c.caught.isSome → c.destructor ≠ .alive ∧ c.state.worker.rank ≤ 2
  joining : c.destructor = .join → c.state.completed = true
  joined : c.destructor = .drain ∨ c.destructor = .deleted → c.state.worker = .returned ∧ c.caught = none
  drained : c.destructor = .deleted → c.state.data = []

theorem held_of_rank {w : Worker Row} (h : w.rank ≤ 2) : w.held = [] := by
  cases w <;> first | rfl | simp [Worker.rank] at h

theorem InStep.caught_none (h : InStep c) {t : Row} (hheld : c.state.worker.held = [t]) : c.caught = none := by
  cases hcaught : c.caught with
  | none => rfl
  | some u =>
    have hnone := held_of_rank (h.caught (by rw [hcaught]; rfl)).2
    rw [hheld] at hnone
    cases hnone

theorem InStep.not_alive_caught (h : InStep c) {t : Row} (hcaught : c.caught = some t) : c.destructor ≠ .alive :=
  (h.caught (by rw [hcaught]; rfl)).1

/-- The worker returns before the queue is drained. -/
theorem InStep.not_joined_of_running (h : InStep c) (hrun : c.state.worker.Running) :
    ¬ (c.destructor = .drain ∨ c.destructor = .deleted) := fun hj => by
  rw [(h.joined hj).1] at hrun
  exact hrun

theorem WorkerTurn.inStep (h : WorkerTurn c c') (hi : InStep c) : InStep c' := by
  have hjoined := hi.not_joined_of_running
  obtain ⟨hcapacity, hcompleted, hcaught, hjoining, hjoin, hdrained⟩ := hi
  cases h with
  | go w capacity hrun hrun' _ _ hrank =>
    refine ⟨hcapacity, hcompleted.trans (not_congr (iff_of_true hrun hrun')), fun hsome => ?_, hjoining,
      fun hj => absurd hj (hjoined hrun), hdrained⟩
    obtain ⟨halive, hle⟩ := hcaught hsome
    exact ⟨halive, Nat.le_trans (Nat.le_of_lt (hrank (hcapacity halive))) hle⟩
  | make t w hrun hrun' _ _ _ hroom =>
    exact ⟨hcapacity, hcompleted.trans (not_congr (iff_of_true hrun hrun')),
      fun hsome => absurd (hcapacity (hcaught hsome).1) hroom, hjoining, fun hj => absurd hj (hjoined hrun), hdrained⟩
  | push t w capacity hrun hrun' _ _ _ hrank =>
    refine ⟨hcapacity, hcompleted.trans (not_congr (iff_of_true hrun hrun')), fun hsome => ?_, hjoining,
      fun hj => absurd hj (hjoined hrun), fun hd => absurd (.inr hd) (hjoined hrun)⟩
    obtain ⟨halive, hle⟩ := hcaught hsome
    refine ⟨halive, ?_⟩
    change w.rank ≤ 2
    omega
  | complete hw =>
    have hrun : c.state.worker.Running := by rw [hw]; trivial
    exact ⟨hcapacity, by simp [Worker.Running], fun hsome => ⟨(hcaught hsome).1, Nat.le_succ 1⟩, fun _ => rfl,
      fun hj => absurd hj (hjoined hrun), hdrained⟩
  | abort hw =>
    have hset : c.state.completed = true := hcompleted.mpr (by simp [hw, Worker.Running])
    refine ⟨hcapacity, by simp [hset, Worker.Running], fun hsome => ⟨(hcaught hsome).1, Nat.zero_le _⟩,
      fun _ => by simpa using hset, fun hj => ⟨rfl, (hjoin hj).2⟩, fun hd => by simpa using hdrained hd⟩
  | delete t hw ht =>
    exact ⟨hcapacity, hcompleted, nofun, hjoining, fun hj => ⟨hw, rfl⟩, hdrained⟩

theorem DestructorTurn.inStep (h : DestructorTurn c c') (hi : InStep c) : InStep c' := by
  obtain ⟨hcapacity, hcompleted, hcaught, hjoining, hjoin, hdrained⟩ := hi
  cases h with
  | start hd =>
    exact ⟨fun _ => rfl, hcompleted, fun hsome => absurd hd (hcaught hsome).1, nofun, nofun, nofun⟩
  | completed hd hset =>
    exact ⟨fun _ => hcapacity (by simp [hd]), hcompleted, fun hsome => ⟨nofun, (hcaught hsome).2⟩, fun _ => hset, nofun, nofun⟩
  | notCompleted hd hset =>
    exact ⟨fun _ => hcapacity (by simp [hd]), hcompleted, fun hsome => ⟨nofun, (hcaught hsome).2⟩, nofun, nofun, nofun⟩
  | wake t rows ranges hd hw =>
    have hrun : c.state.worker.Running := by rw [hw]; trivial
    exact ⟨fun _ => hcapacity (by simp [hd]), hcompleted.trans (not_congr (iff_of_true hrun trivial)),
      fun _ => ⟨nofun, Nat.le_refl _⟩, nofun, nofun, nofun⟩
  | again hd _ =>
    exact ⟨fun _ => hcapacity (by simp [hd]), hcompleted, fun hsome => ⟨nofun, (hcaught hsome).2⟩, nofun, nofun, nofun⟩
  | joined hd hw ht =>
    exact ⟨fun _ => hcapacity (by simp [hd]), hcompleted, fun hsome => ⟨nofun, (hcaught hsome).2⟩, nofun, fun _ => ⟨hw, ht⟩, nofun⟩
  | delete t data hd _ =>
    exact ⟨hcapacity, hcompleted, hcaught, hjoining, hjoin, fun hdel => by simp [hd] at hdel⟩
  | finish hd hdata =>
    exact ⟨fun _ => hcapacity (by simp [hd]), hcompleted, fun hsome => ⟨nofun, (hcaught hsome).2⟩, nofun,
      fun _ => hjoin (.inl hd), fun _ => hdata⟩

theorem ConsumerMove.completed_eq {s s' : State Row} (h : ConsumerMove s s') : s'.completed = s.completed := by
  cases h <;> rfl

theorem InStep.consumer (hi : InStep c) (halive : c.destructor = .alive) {s : State Row} (h : ConsumerMove c.state s) :
    InStep { c with state := s } := by
  have hworker : s.worker = c.state.worker := by cases h <;> rfl
  obtain ⟨hcapacity, hcompleted, hcaught, -⟩ := hi
  refine ⟨hcapacity, ?_, fun hsome => absurd halive (hcaught hsome).1, ?_, ?_, ?_⟩
  · change s.completed = true ↔ ¬ s.worker.Running
    rw [h.completed_eq, hworker]
    exact hcompleted
  all_goals simp [halive]

theorem InStep.step (hi : InStep c) (h : c.step a = some c') : InStep c' := by
  rcases step_turn h with hw | hd | ⟨halive, s, hs, rfl⟩
  · exact hw.inStep hi
  · exact hd.inStep hi
  · exact hi.consumer halive hs

/-- The rows that have been handed out or deleted, or that somebody has. -/
def Closing.rows (c : Closing Row) : Multiset Row :=
  ↑c.state.handed + ↑c.state.data + ↑c.state.worker.held + ↑c.caught.toList + ↑c.deleted

/-- Every row made is in one place. -/
structure Accounted (ranges : List (QueryResult Row)) (c : Closing Row) : Prop where
  unmade : c.made ++ c.state.worker.unmade <+: allRows ranges
  rows : c.rows = ↑c.made
  handed : c.state.handed <+: c.made
  order : c.destructor = .alive → c.made = c.state.handed ++ c.state.data ++ c.state.worker.held

variable {ranges : List (QueryResult Row)}

theorem WorkerTurn.accounted (h : WorkerTurn c c') (hinstep : InStep c) (hi : Accounted ranges c) : Accounted ranges c' := by
  obtain ⟨hunmade, hrows, hhanded, horder⟩ := hi
  cases h with
  | go w capacity _ _ hheld hless _ =>
    have hmake : c.made ++ w.unmade <+: c.made ++ c.state.worker.unmade := (List.prefix_append_right_inj _).mpr hless
    exact ⟨hmake.trans hunmade, by simpa [Closing.rows, State.handed, hheld] using hrows, hhanded,
      by simpa [State.handed, hheld] using horder⟩
  | make t w _ _ hheld hheld' hmake hroom =>
    refine ⟨by simpa [hmake] using hunmade, ?_, hhanded.trans (List.prefix_append _ _), fun halive => ?_⟩
    · simp only [Closing.rows, State.handed, hheld, hheld', ← Multiset.coe_add, Multiset.coe_nil, add_zero] at hrows ⊢
      rw [← hrows]
      ac_rfl
    · simp [State.handed, horder halive, hheld, hheld']
  | push t w capacity _ _ hheld hheld' hmake _ =>
    refine ⟨by simpa [hmake] using hunmade, ?_, hhanded, fun halive => ?_⟩
    · simp only [Closing.rows, State.handed, hheld, hheld', ← Multiset.coe_add, Multiset.coe_nil, add_zero] at hrows ⊢
      rw [← hrows]
      ac_rfl
    · simp [State.handed, horder halive, hheld, hheld']
  | complete hw => 
    exact ⟨by simpa [hw, Worker.unmade] using hunmade, by simpa [Closing.rows, State.handed, hw, Worker.held] using hrows, hhanded,
      by simpa [State.handed, hw, Worker.held] using horder⟩
  | abort hw => 
    exact ⟨by simpa [hw, Worker.unmade] using hunmade, by simpa [Closing.rows, State.handed, hw, Worker.held] using hrows,
      by simpa [State.handed] using hhanded, by simpa [State.handed, hw, Worker.held] using horder⟩
  | delete t hw ht =>
    refine ⟨hunmade, ?_, hhanded, fun halive => absurd halive (hinstep.not_alive_caught ht)⟩
    simp only [Closing.rows, ht, Option.toList_some, Option.toList_none, ← Multiset.coe_add, Multiset.coe_nil, add_zero] at hrows ⊢
    rw [← hrows]
    ac_rfl

theorem DestructorTurn.accounted (h : DestructorTurn c c') (hinstep : InStep c) (hi : Accounted ranges c) : Accounted ranges c' := by
  obtain ⟨hunmade, hrows, hhanded, horder⟩ := hi
  cases h with
  | wake t rows ranges' hd hw =>
    have hnone := hinstep.caught_none (show c.state.worker.held = [t] by rw [hw]; rfl)
    refine ⟨?_, ?_, hhanded, fun halive => by cases halive⟩
    · exact (List.prefix_append_right_inj _).mpr List.nil_prefix |>.trans hunmade
    · simpa [Closing.rows, State.handed, hw, Worker.held, hnone] using hrows
  | delete t data hd hdata =>
    refine ⟨hunmade, ?_, hhanded, fun halive => by simp [hd] at halive⟩
    have hsplit : (↑(t :: data) : Multiset Row) = ↑[t] + ↑data := rfl
    simp only [Closing.rows, State.handed, hdata, hsplit, ← Multiset.coe_add] at hrows ⊢
    rw [← hrows]
    ac_rfl
  | _ => exact ⟨hunmade, hrows, hhanded, fun halive => by cases halive⟩

theorem Accounted.consumer (hi : Accounted ranges c) (halive : c.destructor = .alive) {s : State Row}
    (h : ConsumerMove c.state s) : Accounted ranges { c with state := s } := by
  have hworker : s.worker = c.state.worker := by cases h <;> rfl
  have hstream : s.handed ++ s.data = c.state.handed ++ c.state.data := by
    cases h with
    | take t data _ hd => simp [hd, State.give, State.handed, List.reduceOption_append]
    | null _ _ => simp [State.give, State.handed, List.reduceOption_append]
    | _ => rfl
  obtain ⟨hunmade, hrows, -, horder⟩ := hi
  have horder' : c.made = s.handed ++ s.data ++ s.worker.held := by rw [hstream, hworker]; exact horder halive
  refine ⟨by simpa [hworker] using hunmade, ?_, ?_, fun _ => horder'⟩
  · have hmultiset : (↑s.handed + ↑s.data : Multiset Row) = ↑c.state.handed + ↑c.state.data := congrArg _ hstream
    simpa [Closing.rows, hworker, hmultiset] using hrows
  · change s.handed <+: c.made
    rw [horder', List.append_assoc]
    exact List.prefix_append _ _

theorem reachable_accounted {capacity : Nat} (h : Closing.Reachable capacity ranges c) : InStep c ∧ Accounted ranges c := by
  induction h with
  | refl =>
    refine ⟨⟨fun h => absurd rfl h, by simp [Closing.initial, State.initial, Worker.Running], nofun, nofun, nofun, nofun⟩,
      ⟨List.prefix_rfl, rfl, List.prefix_rfl, fun _ => rfl⟩⟩
  | tail _ hstep ih =>
    obtain ⟨a, hstep⟩ := hstep
    obtain ⟨hinstep, haccounted⟩ := ih
    refine ⟨hinstep.step hstep, ?_⟩
    rcases step_turn hstep with hw | hd | ⟨halive, s, hs, rfl⟩
    · exact hw.accounted hinstep haccounted
    · exact hd.accounted hinstep haccounted
    · exact haccounted.consumer halive hs

/-- Whatever the consumer has taken when the prefetcher is destroyed: of each row made from the
results, in their order, it has been handed out or deleted, once, and nothing moves any more. -/
theorem every_row_freed {capacity : Nat} (h : Closing.Reachable capacity ranges c) (hd : c.destructor = .deleted) :
    c.made <+: allRows ranges ∧ c.state.handed <+: c.made ∧ (c.state.handed ++ c.deleted).Perm c.made ∧
      ∀ a, c.step a = none := by
  obtain ⟨hinstep, haccounted⟩ := reachable_accounted h
  obtain ⟨hreturned, hcaught⟩ := hinstep.joined (.inr hd)
  have hdata := hinstep.drained hd
  refine ⟨(List.prefix_append _ _).trans haccounted.unmade, haccounted.handed, ?_, fun a => ?_⟩
  · have hrows := haccounted.rows
    simp only [Closing.rows, hreturned, hcaught, hdata, Worker.held, Option.toList_none, Multiset.coe_nil, add_zero,
      Multiset.coe_add] at hrows
    exact Multiset.coe_eq_coe.mp hrows
  · cases a <;> simp [Closing.step, Closing.stepWorker, Closing.stepDestructor, hd, hreturned, hcaught]

/-- The threads take their turns in this order, from the start. -/
def Closing.play (capacity : Nat) (ranges : List (QueryResult Row)) (turns : List Turn) : Closing Row :=
  Turns.play (fun a c => c.step a) (.initial capacity ranges) turns

theorem reachable_play (capacity : Nat) (ranges : List (QueryResult Row)) (turns : List Turn) :
    Closing.Reachable capacity ranges (.play capacity ranges turns) := by
  unfold Closing.play
  generalize hstart : Closing.initial capacity ranges = c
  have h : Closing.Reachable capacity ranges c := hstart ▸ .refl
  clear hstart
  induction turns generalizing c with
  | nil => exact h
  | cons a turns ih =>
    apply ih
    change Closing.Reachable capacity ranges ((c.step a).getD c)
    cases hstep : c.step a with
    | none => exact h
    | some c' => exact h.tail ⟨a, hstep⟩

/-- The worker waits in the push of the third row when the consumer, with one row, destroys the
prefetcher. -/
def oneTaken : List Turn :=
  List.replicate 6 .worker ++ List.replicate 3 .consumer ++ List.replicate 4 .worker ++ List.replicate 3 .destructor ++
    List.replicate 3 .worker ++ List.replicate 5 .destructor

theorem third_row_freed : ((Closing.play 1 [some ["a", "b", "c"]] oneTaken).state.handed ++
    (Closing.play 1 [some ["a", "b", "c"]] oneTaken).deleted).Perm ["a", "b", "c"] :=
  (every_row_freed (reachable_play 1 [some ["a", "b", "c"]] oneTaken) (by decide)).2.2.1

section ending

def Destructor.rank : Destructor → Nat
  | .alive => 4
  | .readCompleted | .abort => 3
  | .join => 2
  | .drain => 1
  | .deleted => 0

def Worker.isBlocked : Worker Row → Bool
  | .pushBlocked _ _ _ => true
  | _ => false

/-- The loop of aborts only turns without effect while the worker can go on. -/
def Closing.loop (c : Closing Row) : Nat :=
  match c.destructor with
  | .readCompleted => if c.stepWorker.isSome || c.state.worker.isBlocked then 1 else 0
  | .abort => if c.state.worker.isBlocked then 0 else 1
  | _ => 0

def Closing.remaining (c : Closing Row) : Nat :=
  2 * (c.state.worker.rank + c.caught.toList.length + c.state.data.length + c.destructor.rank) + c.loop

def Closing.helper (c : Closing Row) : Turn := if c.stepWorker.isSome then .worker else .destructor

/-- The destructor runs. -/
def Ending (c : Closing Row) : Prop := InStep c ∧ c.destructor ≠ .alive

theorem loop_le (c : Closing Row) : c.loop ≤ 1 := by
  unfold Closing.loop
  split
  · split <;> omega
  · split <;> omega
  · omega

/-- A step of the worker counts twice, so that the loop does not matter. -/
theorem remaining_lt {c' : Closing Row} (h : c'.state.worker.rank + c'.caught.toList.length + c'.state.data.length +
    c'.destructor.rank < c.state.worker.rank + c.caught.toList.length + c.state.data.length + c.destructor.rank) :
    c'.remaining < c.remaining := by
  have hloop := loop_le c'
  unfold Closing.remaining
  omega

theorem WorkerTurn.remaining (h : WorkerTurn c c') (he : Ending c) : c'.remaining < c.remaining := by
  obtain ⟨hinstep, halive⟩ := he
  have hzero := hinstep.capacity halive
  apply remaining_lt
  cases h with
  | go w capacity _ _ _ _ hrank =>
    have hlt := hrank hzero
    simp only
    omega
  | make t w _ _ _ _ _ hroom => exact absurd hzero hroom
  | push t w capacity _ _ _ _ _ hrank =>
    simp only [List.length_append, List.length_singleton]
    omega
  | complete hw => simp [hw, Worker.rank]
  | abort hw => simp [hw, Worker.rank]
  | delete t hw ht => simp [ht]

/-- A worker that cannot go on has returned or waits in its push. -/
theorem stepWorker_none (h : c.stepWorker = none) :
    (c.state.worker = .returned ∧ c.caught = none) ∨ ∃ t rows ranges, c.state.worker = .pushBlocked t rows ranges := by
  obtain ⟨⟨worker, data, completed, consumer, results⟩, capacity, pushCapacity, caught, destructor, made, deleted⟩ := c
  cases worker with
  | returned => exact .inl ⟨rfl, Option.map_eq_none_iff.mp h⟩
  | pushBlocked t rows ranges => exact .inr ⟨t, rows, ranges, rfl⟩
  | nextRange ranges =>
    cases ranges with
    | nil => cases h
    | cons result ranges => by_cases hz : capacity = 0 <;> simp [Closing.stepWorker, workerStep, hz] at h
  | getResult result tries ranges =>
    by_cases hz : capacity = 0
    · simp [Closing.stepWorker, workerStep, hz] at h
    · cases result with
      | some rows => simp [Closing.stepWorker, workerStep, hz] at h
      | none => by_cases ht : tries + 1 > maxTries <;> simp [Closing.stepWorker, workerStep, hz, ht] at h
  | nextRow rows ranges =>
    cases rows with
    | nil => cases h
    | cons t rows => by_cases hz : capacity = 0 <;> simp [Closing.stepWorker, workerStep, hz] at h
  | push t rows ranges => by_cases hl : data.length < capacity <;> simp [Closing.stepWorker, workerStep, hl] at h
  | complete => cases h
  | abort => cases h

/-- The destructor does not change what the worker does next. -/
theorem stepWorker_isSome (c : Closing Row) (d : Destructor) :
    ({ c with destructor := d } : Closing Row).stepWorker.isSome = c.stepWorker.isSome := by
  obtain ⟨⟨worker, data, completed, consumer, results⟩, capacity, pushCapacity, caught, destructor, made, deleted⟩ := c
  cases worker <;> simp [Closing.stepWorker]

theorem remaining_turn {d : Destructor} (hrank : d.rank = c.destructor.rank) :
    ({ c with destructor := d } : Closing Row).remaining + c.loop =
      c.remaining + ({ c with destructor := d } : Closing Row).loop := by
  simp only [Closing.remaining, hrank]
  omega

theorem helper_turn (c : Closing Row) (d : Destructor) : ({ c with destructor := d } : Closing Row).helper = c.helper := by
  simp only [Closing.helper, stepWorker_isSome]

theorem DestructorTurn.remaining (h : DestructorTurn c c') (he : Ending c) : c'.remaining < c.remaining ∨
    (c'.remaining = c.remaining ∧ c'.helper = c.helper ∧ c.stepWorker.isSome) := by
  obtain ⟨hinstep, halive⟩ := he
  cases h with
  | start hd => exact absurd hd halive
  | completed hd hset => exact .inl (remaining_lt (by simp [hd, Destructor.rank]))
  | wake t rows ranges hd hw =>
    refine .inl (remaining_lt ?_)
    simp only [hw, hd, Worker.rank, Destructor.rank, Option.toList_some, List.length_singleton]
    omega
  | joined hd hw ht => exact .inl (remaining_lt (by simp [hd, Destructor.rank]))
  | delete t data hd hdata => exact .inl (remaining_lt (by simp [hdata]))
  | finish hd hdata => exact .inl (remaining_lt (by simp [hd, Destructor.rank]))
  | notCompleted hd hset =>
    have hturn := remaining_turn (c := c) (d := .abort) (by rw [hd]; rfl)
    by_cases hblocked : c.state.worker.isBlocked = true
    · have hbefore : c.loop = 1 := by simp [Closing.loop, hd, hblocked]
      have hafter : ({ c with destructor := .abort } : Closing Row).loop = 0 := by simp [Closing.loop, hblocked]
      exact .inl (by omega)
    · have hgo : c.stepWorker.isSome := by
        by_contra hnone
        rcases stepWorker_none (Option.not_isSome_iff_eq_none.mp hnone) with ⟨hw, -⟩ | ⟨t, rows, ranges, hw⟩
        · have hset' := hinstep.completed.mpr (by simp [hw, Worker.Running])
          exact absurd (hset'.symm.trans hset) (by decide)
        · exact hblocked (by rw [hw]; rfl)
      have hbefore : c.loop = 1 := by simp [Closing.loop, hd, hgo]
      have hafter : ({ c with destructor := .abort } : Closing Row).loop = 1 := by simp [Closing.loop, hblocked]
      exact .inr ⟨by omega, helper_turn c _, hgo⟩
  | again hd hw =>
    have hturn := remaining_turn (c := c) (d := .readCompleted) (by rw [hd]; rfl)
    have hblocked : c.state.worker.isBlocked = false := by
      cases hworker : c.state.worker <;> first | rfl | exact absurd hworker (hw _ _ _)
    have hbefore : c.loop = 1 := by simp [Closing.loop, hd, hblocked]
    by_cases hgo : c.stepWorker.isSome
    · have hafter : ({ c with destructor := .readCompleted } : Closing Row).loop = 1 := by
        simp [Closing.loop, stepWorker_isSome, hgo]
      exact .inr ⟨by omega, helper_turn c _, hgo⟩
    · have hafter : ({ c with destructor := .readCompleted } : Closing Row).loop = 0 := by
        simp [Closing.loop, stepWorker_isSome, hgo, hblocked]
      exact .inl (by omega)

theorem Ending.step (he : Ending c) (h : c.step a = some c') : Ending c' := by
  refine ⟨he.1.step h, ?_⟩
  rcases step_turn h with hw | hd | ⟨halive, -⟩
  · cases hw <;> exact he.2
  · cases hd with
    | delete => exact he.2
    | _ => exact nofun
  · exact absurd halive he.2

/-- The destructor can go on when the worker cannot. -/
theorem Ending.destructor_goes (he : Ending c) (hrank : c.remaining ≠ 0) (hnone : c.stepWorker = none) :
    ∃ c', c.stepDestructor = some c' := by
  obtain ⟨hinstep, halive⟩ := he
  cases hd : c.destructor with
  | alive => exact absurd hd halive
  | readCompleted | abort => simp [Closing.stepDestructor, hd]
  | join =>
    rcases stepWorker_none hnone with ⟨hw, hcaught⟩ | ⟨t, rows, ranges, hw⟩
    · simp [Closing.stepDestructor, hd, hw, hcaught]
    · exact absurd (hinstep.joining hd) (fun hset => hinstep.completed.mp hset (by rw [hw]; trivial))
  | drain => cases hdata : c.state.data <;> simp [Closing.stepDestructor, hd, hdata]
  | deleted =>
    obtain ⟨hw, hcaught⟩ := hinstep.joined (.inr hd)
    have hdata := hinstep.drained hd
    simp [Closing.remaining, Closing.loop, hd, hw, hcaught, hdata, Worker.rank, Destructor.rank] at hrank

theorem helpful : Turns.Helpful (fun a (c : Closing Row) => c.step a) Ending Closing.remaining Closing.helper where
  inv := fun he h => he.step h
  helps := fun {c} he hrank => by
    unfold Closing.helper
    cases hgo : c.stepWorker with
    | some c' => exact ⟨c', hgo, (stepWorker_turn hgo).remaining he⟩
    | none =>
      obtain ⟨c', hd⟩ := he.destructor_goes hrank hgo
      refine ⟨c', hd, ?_⟩
      rcases (stepDestructor_turn hd).remaining he with hlt | ⟨-, -, hsome⟩
      · exact hlt
      · simp [hgo] at hsome
  others := fun he h => by
    rcases step_turn h with hw | hd | ⟨halive, -⟩
    · exact .inl (hw.remaining he)
    · rcases hd.remaining he with hlt | ⟨heq, hhelper, -⟩
      · exact .inl hlt
      · exact .inr ⟨heq, hhelper⟩
    · exact absurd halive he.2

/-- Once it has started the destructor ends, however the turns of the two threads come: a worker that
waits in its push is woken, if not by the first abort then by a later one. -/
theorem destructor_ends {capacity : Nat} (h : Closing.Reachable capacity ranges c) (hd : c.destructor ≠ .alive)
    (rounds : List (List Turn)) (hfair : ∀ round ∈ rounds, .worker ∈ round ∧ .destructor ∈ round)
    (hlen : c.remaining ≤ rounds.length) :
    (Turns.play (fun a (c : Closing Row) => c.step a) c rounds.flatten).destructor = .deleted := by
  have hending : Ending c := ⟨(reachable_accounted h).1, hd⟩
  have hturns : ∀ round ∈ rounds, ∀ c : Closing Row, c.helper ∈ round := by
    intro round hround c
    obtain ⟨hworker, hdestructor⟩ := hfair round hround
    unfold Closing.helper
    split
    · exact hworker
    · exact hdestructor
  have hend := helpful.ends hending hturns hlen
  obtain ⟨-, halive⟩ := helpful.play hending rounds.flatten
  generalize Turns.play (fun a (c : Closing Row) => c.step a) c rounds.flatten = c' at hend halive
  cases hdestructor : c'.destructor with
  | deleted => rfl
  | alive => exact absurd hdestructor halive
  | _ => simp [Closing.remaining, hdestructor, Destructor.rank] at hend

/-- The worker is at its push when the capacity is set to zero. -/
def atPush : List Turn := List.replicate 5 .worker ++ [.destructor]

theorem push_woken : (Turns.play (fun a (c : Closing String) => c.step a) (.play 1 [some ["a", "b"]] atPush)
    (List.replicate 24 [Turn.destructor, .worker]).flatten).destructor = .deleted := by
  have hstart : (Closing.play 1 [some ["a", "b"]] atPush).destructor ≠ .alive := by decide +kernel
  have hlen : (Closing.play 1 [some ["a", "b"]] atPush).remaining ≤ 24 := by decide +kernel
  apply destructor_ends (reachable_play 1 [some ["a", "b"]] atPush) hstart
  · intro round hround
    rw [List.eq_of_mem_replicate hround]
    decide
  · rw [List.length_replicate]
    exact hlen

end ending

end Prefetch

end Hecuba
