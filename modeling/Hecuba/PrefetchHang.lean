import Hecuba.PrefetchEnd

/-! When the consumer of the prefetcher can be left waiting for ever: it looks at
`completed` and pops in two steps, and an abort between them wakes nobody. -/

namespace Hecuba

namespace Prefetch

variable {Row : Type} {capacity : Nat} {ranges : List (QueryResult Row)} {s s' : State Row}

/-- The consumer waits for a row, and no thread is left that could push one or abort. -/
def Hung (s : State Row) : Prop := s.consumer = .popBlocked ∧ s.data = [] ∧ s.worker = .returned

theorem Hung.no_step (h : Hung s) (s' : State Row) : ¬ Step capacity s s' := by
  obtain ⟨hconsumer, hdata, hworker⟩ := h
  rintro (hw | hc)
  · simp [workerStep, hworker] at hw
  · simp [consumerStep, hconsumer, hdata] at hc

/-- The last abort is not executed between the consumer's look at `completed` and its pop of
an empty queue. -/
def AbortHeard (s s' : State Row) : Prop :=
  s.worker = .abort → s'.worker = .returned → ¬ (s.consumer = .pop ∧ s.data = [])

/-- The states reached by steps that all meet the condition. -/
abbrev ReachableHeard (capacity : Nat) (ranges : List (QueryResult Row)) : State Row → Prop :=
  Relation.ReflTransGen (fun s s' => Step capacity s s' ∧ AbortHeard s s') (.initial ranges)

/-- Once the worker is gone the consumer only pops what is there. -/
def PopsServed (s : State Row) : Prop :=
  s.worker = .returned → s.consumer = .pop ∨ s.consumer = .popBlocked → s.data ≠ []

theorem WorkerMove.popsServed (h : WorkerMove capacity s s') (hheard : AbortHeard s s') : PopsServed s' := by
  cases h with
  | go w _ hrun' _ _ => exact fun hw => absurd hrun' (by rw [show w = .returned from hw]; exact id)
  | giveUp _ _ => exact nofun
  | push t w _ hrun' _ _ => exact fun hw => absurd hrun' (by rw [show w = .returned from hw]; exact id)
  | complete _ => exact nofun
  | abort hw =>
    rintro - (hpop | hblocked)
    · cases hc : s.consumer <;> simp [abortCalls, hc] at hpop
      simpa [abortCalls, hc] using fun hd => hheard hw rfl ⟨hc, hd⟩
    · cases hc : s.consumer <;> simp [abortCalls, hc] at hblocked

theorem ConsumerMove.popsServed (h : ConsumerMove s s') (hcontrolled : Controlled s) (hi : PopsServed s) :
    PopsServed s' := by
  cases h with
  | notCompleted _ hd =>
    intro hw _
    have hset : s.completed = true := hcontrolled.completed.mpr (by rw [show s.worker = .returned from hw]; exact id)
    exact absurd (hset.symm.trans hd) (by decide)
  | notEmpty _ hd => exact fun _ _ => hd
  | block hc hd => exact fun hw _ => absurd hd (hi hw (.inl hc))
  | _ => exact fun _ h => by rcases h with h | h <;> cases h

theorem reachableHeard_reachable (h : ReachableHeard capacity ranges s) : Reachable capacity ranges s :=
  Relation.ReflTransGen.mono (fun _ _ hstep => hstep.1) _ _ h

theorem reachableHeard_popsServed (h : ReachableHeard capacity ranges s) : PopsServed s := by
  induction h with
  | refl => exact nofun
  | tail hreach hstep ih =>
    obtain ⟨hw | hc, hheard⟩ := hstep
    · exact (workerStep_move hw).popsServed hheard
    · exact (consumerStep_move hc).popsServed (reachable_controlled (reachableHeard_reachable hreach)) ih

theorem hung_of_unheard (hstep : Step capacity s s') (h : ¬ AbortHeard s s') :
    ∃ s'', Step capacity s' s'' ∧ Hung s'' := by
  obtain ⟨worker, data, completed, consumer, results⟩ := s
  simp only [AbortHeard, not_forall, not_not] at h
  obtain ⟨rfl, hreturned, rfl, rfl⟩ := h
  rcases hstep with hw | hc
  · cases hw
    exact ⟨_, .inr rfl, rfl, rfl, rfl⟩
  · have hworker := (consumerStep_move hc).worker
    rw [hreturned] at hworker
    cases hworker

/-- No run hangs in which every abort is heard, and one that is not leaves the consumer, at
its next step, waiting for ever. -/
theorem hung_only_unheard (capacity : Nat) (ranges : List (QueryResult Row)) :
    (∀ s, ReachableHeard capacity ranges s → ¬ Hung s) ∧
      ∀ s s', Reachable capacity ranges s → Step capacity s s' → ¬ AbortHeard s s' →
        ∃ s'', Step capacity s' s'' ∧ Hung s'' := by
  constructor
  · rintro s hreach ⟨hconsumer, hdata, hworker⟩
    exact reachableHeard_popsServed hreach hworker (.inr hconsumer) hdata
  · exact fun s s' _ hstep h => hung_of_unheard hstep h

/-- Whatever the queries, some run hangs. -/
theorem exists_hung (hc : 0 < capacity) (ranges : List (QueryResult Row)) :
    ∃ s, Reachable capacity ranges s ∧ Hung s := by
  obtain ⟨results, hsteps⟩ := steps_complete hc ranges []
  have hend : Steps capacity ⟨.complete, [], false, .idle, results⟩
      ⟨.returned, [], true, .popBlocked, results⟩ :=
    .head (.inr rfl) (.head (.inr rfl) (.head (.inl rfl) (.head (.inl rfl) (.single (.inr rfl)))))
  exact ⟨_, hsteps.trans hend, rfl, rfl, rfl⟩

theorem hung_after_one_row : ∃ s, Reachable 100 [some ["a"]] s ∧ Hung s :=
  exists_hung (by decide) [some ["a"]]

end Prefetch

end Hecuba
