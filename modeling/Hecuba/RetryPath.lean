import Hecuba.WriteConservation

/-! What becomes of a request whose callback fails: it is sent again from inside the
callback, or given up once the errors of the whole process exceed `MAX_ERRORS`. -/

namespace Hecuba

variable {N T : Nat} {K V : Type}

/-- Abandoned writes are accounted for: a request is given up only after it has itself
failed more than `MAX_ERRORS` times, its Writer counts it no more, and so a Writer
without a request in its hands, in the queue, with the worker, in flight or in a
callback has its counter at zero. -/
structure AbandonedAccounted [DecidableEq K] [DecidableEq V] (s : State N T K V) : Prop where
  failures : ∀ r ∈ s.abandoned, maxErrors < s.failed.count r
  counted : ∀ w, (s.clients w).ncallbacks =
    (s.requests.filter fun r => r.writer = w ∧ r ∉ s.acked ∧ r ∉ s.abandoned).length
  settled : ∀ w, (∀ p, p ≠ .acknowledged → ∀ r ∈ s.at p, r.writer ≠ w) →
    (s.clients w).ncallbacks = 0

theorem abandoned_mem_outstanding (s : State N T K V) {r : Request N K V}
    (hr : r ∈ s.abandoned) : r ∈ s.outstanding :=
  Multiset.mem_add.mpr (.inr (Multiset.mem_coe.mpr hr))

variable [DecidableEq K] [DecidableEq V]

theorem not_counted_of_abandoned {P : Params N K V} {s : State N T K V} (h : Reachable P s)
    {r : Request N K V} (hr : r ∈ s.abandoned) :
    (s.requests.filter fun a => a.writer = r.writer ∧ a ∉ s.acked ∧ a ∉ s.abandoned).length <
      (s.clients r.writer).ncallbacks := by
  have hout := abandoned_mem_outstanding s hr
  rw [outstanding_eq_filter h] at hout
  obtain ⟨hreq, hack⟩ := Multiset.mem_filter.mp hout
  rw [ncallbacks_eq_filter h]
  have hsub : (s.requests.filter fun a => a.writer = r.writer ∧ a ∉ s.acked ∧ a ∉ s.abandoned) =
      (s.requests.filter fun a => a.writer = r.writer ∧ a ∉ s.acked).filter
        fun a => a ∉ s.abandoned := by
    rw [List.filter_filter]
    apply List.filter_congr
    intro a _
    simp only [← Bool.decide_and]
    exact decide_eq_decide.mpr (by tauto)
  rw [hsub]
  refine List.length_filter_lt_length_iff_exists.mpr ⟨r, List.mem_filter.mpr ⟨?_, ?_⟩, ?_⟩
  · exact Multiset.mem_coe.mp hreq
  · simpa using hack
  · simpa using hr

theorem settled_of_not_abandoned {P : Params N K V} {s : State N T K V} (h : Reachable P s)
    (ha : s.abandoned = []) {w : Fin N}
    (hw : ∀ p, p ≠ .acknowledged → ∀ r ∈ s.at p, r.writer ≠ w) : (s.clients w).ncallbacks = 0 := by
  rw [(reachable_requestsCounted h).counted, Multiset.countP_eq_zero]
  intro r hr
  simp only [State.outstanding, ha, Multiset.coe_nil, add_zero, Multiset.mem_add] at hr
  rcases hr with (((hr | hr) | hr) | hr) | hr
  · exact hw .client (by decide) r hr
  · exact hw .queue (by decide) r hr
  · exact hw .worker (by decide) r hr
  · exact hw .flight (by decide) r hr
  · exact hw .callback (by decide) r hr

/-- In every run: as long as no more than `MAX_ERRORS` callbacks have failed, on
whichever tables, the abandoned writes are accounted for; from the next failure on
they are not. -/
theorem abandoned_accounted_iff {P : Params N K V} {s : State N T K V} (h : Reachable P s) :
    AbandonedAccounted s ↔ s.failed.length ≤ maxErrors := by
  have he := (reachable_errorsCounted h).abandoned
  rw [← he]
  constructor
  · intro hacc
    cases ha : s.abandoned with
    | nil => rfl
    | cons r rest =>
      have hlt := not_counted_of_abandoned h (ha ▸ List.mem_cons_self : r ∈ s.abandoned)
      exact (Nat.ne_of_lt hlt (hacc.counted r.writer).symm).elim
  · intro ha
    refine ⟨fun r hr => ?_, fun w => ?_, fun w hw => settled_of_not_abandoned h ha hw⟩
    · rw [ha] at hr
      exact (List.not_mem_nil hr).elim
    · simpa [ha] using ncallbacks_eq_filter h w

def sendOnce (w : Fin N) : List (Action N T Nat Nat) :=
  [.call w (.writeToCassandra ⟨0, 0⟩ 7), .client w 1, .client w 1, .client w 1,
    .worker, .worker, .worker, .worker, .worker]

def failOnce (t : Fin T) : List (Action N T Nat Nat) :=
  [.enter t 0 false, .callback t, .callback t, .callback t, .callback t, .callback t]

/-- Ten failures of one write, which then succeeds, and a single failure of the next one. -/
def lastStraw (w : Fin N) (t : Fin T) : List (Action N T Nat Nat) :=
  sendOnce w ++ (List.replicate 10 (failOnce t)).flatten ++
    [.apply 0, .enter t 0 true, .callback t, .callback t] ++ sendOnce w ++
    [.enter t 0 false, .callback t, .callback t]

/-- The second write is given up after its first failure and its Writer waits for it for ever. -/
theorem write_given_up_after_one_failure :
    ∃ s : State 1 1 Nat Nat, Reachable oneTable s ∧
      (∃ r ∈ s.abandoned, s.failed.count r = 1) ∧ (s.clients 0).ncallbacks = 1 ∧
      (∀ p, p ≠ .acknowledged → s.at p = 0) ∧ ¬ AbandonedAccounted s := by
  obtain ⟨s, hs, hp⟩ := exists_reachable (T := 1) (P := oneTable) (lastStraw 0 0) (fun s =>
    decide ((∃ r ∈ s.abandoned, s.failed.count r = 1) ∧ (s.clients 0).ncallbacks = 1 ∧
      (∀ p, p ≠ .acknowledged → s.at p = 0))) (by decide +kernel)
  obtain ⟨hone, hn, hempty⟩ := of_decide_eq_true hp
  refine ⟨s, hs, hone, hn, hempty, fun hacc => ?_⟩
  have hh := hacc.settled 0 fun p hne r hr => by
    rw [hempty p hne] at hr
    exact (Multiset.notMem_zero r hr).elim
  rw [hn] at hh
  cases hh

theorem abandoned_accounted_iff_straw :
    ∃ s : State 1 1 Nat Nat, Reachable oneTable s ∧ s.failed.length = 11 ∧
      ¬ AbandonedAccounted s := by
  obtain ⟨s, hs, hp⟩ := exists_reachable (T := 1) (P := oneTable) (lastStraw 0 0) (fun s =>
    decide (s.failed.length = 11)) (by decide +kernel)
  have hlen := of_decide_eq_true hp
  refine ⟨s, hs, hlen, fun hacc => ?_⟩
  have hh := (abandoned_accounted_iff hs).mp hacc
  rw [hlen] at hh
  exact absurd hh (by decide)

end Hecuba
