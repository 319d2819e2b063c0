import Hecuba.CallSteps

/-! A `get_crow` waits for nothing but the acknowledgements of the writes before it. -/

namespace Hecuba

variable {N T : Nat} {K V : Type}

/-- A client in a `get_crow`, out of lazy mode and with no write outstanding. -/
structure Reading (keys : K) (c : Client N K V) : Prop where
  sending : c.sending = .idle
  flushing : c.flushing = none
  eager : c.lazyWriteEnabled = false
  dirty : c.dirtyBlocks = []
  acked : c.ncallbacks = 0
  todo : ∀ i ∈ c.todo, i.partOf (.getCrow keys) = true

def Instr.weight : Instr N K V → Nat
  | .lookup _ => 4
  | _ => 1

def Client.weight (c : Client N K V) : Nat := (c.todo.map Instr.weight).sum

variable [DecidableEq K]

theorem reading_exec {P : Params N K V} (rows : K → List V) {keys : K} {c : Client N K V}
    (h : Reading keys c) {i : Instr N K V} {rest : List (Instr N K V)} (ht : c.todo = i :: rest) :
    ∃ c', c.exec P rows rest i = some c' ∧ Reading keys c' ∧ c'.calls = c.calls ∧
      c'.weight < c.weight := by
  obtain ⟨hs, hf, hl, hd, hn, htodo⟩ := h
  rw [ht] at htodo
  have hrest (j : Instr N K V) (hj : j ∈ rest) := htodo j (List.mem_cons_of_mem _ hj)
  have hi := htodo i List.mem_cons_self
  have hw : c.weight = i.weight + (rest.map Instr.weight).sum := by
    simp [Client.weight, ht]
  rw [hw]
  cases i with
  | write | enableLazy | disableLazy | lazyOff | cacheAdd | cacheRemove | delete | deleted =>
    cases hi
  | flushDirtyBlocks =>
    refine ⟨_, rfl, ⟨?_, ?_, ?_, ?_, ?_, hrest⟩, ?_, Nat.lt_add_of_pos_left Nat.one_pos⟩ <;>
      simp [Client.startFlush, *]
  | await =>
    have hdone : c.isWriteCompleted = true := by simp [Client.isWriteCompleted, hn, hd]
    refine ⟨{ c with todo := rest }, ?_, ⟨hs, hf, hl, hd, hn, hrest⟩, rfl,
      Nat.lt_add_of_pos_left Nat.one_pos⟩
    rw [Client.exec, if_pos hdone]
  | lookup k =>
    simp only [Client.exec]
    split
    · refine ⟨_, rfl, ⟨hs, hf, hl, hd, hn, hrest⟩, rfl, ?_⟩
      exact Nat.lt_add_of_pos_left (show 0 < 4 by decide)
    · refine ⟨_, rfl, ⟨hs, hf, hl, hd, hn, fun j hj => ?_⟩, rfl, ?_⟩
      · simp only [List.mem_cons] at hj
        rcases hj with rfl | rfl | rfl | hj
        · rfl
        · rfl
        · rfl
        · exact hrest j hj
      · simp only [Client.weight, List.map_cons, List.sum_cons, Instr.weight]
        omega
  | select k =>
    simp only [Client.exec]
    split <;> exact ⟨_, rfl, ⟨hs, hf, hl, hd, hn, hrest⟩, rfl, Nat.lt_add_of_pos_left Nat.one_pos⟩

variable [DecidableEq V]

theorem reading_step {P : Params N K V} {s : State N T K V} {w : Fin N} {keys : K}
    (h : Reading keys (s.clients w)) {i : Instr N K V} {rest : List (Instr N K V)}
    (ht : (s.clients w).todo = i :: rest) (now : Int) :
    ∃ s', s.step P (.client w now) = some s' ∧ Reading keys (s'.clients w) ∧
      (∀ v, (s'.clients v).calls = (s.clients v).calls) ∧
      (s'.clients w).weight < (s.clients w).weight := by
  obtain ⟨c, he, hc, hcalls, hlt⟩ := reading_exec (P := P) (s.rowsOf P w) h ht
  refine ⟨s.setClient w c, ?_, by simpa [State.setClient] using hc, fun v => ?_,
    by simpa [State.setClient] using hlt⟩
  swap
  · by_cases hv : v = w
    · subst hv
      simpa [State.setClient] using hcalls
    · simp [State.setClient, Function.update_of_ne hv]
  have hi := h.todo i (ht ▸ List.mem_cons_self)
  simp only [State.step, State.stepClient, h.sending, h.flushing, ht]
  cases i with
  | write | enableLazy | disableLazy | lazyOff | cacheAdd | cacheRemove | delete | deleted =>
    cases hi
  | flushDirtyBlocks | await | lookup | select =>
    simp only [State.stepInstr, he, Option.map_some]

theorem reading_returns {P : Params N K V} {w : Fin N} {keys : K} (now : Int) (m : Nat)
    {s : State N T K V} (h : Reading keys (s.clients w)) (hm : (s.clients w).weight = m) :
    ∃ n s', s.run P (List.replicate n (.client w now)) = some s' ∧
      (s'.clients w).isIdle = true ∧ ∀ v, (s'.clients v).calls = (s.clients v).calls := by
  induction m using Nat.strong_induction_on generalizing s with
  | _ m ih =>
    cases ht : (s.clients w).todo with
    | nil => exact ⟨0, s, rfl, by simp [Client.isIdle, h.sending, h.flushing, ht], fun _ => rfl⟩
    | cons i rest =>
      obtain ⟨u, hu, hread, hcalls, hlt⟩ := reading_step (P := P) h ht now
      obtain ⟨n, s', hrun, hidle, hc⟩ := ih _ (hm ▸ hlt) hread rfl
      refine ⟨n + 1, s', ?_, hidle, fun v => (hc v).trans (hcalls v)⟩
      rw [List.replicate_succ, State.run, List.foldlM_cons, hu]
      exact hrun

theorem sending_in_call {P : Params N K V} {s : State N T K V} (h : Reachable P s) (w : Fin N)
    (hlazy : .enableLazyWrite ∉ (s.clients w).calls) :
    (s.clients w).sending ≠ .idle → ∀ keys, (s.clients w).calls.getLast? ≠ some (.getCrow keys) := by
  refine Reachable.relInvariant (I := fun s => .enableLazyWrite ∉ (s.clients w).calls →
    (s.clients w).sending ≠ .idle → ∀ keys, (s.clients w).calls.getLast? ≠ some (.getCrow keys))
    (fun _ hs => (hs rfl).elim) (fun s s' hr hm hi hl hs => ?_) h hlazy
  rcases move_client hm w with he | hc
  · rw [he] at hl hs ⊢
    exact hi hl hs
  generalize s'.clients w = c at hc hl hs
  cases hc with
  | call a hidle => exact (hs (isIdle_spec hidle).1).elim
  | sent sending hs' => exact hi hl hs'
  | flushItem r now e rest hs' hf =>
    have hnone := ((reachable_lazySafe hr w).eager (eager_of_calls hr hl)).2
    rw [hf] at hnone
    cases hnone
  | write r now keys values rest hs' hf ht hl' =>
    intro k hk
    obtain ⟨a, ha, hp⟩ := reachable_inCall hr w _ (ht ▸ List.mem_cons_self)
    obtain rfl := Option.some.inj (ha.symm.trans hk)
    cases hp
  | inTable c hs' hf hm' => exact (hs (hm'.sameRequests.sending.trans hs')).elim
  | flushEnd hs' | delete now keys rest hs' | deleted st rest hs' => exact (hs hs').elim
  | finish => exact hi hl hs

/-- Once its writes are acknowledged a client in a `get_crow` gets to its end by itself. -/
theorem get_returns {P : Params N K V} {s : State N T K V} (h : Reachable P s) {w : Fin N}
    (hlazy : .enableLazyWrite ∉ (s.clients w).calls) {keys : K}
    (hlast : (s.clients w).calls.getLast? = some (.getCrow keys))
    (hacked : ∀ r ∈ s.requests, r.writer = w → r ∈ s.acked) (now : Int) :
    ∃ n s', s.run P (List.replicate n (.client w now)) = some s' ∧
      (s'.clients w).isIdle = true ∧ ∀ v, (s'.clients v).calls = (s.clients v).calls := by
  have heager := eager_of_calls h hlazy
  obtain ⟨hd, hf⟩ := (reachable_lazySafe h w).eager heager
  have h0 : (s.clients w).ncallbacks = 0 := by
    rw [ncallbacks_eq_filter h, List.length_eq_zero_iff, List.filter_eq_nil_iff]
    intro r hr hh
    obtain ⟨hw, hno⟩ := of_decide_eq_true hh
    exact hno (hacked r hr hw)
  have htodo : ∀ i ∈ (s.clients w).todo, i.partOf (.getCrow keys) = true := by
    intro i hi
    obtain ⟨a, ha, hp⟩ := reachable_inCall h w i hi
    rw [hlast] at ha
    obtain rfl := Option.some.inj ha
    exact hp
  have hs : (s.clients w).sending = .idle := by
    by_contra hs
    exact sending_in_call h w hlazy hs keys hlast
  exact reading_returns now _ ⟨hs, hf, heager, hd, h0, htodo⟩ rfl

end Hecuba
