import Hecuba.CallSteps

/-! What has been waited for: a select, and a delete of a table without timestamps, begin
when every write before them has been acknowledged, and so ends a `flush_elements`. -/

namespace Hecuba

variable {N T : Nat} {K V : Type}

def Instr.waits (P : Params N K V) (w : Fin N) : Instr N K V → Bool
  | .select _ => true
  | .delete _ => P.disableTimestamps w
  | _ => false

inductive WaitGuarded (P : Params N K V) (w : Fin N) (c : Client N K V) : Prop
  | free (h : ∀ j ∈ c.todo, j.waits P w = false)
  | flush (i : Instr N K V) (rest : List (Instr N K V))
      (ht : c.todo = .flushDirtyBlocks :: .await :: i :: rest) (hi : i.waits P w = true)
      (h : ∀ j ∈ rest, j.waits P w = false)
  | await (i : Instr N K V) (rest : List (Instr N K V)) (ht : c.todo = .await :: i :: rest)
      (hi : i.waits P w = true) (h : ∀ j ∈ rest, j.waits P w = false)
  | ready (i : Instr N K V) (rest : List (Instr N K V)) (ht : c.todo = i :: rest)
      (hi : i.waits P w = true) (h : ∀ j ∈ rest, j.waits P w = false) (hn : c.ncallbacks = 0)
      (hf : c.flushing = none)

theorem waitGuarded_program (P : Params N K V) (w : Fin N) (c : Client N K V) (a : Call K V)
    (h : c.todo = Client.program P w a) : WaitGuarded P w c := by
  cases a with
  | deleteCrow keys =>
    cases hts : P.disableTimestamps w with
    | true =>
      simp only [Client.program, hts, if_true] at h
      exact .flush (.delete keys) [] h hts (by simp)
    | false =>
      simp only [Client.program, hts] at h
      refine .free fun j hj => ?_
      rw [h] at hj
      obtain rfl := List.mem_singleton.mp hj
      exact hts
  | writeToCassandra | writeColumn | enableLazyWrite | disableLazyWrite | flushElements | putCrow |
      getCrow =>
    refine .free fun j hj => ?_
    simp only [h, Client.program, List.mem_cons, List.not_mem_nil, or_false] at hj
    first
      | (subst hj; rfl)
      | (rcases hj with rfl | rfl <;> rfl)

/-- Behind an instruction that is not part of a flush nothing waits. -/
theorem rest_free {P : Params N K V} {w : Fin N} {c : Client N K V} {i : Instr N K V}
    {rest : List (Instr N K V)} (h : WaitGuarded P w c) (ht : c.todo = i :: rest)
    (hi : i ≠ .flushDirtyBlocks ∧ i ≠ .await) : ∀ j ∈ rest, j.waits P w = false := by
  cases h with
  | free h =>
    rw [ht] at h
    exact fun j hj => h j (List.mem_cons_of_mem _ hj)
  | flush k r ht' =>
    rw [ht] at ht'
    exact (hi.1 (List.cons.inj ht').1).elim
  | await k r ht' =>
    rw [ht] at ht'
    exact (hi.2 (List.cons.inj ht').1).elim
  | ready k r ht' hk hr =>
    rw [ht] at ht'
    exact (List.cons.inj ht').2 ▸ hr

theorem waitGuarded_next {P : Params N K V} {w : Fin N} {c c' : Client N K V} {i : Instr N K V}
    {rest : List (Instr N K V)} (pre : List (Instr N K V)) (h : WaitGuarded P w c)
    (ht : c.todo = i :: rest) (hc : c'.todo = pre ++ rest) (hpre : ∀ j ∈ pre, j.waits P w = false)
    (hi : i ≠ .flushDirtyBlocks ∧ i ≠ .await) : WaitGuarded P w c' := by
  refine .free fun j hj => ?_
  rw [hc] at hj
  rcases List.mem_append.mp hj with hj | hj
  · exact hpre j hj
  · exact rest_free h ht hi j hj

theorem waitGuarded_flush {P : Params N K V} {w : Fin N} {c c' : Client N K V}
    {rest : List (Instr N K V)} (h : WaitGuarded P w c) (ht : c.todo = .flushDirtyBlocks :: rest)
    (hc : c'.todo = rest) : WaitGuarded P w c' := by
  cases h with
  | free h =>
    rw [ht] at h
    exact .free fun j hj => h j (List.mem_cons_of_mem _ (hc ▸ hj))
  | flush k r ht' hk hr =>
    rw [ht'] at ht
    cases ht
    exact .await k r hc hk hr
  | await k r ht' =>
    rw [ht'] at ht
    cases ht
  | ready k r ht' hk =>
    rw [ht'] at ht
    cases ht
    cases hk

theorem waitGuarded_await {P : Params N K V} {w : Fin N} {c c' : Client N K V}
    {rest : List (Instr N K V)} (h : WaitGuarded P w c) (ht : c.todo = .await :: rest)
    (hc : c'.todo = rest) (hn : c'.ncallbacks = 0) (hf : c'.flushing = none) :
    WaitGuarded P w c' := by
  cases h with
  | free h =>
    rw [ht] at h
    exact .free fun j hj => h j (List.mem_cons_of_mem _ (hc ▸ hj))
  | flush k r ht' =>
    rw [ht'] at ht
    cases ht
  | await k r ht' hk hr =>
    rw [ht'] at ht
    cases ht
    exact .ready k r hc hk hr hn hf
  | ready k r ht' hk =>
    rw [ht'] at ht
    cases ht
    cases hk

theorem waitGuarded_same {P : Params N K V} {w : Fin N} {c c' : Client N K V}
    (h : WaitGuarded P w c) (ht : c'.todo = c.todo)
    (hf : c.flushing = none → c'.flushing = none ∧ (c.ncallbacks = 0 → c'.ncallbacks = 0)) :
    WaitGuarded P w c' := by
  cases h with
  | free h => exact .free (ht ▸ h)
  | flush i r hi hw hr => exact .flush i r (ht.trans hi) hw hr
  | await i r hi hw hr => exact .await i r (ht.trans hi) hw hr
  | ready i r hi hw hr hn hnone =>
    obtain ⟨hf', hn'⟩ := hf hnone
    exact .ready i r (ht.trans hi) hw hr (hn' hn) hf'

/-- A `flush_elements` comes to its end with no write outstanding. -/
inductive FlushGuarded (c : Client N K V) : Prop
  | other (h : c.calls.getLast? ≠ some .flushElements)
  | flush (ht : c.todo = [.flushDirtyBlocks, .await])
  | await (ht : c.todo = [.await])
  | done (ht : c.todo = []) (hs : c.sending = .idle) (hf : c.flushing = none)
      (hn : c.ncallbacks = 0)

variable [DecidableEq K]

theorem waitGuarded_exec {P : Params N K V} {w : Fin N} {rows : K → List V} {c c' : Client N K V}
    {i : Instr N K V} {rest : List (Instr N K V)} (h : WaitGuarded P w c)
    (hf : c.flushing = none) (ht : c.todo = i :: rest) (he : c.exec P rows rest i = some c') :
    WaitGuarded P w c' := by
  cases i with
  | write | delete | deleted => cases he
  | enableLazy | lazyOff | cacheAdd | cacheRemove =>
    cases he
    exact waitGuarded_next [] h ht rfl (by simp) (by simp)
  | disableLazy =>
    simp only [Client.exec, Option.some.injEq] at he
    subst he
    split
    · exact waitGuarded_next [.lazyOff] h ht rfl (by simp [Instr.waits]) (by simp)
    · exact waitGuarded_next [] h ht rfl (by simp) (by simp)
  | flushDirtyBlocks =>
    cases he
    exact waitGuarded_flush h ht rfl
  | await =>
    simp only [Client.exec] at he
    split at he
    · rename_i hdone
      cases he
      simp only [Client.isWriteCompleted, Bool.and_eq_true, decide_eq_true_eq] at hdone
      exact waitGuarded_await h ht rfl hdone.1 hf
    · cases he
  | lookup keys =>
    simp only [Client.exec] at he
    split at he
    · cases he
      exact waitGuarded_next [] h ht rfl (by simp) (by simp)
    · cases he
      exact .flush (.select keys) rest rfl rfl (rest_free h ht (by simp))
  | select keys =>
    simp only [Client.exec] at he
    split at he <;> cases he <;> exact waitGuarded_next [] h ht rfl (by simp) (by simp)

theorem waitGuarded_step {P : Params N K V} {s : State N T K V} {w : Fin N} {c : Client N K V}
    (hm : ClientMove P s w c) (h : WaitGuarded P w (s.clients w)) : WaitGuarded P w c := by
  cases hm with
  | call a hi => exact waitGuarded_program P w _ a rfl
  | inTable c hs hf hm =>
    cases hm with
    | parked ht hl =>
      exact waitGuarded_next [] h ht (writeLazy_todo P w _ _ _ _) (by simp) (by simp)
    | exec ht he => exact waitGuarded_exec h hf ht he
  | write r now keys values rest hs hf ht hl =>
    exact waitGuarded_next [] h ht rfl (by simp) (by simp)
  | delete now keys rest hs hf ht =>
    exact waitGuarded_next [.deleted _, .cacheRemove keys] h ht rfl (by simp [Instr.waits]) (by simp)
  | deleted st rest hs hf ht ha => exact waitGuarded_next [] h ht rfl (by simp) (by simp)
  | flushItem r now e rest hs hf | flushEnd hs hf =>
    exact waitGuarded_same h rfl fun hnone => by
      rw [hf] at hnone
      cases hnone
  | sent | finish => exact waitGuarded_same h rfl fun hnone => ⟨hnone, fun hn => by simp [hn]⟩

theorem flushGuarded_exec {P : Params N K V} {rows : K → List V} {c c' : Client N K V}
    {i : Instr N K V} {rest : List (Instr N K V)} (h : FlushGuarded c) (hs : c.sending = .idle)
    (hf : c.flushing = none) (ht : c.todo = i :: rest) (he : c.exec P rows rest i = some c') :
    FlushGuarded c' := by
  have hsame := exec_sameRequests he
  cases h with
  | other h => exact .other (hsame.calls ▸ h)
  | flush ht' =>
    rw [ht'] at ht
    cases ht
    cases he
    exact .await rfl
  | await ht' =>
    rw [ht'] at ht
    cases ht
    simp only [Client.exec] at he
    split at he
    · rename_i hdone
      cases he
      simp only [Client.isWriteCompleted, Bool.and_eq_true, decide_eq_true_eq] at hdone
      exact .done rfl hs hf hdone.1
    · cases he
  | done ht' =>
    rw [ht'] at ht
    cases ht

theorem flushGuarded_step {P : Params N K V} {s : State N T K V} {w : Fin N} {c : Client N K V}
    (hm : ClientMove P s w c) (h : FlushGuarded (s.clients w)) : FlushGuarded c := by
  -- a `flush_elements` has no instruction but its flush and its wait
  have hhead {i : Instr N K V} {rest : List (Instr N K V)} (ht : (s.clients w).todo = i :: rest)
      (hi : i ≠ .flushDirtyBlocks ∧ i ≠ .await) :
      (s.clients w).calls.getLast? ≠ some .flushElements := by
    cases h with
    | other h => exact h
    | flush ht' =>
      rw [ht] at ht'
      exact (hi.1 (List.cons.inj ht').1).elim
    | await ht' =>
      rw [ht] at ht'
      exact (hi.2 (List.cons.inj ht').1).elim
    | done ht' =>
      rw [ht] at ht'
      cases ht'
  cases hm with
  | call a hi =>
    by_cases ha : a = .flushElements
    · subst ha
      exact .flush rfl
    · exact .other fun hh => ha (Option.some.inj (by rwa [List.getLast?_concat] at hh))
  | inTable c hs hf hm =>
    have hcalls := hm.sameRequests.calls
    cases hm with
    | parked ht hl => exact .other (hcalls ▸ hhead ht (by simp))
    | exec ht he => exact flushGuarded_exec h hs hf ht he
  | write r now keys values rest hs hf ht hl => exact .other (hhead ht (by simp))
  | delete now keys rest hs hf ht => exact .other (hhead ht (by simp))
  | deleted st rest hs hf ht ha => exact .other (hhead ht (by simp))
  | sent sending hs =>
    cases h with
    | other h => exact .other h
    | flush ht => exact .flush ht
    | await ht => exact .await ht
    | done ht hs' => exact (hs hs').elim
  | flushItem r now e rest hs hf | flushEnd hs hf =>
    cases h with
    | other h => exact .other h
    | flush ht => exact .flush ht
    | await ht => exact .await ht
    | done ht hs' hf' =>
      rw [hf] at hf'
      cases hf'
  | finish =>
    cases h with
    | other h => exact .other h
    | flush ht => exact .flush ht
    | await ht => exact .await ht
    | done ht hs hf hn => exact .done ht hs hf (by simp [hn])

variable [DecidableEq V]

theorem acked_of_wait {P : Params N K V} {s : State N T K V} (h : Reachable P s) {w : Fin N}
    {i : Instr N K V} {rest : List (Instr N K V)} (ht : (s.clients w).todo = i :: rest)
    (hi : i.waits P w = true) : (s.clients w).ncallbacks = 0 := by
  have hg := Reachable.clientInvariant (P := P) (I := WaitGuarded P)
    (fun _ => .free fun _ hj => (List.not_mem_nil hj).elim) (fun _ _ _ => waitGuarded_step) h w
  cases hg with
  | free h' =>
    have hno := h' i (ht ▸ List.mem_cons_self)
    rw [hi] at hno
    cases hno
  | flush k r ht' | await k r ht' =>
    rw [ht'] at ht
    cases ht
    cases hi
  | ready k r ht' hk hr hn hf => exact hn

theorem acked_of_flush {P : Params N K V} {s : State N T K V} (h : Reachable P s) {w : Fin N}
    (hlast : (s.clients w).calls.getLast? = some .flushElements)
    (hidle : (s.clients w).isIdle = true) : (s.clients w).ncallbacks = 0 := by
  have hg := Reachable.clientInvariant (P := P) (I := fun _ => FlushGuarded)
    (fun _ => .other (by simp [Client.new])) (fun _ _ _ => flushGuarded_step) h w
  have hnil := (isIdle_spec hidle).2.2
  cases hg with
  | other hne => exact (hne hlast).elim
  | done _ _ _ hn => exact hn
  | flush ht | await ht =>
    rw [hnil] at ht
    cases ht

end Hecuba
