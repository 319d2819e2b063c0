import Hecuba.FlushSafety

/-! Which call an instruction is part of. What a client still has to do belongs to its
last call, so that a client which never makes some call never does what only that call does. -/

namespace Hecuba

variable {N T : Nat} {K V : Type}

def Instr.partOf : Instr N K V → Call K V → Bool
  | .write .., .writeToCassandra .. | .write .., .writeColumn .. | .write .., .putCrow .. => true
  | .enableLazy, .enableLazyWrite => true
  | .disableLazy, .writeColumn .. | .disableLazy, .disableLazyWrite => true
  | .lazyOff, .writeColumn .. | .lazyOff, .disableLazyWrite => true
  | .flushDirtyBlocks, .flushElements | .flushDirtyBlocks, .getCrow _ => true
  | .flushDirtyBlocks, .deleteCrow _ => true
  | .await, .flushElements | .await, .getCrow _ | .await, .deleteCrow _ => true
  | .cacheAdd .., .putCrow .. => true
  | .lookup _, .getCrow _ | .select _, .getCrow _ => true
  | .delete _, .deleteCrow _ | .deleted _, .deleteCrow _ | .cacheRemove _, .deleteCrow _ => true
  | _, _ => false

theorem program_partOf (P : Params N K V) (w : Fin N) (a : Call K V) :
    ∀ i ∈ Client.program P w a, i.partOf a = true := by
  cases a with
  | deleteCrow keys =>
    simp only [Client.program]
    split <;> simp [Instr.partOf]
  | writeToCassandra | writeColumn | enableLazyWrite | disableLazyWrite | flushElements | putCrow |
      getCrow => simp [Client.program, Instr.partOf]

theorem writeLazy_todo (P : Params N K V) (w : Fin N) (c : Client N K V)
    (rest : List (Instr N K V)) (keys : TupleRow K) (values : V) :
    (c.writeLazy P w rest keys values).todo = rest := by
  unfold Client.writeLazy
  dsimp only
  split
  · rw [(startFlush_mode P _).2.2]
  · rfl

/-- What an instruction leaves to do: the rest of its call, after instructions of the same call. -/
inductive TodoMove (c c' : Client N K V) : Prop
  | same (h : c'.todo = c.todo)
  | next (i : Instr N K V) (pre rest : List (Instr N K V)) (ht : c.todo = i :: rest)
      (h : c'.todo = pre ++ rest) (hpre : ∀ a, i.partOf a = true → ∀ j ∈ pre, j.partOf a = true)

variable [DecidableEq K]

theorem todo_of_exec {P : Params N K V} {rows : K → List V} {c c' : Client N K V}
    {i : Instr N K V} {rest : List (Instr N K V)} (ht : c.todo = i :: rest)
    (he : c.exec P rows rest i = some c') : TodoMove c c' := by
  have hgo (h : c'.todo = rest) : TodoMove c c' := .next i [] rest ht h (by simp)
  cases i with
  | write | delete | deleted => cases he
  | enableLazy | lazyOff | cacheAdd | cacheRemove | flushDirtyBlocks =>
    cases he
    exact hgo rfl
  | disableLazy =>
    simp only [Client.exec, Option.some.injEq] at he
    subst he
    split
    · refine .next _ [.lazyOff] rest ht rfl fun a ha => ?_
      cases a <;> first | (simp [Instr.partOf]; done) | cases ha
    · exact .next _ [] rest ht rfl (by simp)
  | await =>
    simp only [Client.exec] at he
    split at he
    · cases he
      exact hgo rfl
    · cases he
  | lookup keys =>
    simp only [Client.exec] at he
    split at he
    · cases he
      exact hgo rfl
    · cases he
      refine .next _ [.flushDirtyBlocks, .await, .select keys] rest ht rfl fun a ha => ?_
      cases a <;> first | (simp [Instr.partOf]; done) | cases ha
  | select keys =>
    simp only [Client.exec] at he
    split at he <;> cases he <;> exact hgo rfl

theorem todo_of_move {P : Params N K V} {s : State N T K V} {w : Fin N} {c : Client N K V}
    (hm : ClientMove P s w c) :
    (∃ a, c.todo = Client.program P w a ∧ c.calls = (s.clients w).calls ++ [a]) ∨
      c.calls = (s.clients w).calls ∧ TodoMove (s.clients w) c := by
  cases hm with
  | call a hi => exact .inl ⟨a, rfl, rfl⟩
  | inTable c hs hf hm =>
    refine .inr ⟨hm.sameRequests.calls, ?_⟩
    cases hm with
    | parked ht hl => exact .next _ [] _ ht (writeLazy_todo P w _ _ _ _) (by simp)
    | exec ht he => exact todo_of_exec ht he
  | write r now keys values rest hs hf ht hl => exact .inr ⟨rfl, .next _ [] rest ht rfl (by simp)⟩
  | deleted st rest hs hf ht ha => exact .inr ⟨rfl, .next _ [] rest ht rfl (by simp)⟩
  | delete now keys rest hs hf ht =>
    refine .inr ⟨rfl, .next _ [.deleted _, .cacheRemove keys] rest ht rfl fun a ha => ?_⟩
    cases a <;> first | (simp [Instr.partOf]; done) | cases ha
  | sent | flushItem | flushEnd | finish => exact .inr ⟨rfl, .same rfl⟩

def Client.InCall (c : Client N K V) : Prop :=
  ∀ i ∈ c.todo, ∃ a ∈ c.calls.getLast?, i.partOf a = true

theorem inCall_step {P : Params N K V} {s : State N T K V} {w : Fin N} {c : Client N K V}
    (hm : ClientMove P s w c) (h : (s.clients w).InCall) : c.InCall := by
  intro i hi
  rcases todo_of_move hm with ⟨a, ht, hc⟩ | ⟨hc, hh⟩
  · rw [ht] at hi
    rw [hc, List.getLast?_concat]
    exact ⟨a, rfl, program_partOf P w a i hi⟩
  · rw [hc]
    cases hh with
    | same ht => exact h i (ht ▸ hi)
    | next j pre rest ht ht' hpre =>
      rw [ht'] at hi
      rcases List.mem_append.mp hi with hi | hi
      · obtain ⟨a, ha, hj⟩ := h j (ht ▸ List.mem_cons_self)
        exact ⟨a, ha, hpre a hj i hi⟩
      · exact h i (ht ▸ List.mem_cons_of_mem _ hi)

theorem lazy_of_exec {P : Params N K V} {rows : K → List V} {c c' : Client N K V}
    {i : Instr N K V} {rest : List (Instr N K V)} (he : c.exec P rows rest i = some c')
    (hl : c'.lazyWriteEnabled = true) : c.lazyWriteEnabled = true ∨ i = .enableLazy := by
  cases i with
  | write | delete | deleted => cases he
  | enableLazy => exact .inr rfl
  | lazyOff =>
    cases he
    cases hl
  | cacheAdd | cacheRemove =>
    cases he
    exact .inl hl
  | disableLazy =>
    simp only [Client.exec, Option.some.injEq] at he
    subst he
    split at hl
    · exact .inl ‹_›
    · exact .inl hl
  | flushDirtyBlocks =>
    cases he
    exact .inl ((startFlush_mode P c).1 ▸ hl)
  | await =>
    simp only [Client.exec] at he
    split at he
    · cases he
      exact .inl hl
    · cases he
  | lookup | select =>
    simp only [Client.exec] at he
    split at he <;> cases he <;> exact .inl hl

theorem lazy_step {P : Params N K V} {s : State N T K V} {w : Fin N} {c : Client N K V}
    (hm : ClientMove P s w c) (ht : (s.clients w).InCall)
    (h : (s.clients w).lazyWriteEnabled = true → .enableLazyWrite ∈ (s.clients w).calls)
    (hl : c.lazyWriteEnabled = true) : .enableLazyWrite ∈ c.calls := by
  cases hm with
  | call a hi => exact List.mem_append_left _ (h hl)
  | inTable c hs hf hm =>
    rw [hm.sameRequests.calls]
    cases hm with
    | parked hw hlazy => exact h hlazy
    | exec hi he =>
      rcases lazy_of_exec he hl with hl | rfl
      · exact h hl
      · obtain ⟨a, ha, hp⟩ := ht .enableLazy (hi ▸ List.mem_cons_self)
        cases a with
        | enableLazyWrite => exact List.mem_of_mem_getLast? ha
        | writeToCassandra | writeColumn | disableLazyWrite | flushElements | putCrow | getCrow |
            deleteCrow => cases hp
  | sent | flushItem | flushEnd | write | delete | deleted | finish => exact h hl

variable [DecidableEq V]

theorem reachable_inCall {P : Params N K V} {s : State N T K V} (h : Reachable P s) (w : Fin N) :
    (s.clients w).InCall :=
  Reachable.clientInvariant (I := fun _ => Client.InCall)
    (fun _ _ hi => (List.not_mem_nil hi).elim) (fun _ _ _ => inCall_step) h w

/-- Without a call of `enable_lazy_write` a Writer stays out of lazy mode. -/
theorem eager_of_calls {P : Params N K V} {s : State N T K V} (h : Reachable P s) {w : Fin N}
    (hc : .enableLazyWrite ∉ (s.clients w).calls) : (s.clients w).lazyWriteEnabled = false := by
  have hinv := Reachable.clientInvariant (P := P) (I := fun _ c => c.InCall ∧
    (c.lazyWriteEnabled = true → .enableLazyWrite ∈ c.calls))
    (fun _ => ⟨fun _ hi => (List.not_mem_nil hi).elim, fun hl => by cases hl⟩)
    (fun _ _ _ hm hi => ⟨inCall_step hm hi.1, lazy_step hm hi.1 hi.2⟩) h w
  exact Bool.eq_false_of_not_eq_true fun hl => hc (hinv.2 hl)

theorem no_select_of_calls {P : Params N K V} {s : State N T K V} (h : Reachable P s) {w : Fin N}
    (hc : ∀ keys, .getCrow keys ∉ (s.clients w).calls) (keys : K) :
    .select keys ∉ (s.clients w).todo := by
  intro hi
  obtain ⟨a, ha, hp⟩ := reachable_inCall h w _ hi
  cases a with
  | getCrow k => exact hc k (List.mem_of_mem_getLast? ha)
  | writeToCassandra | writeColumn | enableLazyWrite | disableLazyWrite | flushElements | putCrow |
      deleteCrow => cases hp

end Hecuba
