import Mathlib.Data.List.Nodup
import Hecuba.WriteConservation

/-! What a flush guarantees: when `wait_writes_completion` returns, no write that the
Writer has accepted is still parked, queued or in flight. -/

namespace Hecuba

variable {N T : Nat} {K V : Type}

/-- The writes that wait in dirty_blocks. While they are flushed these are the items
that the loop has not reached. -/
def Client.parked (c : Client N K V) : List (Parked K V) := c.flushing.getD c.dirtyBlocks

/-- The item carries the values of the write it names, under a key of the same hash. -/
def Params.Carries (P : Params N K V) (accepted : List (TupleRow K × V)) (e : Parked K V) : Prop :=
  ∃ a, accepted[e.write]? = some a ∧ P.hash e.keys.content = P.hash a.1.content ∧ e.values = a.2

def Params.Replaces (P : Params N K V) (accepted : List (TupleRow K × V)) (p : Nat × Nat) : Prop :=
  p.1 < p.2 ∧ ∃ a b, accepted[p.1]? = some a ∧ accepted[p.2]? = some b ∧
    P.hash a.1.content = P.hash b.1.content

theorem Params.Carries.append {P : Params N K V} {accepted : List (TupleRow K × V)}
    {e : Parked K V} (h : P.Carries accepted e) (b : TupleRow K × V) :
    P.Carries (accepted ++ [b]) e := by
  obtain ⟨a, ha, hh⟩ := h
  have hlt := (List.getElem?_eq_some_iff.mp ha).1
  exact ⟨a, by rw [List.getElem?_append_left hlt, ha], hh⟩

theorem Params.Replaces.append {P : Params N K V} {accepted : List (TupleRow K × V)}
    {p : Nat × Nat} (h : P.Replaces accepted p) (d : TupleRow K × V) :
    P.Replaces (accepted ++ [d]) p := by
  obtain ⟨hlt, a, b, ha, hb, hh⟩ := h
  have hla := (List.getElem?_eq_some_iff.mp ha).1
  have hlb := (List.getElem?_eq_some_iff.mp hb).1
  exact ⟨hlt, a, b, by rw [List.getElem?_append_left hla, ha],
    by rw [List.getElem?_append_left hlb, hb], hh⟩

theorem Params.carries_last (P : Params N K V) (accepted : List (TupleRow K × V))
    (keys : TupleRow K) (k : TupleRow K) (values : V)
    (hk : P.hash k.content = P.hash keys.content) :
    P.Carries (accepted ++ [(keys, values)]) ⟨accepted.length, k, values⟩ :=
  ⟨(keys, values), by simp, hk, rfl⟩

structure WritesKept (P : Params N K V) (parked queued : List (Parked K V))
    (accepted : List (TupleRow K × V)) (replaced : List (Nat × Nat)) : Prop where
  distinct : (parked.map fun e => P.hash e.keys.content).Nodup
  kept : ∀ i < accepted.length, i ∈ parked.map Parked.write ∨ i ∈ replaced.map Prod.fst ∨
    i ∈ queued.map Parked.write
  parked : ∀ e ∈ parked, P.Carries accepted e
  queued : ∀ e ∈ queued, P.Carries accepted e
  replaced : ∀ p ∈ replaced, P.Replaces accepted p

section

variable {P : Params N K V} {parked queued : List (Parked K V)}
  {accepted : List (TupleRow K × V)} {replaced : List (Nat × Nat)}

theorem WritesKept.perm {parked' : List (Parked K V)} (h : WritesKept P parked queued accepted replaced)
    (hp : parked'.Perm parked) : WritesKept P parked' queued accepted replaced := by
  refine ⟨(hp.map _).nodup_iff.mpr h.distinct, fun i hi => ?_,
    fun e he => h.parked e (hp.mem_iff.mp he), h.queued, h.replaced⟩
  rw [(hp.map Parked.write).mem_iff]
  exact h.kept i hi

theorem WritesKept.flushItem {e : Parked K V}
    (h : WritesKept P (e :: parked) queued accepted replaced) :
    WritesKept P parked (queued ++ [e]) accepted replaced := by
  refine ⟨(List.nodup_cons.mp h.distinct).2, fun i hi => ?_,
    fun a ha => h.parked a (List.mem_cons_of_mem e ha), fun a ha => ?_, h.replaced⟩
  · have hk := h.kept i hi
    rw [List.map_cons, List.mem_cons] at hk
    rw [List.map_append, List.mem_append]
    rcases hk with (rfl | hk) | hk | hk
    · exact .inr (.inr (.inr (List.mem_singleton.mpr rfl)))
    · exact .inl hk
    · exact .inr (.inl hk)
    · exact .inr (.inr (.inl hk))
  · rcases List.mem_append.mp ha with ha | ha
    · exact h.queued a ha
    · rw [List.mem_singleton.mp ha]
      exact h.parked e List.mem_cons_self

theorem WritesKept.write (h : WritesKept P parked queued accepted replaced) (keys : TupleRow K)
    (values : V) :
    WritesKept P parked (queued ++ [⟨accepted.length, keys, values⟩]) (accepted ++ [(keys, values)])
      replaced := by
  refine ⟨h.distinct, fun i hi => ?_, fun e he => (h.parked e he).append _, fun e he => ?_,
    fun p hp => (h.replaced p hp).append _⟩
  · rw [List.length_append, List.length_singleton] at hi
    rw [List.map_append, List.mem_append]
    rcases Nat.lt_succ_iff_lt_or_eq.mp hi with hlt | rfl
    · rcases h.kept i hlt with hm | hm | hm
      · exact .inl hm
      · exact .inr (.inl hm)
      · exact .inr (.inr (.inl hm))
    · exact .inr (.inr (.inr (List.mem_singleton.mpr rfl)))
  · rcases List.mem_append.mp he with he | he
    · exact (h.queued e he).append _
    · rw [List.mem_singleton.mp he]
      exact P.carries_last _ keys keys values rfl

theorem WritesKept.add (h : WritesKept P parked queued accepted replaced) {keys : TupleRow K}
    (hnone : P.findParked parked keys = none) (values : V) :
    WritesKept P (parked ++ [⟨accepted.length, keys, values⟩]) queued (accepted ++ [(keys, values)])
      replaced := by
  refine ⟨?_, fun i hi => ?_, fun e he => ?_, fun e he => (h.queued e he).append _,
    fun p hp => (h.replaced p hp).append _⟩
  · have hnew : P.hash keys.content ∉ parked.map fun e => P.hash e.keys.content := by
      intro hm
      obtain ⟨e, he, hk⟩ := List.mem_map.mp hm
      have hh := List.find?_eq_none.mp hnone e he
      simp [hk] at hh
    rw [List.map_append, List.map_singleton, List.nodup_append]
    refine ⟨h.distinct, List.nodup_singleton _, fun x hx y hy hxy => ?_⟩
    rw [List.mem_singleton.mp hy] at hxy
    exact hnew (hxy ▸ hx)
  · rw [List.map_append, List.mem_append]
    rw [List.length_append, List.length_singleton] at hi
    rcases Nat.lt_succ_iff_lt_or_eq.mp hi with hlt | rfl
    · rcases h.kept i hlt with hm | hm
      · exact .inl (.inl hm)
      · exact .inr hm
    · exact .inl (.inr (List.mem_singleton.mpr rfl))
  · rcases List.mem_append.mp he with he | he
    · exact (h.parked e he).append _
    · rw [List.mem_singleton.mp he]
      exact P.carries_last _ keys keys values rfl

theorem WritesKept.replace (h : WritesKept P parked queued accepted replaced) {keys : TupleRow K}
    {old : Parked K V} (hold : P.findParked parked keys = some old) (values : V) :
    WritesKept P
      (parked.map fun e => if P.hash e.keys.content = P.hash keys.content then
        ⟨accepted.length, e.keys, values⟩ else e)
      queued (accepted ++ [(keys, values)]) (replaced ++ [(old.write, accepted.length)]) := by
  have hmem : old ∈ parked := List.mem_of_find?_eq_some hold
  have hkey : P.hash old.keys.content = P.hash keys.content := by
    simpa using List.find?_some hold
  -- the item found is the only one whose hash is that of the new key
  have honly (e : Parked K V) (he : e ∈ parked)
      (hh : P.hash e.keys.content = P.hash keys.content) : e = old :=
    List.inj_on_of_nodup_map h.distinct he hmem (hh.trans hkey.symm)
  refine ⟨?_, fun i hi => ?_, fun e he => ?_, fun e he => (h.queued e he).append _,
    fun p hp => ?_⟩
  · rw [List.map_map, List.map_congr_left (g := fun e => P.hash e.keys.content)]
    · exact h.distinct
    · intro e he
      simp only [Function.comp]
      split <;> rfl
  · rw [List.map_map, List.map_append]
    rw [List.length_append, List.length_singleton] at hi
    rcases Nat.lt_succ_iff_lt_or_eq.mp hi with hlt | rfl
    · rcases h.kept i hlt with hm | hm | hm
      · obtain ⟨e, he, rfl⟩ := List.mem_map.mp hm
        by_cases hh : P.hash e.keys.content = P.hash keys.content
        · rw [honly e he hh]
          exact .inr (.inl (List.mem_append_right _ (List.mem_singleton.mpr rfl)))
        · refine .inl (List.mem_map.mpr ⟨e, he, ?_⟩)
          simp only [Function.comp, if_neg hh]
      · exact .inr (.inl (List.mem_append_left _ hm))
      · exact .inr (.inr hm)
    · refine .inl (List.mem_map.mpr ⟨old, hmem, ?_⟩)
      simp only [Function.comp, if_pos hkey]
  · obtain ⟨e, hm, rfl⟩ := List.mem_map.mp he
    split
    · exact P.carries_last _ keys e.keys values ‹_›
    · exact (h.parked e hm).append _
  · rcases List.mem_append.mp hp with hp | hp
    · exact (h.replaced p hp).append _
    · obtain ⟨a, ha, hk, -⟩ := h.parked old hmem
      have hlt := (List.getElem?_eq_some_iff.mp ha).1
      rw [List.mem_singleton.mp hp]
      refine ⟨hlt, a, (keys, values), ?_, by simp, hk.symm.trans hkey⟩
      rw [List.getElem?_append_left hlt, ha]

end

/-- The invariant of one Writer. Its last field says that lazy mode is left only
after the flush that `disable_lazy_write` starts. -/
structure LazySafe (P : Params N K V) (c : Client N K V) : Prop where
  writes : WritesKept P c.parked c.queued c.accepted c.replaced
  eager : c.lazyWriteEnabled = false → c.dirtyBlocks = [] ∧ c.flushing = none
  lazyOff : .lazyOff ∉ c.todo.tail ∧
    ∀ rest, c.todo = .lazyOff :: rest → c.flushing = none → c.dirtyBlocks = []

theorem parked_of_not_flushing {c : Client N K V} (hf : c.flushing = none) :
    c.parked = c.dirtyBlocks := by
  rw [Client.parked, hf]
  rfl

theorem WritesKept.startFlush {P : Params N K V} {c : Client N K V}
    (h : WritesKept P c.parked c.queued c.accepted c.replaced) (hf : c.flushing = none) :
    WritesKept P (c.startFlush P).parked (c.startFlush P).queued (c.startFlush P).accepted
      (c.startFlush P).replaced := by
  rw [parked_of_not_flushing hf] at h
  unfold Client.startFlush
  split
  · exact h.perm (P.walk_perm _)
  · rw [parked_of_not_flushing hf]
    exact h

theorem WritesKept.park {P : Params N K V} {c : Client N K V}
    (h : WritesKept P c.parked c.queued c.accepted c.replaced) (hf : c.flushing = none)
    (keys : TupleRow K) (values : V) :
    WritesKept P (c.park P keys values).parked (c.park P keys values).queued
      (c.park P keys values).accepted (c.park P keys values).replaced := by
  rw [parked_of_not_flushing hf] at h
  unfold Client.park
  dsimp only
  split
  · simp only [Client.parked, hf, Option.getD_none]
    exact h.add ‹_› values
  · simp only [Client.parked, hf, Option.getD_none]
    exact h.replace ‹_› values

theorem park_mode (P : Params N K V) (c : Client N K V) (keys : TupleRow K) (values : V) :
    (c.park P keys values).lazyWriteEnabled = c.lazyWriteEnabled ∧
      (c.park P keys values).flushing = c.flushing := by
  unfold Client.park
  dsimp only
  split <;> exact ⟨rfl, rfl⟩

theorem startFlush_mode (P : Params N K V) (c : Client N K V) :
    (c.startFlush P).lazyWriteEnabled = c.lazyWriteEnabled ∧
      (c.startFlush P).dirtyBlocks = c.dirtyBlocks ∧ (c.startFlush P).todo = c.todo := by
  unfold Client.startFlush
  split <;> exact ⟨rfl, rfl, rfl⟩

theorem LazySafe.of_todo {P : Params N K V} {c : Client N K V}
    (hw : WritesKept P c.parked c.queued c.accepted c.replaced)
    (he : c.lazyWriteEnabled = false → c.dirtyBlocks = [] ∧ c.flushing = none)
    (ht : Instr.lazyOff ∉ c.todo) : LazySafe P c := by
  refine ⟨hw, he, fun hm => ht (List.mem_of_mem_tail hm), fun rest hr => ?_⟩
  rw [hr] at ht
  exact (ht List.mem_cons_self).elim

theorem lazySafe_call {P : Params N K V} {c : Client N K V} (h : LazySafe P c) (w : Fin N)
    (a : Call K V) (calls : List (Call K V)) :
    LazySafe P { c with todo := Client.program P w a, calls := calls } := by
  refine .of_todo h.writes h.eager ?_
  cases a with
  | deleteCrow keys =>
    simp only [Client.program]
    split <;> simp
  | writeToCassandra | writeColumn | enableLazyWrite | disableLazyWrite | flushElements | putCrow |
      getCrow => simp [Client.program]

theorem lazySafe_writeLazy {P : Params N K V} {c : Client N K V} {w : Fin N} {keys : TupleRow K}
    {values : V} {rest : List (Instr N K V)} (h : LazySafe P c) (hf : c.flushing = none)
    (ht : c.todo = .write keys values :: rest) (hl : c.lazyWriteEnabled = true) :
    LazySafe P (c.writeLazy P w rest keys values) := by
  have hrest : Instr.lazyOff ∉ rest := by simpa [ht] using h.lazyOff.1
  obtain ⟨hmode, hflush⟩ := park_mode P c keys values
  let c' : Client N K V := { c.park P keys values with todo := rest }
  have hkept : WritesKept P c'.parked c'.queued c'.accepted c'.replaced := h.writes.park hf keys values
  unfold Client.writeLazy
  dsimp only
  split
  · obtain ⟨hm, -, htodo⟩ := startFlush_mode P c'
    refine .of_todo (hkept.startFlush (hflush.trans hf)) (fun he => ?_) (by rw [htodo]; exact hrest)
    rw [hm, show c'.lazyWriteEnabled = _ from hmode, hl] at he
    cases he
  · refine .of_todo hkept (fun he => ?_) hrest
    rw [show c'.lazyWriteEnabled = _ from hmode, hl] at he
    cases he

def Request.item (r : Request N K V) : Parked K V := ⟨r.write, r.keys, r.values⟩

/-- What a Writer has queued is what the WriterThread has received from it, in order. -/
def QueuedInOrder (s : State N T K V) : Prop :=
  ∀ w, (s.requests.filter fun r => r.writer = w).map Request.item = (s.clients w).queued

theorem queuedInOrder_queue {P : Params N K V} {s : State N T K V} {w : Fin N} {c : Client N K V}
    (h : QueuedInOrder s) (hq : c.queued = (s.clients w).queued) (e : Parked K V) (now : Int) :
    QueuedInOrder (s.queueAsyncQuery P w c e now) := by
  intro v
  have hv := h v
  simp only [State.queueAsyncQuery, State.setClient, List.filter_append, List.map_append, hv]
  by_cases hvw : v = w
  · subst hvw
    simp [hq, Request.item]
  · simp [Function.update_of_ne hvw, Ne.symm hvw]

variable [DecidableEq K]

theorem lazySafe_exec {P : Params N K V} {rows : K → List V} {c c' : Client N K V}
    {i : Instr N K V} {rest : List (Instr N K V)} (h : LazySafe P c) (hf : c.flushing = none)
    (ht : c.todo = i :: rest) (he : c.exec P rows rest i = some c') : LazySafe P c' := by
  have hrest : Instr.lazyOff ∉ rest := by simpa [ht] using h.lazyOff.1
  have hflush := h.writes.startFlush (P := P) hf
  obtain ⟨hm, hd, -⟩ := startFlush_mode P c
  have hstay : (c.startFlush P).lazyWriteEnabled = false →
      (c.startFlush P).dirtyBlocks = [] ∧ (c.startFlush P).flushing = none := by
    intro hl
    rw [hm] at hl
    refine ⟨hd ▸ (h.eager hl).1, ?_⟩
    simp only [Client.startFlush, hl, Bool.false_eq_true, if_false, hf]
  cases i with
  | write | delete | deleted => cases he
  | enableLazy =>
    cases he
    exact .of_todo h.writes (fun hl => by cases hl) hrest
  | disableLazy =>
    simp only [Client.exec, Option.some.injEq] at he
    subst he
    split
    · rename_i hl
      refine ⟨hflush, hstay, hrest, fun _ _ hn => ?_⟩
      simp [Client.startFlush, hl] at hn
    · exact .of_todo h.writes h.eager hrest
  | lazyOff =>
    cases he
    exact .of_todo h.writes (fun _ => ⟨h.lazyOff.2 rest ht hf, hf⟩) hrest
  | flushDirtyBlocks =>
    cases he
    exact .of_todo hflush hstay hrest
  | await =>
    simp only [Client.exec] at he
    split at he
    · cases he
      exact .of_todo h.writes h.eager hrest
    · cases he
  | cacheAdd | cacheRemove =>
    cases he
    exact .of_todo h.writes h.eager hrest
  | lookup keys =>
    simp only [Client.exec] at he
    split at he
    · cases he
      exact .of_todo h.writes h.eager hrest
    · cases he
      exact .of_todo h.writes h.eager (by simpa using hrest)
  | select keys =>
    simp only [Client.exec] at he
    split at he <;> cases he <;> exact .of_todo h.writes h.eager hrest

theorem lazySafe_local {P : Params N K V} {w : Fin N} {rows : K → List V} {c c' : Client N K V}
    (h : LazySafe P c) (hf : c.flushing = none) (hm : LocalMove P w rows c c') : LazySafe P c' := by
  cases hm with
  | parked ht hl => exact lazySafe_writeLazy h hf ht hl
  | exec ht he => exact lazySafe_exec h hf ht he

theorem lazySafe_step {P : Params N K V} {s : State N T K V} {w : Fin N} {c : Client N K V}
    (hm : ClientMove P s w c) (h : LazySafe P (s.clients w)) : LazySafe P c := by
  cases hm with
  | call a hidle => exact lazySafe_call h w a _
  | sent | finish => exact ⟨h.writes, h.eager, h.lazyOff⟩
  | flushItem r now e rest hs hf =>
    obtain ⟨hw, he, hl⟩ := h
    rw [Client.parked, hf] at hw
    refine ⟨hw.flushItem, fun hlazy => ?_, hl.1, fun _ _ hn => ?_⟩
    · have hh := (he hlazy).2
      rw [hf] at hh
      cases hh
    · cases hn
  | flushEnd hs hf =>
    obtain ⟨hw, he, hl⟩ := h
    rw [Client.parked, hf] at hw
    exact ⟨hw, fun _ => ⟨rfl, rfl⟩, hl.1, fun _ _ _ => rfl⟩
  | write r now keys values rest hs hf ht hl =>
    have hrest : Instr.lazyOff ∉ rest := by simpa [ht] using h.lazyOff.1
    exact .of_todo (h.writes.write keys values) h.eager hrest
  | inTable c hs hf hm => exact lazySafe_local h hf hm
  | delete now keys rest hs hf ht =>
    have hrest : Instr.lazyOff ∉ rest := by simpa [ht] using h.lazyOff.1
    exact .of_todo h.writes h.eager (by simpa using hrest)
  | deleted st rest hs hf ht ha =>
    have hrest : Instr.lazyOff ∉ rest := by simpa [ht] using h.lazyOff.1
    exact .of_todo h.writes h.eager hrest

theorem reachable_lazySafe {P : Params N K V} [DecidableEq V] {s : State N T K V}
    (h : Reachable P s) (w : Fin N) : LazySafe P (s.clients w) := by
  refine Reachable.clientInvariant (I := fun _ => LazySafe P) (fun w => ?_)
    (fun _ _ _ hm hi => lazySafe_step hm hi) h w
  refine .of_todo ⟨List.nodup_nil, ?_, ?_, ?_, ?_⟩ (fun _ => ⟨rfl, rfl⟩) List.not_mem_nil <;>
    simp [Client.new, Client.parked]

theorem queuedInOrder_step {P : Params N K V} {s s' : State N T K V} (h : ProtocolMove P s s')
    (hi : QueuedInOrder s) : QueuedInOrder s' := by
  have hset {w : Fin N} {c : Client N K V} (hc : c.queued = (s.clients w).queued) :
      QueuedInOrder (s.setClient w c) := by
    intro v
    by_cases hv : v = w
    · subst hv
      simpa [State.setClient, hc] using hi v
    · simpa [State.setClient, Function.update_of_ne hv] using hi v
  cases h with
  | flushItem w now e rest hs hf =>
    apply queuedInOrder_queue hi
    rfl
  | write w now keys values rest hs hf ht hl =>
    apply queuedInOrder_queue hi
    rfl
  | inTable w c hs hf hm => exact hset hm.sameRequests.queued
  | call w | push w | signal w | flushEnd w | delete w | deleted w => exact hset (w := w) rfl
  | finish t r ht => exact hset (w := r.writer) rfl
  | wake | popNothing | pop | bind | acquire | execute | apply | enter | releasePermit | giveUp |
      retry | rebind | reacquire | reexecute => exact hi

variable [DecidableEq V]

theorem reachable_queuedInOrder {P : Params N K V} {s : State N T K V} (h : Reachable P s) :
    QueuedInOrder s :=
  Reachable.invariant (fun _ => rfl) (fun _ _ => queuedInOrder_step) h

theorem not_outstanding_of_zero {P : Params N K V} {s : State N T K V} (h : Reachable P s)
    {w : Fin N} (h0 : (s.clients w).ncallbacks = 0) : ∀ r ∈ s.outstanding, ¬ r.writer = w := by
  have hzero := (reachable_requestsCounted h).counted w
  rw [h0] at hzero
  exact Multiset.countP_eq_zero.mp hzero.symm

theorem acked_of_ncallbacks_zero {P : Params N K V} {s : State N T K V} (h : Reachable P s)
    {w : Fin N} (h0 : (s.clients w).ncallbacks = 0) {r : Request N K V} (hr : r ∈ s.requests)
    (hw : r.writer = w) : r ∈ s.acked := by
  have hm : r ∈ s.outstanding + s.acked := by
    rw [(reachable_requestsCounted h).places]
    exact Multiset.mem_coe.mpr hr
  rcases Multiset.mem_add.mp hm with hm | hm
  · exact (not_outstanding_of_zero h h0 r hm hw).elim
  · exact Multiset.mem_coe.mp hm

/-- The write `i` of `w` has reached the database: the driver has acknowledged a request
with the values of the write `j`, which is `i` itself or replaced it in dirty_blocks. -/
def Acknowledged (P : Params N K V) (s : State N T K V) (w : Fin N) (i j : Nat) : Prop :=
  ∃ a b, (s.clients w).accepted[i]? = some a ∧ (s.clients w).accepted[j]? = some b ∧
    P.hash a.1.content = P.hash b.1.content ∧
    ∃ r ∈ s.acked, r.writer = w ∧ r.write = j ∧ P.hash r.keys.content = P.hash b.1.content ∧
      r.values = b.2

theorem acknowledged_of_kept {P : Params N K V} {s : State N T K V} (h : Reachable P s)
    {w : Fin N} (h0 : (s.clients w).ncallbacks = 0) (hp : (s.clients w).parked = []) (i : Nat)
    (hi : i < (s.clients w).accepted.length) :
    ∃ j, Acknowledged P s w i j ∧ (i = j ∨ i < j ∧ i ∈ (s.clients w).replaced.map Prod.fst) := by
  have hw := (reachable_lazySafe h w).writes
  rcases hw.kept i hi with hm | hm | hm
  · rw [hp] at hm
    exact (List.not_mem_nil hm).elim
  · obtain ⟨p, hmem, rfl⟩ := List.mem_map.mp hm
    obtain ⟨hlt, a, b, ha, hb, hab⟩ := hw.replaced p hmem
    have hlen := (List.getElem?_eq_some_iff.mp hb).1
    -- the write that replaced this one is a later one: go on from there
    obtain ⟨j, ⟨b', d, hb', hd, hbd, hr⟩, hj⟩ := acknowledged_of_kept h h0 hp p.2 hlen
    obtain rfl := Option.some.inj (hb.symm.trans hb')
    refine ⟨j, ⟨a, d, ha, hd, hab.trans hbd, hr⟩, .inr ⟨?_, hm⟩⟩
    rcases hj with rfl | ⟨hj, -⟩
    · exact hlt
    · exact hlt.trans hj
  · obtain ⟨e, he, rfl⟩ := List.mem_map.mp hm
    obtain ⟨a, ha, hk, hv⟩ := hw.queued e he
    rw [← reachable_queuedInOrder h w] at he
    obtain ⟨r, hr, rfl⟩ := List.mem_map.mp he
    obtain ⟨hreq, hwr⟩ := List.mem_filter.mp hr
    have hwr : r.writer = w := by simpa using hwr
    exact ⟨_, ⟨a, a, ha, ha, rfl, r, acked_of_ncallbacks_zero h h0 hreq hwr, hwr, rfl, hk, hv⟩,
      .inl rfl⟩
termination_by (s.clients w).accepted.length - i

/-- The loop of `wait_writes_completion` is about to see its condition hold. -/
def State.waitReturns (s : State N T K V) (w : Fin N) : Prop :=
  (s.clients w).sending = .idle ∧ (s.clients w).flushing = none ∧
    (s.clients w).todo.head? = some .await ∧ (s.clients w).isWriteCompleted = true

/-- A Writer out of lazy mode has nothing parked, and a flush returns only when every
write accepted before it has been acknowledged, or replaced while it was parked by a
later write of an equal hash that has been acknowledged. -/
theorem flush_safety {P : Params N K V} {s : State N T K V} (h : Reachable P s) (w : Fin N) :
    ((s.clients w).lazyWriteEnabled = false → (s.clients w).dirtyBlocks = []) ∧
    (s.waitReturns w → ∀ i < (s.clients w).accepted.length, ∃ j, Acknowledged P s w i j ∧
      (i = j ∨ i < j ∧ i ∈ (s.clients w).replaced.map Prod.fst)) := by
  refine ⟨fun hl => ((reachable_lazySafe h w).eager hl).1, fun hwait i hi => ?_⟩
  obtain ⟨-, hf, -, hdone⟩ := hwait
  simp only [Client.isWriteCompleted, Bool.and_eq_true, decide_eq_true_eq,
    List.isEmpty_iff] at hdone
  apply acknowledged_of_kept h hdone.1 ?_ i hi
  rw [parked_of_not_flushing hf, hdone.2]

def flushedTwice (w : Fin N) (t : Fin T) : List (Action N T Nat Nat) :=
  [.call w .enableLazyWrite, .client w 0, .call w (.writeToCassandra ⟨5, 0⟩ 1), .client w 0,
    .call w (.writeToCassandra ⟨5, 1⟩ 2), .client w 0, .call w .flushElements, .client w 0,
    .client w 3, .client w 0, .client w 0, .client w 0, .worker, .worker, .worker, .worker, .worker,
    .apply 0, .enter t 0 true, .callback t, .callback t]

instance (s : State N T K V) (w : Fin N) : Decidable (s.waitReturns w) :=
  inferInstanceAs (Decidable (_ ∧ _ ∧ _ ∧ _))

/-- The first of the two values is never sent: only the second is acknowledged. -/
theorem replaced_write_not_acknowledged :
    ∃ s : State 1 1 Nat Nat, Reachable oneTable s ∧ s.waitReturns 0 ∧
      (s.clients 0).accepted[0]? = some (TupleRow.mk 5 0, 1) ∧
      ∀ r ∈ s.acked, r.write ≠ 0 ∧ r.values ≠ 1 := by
  obtain ⟨s, hs, hp⟩ := exists_reachable (T := 1) (P := oneTable) (flushedTwice 0 0) (fun s =>
    decide (s.waitReturns 0 ∧ (s.clients 0).accepted[0]? = some (TupleRow.mk 5 0, 1) ∧
      ∀ r ∈ s.acked, r.write ≠ 0 ∧ r.values ≠ 1)) (by decide +kernel)
  exact ⟨s, hs, of_decide_eq_true hp⟩

theorem flush_safety_twice :
    ∃ s : State 1 1 Nat Nat, Reachable oneTable s ∧ s.waitReturns 0 ∧
      (s.clients 0).accepted.length = 2 ∧ ∀ i < 2, ∃ j, Acknowledged oneTable s 0 i j ∧
        (i = j ∨ i < j ∧ i ∈ (s.clients 0).replaced.map Prod.fst) := by
  obtain ⟨s, hs, hp⟩ := exists_reachable (T := 1) (P := oneTable) (flushedTwice 0 0) (fun s =>
    decide (s.waitReturns 0 ∧ (s.clients 0).accepted.length = 2)) (by decide +kernel)
  obtain ⟨hw, hlen⟩ := of_decide_eq_true hp
  refine ⟨s, hs, hw, hlen, ?_⟩
  rw [← hlen]
  exact (flush_safety hs 0).2 hw

end Hecuba
