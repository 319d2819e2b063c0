import Hecuba.AppliedStatements
import Hecuba.CassandraTable

/-! A table whose calls each bring a key row of their own: its statements reach the
database with the timestamps they were given, and once everything is acknowledged the
database holds what the calls would have done one after the other. -/

namespace Hecuba

variable {N T : Nat} {K V : Type}

def Call.payload : Call K V → Option Nat
  | .writeToCassandra keys _ | .writeColumn keys _ | .putCrow keys _ => some keys.payload
  | _ => none

def Instr.payload : Instr N K V → Option Nat
  | .write keys _ => some keys.payload
  | _ => none

def Client.rows (c : Client N K V) : List Nat := c.calls.filterMap Call.payload

/-- The payloads in use: of the call under way, of the items parked and of those queued. -/
def Client.payloads (c : Client N K V) : Multiset Nat :=
  (c.todo.filterMap Instr.payload : Multiset Nat) +
    (c.parked.map fun e => e.keys.payload : List Nat) +
    (c.queued.map fun e => e.keys.payload : List Nat)

theorem program_payload (P : Params N K V) (w : Fin N) (a : Call K V) :
    (Client.program P w a).filterMap Instr.payload = a.payload.toList := by
  cases a with
  | deleteCrow keys =>
    simp only [Client.program]
    split <;> rfl
  | writeToCassandra | writeColumn | enableLazyWrite | disableLazyWrite | flushElements | putCrow |
      getCrow => rfl

theorem payloads_startFlush (P : Params N K V) (c : Client N K V) (hf : c.flushing = none) :
    (c.startFlush P).payloads = c.payloads := by
  unfold Client.startFlush
  split
  · have hp : ((P.walk c.dirtyBlocks).map fun e => e.keys.payload : Multiset Nat) =
        (c.parked.map fun e => e.keys.payload : List Nat) := by
      rw [parked_of_not_flushing hf]
      exact Multiset.coe_eq_coe.mpr ((P.walk_perm _).map _)
    simp only [Client.payloads, Client.parked, Option.getD_some] at *
    rw [hp]
  · rfl

theorem payloads_park (P : Params N K V) (c : Client N K V) (hf : c.flushing = none)
    (keys : TupleRow K) (values : V) :
    (c.park P keys values).payloads ≤ c.payloads + {keys.payload} := by
  unfold Client.park
  dsimp only
  split
  · apply le_of_eq
    simp only [Client.payloads, Client.parked, hf, Option.getD_none, List.map_append,
      List.map_singleton, ← Multiset.coe_add, Multiset.coe_singleton]
    ac_rfl
  · refine le_trans (le_of_eq ?_) (Multiset.le_add_right _ _)
    simp only [Client.payloads, Client.parked, hf, Option.getD_none, List.map_map]
    congr 3
    apply List.map_congr_left
    intro e _
    simp only [Function.comp]
    split <;> rfl

theorem payloads_todo {c c' : Client N K V} {i : Instr N K V} {rest todo : List (Instr N K V)}
    (ht : c.todo = i :: rest) (hc : { c' with todo := c.todo }.payloads = c.payloads)
    (hr : todo.filterMap Instr.payload = rest.filterMap Instr.payload) :
    { c' with todo := todo }.payloads + (i.payload.toList : Multiset Nat) = c.payloads := by
  have hcons : ((i :: rest).filterMap Instr.payload : List Nat) =
      i.payload.toList ++ rest.filterMap Instr.payload := by
    cases hi : i.payload <;> simp [hi]
  rw [← hc]
  simp only [Client.payloads, ht, hr, hcons, ← Multiset.coe_add, Client.parked]
  ac_rfl

theorem payloads_writeLazy {P : Params N K V} {c : Client N K V} {w : Fin N} {keys : TupleRow K}
    {values : V} {rest : List (Instr N K V)} (hf : c.flushing = none)
    (ht : c.todo = .write keys values :: rest) :
    (c.writeLazy P w rest keys values).payloads ≤ c.payloads := by
  let c' : Client N K V := { c.park P keys values with todo := rest }
  have hf' : c'.flushing = none := (park_mode P c keys values).2.trans hf
  have htodo : (c.park P keys values).todo = c.todo := by
    unfold Client.park
    dsimp only
    split <;> rfl
  have hle : c'.payloads ≤ c.payloads := by
    have hp := payloads_park P c hf keys values
    have hh := payloads_todo (c := c.park P keys values) (htodo.trans ht) rfl
      (rfl : rest.filterMap Instr.payload = _)
    rw [← hh] at hp
    exact (Multiset.add_le_add_iff_right).mp hp
  unfold Client.writeLazy
  dsimp only
  split
  · rw [payloads_startFlush P c' hf']
    exact hle
  · exact hle

variable [DecidableEq K]

theorem payloads_exec {P : Params N K V} {rows : K → List V} {c c' : Client N K V}
    {i : Instr N K V} {rest : List (Instr N K V)} (hf : c.flushing = none)
    (ht : c.todo = i :: rest) (he : c.exec P rows rest i = some c') : c'.payloads ≤ c.payloads := by
  have hflush : { c.startFlush P with todo := c.todo }.payloads = c.payloads := by
    rw [← payloads_startFlush P c hf]
    congr 1
    unfold Client.startFlush
    split <;> rfl
  -- the next instructions use no row that `rest` does not
  have hgo {d : Client N K V} {todo : List (Instr N K V)}
      (hd : { d with todo := c.todo }.payloads = c.payloads)
      (hr : todo.filterMap Instr.payload = rest.filterMap Instr.payload) :
      { d with todo := todo }.payloads ≤ c.payloads := by
    rw [← payloads_todo ht hd hr]
    exact Multiset.le_add_right _ _
  cases i with
  | write | delete | deleted => cases he
  | enableLazy | lazyOff | cacheAdd | cacheRemove =>
    cases he
    exact hgo rfl rfl
  | disableLazy =>
    simp only [Client.exec, Option.some.injEq] at he
    subst he
    split
    · exact hgo hflush rfl
    · exact hgo (d := c) rfl rfl
  | flushDirtyBlocks =>
    cases he
    exact hgo hflush rfl
  | await =>
    simp only [Client.exec] at he
    split at he
    · cases he
      exact hgo rfl rfl
    · cases he
  | lookup keys =>
    simp only [Client.exec] at he
    split at he
    · cases he
      exact hgo rfl rfl
    · cases he
      exact hgo (d := c) rfl rfl
  | select keys =>
    simp only [Client.exec] at he
    split at he <;> cases he <;> exact hgo rfl rfl

theorem payloads_step {P : Params N K V} {s : State N T K V} {w : Fin N} {c : Client N K V}
    (hm : ClientMove P s w c) (h : (s.clients w).payloads ≤ (s.clients w).rows) :
    c.payloads ≤ c.rows := by
  cases hm with
  | call a hi =>
    obtain ⟨-, -, htodo⟩ := isIdle_spec hi
    have hp : { s.clients w with
        todo := Client.program P w a, calls := (s.clients w).calls ++ [a] }.payloads =
        (s.clients w).payloads + (a.payload.toList : Multiset Nat) := by
      simp only [Client.payloads, Client.parked, program_payload, htodo, List.filterMap_nil,
        Multiset.coe_nil]
      ac_rfl
    have hr : { s.clients w with
        todo := Client.program P w a, calls := (s.clients w).calls ++ [a] }.rows =
        (s.clients w).rows ++ a.payload.toList := by
      simp only [Client.rows, List.filterMap_append]
      cases ha : a.payload <;> simp [ha]
    rw [hp, hr, ← Multiset.coe_add]
    exact Multiset.add_le_add_right h
  | flushItem r now e rest hs hf =>
    refine le_trans (le_of_eq ?_) h
    simp only [Client.payloads, Client.parked, hf, Option.getD_some, List.map_append,
      List.map_cons, List.map_nil, ← Multiset.coe_add, ← Multiset.cons_coe, Multiset.coe_nil]
    rw [← Multiset.singleton_add, ← Multiset.singleton_add]
    simp only [add_zero]
    ac_rfl
  | flushEnd hs hf =>
    refine le_trans (le_of_eq ?_) h
    simp only [Client.payloads, Client.parked, hf, Option.getD_some, Option.getD_none]
  | write r now keys values rest hs hf ht hl =>
    refine le_trans (le_of_eq ?_) h
    simp only [Client.payloads, Client.parked, ht, List.map_append, List.map_cons, List.map_nil,
      ← Multiset.coe_add, List.filterMap_cons, Instr.payload, ← Multiset.cons_coe,
      Multiset.coe_nil]
    rw [← Multiset.singleton_add, ← Multiset.singleton_add]
    simp only [add_zero]
    ac_rfl
  | inTable c hs hf hm =>
    have hle : c.payloads ≤ (s.clients w).payloads := by
      cases hm with
      | parked ht hl => exact payloads_writeLazy hf ht
      | exec ht he => exact payloads_exec hf ht he
    rw [Client.rows, hm.sameRequests.calls]
    exact le_trans hle h
  | delete now keys rest hs hf ht =>
    refine le_trans (le_of_eq ?_) h
    simp only [Client.payloads, Client.parked, ht, List.filterMap_cons, Instr.payload]
  | deleted st rest hs hf ht ha =>
    refine le_trans (le_of_eq ?_) h
    simp only [Client.payloads, Client.parked, ht, List.filterMap_cons, Instr.payload]
  | sent | finish => exact h

variable [DecidableEq V]

theorem reachable_payloads {P : Params N K V} {s : State N T K V} (h : Reachable P s)
    (w : Fin N) : (s.clients w).payloads ≤ (s.clients w).rows :=
  Reachable.clientInvariant (I := fun _ c => c.payloads ≤ c.rows) (fun _ => le_refl (0 : Multiset Nat))
    (fun _ _ _ => payloads_step) h w

/-- Each call of `w` has brought a key row that no other call was given. -/
def State.FreshRows (s : State N T K V) (w : Fin N) : Prop :=
  (s.clients w).rows.Nodup ∧ ∀ v, v ≠ w → ∀ p ∈ (s.clients v).rows, p ∉ (s.clients w).rows

theorem request_payload_mem {P : Params N K V} {s : State N T K V} (h : Reachable P s)
    {r : Request N K V} (hr : r ∈ s.requests) : r.keys.payload ∈ (s.clients r.writer).rows := by
  have hq : r.item ∈ (s.clients r.writer).queued := by
    rw [← reachable_queuedInOrder h r.writer]
    exact List.mem_map_of_mem (List.mem_filter.mpr ⟨hr, by simp⟩)
  have hp : r.keys.payload ∈ (s.clients r.writer).payloads := by
    refine Multiset.mem_add.mpr (.inr (Multiset.mem_coe.mpr ?_))
    exact List.mem_map.mpr ⟨r.item, hq, rfl⟩
  exact Multiset.mem_coe.mp (Multiset.mem_of_le (reachable_payloads h r.writer) hp)

theorem request_of_payload {P : Params N K V} {s : State N T K V} (h : Reachable P s)
    {r a : Request N K V} (hfresh : s.FreshRows r.writer) (hr : r ∈ s.requests)
    (ha : a ∈ s.requests) (hp : a.keys.payload = r.keys.payload) : a = r := by
  have hw : a.writer = r.writer := by
    by_contra hne
    have hmem := hp ▸ request_payload_mem h ha
    exact hfresh.2 a.writer hne _ hmem (request_payload_mem h hr)
  have hnodup : ((s.requests.filter fun b => b.writer = r.writer).map
      fun b => b.keys.payload).Nodup := by
    have hle : (((s.clients r.writer).queued.map fun e => e.keys.payload : List Nat) :
        Multiset Nat) ≤ (s.clients r.writer).rows :=
      le_trans (Multiset.le_add_left _ _) (reachable_payloads h r.writer)
    have hq := Multiset.coe_nodup.mp (Multiset.nodup_of_le hle (Multiset.coe_nodup.mpr hfresh.1))
    rw [← reachable_queuedInOrder h r.writer, List.map_map] at hq
    exact hq
  exact List.inj_on_of_nodup_map hnodup (List.mem_filter.mpr ⟨ha, by simp [hw]⟩)
    (List.mem_filter.mpr ⟨hr, by simp⟩) hp

theorem binding_of_fresh {P : Params N K V} {s : State N T K V} (h : Reachable P s)
    {b : Binding N K V} (hb : b ∈ s.bindings) (hfresh : s.FreshRows b.request.writer) :
    b.request ∈ s.requests ∧ b.statement = b.request.statement := by
  have hbound := reachable_boundAt h b hb
  have hmem : b.request ∈ s.requests := List.mem_of_getElem? hbound.request
  refine ⟨hmem, binding_own_stamp h hb fun a ha hlt hp => ?_⟩
  rw [request_of_payload h hfresh hmem (List.mem_of_mem_take ha) hp] at hlt
  exact lt_irrefl _ hlt

theorem issued_of_applied {P : Params N K V} {s : State N T K V} (h : Reachable P s) {w : Fin N}
    (hfresh : s.FreshRows w) {st : Statement N K V} (hst : st ∈ s.applied) (hw : st.table = w) :
    st ∈ (s.clients w).issued := by
  have hd := reachable_delivered h
  rcases hd.sent st (hd.applied st hst) with ⟨b, hb, rfl⟩ | hi
  · have htable : b.request.writer = w := by
      rw [← hw, (reachable_boundAt h b hb).statement]
    subst htable
    obtain ⟨hmem, he⟩ := binding_of_fresh h hb hfresh
    rw [he]
    exact statement_mem_issued h hmem
  · exact hw ▸ hi

/-- Once its requests are acknowledged and no delete is under way, all that the calls of
a table have asked for is applied. -/
theorem applied_of_issued {P : Params N K V} {s : State N T K V} (h : Reachable P s) {w : Fin N}
    (hfresh : s.FreshRows w) (h0 : (s.clients w).ncallbacks = 0)
    (hno : ∀ st, ¬ s.AwaitsDelete w st) {st : Statement N K V}
    (hst : st ∈ (s.clients w).issued) : st ∈ s.applied := by
  have hd := reachable_delivered h
  rcases hd.issued w st hst with ⟨r, hr, rfl⟩ | ha | ha
  · have hw : r.writer = w := (reachable_stampsIncrease h w).table _ hst
    subst hw
    obtain ⟨b, hb, hbr, hbs⟩ := hd.confirmed r (.inl (acked_of_ncallbacks_zero h h0 hr rfl))
    subst hbr
    rwa [(binding_of_fresh h hb hfresh).2] at hbs
  · exact ha
  · exact (hno st ha).elim

end Hecuba
