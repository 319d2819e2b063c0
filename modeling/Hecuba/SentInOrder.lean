import Hecuba.AppliedStatements
import Hecuba.RetryDeadlock
import Hecuba.WaitGuards

/-! Without timestamps and as long as no callback fails, the statements of a table are sent
in the order in which its calls ask for them: the queue is first in, first out, and a
delete waits for the writes before it. -/

namespace Hecuba

variable {N T : Nat} {K V : Type}

def Sending.pushing : Sending N K V → List (Request N K V)
  | .push r => [r]
  | _ => []

def Worker.holds : Worker N K V → List (Request N K V)
  | .holding r | .bound r _ | .permitted r _ => [r]
  | _ => []

/-- The requests of the table `w` that have been counted and not sent, the oldest first. -/
def State.unsent (s : State N T K V) (w : Fin N) : List (Request N K V) :=
  ((s.worker.holds ++ s.data).filter fun r => r.writer = w) ++ (s.clients w).sending.pushing

def InOrder (s : State N T K V) (w : Fin N) : Prop :=
  (s.sent.filter fun st => st.table = w) ++ (s.unsent w).map Request.statement =
    (s.clients w).issued

theorem InOrder.setClient {s : State N T K V} {w v : Fin N} {c : Client N K V} (h : InOrder s w)
    (hi : c.issued = (s.clients v).issued)
    (hp : c.sending.pushing = (s.clients v).sending.pushing) : InOrder (s.setClient v c) w := by
  by_cases hw : w = v
  · subst hw
    simpa [InOrder, State.unsent, State.setClient, hi, hp] using h
  · simpa [InOrder, State.unsent, State.setClient, Function.update_of_ne hw] using h

theorem InOrder.congr {s s' : State N T K V} {w : Fin N} (h : InOrder s w)
    (hs : s'.sent = s.sent) (hd : s'.data = s.data) (hw : s'.worker.holds = s.worker.holds)
    (hc : s'.clients = s.clients) : InOrder s' w := by
  rw [InOrder, State.unsent, hs, hd, hw, hc]
  exact h

theorem inOrder_queue {P : Params N K V} {s : State N T K V} {w v : Fin N} {c : Client N K V}
    (h : InOrder s w) (hi : c.issued = (s.clients v).issued)
    (hs : (s.clients v).sending = .idle) (e : Parked K V) (now : Int) :
    InOrder (s.queueAsyncQuery P v c e now) w := by
  by_cases hw : w = v
  · subst hw
    simp only [InOrder, State.unsent, hs, Sending.pushing, List.append_nil] at h
    simp only [InOrder, State.unsent, State.queueAsyncQuery, State.setClient, Function.update_self,
      Sending.pushing, List.map_append, List.map_singleton, ← List.append_assoc, h, hi]
    rfl
  · simpa [InOrder, State.unsent, State.queueAsyncQuery, State.setClient,
      Function.update_of_ne hw] using h

theorem inOrder_push {s : State N T K V} {w v : Fin N} {r : Request N K V} (h : InOrder s w)
    (hs : (s.clients v).sending = .push r) (hr : r.writer = v) :
    InOrder ({ s with data := s.data ++ [r] }.setClient v
      { s.clients v with sending := .release }) w := by
  by_cases hw : w = v
  · subst hw
    simpa [InOrder, State.unsent, State.setClient, hs, hr, Sending.pushing, List.filter_append,
      List.filter_cons] using h
  · have hne : ¬ r.writer = w := fun hh => hw (hh.symm.trans hr)
    simpa [InOrder, State.unsent, State.setClient, Function.update_of_ne hw, hne,
      List.filter_append, List.filter_cons] using h

theorem inOrder_execute {s : State N T K V} {w : Fin N} {r : Request N K V}
    {st : Statement N K V} (h : InOrder s w) (hw : s.worker = .permitted r st)
    (htable : st.table = r.writer) (hst : r.writer = w → st = r.statement) :
    InOrder { s.execute r st with worker := .waiting } w := by
  simp only [InOrder, State.unsent, hw, Worker.holds, List.singleton_append, List.filter_cons] at h
  simp only [InOrder, State.unsent, State.execute, Worker.holds, List.nil_append,
    List.filter_append, List.filter_cons, List.filter_nil]
  by_cases hr : r.writer = w
  · obtain rfl := hst hr
    rw [← h]
    simp [htable, hr]
  · rw [← h]
    simp [htable, hr]

theorem inOrder_delete {P : Params N K V} {s : State N T K V} {w v : Fin N} (h : InOrder s w)
    (hno : v = w → s.unsent w = []) (rest : List (Instr N K V)) (keys : K) (now : Int) :
    InOrder (s.executeDelete P v (s.clients v) rest keys now) w := by
  by_cases hw : w = v
  · subst hw
    have hnil := hno rfl
    rw [InOrder, hnil, List.map_nil, List.append_nil] at h
    have hnil' : (s.executeDelete P w (s.clients w) rest keys now).unsent w = [] := by
      simpa [State.unsent, State.executeDelete, State.setClient] using hnil
    rw [InOrder, hnil', List.map_nil, List.append_nil]
    simp [State.executeDelete, State.setClient, List.filter_append, h]
  · simpa [InOrder, State.unsent, State.executeDelete, State.setClient, Function.update_of_ne hw,
      List.filter_append, Ne.symm hw] using h

variable [DecidableEq K] [DecidableEq V]

theorem writer_of_push {P : Params N K V} {s : State N T K V} (h : Reachable P s) {w : Fin N}
    {r : Request N K V} (hs : (s.clients w).sending = .push r) : r.writer = w := by
  refine Reachable.clientInvariant (P := P)
    (I := fun w c => ∀ r, c.sending = .push r → r.writer = w) (fun _ _ hr => by cases hr) ?_ h w r hs
  intro s w c hm hi r hr
  cases hm with
  | sent sending hs hno => exact (hno r hr).elim
  | flushItem a now e rest hs hf ha =>
    cases hr
    exact ha
  | write a now keys values rest hs hf ht hl ha =>
    cases hr
    exact ha
  | inTable c hs hf hm => exact hi r (hm.sameRequests.sending ▸ hr)
  | call | flushEnd | delete | deleted | finish => exact hi r hr

theorem carried_statement {P : Params N K V} {s : State N T K V} (h : Reachable P s)
    {r : Request N K V} {st : Statement N K V} (hx : s.Carries (r, st)) :
    st.table = r.writer ∧ (P.disableTimestamps r.writer = true → st = r.statement) := by
  obtain ⟨b, hb, rfl, rfl⟩ := (reachable_delivered h).carried _ hx
  have hbound := reachable_boundAt h b hb
  refine ⟨by rw [hbound.statement], fun hts => ?_⟩
  have hd := request_dated h (List.mem_of_getElem? hbound.request)
  rw [hts, Bool.not_true, Option.isSome_eq_false_iff, Option.isNone_iff_eq_none] at hd
  rw [hbound.statement, Request.statement, hts, hd]
  rfl

theorem unsent_of_acked {P : Params N K V} {s : State N T K V} (h : Reachable P s) {w : Fin N}
    (h0 : (s.clients w).ncallbacks = 0) (hs : (s.clients w).sending = .idle) :
    s.unsent w = [] := by
  have hno := not_outstanding_of_zero h h0
  simp only [State.unsent, hs, Sending.pushing, List.append_nil, List.filter_eq_nil_iff]
  intro r hr hw
  refine hno r ?_ (of_decide_eq_true hw)
  rcases List.mem_append.mp hr with hr | hr
  · have hheld : r ∈ s.worker.held := by
      cases hworker : s.worker <;> rw [hworker] at hr <;> simp_all [Worker.holds, Worker.held]
    simp [State.outstanding, hheld]
  · simp [State.outstanding, hr]

theorem not_retrying {P : Params N K V} {s : State N T K V} (h : Reachable P s)
    (hf : s.failed = []) (t : Fin T) : (s.threads t).retries = 0 := by
  have hle := retries_le_failed h
  rw [hf, List.length_nil, Nat.le_zero] at hle
  exact Finset.sum_eq_zero_iff.mp hle t (Finset.mem_univ t)

theorem sent_in_order {P : Params N K V} {s : State N T K V} (h : Reachable P s) {w : Fin N}
    (hts : P.disableTimestamps w = true) (hf : s.failed = []) : InOrder s w := by
  refine Reachable.relInvariant (I := fun s => s.failed = [] → InOrder s w) (fun _ => rfl)
    (fun s s' hr hm hi hf => ?_) h hf
  cases hm with
  | call | flushEnd | deleted => exact (hi hf).setClient rfl rfl
  | inTable v c hs hflush hm =>
    have hsame := hm.sameRequests
    exact (hi hf).setClient hsame.issued (by rw [hsame.sending])
  | push v r hs hroom => exact inOrder_push (hi hf) hs (writer_of_push hr hs)
  | signal v hs => exact (hi hf).setClient rfl (by rw [hs]; rfl)
  | flushItem v now e rest hs hflush => exact inOrder_queue (hi hf) (by rfl) hs e now
  | write v now keys values rest hs hflush ht hl => exact inOrder_queue (hi hf) (by rfl) hs _ now
  | delete v now keys rest hs hflush ht =>
    refine inOrder_delete (hi hf) ?_ rest keys now
    rintro rfl
    exact unsent_of_acked hr (acked_of_wait hr ht hts) hs
  | wake hw => exact (hi hf).congr rfl rfl (by rw [hw]; rfl) rfl
  | popNothing hw => exact (hi hf).congr rfl rfl (by rw [hw]; rfl) rfl
  | pop r rest hw hd =>
    have hi := hi hf
    rw [InOrder, State.unsent, hw, hd] at hi
    exact hi
  | bind r hw => exact (hi hf).congr rfl rfl (by rw [hw]; rfl) rfl
  | acquire r st hw => exact (hi hf).congr rfl rfl (by rw [hw]; rfl) rfl
  | execute r st hw =>
    obtain ⟨htable, hst⟩ := carried_statement hr (.inl (by rw [hw]; rfl))
    exact inOrder_execute (hi hf) hw htable fun hwr => hst (hwr ▸ hts)
  | apply | enter | releasePermit | rebind | reacquire => exact (hi hf).congr rfl rfl rfl rfl
  | finish t r ht =>
    have hdone : InOrder (s.setClient r.writer
        { s.clients r.writer with ncallbacks := (s.clients r.writer).ncallbacks - 1 }) w :=
      (hi hf).setClient rfl rfl
    exact hdone.congr rfl rfl rfl rfl
  | giveUp t r ht | retry t r ht => simp [State.setThread] at hf
  | reexecute t r st ht =>
    have hno := not_retrying hr hf t
    rw [ht] at hno
    cases hno

/-- What is applied in the order in which it is sent is applied in the order in which it was
asked for. -/
theorem applied_in_order {P : Params N K V} {s : State N T K V} (h : Reachable P s) {w : Fin N}
    (hts : P.disableTimestamps w = true) (hf : s.failed = [])
    (hidle : (s.clients w).isIdle = true) (h0 : (s.clients w).ncallbacks = 0)
    (happ : (s.applied.filter fun st => st.table = w) = s.sent.filter fun st => st.table = w) :
    (s.applied.filter fun st => st.table = w) = (s.clients w).issued := by
  have hin := sent_in_order h hts hf
  rw [InOrder, unsent_of_acked h h0 (isIdle_spec hidle).1, List.map_nil, List.append_nil] at hin
  rw [happ, hin]

end Hecuba
