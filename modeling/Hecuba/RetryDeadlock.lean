import Hecuba.WriteConservation

/-! A callback that fails gives its permit back and then asks for one again on the
driver thread that runs it. With few driver threads and enough failures all of them
wait for permits that only their own callbacks could release. -/

namespace Hecuba

variable {N T : Nat} {K V : Type}

/-- All driver threads wait for a permit inside a retry, no permit is left, and every
permit is held by a request whose callback has to run on one of these threads. -/
structure RetryDeadlock (P : Params N K V) (s : State N T K V) : Prop where
  noPermit : s.semmaxcallbacks = 0
  blocked : ∀ t, ∃ r st, s.threads t = .bound r st
  held : s.inFlight.length + s.worker.permits = P.maxCalls

def Callback.retries : Callback N K V → Nat
  | .retrying _ | .bound _ _ | .permitted _ _ => 1
  | _ => 0

def State.retries (s : State N T K V) : Nat := ∑ t, (s.threads t).retries

theorem retries_setThread (s : State N T K V) (t : Fin T) (c : Callback N K V) :
    (s.setThread t c).retries + (s.threads t).retries = s.retries + c.retries :=
  sum_update_add s.threads Callback.retries t c

theorem retries_of_thread {s s' : State N T K V} {t : Fin T} (c : Callback N K V)
    (hi : s.retries ≤ s.failed.length) (hs : s'.retries = (s.setThread t c).retries)
    (hf : c.retries + s.failed.length ≤ (s.threads t).retries + s'.failed.length) :
    s'.retries ≤ s'.failed.length := by
  have hh := retries_setThread s t c
  omega

variable [DecidableEq K] [DecidableEq V]

theorem retries_le_failed {P : Params N K V} {s : State N T K V} (h : Reachable P s) :
    s.retries ≤ s.failed.length := by
  refine Reachable.invariant (I := fun s => s.retries ≤ s.failed.length) ?_ ?_ h
  · simp [State.retries, State.initial, Callback.retries]
  intro s s' hm hi
  cases hm with
  | call | push | signal | flushItem | flushEnd | write | inTable | delete | deleted | wake |
      popNothing | pop | bind | acquire | execute | apply => exact hi
  | enter t i r st ok ht => exact retries_of_thread (.entered r ok) hi rfl (ht ▸ le_rfl)
  | releasePermit t r ok ht => exact retries_of_thread (.released r ok) hi rfl (ht ▸ le_rfl)
  | finish t r ht => exact retries_of_thread .idle hi rfl (ht ▸ le_rfl)
  | giveUp t r ht he =>
    refine retries_of_thread .idle hi rfl ?_
    simp [ht, Callback.retries, State.setThread]
  | retry t r ht he =>
    refine retries_of_thread (.retrying r) hi rfl ?_
    simp [ht, Callback.retries, State.setThread, Nat.add_comm]
  | rebind t r ht =>
    exact retries_of_thread (.bound r (bindCassstatement P s r)) hi rfl (ht ▸ le_rfl)
  | reacquire t r st ht hp => exact retries_of_thread (.permitted r st) hi rfl (ht ▸ le_rfl)
  | reexecute t r st ht =>
    refine retries_of_thread .idle hi rfl ?_
    simp [ht, Callback.retries, State.setThread, State.execute]

theorem threads_le_failed_of_blocked {P : Params N K V} {s : State N T K V} (h : Reachable P s)
    (hb : ∀ t, ∃ r st, s.threads t = .bound r st) : T ≤ s.failed.length := by
  have hle := retries_le_failed h
  have hsum : s.retries = T := by
    have hone : ∀ t ∈ Finset.univ, (s.threads t).retries = 1 := by
      intro t _
      obtain ⟨r, st, ht⟩ := hb t
      rw [ht]
      rfl
    rw [State.retries, Finset.sum_congr rfl hone]
    simp
  rwa [hsum] at hle

theorem quiet_of_no_buffer {P : Params N K V} (hb : P.writerBuffer = 0) {s : State N T K V}
    (h : Reachable P s) :
    s.data = [] ∧ s.worker.held = 0 ∧ s.worker.permits = 0 ∧ s.inFlight = [] ∧
      ∀ t, s.threads t = .idle := by
  refine Reachable.invariant (I := fun s => s.data = [] ∧ s.worker.held = 0 ∧
    s.worker.permits = 0 ∧ s.inFlight = [] ∧ ∀ t, s.threads t = .idle)
    ⟨rfl, rfl, rfl, rfl, fun _ => rfl⟩ ?_ h
  intro s s' hm hi
  obtain ⟨hd, hw, hp, hfl, ht⟩ := hi
  have hworker {r : Request N K V} (hr : s.worker.held = {r}) : False := by
    rw [hw] at hr
    exact Multiset.zero_ne_singleton r hr
  cases hm with
  | push w r hs hroom =>
    rw [hb] at hroom
    exact (Nat.not_lt_zero _ hroom).elim
  | wake | popNothing => exact ⟨hd, rfl, rfl, hfl, ht⟩
  | pop r rest hwk hdata =>
    rw [hd] at hdata
    cases hdata
  | bind r hwk | acquire r st hwk | execute r st hwk => exact (hworker (by rw [hwk]; rfl)).elim
  | enter t i r st ok hth hget =>
    rw [hfl] at hget
    cases hget
  | releasePermit t r ok hth | finish t r hth | giveUp t r hth | retry t r hth | rebind t r hth
  | reacquire t r st hth | reexecute t r st hth =>
    rw [ht t] at hth
    cases hth
  | call | signal | flushItem | flushEnd | write | inTable | delete | deleted | apply =>
    exact ⟨hd, hw, hp, hfl, ht⟩

/-- The client of `w` is between two calls and the worker has nothing to do. -/
structure Settled (w : Fin N) (s : State N T K V) : Prop where
  sending : (s.clients w).sending = .idle
  flushing : (s.clients w).flushing = none
  todo : (s.clients w).todo = []
  eager : (s.clients w).lazyWriteEnabled = false
  data : s.data = []
  pending : s.sempendingData = 0
  worker : s.worker = .waiting

/-- A write of the client goes to the queue of the worker, who is then woken. -/
theorem exists_queued {P : Params N K V} (hb : 0 < P.writerBuffer) {s : State N T K V} {w : Fin N}
    (keys : TupleRow K) (values : V) (h : Settled w s) :
    ∃ s' r, Relation.ReflTransGen (ProtocolStep P) s s' ∧ (s'.clients w).sending = .idle ∧
      (s'.clients w).flushing = none ∧ (s'.clients w).todo = [] ∧ (s'.clients w).lazyWriteEnabled = false ∧
      s'.data = [r] ∧ s'.sempendingData = 1 ∧ s'.worker = .waiting ∧ s'.semmaxcallbacks = s.semmaxcallbacks ∧
      s'.inFlight = s.inFlight ∧ s'.threads = s.threads ∧ s'.failed = s.failed := by
  obtain ⟨hs, hf, ht, hl, hd, hsem, hw⟩ := h
  have hrun : ∃ s' r, s.run P [.call w (.writeToCassandra keys values), .client w 0, .client w 0, .client w 0] = some s' ∧
      (s'.clients w).sending = .idle ∧ (s'.clients w).flushing = none ∧ (s'.clients w).todo = [] ∧
      (s'.clients w).lazyWriteEnabled = false ∧ s'.data = [r] ∧ s'.sempendingData = 1 ∧ s'.worker = .waiting ∧
      s'.semmaxcallbacks = s.semmaxcallbacks ∧ s'.inFlight = s.inFlight ∧ s'.threads = s.threads ∧
      s'.failed = s.failed := by
    simp [State.run, State.step, Client.isIdle, hs, hf, ht, hl, hd, hsem, hw, State.setClient,
      State.stepClient, Client.program, State.stepInstr, State.queueAsyncQuery, hb]
  obtain ⟨s', r, hr, hrest⟩ := hrun
  exact ⟨s', r, reachable_run hr, hrest⟩

/-- The worker sends the only request, which takes one permit. -/
theorem exists_sent {P : Params N K V} {s : State N T K V} {w : Fin N} {r : Request N K V} (hd : s.data = [r])
    (hsem : s.sempendingData = 1) (hw : s.worker = .waiting) (hp : 0 < s.semmaxcallbacks) :
    ∃ s', Relation.ReflTransGen (ProtocolStep P) s s' ∧ s'.clients w = s.clients w ∧ s'.data = [] ∧
      s'.sempendingData = 0 ∧ s'.worker = .waiting ∧ s'.semmaxcallbacks = s.semmaxcallbacks - 1 ∧
      (∃ x, s'.inFlight = s.inFlight ++ [x]) ∧ s'.threads = s.threads ∧ s'.failed = s.failed := by
  have hrun : ∃ s', s.run P [.worker, .worker, .worker, .worker, .worker] = some s' ∧
      s'.clients w = s.clients w ∧ s'.data = [] ∧ s'.sempendingData = 0 ∧ s'.worker = .waiting ∧
      s'.semmaxcallbacks = s.semmaxcallbacks - 1 ∧ (∃ x, s'.inFlight = s.inFlight ++ [x]) ∧
      s'.threads = s.threads ∧ s'.failed = s.failed := by
    simp [State.run, State.step, State.stepWorker, State.recordBinding, State.execute, hd, hsem, hw, hp]
  obtain ⟨s', hr, hrest⟩ := hrun
  exact ⟨s', reachable_run hr, hrest⟩

theorem exists_send {P : Params N K V} (hb : 0 < P.writerBuffer) {s : State N T K V} {w : Fin N}
    (keys : TupleRow K) (values : V) (h : Settled w s) (hp : 0 < s.semmaxcallbacks) :
    ∃ s', Relation.ReflTransGen (ProtocolStep P) s s' ∧ Settled w s' ∧
      s'.semmaxcallbacks = s.semmaxcallbacks - 1 ∧ (∃ x, s'.inFlight = s.inFlight ++ [x]) ∧
      s'.threads = s.threads ∧ s'.failed = s.failed := by
  obtain ⟨s1, r, hr1, h1, h2, h3, h4, hd, hsem, hw, hsem1, hfl1, hth1, hf1⟩ := exists_queued hb keys values h
  obtain ⟨s2, hr2, hc, hd2, hp2, hw2, hsem2, ⟨x, hx⟩, hth2, hf2⟩ := exists_sent (w := w) hd hsem hw (hsem1 ▸ hp)
  refine ⟨s2, hr1.trans hr2, ⟨?_, ?_, ?_, ?_, hd2, hp2, hw2⟩, by rw [hsem2, hsem1], ⟨x, by rw [hx, hfl1]⟩,
    hth2.trans hth1, hf2.trans hf1⟩
  · rw [hc, h1]
  · rw [hc, h2]
  · rw [hc, h3]
  · rw [hc, h4]

theorem exists_fail {P : Params N K V} {s : State N T K V} {w : Fin N} {t : Fin T}
    {x : Request N K V × Statement N K V} (h : Settled w s) (hx : s.inFlight = [x])
    (ht : s.threads t = .idle) (he : u32 (s.errorCount + 1) ≤ maxErrors) :
    ∃ s', Relation.ReflTransGen (ProtocolStep P) s s' ∧ Settled w s' ∧
      s'.semmaxcallbacks = s.semmaxcallbacks + 1 ∧ s'.inFlight = [] ∧
      (∃ st, s'.threads = Function.update s.threads t (.bound x.1 st)) ∧
      s'.failed = s.failed ++ [x.1] := by
  obtain ⟨r, st⟩ := x
  have hrun : ∃ s', s.run P [.enter t 0 false, .callback t, .callback t, .callback t] = some s' ∧
      (s'.clients = s.clients ∧ s'.data = s.data ∧ s'.sempendingData = s.sempendingData ∧
        s'.worker = s.worker) ∧
      s'.semmaxcallbacks = s.semmaxcallbacks + 1 ∧ s'.inFlight = [] ∧
      (∃ st, s'.threads = Function.update s.threads t (.bound r st)) ∧
      s'.failed = s.failed ++ [r] := by
    simp [State.run, State.step, State.enterCallback, ht, hx, State.setThread, State.stepCallback,
      State.setErrorOccurred, Nat.not_lt.mpr he, State.recordBinding]
    exact ⟨_, rfl⟩
  obtain ⟨s', hr, ⟨hc, hd, hp, hw⟩, hrest⟩ := hrun
  refine ⟨s', reachable_run hr, ⟨?_, ?_, ?_, ?_, ?_, ?_, ?_⟩, hrest⟩
  · rw [hc, h.sending]
  · rw [hc, h.flushing]
  · rw [hc, h.todo]
  · rw [hc, h.eager]
  · rw [hd, h.data]
  · rw [hp, h.pending]
  · rw [hw, h.worker]

/-- One after the other the first `j` threads are brought to wait inside a retry. -/
theorem exists_blocked_threads {P : Params N K V} (hb : 0 < P.writerBuffer) (w : Fin N)
    (keys : TupleRow K) (values : V) (j : Nat) (hj : j ≤ T) (hmax : j ≤ maxErrors) :
    ∃ s : State N T K V, Reachable P s ∧ Settled w s ∧ s.inFlight = [] ∧
      s.semmaxcallbacks = P.maxCalls ∧ s.failed.length = j ∧
      (∀ t : Fin T, t.val < j → ∃ r st, s.threads t = .bound r st) ∧
      ∀ t : Fin T, j ≤ t.val → s.threads t = .idle := by
  induction j with
  | zero =>
    refine ⟨State.initial P, .refl, ⟨rfl, rfl, rfl, rfl, rfl, rfl, rfl⟩, rfl, rfl, rfl, ?_,
      fun _ _ => rfl⟩
    intro t ht
    exact (Nat.not_lt_zero _ ht).elim
  | succ j ih =>
    obtain ⟨s, hr, hset, hfl, hsem, hlen, hbound, hidle⟩ := ih (by omega) (by omega)
    obtain ⟨s1, hr1, hset1, hsem1, ⟨x, hx⟩, hth1, hf1⟩ :=
      exists_send hb keys values hset (hsem ▸ P.maxCalls_pos)
    rw [hfl, List.nil_append] at hx
    let t0 : Fin T := ⟨j, hj⟩
    have herr : u32 (s1.errorCount + 1) ≤ maxErrors := by
      rw [(reachable_errorsCounted (hr.trans hr1)).errorCount, hf1, hlen]
      simp only [u32, maxErrors] at *
      omega
    obtain ⟨s2, hr2, hset2, hsem2, hfl2, ⟨st, hth2⟩, hf2⟩ :=
      exists_fail hset1 hx (t := t0) (by rw [hth1]; exact hidle t0 le_rfl) herr
    have hpos := P.maxCalls_pos
    refine ⟨s2, (hr.trans hr1).trans hr2, hset2, hfl2, by omega, ?_, fun t ht => ?_, fun t ht => ?_⟩
    · rw [hf2, hf1, List.length_append, hlen, List.length_singleton]
    · by_cases htj : t = t0
      · exact ⟨x.1, st, by rw [hth2, htj, Function.update_self]⟩
      · have hlt : t.val < j := by
          have hne : t.val ≠ j := fun hh => htj (Fin.ext hh)
          omega
        rw [hth2, Function.update_of_ne htj, hth1]
        exact hbound t hlt
    · have htj : t ≠ t0 := by
        rintro rfl
        exact absurd ht (by simp [t0])
      rw [hth2, Function.update_of_ne htj, hth1]
      exact hidle t (by omega)

theorem exists_permits_spent {P : Params N K V} (hb : 0 < P.writerBuffer) {w : Fin N}
    (keys : TupleRow K) (values : V) {s : State N T K V} (hset : Settled w s) (m : Nat)
    (hm : m ≤ s.semmaxcallbacks) :
    ∃ s', Relation.ReflTransGen (ProtocolStep P) s s' ∧ Settled w s' ∧
      s'.semmaxcallbacks = s.semmaxcallbacks - m ∧
      s'.inFlight.length = s.inFlight.length + m ∧ s'.threads = s.threads ∧
      s'.failed = s.failed := by
  induction m with
  | zero => exact ⟨s, .refl, hset, rfl, rfl, rfl, rfl⟩
  | succ m ih =>
    obtain ⟨s1, hr1, hset1, hsem1, hfl1, hth1, hf1⟩ := ih (by omega)
    obtain ⟨s2, hr2, hset2, hsem2, ⟨x, hx⟩, hth2, hf2⟩ :=
      exists_send hb keys values hset1 (by omega)
    refine ⟨s2, hr1.trans hr2, hset2, by omega, ?_, hth2.trans hth1, hf2.trans hf1⟩
    rw [hx, List.length_append, hfl1, List.length_singleton]
    omega

theorem exists_retryDeadlock {P : Params N K V} (hb : 0 < P.writerBuffer) (w : Fin N)
    (keys : TupleRow K) (values : V) (hT : T ≤ maxErrors) :
    ∃ s : State N T K V, Reachable P s ∧ s.failed.length ≤ maxErrors ∧ RetryDeadlock P s := by
  obtain ⟨s, hr, hset, hfl, hsem, hlen, hbound, -⟩ :=
    exists_blocked_threads hb w keys values T le_rfl hT
  obtain ⟨s', hr', hset', hsem', hfl', hth', hf'⟩ :=
    exists_permits_spent hb keys values hset P.maxCalls hsem.ge
  refine ⟨s', hr.trans hr', by rw [hf', hlen]; exact hT, ⟨by omega, fun t => ?_, ?_⟩⟩
  · rw [hth']
    exact hbound t t.isLt
  · rw [hfl', hfl, hset'.worker]
    simp [Worker.permits]

/-- Whatever `max_calls` is, the retries cannot deadlock within `MAX_ERRORS` failures
exactly when the driver has more threads than that, or the queue has no room at all. -/
theorem retry_deadlock_free_iff (P : Params N K V) (w : Fin N) (keys : TupleRow K) (values : V) :
    (∀ s : State N T K V, Reachable P s → s.failed.length ≤ maxErrors → ¬ RetryDeadlock P s) ↔
      maxErrors < T ∨ P.writerBuffer = 0 := by
  constructor
  · intro h
    by_contra hno
    obtain ⟨hT, hb⟩ := not_or.mp hno
    obtain ⟨s, hr, hf, hd⟩ :=
      exists_retryDeadlock (Nat.pos_of_ne_zero hb) w keys values (Nat.le_of_not_lt hT)
    exact h s hr hf hd
  · rintro (hT | hb) s hr hf hd
    · have hle := threads_le_failed_of_blocked hr hd.blocked
      omega
    · obtain ⟨-, -, hw, hfl, -⟩ := quiet_of_no_buffer hb hr
      have hheld := hd.held
      rw [hfl, hw, List.length_nil] at hheld
      have hpos := P.maxCalls_pos
      omega

def defaultWriter : Params 1 Nat Nat :=
  { oneTable with maxCalls := 16, maxCalls_pos := by decide, writerBuffer := 1000 }

/-- Two failed writes are enough on the two threads the driver has by default. -/
theorem two_threads_deadlock :
    ∃ s : State 1 2 Nat Nat, Reachable defaultWriter s ∧ s.failed.length ≤ maxErrors ∧
      RetryDeadlock defaultWriter s :=
  exists_retryDeadlock (by decide) 0 ⟨0, 0⟩ 0 (by decide)

end Hecuba
