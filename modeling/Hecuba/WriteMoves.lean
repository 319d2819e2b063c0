import Hecuba.WriteProtocol

/-! Everything one action of the write protocol can do, with the guards of the code. -/

namespace Hecuba

variable {N T : Nat} {K V : Type}

theorem isIdle_spec {c : Client N K V} (h : c.isIdle = true) :
    c.sending = .idle ∧ c.flushing = none ∧ c.todo = [] := by
  unfold Client.isIdle at h
  split at h
  · exact ⟨by assumption, by assumption, by assumption⟩
  · cases h

/-- What a client does inside its table leaves alone the data of the asynchronous path. -/
structure SameRequests (c c' : Client N K V) : Prop where
  last : c'.last = c.last
  ncallbacks : c'.ncallbacks = c.ncallbacks
  sending : c'.sending = c.sending
  calls : c'.calls = c.calls
  queued : c'.queued = c.queued
  issued : c'.issued = c.issued

theorem park_sameRequests (P : Params N K V) (c : Client N K V) (keys : TupleRow K) (values : V) :
    SameRequests c (c.park P keys values) := by
  unfold Client.park
  dsimp only
  split <;> exact ⟨rfl, rfl, rfl, rfl, rfl, rfl⟩

theorem startFlush_sameRequests (P : Params N K V) (c : Client N K V) :
    SameRequests c (c.startFlush P) := by
  unfold Client.startFlush
  split <;> exact ⟨rfl, rfl, rfl, rfl, rfl, rfl⟩

theorem SameRequests.trans {a b c : Client N K V} (h : SameRequests a b) (h' : SameRequests b c) :
    SameRequests a c :=
  ⟨h'.last.trans h.last, h'.ncallbacks.trans h.ncallbacks, h'.sending.trans h.sending,
    h'.calls.trans h.calls, h'.queued.trans h.queued, h'.issued.trans h.issued⟩

theorem SameRequests.todo {a b : Client N K V} (h : SameRequests a b) (todo : List (Instr N K V)) :
    SameRequests a { b with todo := todo } :=
  ⟨h.last, h.ncallbacks, h.sending, h.calls, h.queued, h.issued⟩

variable [DecidableEq K]

inductive LocalMove (P : Params N K V) (w : Fin N) (rows : K → List V) (c : Client N K V) :
    Client N K V → Prop
  | parked {keys values rest} (ht : c.todo = .write keys values :: rest)
      (hl : c.lazyWriteEnabled = true) : LocalMove P w rows c (c.writeLazy P w rest keys values)
  | exec {i rest c'} (ht : c.todo = i :: rest) (he : c.exec P rows rest i = some c') :
      LocalMove P w rows c c'

inductive ProtocolMove (P : Params N K V) (s : State N T K V) : State N T K V → Prop
  | call (w : Fin N) (a : Call K V) (hi : (s.clients w).isIdle = true) :
      ProtocolMove P s (s.setClient w { s.clients w with
        todo := Client.program P w a, calls := (s.clients w).calls ++ [a] })
  | push (w : Fin N) (r : Request N K V) (hs : (s.clients w).sending = .push r)
      (hroom : s.data.length < P.writerBuffer) :
      ProtocolMove P s ({ s with data := s.data ++ [r] }.setClient w
        { s.clients w with sending := .release })
  | signal (w : Fin N) (hs : (s.clients w).sending = .release) :
      ProtocolMove P s ({ s with sempendingData := s.sempendingData + 1 }.setClient w
        { s.clients w with sending := .idle })
  | flushItem (w : Fin N) (now : Int) (e : Parked K V) (rest : List (Parked K V))
      (hs : (s.clients w).sending = .idle) (hf : (s.clients w).flushing = some (e :: rest)) :
      ProtocolMove P s (s.queueAsyncQuery P w { s.clients w with flushing := some rest } e now)
  | flushEnd (w : Fin N) (hs : (s.clients w).sending = .idle)
      (hf : (s.clients w).flushing = some []) :
      ProtocolMove P s (s.setClient w { s.clients w with dirtyBlocks := [], flushing := none })
  | write (w : Fin N) (now : Int) (keys : TupleRow K) (values : V) (rest : List (Instr N K V))
      (hs : (s.clients w).sending = .idle) (hf : (s.clients w).flushing = none)
      (ht : (s.clients w).todo = .write keys values :: rest)
      (hl : (s.clients w).lazyWriteEnabled = false) :
      ProtocolMove P s (s.queueAsyncQuery P w
        { s.clients w with accepted := (s.clients w).accepted ++ [(keys, values)], todo := rest }
        ⟨(s.clients w).accepted.length, keys, values⟩ now)
  | inTable (w : Fin N) (c : Client N K V)
      (hs : (s.clients w).sending = .idle) (hf : (s.clients w).flushing = none)
      (hm : LocalMove P w (s.rowsOf P w) (s.clients w) c) :
      ProtocolMove P s (s.setClient w c)
  | delete (w : Fin N) (now : Int) (keys : K) (rest : List (Instr N K V))
      (hs : (s.clients w).sending = .idle) (hf : (s.clients w).flushing = none)
      (ht : (s.clients w).todo = .delete keys :: rest) :
      ProtocolMove P s (s.executeDelete P w (s.clients w) rest keys now)
  | deleted (w : Fin N) (st : Statement N K V) (rest : List (Instr N K V))
      (hs : (s.clients w).sending = .idle) (hf : (s.clients w).flushing = none)
      (ht : (s.clients w).todo = .deleted st :: rest) (ha : st ∈ s.applied) :
      ProtocolMove P s (s.setClient w { s.clients w with todo := rest })
  | wake (hw : s.worker = .waiting) (hp : 0 < s.sempendingData) :
      ProtocolMove P s { s with sempendingData := s.sempendingData - 1, worker := .awake }
  | popNothing (hw : s.worker = .awake) (hd : s.data = []) :
      ProtocolMove P s { s with worker := .waiting }
  | pop (r : Request N K V) (rest : List (Request N K V)) (hw : s.worker = .awake)
      (hd : s.data = r :: rest) :
      ProtocolMove P s { s with ncallbacks := s.ncallbacks + 1, data := rest, worker := .holding r }
  | bind (r : Request N K V) (hw : s.worker = .holding r) :
      ProtocolMove P s { s.recordBinding P r with worker := .bound r (bindCassstatement P s r) }
  | acquire (r : Request N K V) (st : Statement N K V) (hw : s.worker = .bound r st)
      (hp : 0 < s.semmaxcallbacks) :
      ProtocolMove P s
        { s with semmaxcallbacks := s.semmaxcallbacks - 1, worker := .permitted r st }
  | execute (r : Request N K V) (st : Statement N K V) (hw : s.worker = .permitted r st) :
      ProtocolMove P s { s.execute r st with worker := .waiting }
  | apply (st : Statement N K V) (hst : st ∈ s.sent) :
      ProtocolMove P s { s with applied := s.applied ++ [st] }
  | enter (t : Fin T) (i : Nat) (r : Request N K V) (st : Statement N K V) (ok : Bool)
      (ht : s.threads t = .idle) (hi : s.inFlight[i]? = some (r, st))
      (hok : ok = true → st ∈ s.applied) :
      ProtocolMove P s ({ s with inFlight := s.inFlight.eraseIdx i }.setThread t (.entered r ok))
  | releasePermit (t : Fin T) (r : Request N K V) (ok : Bool) (ht : s.threads t = .entered r ok) :
      ProtocolMove P s
        ({ s with semmaxcallbacks := s.semmaxcallbacks + 1 }.setThread t (.released r ok))
  | finish (t : Fin T) (r : Request N K V) (ht : s.threads t = .released r true) :
      ProtocolMove P s (s.finishCallback t r)
  | giveUp (t : Fin T) (r : Request N K V) (ht : s.threads t = .released r false)
      (he : maxErrors < u32 (s.errorCount + 1)) :
      ProtocolMove P s ({ s with
        errorCount := u32 (s.errorCount + 1)
        failed := s.failed ++ [r]
        ncallbacks := s.ncallbacks - 1
        abandoned := s.abandoned ++ [r] }.setThread t .idle)
  | retry (t : Fin T) (r : Request N K V) (ht : s.threads t = .released r false)
      (he : u32 (s.errorCount + 1) ≤ maxErrors) :
      ProtocolMove P s ({ s with
        errorCount := u32 (s.errorCount + 1)
        failed := s.failed ++ [r] }.setThread t (.retrying r))
  | rebind (t : Fin T) (r : Request N K V) (ht : s.threads t = .retrying r) :
      ProtocolMove P s ((s.recordBinding P r).setThread t (.bound r (bindCassstatement P s r)))
  | reacquire (t : Fin T) (r : Request N K V) (st : Statement N K V)
      (ht : s.threads t = .bound r st) (hp : 0 < s.semmaxcallbacks) :
      ProtocolMove P s
        ({ s with semmaxcallbacks := s.semmaxcallbacks - 1 }.setThread t (.permitted r st))
  | reexecute (t : Fin T) (r : Request N K V) (st : Statement N K V)
      (ht : s.threads t = .permitted r st) :
      ProtocolMove P s ((s.execute r st).setThread t .idle)

/-- What a move does to the client of the table `w`, if it does anything. -/
inductive ClientMove (P : Params N K V) (s : State N T K V) (w : Fin N) : Client N K V → Prop
  | call (a : Call K V) (hi : (s.clients w).isIdle = true) :
      ClientMove P s w { s.clients w with
        todo := Client.program P w a, calls := (s.clients w).calls ++ [a] }
  | sent (sending : Sending N K V) (hs : (s.clients w).sending ≠ .idle)
      (hno : ∀ r, sending ≠ .push r) :
      ClientMove P s w { s.clients w with sending := sending }
  | flushItem (r : Request N K V) (now : Int) (e : Parked K V) (rest : List (Parked K V))
      (hs : (s.clients w).sending = .idle) (hf : (s.clients w).flushing = some (e :: rest))
      (hr : r.writer = w) :
      ClientMove P s w { s.clients w with
        last := (P.takeStamp w (s.clients w).last now).getD (s.clients w).last
        ncallbacks := (s.clients w).ncallbacks + 1
        sending := .push r
        flushing := some rest
        queued := (s.clients w).queued ++ [e]
        issued := (s.clients w).issued ++
          [⟨w, .insert e.keys.content e.values, P.takeStamp w (s.clients w).last now⟩] }
  | flushEnd (hs : (s.clients w).sending = .idle) (hf : (s.clients w).flushing = some []) :
      ClientMove P s w { s.clients w with dirtyBlocks := [], flushing := none }
  | write (r : Request N K V) (now : Int) (keys : TupleRow K) (values : V)
      (rest : List (Instr N K V))
      (hs : (s.clients w).sending = .idle) (hf : (s.clients w).flushing = none)
      (ht : (s.clients w).todo = .write keys values :: rest)
      (hl : (s.clients w).lazyWriteEnabled = false) (hr : r.writer = w) :
      ClientMove P s w { s.clients w with
        last := (P.takeStamp w (s.clients w).last now).getD (s.clients w).last
        ncallbacks := (s.clients w).ncallbacks + 1
        sending := .push r
        todo := rest
        accepted := (s.clients w).accepted ++ [(keys, values)]
        queued := (s.clients w).queued ++ [⟨(s.clients w).accepted.length, keys, values⟩]
        issued := (s.clients w).issued ++
          [⟨w, .insert keys.content values, P.takeStamp w (s.clients w).last now⟩] }
  | inTable (c : Client N K V)
      (hs : (s.clients w).sending = .idle) (hf : (s.clients w).flushing = none)
      (hm : LocalMove P w (s.rowsOf P w) (s.clients w) c) : ClientMove P s w c
  | delete (now : Int) (keys : K) (rest : List (Instr N K V))
      (hs : (s.clients w).sending = .idle) (hf : (s.clients w).flushing = none)
      (ht : (s.clients w).todo = .delete keys :: rest) :
      ClientMove P s w { s.clients w with
        last := (P.takeStamp w (s.clients w).last now).getD (s.clients w).last
        issued := (s.clients w).issued ++
          [⟨w, .delete keys, P.takeStamp w (s.clients w).last now⟩]
        todo := .deleted ⟨w, .delete keys, P.takeStamp w (s.clients w).last now⟩ ::
          .cacheRemove keys :: rest }
  | deleted (st : Statement N K V) (rest : List (Instr N K V))
      (hs : (s.clients w).sending = .idle) (hf : (s.clients w).flushing = none)
      (ht : (s.clients w).todo = .deleted st :: rest) (ha : st ∈ s.applied) :
      ClientMove P s w { s.clients w with todo := rest }
  | finish : ClientMove P s w { s.clients w with ncallbacks := (s.clients w).ncallbacks - 1 }

theorem move_client {P : Params N K V} {s s' : State N T K V} (h : ProtocolMove P s s')
    (v : Fin N) : s'.clients v = s.clients v ∨ ClientMove P s v (s'.clients v) := by
  have hset {w : Fin N} {c : Client N K V} (hc : ClientMove P s w c) :
      (s.setClient w c).clients v = s.clients v ∨ ClientMove P s v ((s.setClient w c).clients v) := by
    by_cases hv : v = w
    · subst hv
      simpa [State.setClient] using .inr hc
    · simp [State.setClient, Function.update_of_ne hv]
  cases h with
  | call w a hi => exact hset (.call a hi)
  | push w r hs hroom => exact hset (.sent .release (by simp [hs]) (by simp))
  | signal w hs => exact hset (.sent .idle (by simp [hs]) (by simp))
  | flushItem w now e rest hs hf => exact hset (.flushItem _ now e rest hs hf rfl)
  | flushEnd w hs hf => exact hset (.flushEnd hs hf)
  | write w now keys values rest hs hf ht hl => exact hset (.write _ now keys values rest hs hf ht hl rfl)
  | inTable w c hs hf hm => exact hset (.inTable c hs hf hm)
  | delete w now keys rest hs hf ht => exact hset (.delete now keys rest hs hf ht)
  | deleted w st rest hs hf ht ha => exact hset (.deleted st rest hs hf ht ha)
  | finish t r ht => exact hset (.finish (w := r.writer))
  | wake | popNothing | pop | bind | acquire | execute | apply | enter | releasePermit | giveUp |
      retry | rebind | reacquire | reexecute => exact .inl rfl

theorem exec_sameRequests {P : Params N K V} {rows : K → List V} {c c' : Client N K V}
    {rest : List (Instr N K V)} {i : Instr N K V} (h : c.exec P rows rest i = some c') :
    SameRequests c c' := by
  have hflush := startFlush_sameRequests P c
  cases i with
  | write | delete | deleted => cases h
  | enableLazy | lazyOff | cacheAdd | cacheRemove =>
    cases h
    exact ⟨rfl, rfl, rfl, rfl, rfl, rfl⟩
  | disableLazy =>
    simp only [Client.exec, Option.some.injEq] at h
    subst h
    split
    · exact hflush.todo _
    · exact ⟨rfl, rfl, rfl, rfl, rfl, rfl⟩
  | flushDirtyBlocks =>
    cases h
    exact hflush.todo _
  | await =>
    simp only [Client.exec] at h
    split at h
    · cases h
      exact ⟨rfl, rfl, rfl, rfl, rfl, rfl⟩
    · cases h
  | lookup | select =>
    simp only [Client.exec] at h
    split at h <;> cases h <;> exact ⟨rfl, rfl, rfl, rfl, rfl, rfl⟩

theorem LocalMove.sameRequests {P : Params N K V} {w : Fin N} {rows : K → List V}
    {c c' : Client N K V} (h : LocalMove P w rows c c') : SameRequests c c' := by
  cases h with
  | parked ht hl =>
    have hh := park_sameRequests P c ‹_› ‹_›
    unfold Client.writeLazy
    dsimp only
    split
    · exact (hh.todo _).trans (startFlush_sameRequests P _)
    · exact hh.todo _
  | exec ht he => exact exec_sameRequests he

theorem stepWorker_move {P : Params N K V} {s s' : State N T K V}
    (h : s.stepWorker P = some s') : ProtocolMove P s s' := by
  unfold State.stepWorker at h
  split at h
  · split at h
    · cases h
      exact .wake ‹_› ‹_›
    · cases h
  · split at h
    · cases h
      exact .popNothing ‹_› ‹_›
    · cases h
      exact .pop _ _ ‹_› ‹_›
  · cases h
    exact .bind _ ‹_›
  · split at h
    · cases h
      exact .acquire _ _ ‹_› ‹_›
    · cases h
  · cases h
    exact .execute _ _ ‹_›

theorem stepCallback_move {P : Params N K V} {s s' : State N T K V} {t : Fin T}
    (h : s.stepCallback P t = some s') : ProtocolMove P s s' := by
  unfold State.stepCallback at h
  split at h
  · cases h
  · cases h
    exact .releasePermit t _ _ ‹_›
  · cases h
    exact .finish t _ ‹_›
  · cases h
    simp only [State.setErrorOccurred]
    split
    · exact .giveUp t _ ‹_› ‹_›
    · exact .retry t _ ‹_› (Nat.le_of_not_lt ‹_›)
  · cases h
    exact .rebind t _ ‹_›
  · split at h
    · cases h
      exact .reacquire t _ _ ‹_› ‹_›
    · cases h
  · cases h
    exact .reexecute t _ _ ‹_›

variable [DecidableEq V]

theorem stepInstr_move {P : Params N K V} {s s' : State N T K V} {w : Fin N} {now : Int}
    {i : Instr N K V} {rest : List (Instr N K V)} (hs : (s.clients w).sending = .idle)
    (hf : (s.clients w).flushing = none) (ht : (s.clients w).todo = i :: rest)
    (h : s.stepInstr P w (s.clients w) rest now i = some s') : ProtocolMove P s s' := by
  have hlocal (h : ((s.clients w).exec P (s.rowsOf P w) rest i).map (s.setClient w) = some s') :
      ProtocolMove P s s' := by
    obtain ⟨c, hc, rfl⟩ := Option.map_eq_some_iff.mp h
    exact .inTable w c hs hf (.exec ht hc)
  cases i with
  | write keys values =>
    simp only [State.stepInstr] at h
    split at h
    · cases h
      exact .inTable w _ hs hf (.parked ht ‹_›)
    · cases h
      exact .write w now keys values rest hs hf ht (Bool.eq_false_of_not_eq_true ‹_›)
  | delete keys =>
    cases h
    exact .delete w now keys rest hs hf ht
  | deleted st =>
    simp only [State.stepInstr] at h
    split at h
    · cases h
      exact .deleted w st rest hs hf ht ‹_›
    · cases h
  | enableLazy | disableLazy | lazyOff | flushDirtyBlocks | await | cacheAdd | cacheRemove |
      lookup | select => exact hlocal h

theorem stepClient_move {P : Params N K V} {s s' : State N T K V} {w : Fin N} {now : Int}
    (h : s.stepClient P w now = some s') : ProtocolMove P s s' := by
  unfold State.stepClient at h
  dsimp only at h
  split at h
  · split at h
    · cases h
      exact .push w _ ‹_› ‹_›
    · cases h
  · cases h
    exact .signal w ‹_›
  · rename_i hs
    split at h
    · cases h
      exact .flushItem w now _ _ hs ‹_›
    · cases h
      exact .flushEnd w hs ‹_›
    · split at h
      · cases h
      · exact stepInstr_move hs ‹_› ‹_› h

theorem enterCallback_move {P : Params N K V} {s s' : State N T K V} {t : Fin T} {i : Nat}
    {ok : Bool} (h : s.enterCallback t i ok = some s') : ProtocolMove P s s' := by
  unfold State.enterCallback at h
  split at h
  · split at h
    · cases h
      exact .enter t i _ _ ok ‹_› ‹_› ‹_›
    · cases h
  · cases h

theorem step_move {P : Params N K V} {s s' : State N T K V} (h : ProtocolStep P s s') :
    ProtocolMove P s s' := by
  obtain ⟨a, h⟩ := h
  cases a with
  | call w a =>
    simp only [State.step] at h
    split at h
    · cases h
      exact .call w a ‹_›
    · cases h
  | client w now => exact stepClient_move h
  | worker => exact stepWorker_move h
  | apply i =>
    obtain ⟨st, hst, rfl⟩ := Option.map_eq_some_iff.mp h
    exact .apply st (List.mem_of_getElem? hst)
  | enter t i ok => exact enterCallback_move h
  | callback t => exact stepCallback_move h

/-- The rule for invariants of the protocol that rest on what is known of reachable states. -/
theorem Reachable.relInvariant {P : Params N K V} {I : State N T K V → Prop}
    (h0 : I (State.initial P)) (hstep : ∀ s s', Reachable P s → ProtocolMove P s s' → I s → I s')
    {s : State N T K V} (h : Reachable P s) : I s := by
  induction h with
  | refl => exact h0
  | tail hr hlast ih => exact hstep _ _ hr (step_move hlast) ih

theorem Reachable.invariant {P : Params N K V} {I : State N T K V → Prop}
    (h0 : I (State.initial P)) (hstep : ∀ s s', ProtocolMove P s s' → I s → I s')
    {s : State N T K V} (h : Reachable P s) : I s :=
  Reachable.relInvariant h0 (fun s s' _ => hstep s s') h

theorem Reachable.clientInvariant {P : Params N K V} {I : Fin N → Client N K V → Prop}
    (h0 : ∀ w, I w (Client.new (P.cacheSize w)))
    (hstep : ∀ (s : State N T K V) w c, ClientMove P s w c → I w (s.clients w) → I w c)
    {s : State N T K V} (h : Reachable P s) (w : Fin N) : I w (s.clients w) := by
  refine Reachable.invariant (I := fun s => ∀ w, I w (s.clients w)) h0 (fun s s' hm hi v => ?_) h w
  rcases move_client hm v with he | hc
  · rw [he]
    exact hi v
  · exact hstep s v _ hc (hi v)

end Hecuba
