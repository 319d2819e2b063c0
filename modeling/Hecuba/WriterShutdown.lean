import Hecuba.WriteConservation

/-! The destructor of the WriterThread. Its thread waits until nothing is to be written, tells
the worker to finish, wakes it and joins it, while the worker and the callbacks go on. -/

namespace Hecuba

/-- Where the worker is in its loop. It counts a request before it takes it from the queue. -/
inductive WorkerStage where
  | head
  | acquiring
  | counting
  | popping
  | uncounting
  | running
  | finished
  deriving DecidableEq

/-- `wait_writes_completion` reads whether the queue is empty, and then the counter. -/
inductive Destructor where
  | readData
  | readCallbacks
  | setFinish
  | release
  | join
  | deleted
  deriving DecidableEq

structure Closing (N T : Nat) (K V : Type) where
  state : State N T K V
  stage : WorkerStage
  finishAsyncQueryThread : Bool
  destructor : Destructor

inductive ClosingAction (T : Nat) where
  | worker
  | destructor
  | apply (i : Nat)
  | enter (t : Fin T) (i : Nat) (ok : Bool)
  | callback (t : Fin T)

variable {N T : Nat} {K V : Type}

def Worker.isWaiting : Worker N K V → Bool
  | .waiting => true
  | _ => false

namespace Closing

variable [DecidableEq K] [DecidableEq V] (P : Params N K V) (c : Closing N T K V)

/-- The counter as another thread reads it: the state does not have the request that the worker is
about to take. -/
def ncallbacks : Nat := c.state.ncallbacks + if c.stage = .popping ∨ c.stage = .uncounting then 1 else 0

def stepWorker : Option (Closing N T K V) :=
  match c.stage with
  | .head => some { c with stage := if c.finishAsyncQueryThread then .finished else .acquiring }
  | .acquiring => (c.state.stepWorker P).map fun s => { c with state := s, stage := .counting }
  | .counting => some { c with stage := .popping }
  | .popping => (c.state.stepWorker P).map fun s =>
    { c with state := s, stage := if s.worker.isWaiting then .uncounting else .running }
  | .uncounting => some { c with stage := .head }
  | .running => (c.state.stepWorker P).map fun s =>
    { c with state := s, stage := if s.worker.isWaiting then .head else .running }
  | .finished => none

def stepDestructor : Option (Closing N T K V) :=
  match c.destructor with
  | .readData => some { c with destructor := if c.state.data.isEmpty then .readCallbacks else .readData }
  | .readCallbacks => some { c with destructor := if c.ncallbacks = 0 then .setFinish else .readData }
  | .setFinish => some { c with finishAsyncQueryThread := true, destructor := .release }
  | .release => some { c with
      state := { c.state with sempendingData := c.state.sempendingData + 1 }, destructor := .join }
  | .join => if c.stage = .finished then some { c with destructor := .deleted } else none
  | .deleted => none

def step : ClosingAction T → Option (Closing N T K V)
  | .worker => c.stepWorker P
  | .destructor => c.stepDestructor
  | .apply i => (c.state.step P (.apply i)).map fun s => { c with state := s }
  | .enter t i ok => (c.state.step P (.enter t i ok)).map fun s => { c with state := s }
  | .callback t => (c.state.step P (.callback t)).map fun s => { c with state := s }

def run (actions : List (ClosingAction T)) : Option (Closing N T K V) :=
  actions.foldlM (fun c a => c.step P a) c

end Closing

/-- What the worker has at each place of its loop. -/
def WorkerStage.Fits (w : Worker N K V) : WorkerStage → Prop
  | .head | .acquiring | .uncounting | .finished => w = .waiting
  | .counting | .popping => w = .awake
  | .running => w.held ≠ 0

/-- What the WriterThread counts: requests that the worker holds, that are in flight or that a
callback has. -/
def CallbacksCounted (s : State N T K V) : Prop :=
  s.ncallbacks = s.worker.held.card + s.inFlight.length + s.inCallbacks.card

section counted

variable {P : Params N K V} {s s' : State N T K V}

theorem card_inCallbacks_setThread (s : State N T K V) (t : Fin T) (c : Callback N K V) :
    (s.setThread t c).inCallbacks.card + (s.threads t).held.card = s.inCallbacks.card + c.held.card := by
  have h := congrArg Multiset.card (s.inCallbacks_setThread t c)
  rwa [Multiset.card_add, Multiset.card_add] at h

/-- A thread that changes its place without a change of the requests of the worker. -/
theorem callbacksCounted_thread {t : Fin T} (c : Callback N K V) (hc : CallbacksCounted s)
    (hcards : s'.inCallbacks.card = (s.setThread t c).inCallbacks.card)
    (hcount : s'.ncallbacks + (s.threads t).held.card + s.inFlight.length =
      s.ncallbacks + c.held.card + s'.inFlight.length) (hworker : s'.worker = s.worker) : CallbacksCounted s' := by
  have hthread := card_inCallbacks_setThread s t c
  unfold CallbacksCounted at *
  rw [hworker]
  omega

variable [DecidableEq K]

theorem callbacksCounted_step (h : ProtocolMove P s s') (hc : CallbacksCounted s) : CallbacksCounted s' := by
  cases h with
  | call | push | signal | flushItem | flushEnd | write | inTable | delete | deleted | apply => exact hc
  | wake hw | popNothing hw | bind r hw | acquire r st hw =>
    rw [CallbacksCounted, hw] at hc
    exact hc
  | pop r rest hw hd =>
    rw [CallbacksCounted, hw] at hc
    simp only [CallbacksCounted, Worker.held, State.inCallbacks, Multiset.card_zero, Multiset.card_singleton] at hc ⊢
    omega
  | execute r st hw =>
    rw [CallbacksCounted, hw] at hc
    simp only [CallbacksCounted, Worker.held, State.execute, State.inCallbacks, List.length_append, List.length_singleton,
      Multiset.card_zero, Multiset.card_singleton] at hc ⊢
    omega
  | enter t i r st ok ht hi hok =>
    have hlt := (List.getElem?_eq_some_iff.mp hi).1
    refine callbacksCounted_thread (.entered r ok) hc rfl ?_ rfl
    change s.ncallbacks + (s.threads t).held.card + s.inFlight.length = s.ncallbacks + 1 + (s.inFlight.eraseIdx i).length
    rw [ht, List.length_eraseIdx_of_lt hlt]
    simp only [Callback.held, Multiset.card_zero]
    omega
  | releasePermit t r ok ht => exact callbacksCounted_thread (.released r ok) hc rfl (by rw [ht]; rfl) rfl
  | finish t r ht | giveUp t r ht he =>
    have hmem : 0 < s.inCallbacks.card := by
      rw [Multiset.card_pos_iff_exists_mem]
      exact ⟨r, Multiset.mem_sum.mpr ⟨t, Finset.mem_univ t, by simp [ht, Callback.held]⟩⟩
    refine callbacksCounted_thread .idle hc rfl ?_ rfl
    change s.ncallbacks - 1 + (s.threads t).held.card + s.inFlight.length = s.ncallbacks + 0 + s.inFlight.length
    rw [ht]
    simp only [Callback.held, Multiset.card_singleton]
    unfold CallbacksCounted at hc
    omega
  | retry t r ht he => exact callbacksCounted_thread (.retrying r) hc rfl (by rw [ht]; rfl) rfl
  | rebind t r ht => exact callbacksCounted_thread (.bound r (bindCassstatement P s r)) hc rfl (by rw [ht]; rfl) rfl
  | reacquire t r st ht hp => exact callbacksCounted_thread (.permitted r st) hc rfl (by rw [ht]; rfl) rfl
  | reexecute t r st ht =>
    refine callbacksCounted_thread .idle hc rfl ?_ rfl
    change s.ncallbacks + (s.threads t).held.card + s.inFlight.length = s.ncallbacks + 0 + (s.inFlight ++ [(r, st)]).length
    rw [ht, List.length_append]
    simp only [Callback.held, Multiset.card_singleton, List.length_singleton]
    omega

theorem reachable_callbacksCounted [DecidableEq V] (h : Reachable P s) : CallbacksCounted s := by
  apply Reachable.invariant ?_ (fun _ _ hm => callbacksCounted_step hm) h
  simp [CallbacksCounted, State.initial, State.inCallbacks, Worker.held, Callback.held]

end counted

/-- The state of a WriterThread whose clients make no more calls. -/
structure Unattended (requests : List (Request N K V)) (s : State N T K V) : Prop where
  idle : ∀ w, (s.clients w).isIdle = true
  requests : s.requests = requests
  counted : RequestsCounted s
  callbacks : CallbacksCounted s
  signals : SignalsBalanced s

section unattended

variable {P : Params N K V} {s s' : State N T K V} {requests : List (Request N K V)}

theorem Unattended.apply (h : Unattended requests s) (st : Statement N K V) :
    Unattended requests { s with applied := s.applied ++ [st] } :=
  ⟨h.idle, h.requests, ⟨h.counted.places, h.counted.counted, h.counted.numbered⟩, h.callbacks, h.signals⟩

theorem Unattended.nobody_sends (h : Unattended requests s) (w : Fin N) : (s.clients w).sending = .idle :=
  (isIdle_spec (h.idle w)).1

/-- Nothing is left to write. -/
structure Quiet (requests : List (Request N K V)) (s : State N T K V) : Prop where
  data : s.data = []
  held : s.worker.held = 0
  inFlight : s.inFlight = []
  threads : ∀ t, s.threads t = .idle
  places : (s.abandoned : Multiset (Request N K V)) + s.acked = requests

theorem Callback.eq_idle_of_held {c : Callback N K V} (h : c.held = 0) : c = .idle := by
  cases c <;> simp [Callback.held] at h ⊢

theorem Unattended.quiet (h : Unattended requests s) (hd : s.data = []) (hn : s.ncallbacks = 0) : Quiet requests s := by
  have hcount := h.callbacks
  rw [CallbacksCounted, hn] at hcount
  have hheld : s.worker.held = 0 := Multiset.card_eq_zero.mp (by omega)
  have hflight : s.inFlight = [] := List.length_eq_zero_iff.mp (by omega)
  have hcallbacks : s.inCallbacks = 0 := Multiset.card_eq_zero.mp (by omega)
  have hhands : s.inHands = 0 := Finset.sum_eq_zero fun w _ => by
    rw [h.nobody_sends w]
    rfl
  refine ⟨hd, hheld, hflight, fun t => Callback.eq_idle_of_held ?_, ?_⟩
  · have hle : (s.threads t).held ≤ s.inCallbacks :=
      Finset.single_le_sum (f := fun t => (s.threads t).held) (fun _ _ => Multiset.zero_le _) (Finset.mem_univ t)
    rw [hcallbacks] at hle
    exact Multiset.le_zero.mp hle
  · have hplaces := h.counted.places
    rw [h.requests, State.outstanding, hhands, hd, hheld, hflight, hcallbacks] at hplaces
    simpa using hplaces

theorem finishCallback_isIdle (s : State N T K V) (t : Fin T) (r : Request N K V) (w : Fin N) :
    ((s.finishCallback t r).clients w).isIdle = (s.clients w).isIdle := by
  by_cases hw : w = r.writer
  · subst hw
    simp only [State.finishCallback, State.setThread, State.setClient, Function.update_self]
    rfl
  · simp [State.finishCallback, State.setThread, State.setClient, Function.update_of_ne hw]

variable [DecidableEq K]

theorem Unattended.move (h : Unattended requests s) (hm : ProtocolMove P s s') (hrequests : s'.requests = s.requests)
    (hidle : ∀ w, (s'.clients w).isIdle = (s.clients w).isIdle) : Unattended requests s' where
  idle w := (hidle w).trans (h.idle w)
  requests := hrequests.trans h.requests
  counted := requestsCounted_step (move_accounted hm) h.counted
  callbacks := callbacksCounted_step hm h.callbacks
  signals := signalsBalanced_step hm h.signals

theorem Unattended.worker (h : Unattended requests s) (hs : s.stepWorker P = some s') : Unattended requests s' := by
  have hmove := stepWorker_move hs
  have hkeep : s'.requests = s.requests ∧ s'.clients = s.clients := by
    unfold State.stepWorker at hs
    split at hs
    · split at hs <;> cases hs
      exact ⟨rfl, rfl⟩
    · split at hs <;> cases hs <;> exact ⟨rfl, rfl⟩
    · cases hs
      exact ⟨rfl, rfl⟩
    · split at hs <;> cases hs
      exact ⟨rfl, rfl⟩
    · cases hs
      exact ⟨rfl, rfl⟩
  exact h.move hmove hkeep.1 fun w => by rw [hkeep.2]

theorem Unattended.callback {t : Fin T} (h : Unattended requests s) (hs : s.stepCallback P t = some s') :
    Unattended requests s' := by
  have hmove := stepCallback_move hs
  have hkeep : s'.requests = s.requests ∧ ∀ w, (s'.clients w).isIdle = (s.clients w).isIdle := by
    unfold State.stepCallback at hs
    split at hs
    · cases hs
    · cases hs
      exact ⟨rfl, fun _ => rfl⟩
    · cases hs
      exact ⟨rfl, finishCallback_isIdle s t _⟩
    · cases hs
      simp only [State.setErrorOccurred]
      split <;> exact ⟨rfl, fun _ => rfl⟩
    · cases hs
      exact ⟨rfl, fun _ => rfl⟩
    · split at hs <;> cases hs
      exact ⟨rfl, fun _ => rfl⟩
    · cases hs
      exact ⟨rfl, fun _ => rfl⟩
  exact h.move hmove hkeep.1 hkeep.2

variable [DecidableEq V]

theorem Unattended.enter (P : Params N K V) {t : Fin T} {i : Nat} {ok : Bool} (h : Unattended requests s)
    (hs : s.enterCallback t i ok = some s') : Unattended requests s' := by
  have hmove : ProtocolMove P s s' := enterCallback_move hs
  have hkeep : s'.requests = s.requests ∧ s'.clients = s.clients := by
    unfold State.enterCallback at hs
    split at hs
    · split at hs <;> cases hs
      exact ⟨rfl, rfl⟩
    · cases hs
  exact h.move hmove hkeep.1 fun w => by rw [hkeep.2]

end unattended

namespace Closing

/-- The destructor waits. -/
structure Waiting (requests : List (Request N K V)) (c : Closing N T K V) : Prop where
  unattended : Unattended requests c.state
  fits : c.stage.Fits c.state.worker
  counts : c.stage ≠ .uncounting
  goesOn : c.stage ≠ .finished
  finish : c.finishAsyncQueryThread = false

/-- What holds at each place of the destructor. A worker that was about to sleep when the flag was set has
one permit to wake it. -/
def AtPlace (requests : List (Request N K V)) (c : Closing N T K V) : Prop :=
  match c.destructor with
  | .readData => c.Waiting requests
  | .readCallbacks => c.Waiting requests ∧ c.state.data = []
  | .setFinish => Quiet requests c.state ∧ c.stage.Fits c.state.worker ∧ c.finishAsyncQueryThread = false ∧
      c.state.sempendingData = 0 ∧ (c.stage = .head ∨ c.stage = .acquiring)
  | .release => Quiet requests c.state ∧ c.stage.Fits c.state.worker ∧ c.finishAsyncQueryThread = true ∧
      c.state.sempendingData = 0 ∧ (c.stage = .head ∨ c.stage = .acquiring ∨ c.stage = .finished)
  | .join => Quiet requests c.state ∧ c.stage.Fits c.state.worker ∧ c.finishAsyncQueryThread = true ∧
      (c.stage = .acquiring → 0 < c.state.sempendingData)
  | .deleted => Quiet requests c.state ∧ c.stage = .finished

section waiting

variable {P : Params N K V} {c c' : Closing N T K V} {requests : List (Request N K V)}

theorem Waiting.at_stage {state : State N T K V} {stage : WorkerStage} {destructor : Destructor}
    (hun : Unattended requests state) (hfits : stage.Fits state.worker)
    (hstage : decide (stage ≠ .uncounting ∧ stage ≠ .finished) = true) :
    Waiting requests ⟨state, stage, false, destructor⟩ :=
  ⟨hun, hfits, (of_decide_eq_true hstage).1, (of_decide_eq_true hstage).2, rfl⟩

/-- The wait is over only when the worker has nothing, counted or not. -/
theorem Waiting.over (h : c.Waiting requests) (hd : c.state.data = []) (hn : c.ncallbacks = 0) :
    Quiet requests c.state ∧ c.state.sempendingData = 0 ∧ (c.stage = .head ∨ c.stage = .acquiring) := by
  have hzero : c.state.ncallbacks = 0 := Nat.eq_zero_of_add_eq_zero_right hn
  have hquiet := h.unattended.quiet hd hzero
  have hsignals := h.unattended.signals
  rw [SignalsBalanced, hd, List.length_nil] at hsignals
  refine ⟨hquiet, by omega, ?_⟩
  have hfits := h.fits
  cases hstage : c.stage with
  | head => exact .inl rfl
  | acquiring => exact .inr rfl
  | counting | popping =>
    rw [hstage] at hfits
    have hw : c.state.worker = .awake := hfits
    rw [hw] at hsignals
    simp only [Worker.signals] at hsignals
    omega
  | running =>
    rw [hstage] at hfits
    exact absurd hquiet.held hfits
  | uncounting => exact absurd hstage h.counts
  | finished => exact absurd hstage h.goesOn

theorem AtPlace.destructor (h : c.AtPlace requests) (hs : c.stepDestructor = some c') : c'.AtPlace requests := by
  obtain ⟨state, stage, finish, destructor⟩ := c
  cases destructor with
  | readData =>
    have hw : Waiting requests ⟨state, stage, finish, .readData⟩ := h
    cases hs
    cases hd : state.data with
    | nil => exact ⟨⟨hw.unattended, hw.fits, hw.counts, hw.goesOn, hw.finish⟩, hd⟩
    | cons r rest => exact ⟨hw.unattended, hw.fits, hw.counts, hw.goesOn, hw.finish⟩
  | readCallbacks =>
    obtain ⟨hw, hd⟩ : Waiting requests ⟨state, stage, finish, .readCallbacks⟩ ∧ state.data = [] := h
    cases hs
    by_cases hn : ncallbacks ⟨state, stage, finish, .readCallbacks⟩ = 0
    · obtain ⟨hquiet, hpermits, hstage⟩ := hw.over hd hn
      rw [if_pos hn]
      exact ⟨hquiet, hw.fits, hw.finish, hpermits, hstage⟩
    · rw [if_neg hn]
      exact ⟨hw.unattended, hw.fits, hw.counts, hw.goesOn, hw.finish⟩
  | setFinish =>
    obtain ⟨hquiet, hfits, -, hpermits, hstage⟩ := h
    cases hs
    exact ⟨hquiet, hfits, rfl, hpermits, hstage.imp_right .inl⟩
  | release =>
    obtain ⟨hquiet, hfits, hfinish, -, -⟩ := h
    cases hs
    exact ⟨⟨hquiet.data, hquiet.held, hquiet.inFlight, hquiet.threads, hquiet.places⟩, hfits, hfinish, fun _ => Nat.succ_pos _⟩
  | join =>
    obtain ⟨hquiet, -, -, -⟩ := h
    simp only [stepDestructor] at hs
    split at hs <;> cases hs
    exact ⟨hquiet, ‹_›⟩
  | deleted => cases hs

theorem stepWorker_asleep {s s' : State N T K V} (hw : s.worker = .waiting) (hs : s.stepWorker P = some s') :
    0 < s.sempendingData ∧ s' = { s with sempendingData := s.sempendingData - 1, worker := .awake } := by
  simp only [State.stepWorker, hw] at hs
  split at hs <;> cases hs
  exact ⟨‹_›, rfl⟩

theorem Quiet.worker (h : Quiet requests c.state) (w : Worker N K V) (hheld : w.held = 0) (permits : Nat) :
    Quiet requests { c.state with sempendingData := permits, worker := w } :=
  ⟨h.data, hheld, h.inFlight, h.threads, h.places⟩

variable [DecidableEq K]

theorem Waiting.worker (h : c.Waiting requests) (hs : c.stepWorker P = some c') :
    c'.Waiting requests ∧ (c.state.data = [] → c'.state.data = []) ∧ c'.destructor = c.destructor := by
  obtain ⟨state, stage, finish, destructor⟩ := c
  obtain ⟨hun, hfits, hcounts, hgoes, hfinish⟩ := h
  simp only at hun hfits hcounts hgoes hfinish
  subst hfinish
  cases stage with
  | head =>
    cases hs
    exact ⟨.at_stage hun hfits rfl, id, rfl⟩
  | acquiring =>
    obtain ⟨s, hstep, rfl⟩ := Option.map_eq_some_iff.mp hs
    have hun' := hun.worker hstep
    have hw : state.worker = .waiting := hfits
    simp only [State.stepWorker, hw] at hstep
    split at hstep <;> cases hstep
    exact ⟨.at_stage hun' rfl rfl, id, rfl⟩
  | counting =>
    cases hs
    exact ⟨.at_stage hun hfits rfl, id, rfl⟩
  | popping =>
    obtain ⟨s, hstep, rfl⟩ := Option.map_eq_some_iff.mp hs
    have hun' := hun.worker hstep
    have hw : state.worker = .awake := hfits
    cases hd : state.data with
    | nil =>
      -- the worker is awake for a request that is in the queue
      have hsignals := hun.signals
      rw [SignalsBalanced, hw, hd] at hsignals
      simp only [Worker.signals, List.length_nil] at hsignals
      omega
    | cons r rest =>
      simp only [State.stepWorker, hw, hd, Option.some.injEq] at hstep
      subst hstep
      exact ⟨.at_stage hun' (Multiset.singleton_ne_zero r) rfl, fun hnil => absurd hnil (List.cons_ne_nil r rest), rfl⟩
  | running =>
    obtain ⟨s, hstep, rfl⟩ := Option.map_eq_some_iff.mp hs
    have hun' := hun.worker hstep
    have hheld : state.worker.held ≠ 0 := hfits
    cases hw : state.worker with
    | waiting | awake => exact absurd (by rw [hw]; rfl) hheld
    | holding r =>
      simp only [State.stepWorker, hw, Option.some.injEq] at hstep
      subst hstep
      exact ⟨.at_stage hun' (Multiset.singleton_ne_zero r) rfl, id, rfl⟩
    | bound r st =>
      simp only [State.stepWorker, hw] at hstep
      split at hstep <;> cases hstep
      exact ⟨.at_stage hun' (Multiset.singleton_ne_zero r) rfl, id, rfl⟩
    | permitted r st =>
      simp only [State.stepWorker, hw, Option.some.injEq] at hstep
      subst hstep
      exact ⟨.at_stage hun' rfl rfl, id, rfl⟩
  | uncounting => exact absurd rfl hcounts
  | finished => exact absurd rfl hgoes

theorem AtPlace.worker (h : c.AtPlace requests) (hs : c.stepWorker P = some c') : c'.AtPlace requests := by
  obtain ⟨state, stage, finish, destructor⟩ := c
  cases destructor with
  | readData =>
    obtain ⟨hw, -, hd⟩ := Waiting.worker h hs
    rw [AtPlace, hd]
    exact hw
  | readCallbacks =>
    obtain ⟨hw, hdata, hd⟩ := Waiting.worker h.1 hs
    rw [AtPlace, hd]
    exact ⟨hw, hdata h.2⟩
  | setFinish =>
    obtain ⟨hquiet, hfits, hfinish, hpermits, rfl | rfl⟩ := h
    · cases hs
      have hfinish' : finish = false := hfinish
      subst hfinish'
      exact ⟨hquiet, hfits, rfl, hpermits, .inr rfl⟩
    · obtain ⟨s, hstep, -⟩ := Option.map_eq_some_iff.mp hs
      exact absurd (stepWorker_asleep hfits hstep).1 (by rw [hpermits]; exact lt_irrefl 0)
  | release =>
    obtain ⟨hquiet, hfits, hfinish, hpermits, rfl | rfl | rfl⟩ := h
    · cases hs
      have hfinish' : finish = true := hfinish
      subst hfinish'
      exact ⟨hquiet, hfits, rfl, hpermits, .inr (.inr rfl)⟩
    · obtain ⟨s, hstep, -⟩ := Option.map_eq_some_iff.mp hs
      exact absurd (stepWorker_asleep hfits hstep).1 (by rw [hpermits]; exact lt_irrefl 0)
    · cases hs
  | join =>
    obtain ⟨hquiet, hfits, hfinish, hwake⟩ := h
    have hfinish' : finish = true := hfinish
    subst hfinish'
    cases stage with
    | head =>
      cases hs
      exact ⟨hquiet, hfits, rfl, nofun⟩
    | acquiring =>
      obtain ⟨s, hstep, rfl⟩ := Option.map_eq_some_iff.mp hs
      obtain ⟨-, rfl⟩ := stepWorker_asleep hfits hstep
      exact ⟨Quiet.worker hquiet .awake rfl _, rfl, rfl, nofun⟩
    | counting =>
      cases hs
      exact ⟨hquiet, hfits, rfl, nofun⟩
    | popping =>
      obtain ⟨s, hstep, rfl⟩ := Option.map_eq_some_iff.mp hs
      have hw : state.worker = .awake := hfits
      have hd : state.data = [] := hquiet.data
      simp only [State.stepWorker, hw, hd, Option.some.injEq] at hstep
      subst hstep
      exact ⟨⟨rfl, rfl, hquiet.inFlight, hquiet.threads, hquiet.places⟩, rfl, rfl, nofun⟩
    | uncounting =>
      cases hs
      exact ⟨hquiet, hfits, rfl, nofun⟩
    | running => exact absurd hquiet.held hfits
    | finished => cases hs
  | deleted =>
    obtain ⟨-, hstage⟩ := h
    have hstage' : stage = .finished := hstage
    subst hstage'
    cases hs

variable [DecidableEq V]

/-- A step of the driver or of a callback. -/
inductive DriverStep (P : Params N K V) (s : State N T K V) : State N T K V → Prop
  | apply (st : Statement N K V) : DriverStep P s { s with applied := s.applied ++ [st] }
  | enter {t : Fin T} {i : Nat} {ok : Bool} {s' : State N T K V} (h : s.enterCallback t i ok = some s') : DriverStep P s s'
  | callback {t : Fin T} {s' : State N T K V} (h : s.stepCallback P t = some s') : DriverStep P s s'

theorem DriverStep.same {s s' : State N T K V} (h : DriverStep P s s') : s'.data = s.data ∧ s'.worker = s.worker := by
  cases h with
  | apply st => exact ⟨rfl, rfl⟩
  | enter h =>
    unfold State.enterCallback at h
    split at h
    · split at h <;> cases h
      exact ⟨rfl, rfl⟩
    · cases h
  | callback h =>
    unfold State.stepCallback at h
    split at h
    · cases h
    · cases h
      exact ⟨rfl, rfl⟩
    · cases h
      exact ⟨rfl, rfl⟩
    · cases h
      simp only [State.setErrorOccurred]
      split <;> exact ⟨rfl, rfl⟩
    · cases h
      exact ⟨rfl, rfl⟩
    · split at h <;> cases h
      exact ⟨rfl, rfl⟩
    · cases h
      exact ⟨rfl, rfl⟩

theorem Waiting.driver (h : c.Waiting requests) {s : State N T K V} (hs : DriverStep P c.state s) :
    ({ c with state := s } : Closing N T K V).Waiting requests := by
  have hsame := hs.same
  refine ⟨?_, by rw [hsame.2]; exact h.fits, h.counts, h.goesOn, h.finish⟩
  cases hs with
  | apply st => exact h.unattended.apply st
  | enter hs => exact h.unattended.enter P hs
  | callback hs => exact h.unattended.callback hs

/-- When nothing is left to write the driver does nothing but apply what it was sent. -/
theorem Quiet.driver {s s' : State N T K V} (h : Quiet requests s) (hs : DriverStep P s s') :
    Quiet requests s' ∧ s'.worker = s.worker ∧ s'.sempendingData = s.sempendingData := by
  cases hs with
  | apply st => exact ⟨⟨h.data, h.held, h.inFlight, h.threads, h.places⟩, rfl, rfl⟩
  | @enter t i ok s' hs => simp [State.enterCallback, h.threads t, h.inFlight] at hs
  | @callback t s' hs => simp [State.stepCallback, h.threads t] at hs

theorem step_driver {a : ClosingAction T} (hs : c.step P a = some c') : c.stepWorker P = some c' ∨
    c.stepDestructor = some c' ∨ ∃ s, DriverStep P c.state s ∧ c' = { c with state := s } := by
  cases a with
  | worker => exact .inl hs
  | destructor => exact .inr (.inl hs)
  | apply i =>
    obtain ⟨s, hstep, rfl⟩ := Option.map_eq_some_iff.mp hs
    obtain ⟨st, -, rfl⟩ := Option.map_eq_some_iff.mp hstep
    exact .inr (.inr ⟨_, .apply st, rfl⟩)
  | enter t i ok =>
    obtain ⟨s, hstep, rfl⟩ := Option.map_eq_some_iff.mp hs
    exact .inr (.inr ⟨s, .enter hstep, rfl⟩)
  | callback t =>
    obtain ⟨s, hstep, rfl⟩ := Option.map_eq_some_iff.mp hs
    exact .inr (.inr ⟨s, .callback hstep, rfl⟩)

theorem AtPlace.driver (h : c.AtPlace requests) {s : State N T K V} (hs : DriverStep P c.state s) :
    ({ c with state := s } : Closing N T K V).AtPlace requests := by
  obtain ⟨state, stage, finish, destructor⟩ := c
  cases destructor with
  | readData => exact Waiting.driver h hs
  | readCallbacks => exact ⟨Waiting.driver h.1 hs, hs.same.1.trans h.2⟩
  | setFinish | release =>
    obtain ⟨hquiet, hfits, hfinish, hpermits, hstage⟩ := h
    obtain ⟨hquiet', hworker, hpermits'⟩ := Quiet.driver hquiet hs
    exact ⟨hquiet', by simpa only [hworker] using hfits, hfinish, hpermits'.trans hpermits, hstage⟩
  | join =>
    obtain ⟨hquiet, hfits, hfinish, hwake⟩ := h
    obtain ⟨hquiet', hworker, hpermits'⟩ := Quiet.driver hquiet hs
    exact ⟨hquiet', by simpa only [hworker] using hfits, hfinish, fun hstage => by simpa only [hpermits'] using hwake hstage⟩
  | deleted => exact ⟨(Quiet.driver h.1 hs).1, h.2⟩

theorem AtPlace.step (h : c.AtPlace requests) {a : ClosingAction T} (hs : c.step P a = some c') : c'.AtPlace requests := by
  rcases step_driver hs with hw | hd | ⟨s, hstep, rfl⟩
  · exact h.worker hw
  · exact h.destructor hd
  · exact h.driver hstep

theorem AtPlace.run (h : c.AtPlace requests) {actions : List (ClosingAction T)} (hs : c.run P actions = some c') :
    c'.AtPlace requests := by
  induction actions generalizing c with
  | nil =>
    cases hs
    exact h
  | cons a actions ih =>
    obtain ⟨d, hd, hrest⟩ := Option.bind_eq_some_iff.mp ((List.foldlM_cons ..).symm.trans hs)
    exact ih (h.step hd) hrest

end waiting

/-- The steps that the worker and the destructor have before them at most, once the wait is over. -/
def remaining (c : Closing N T K V) : Nat :=
  (match c.destructor with
    | .readData | .readCallbacks => 4
    | .setFinish => 3
    | .release => 2
    | .join => 1
    | .deleted => 0) +
  match c.stage with
    | .running => 7
    | .head => if c.finishAsyncQueryThread then 1 else 6
    | .acquiring => 5
    | .counting => 4
    | .popping => 3
    | .uncounting => 2
    | .finished => 0

def Waited (c : Closing N T K V) : Prop := c.destructor ≠ .readData ∧ c.destructor ≠ .readCallbacks

section ending

variable {P : Params N K V} {c c' : Closing N T K V} {requests : List (Request N K V)}

theorem AtPlace.quiet (h : c.AtPlace requests) (hw : c.Waited) : Quiet requests c.state := by
  obtain ⟨state, stage, finish, destructor⟩ := c
  cases destructor with
  | readData => exact absurd rfl hw.1
  | readCallbacks => exact absurd rfl hw.2
  | setFinish | release | join | deleted => exact h.1

/-- After the wait the worker leaves the head of its loop only to be woken by the destructor. -/
theorem AtPlace.joining (h : c.AtPlace requests) (hw : c.Waited) (hhead : c.stage ≠ .head) (hacquiring : c.stage ≠ .acquiring)
    (hfinished : c.stage ≠ .finished) : c.destructor = .join ∧ c.stage.Fits c.state.worker ∧ c.finishAsyncQueryThread = true := by
  obtain ⟨state, stage, finish, destructor⟩ := c
  cases destructor with
  | readData => exact absurd rfl hw.1
  | readCallbacks => exact absurd rfl hw.2
  | setFinish =>
    obtain ⟨-, -, -, -, hstage | hstage⟩ := h
    · exact absurd hstage hhead
    · exact absurd hstage hacquiring
  | release =>
    obtain ⟨-, -, -, -, hstage | hstage | hstage⟩ := h
    · exact absurd hstage hhead
    · exact absurd hstage hacquiring
    · exact absurd hstage hfinished
  | join => exact ⟨rfl, h.2.1, h.2.2.1⟩
  | deleted => exact absurd h.2 hfinished

theorem AtPlace.remaining_worker (h : c.AtPlace requests) (hw : c.Waited) (hs : c.stepWorker P = some c') :
    c'.remaining < c.remaining := by
  have hjoin := h.joining hw
  have hquiet := h.quiet hw
  obtain ⟨state, stage, finish, destructor⟩ := c
  cases stage with
  | head =>
    cases hs
    cases finish <;> simp [remaining]
  | acquiring =>
    obtain ⟨s, -, rfl⟩ := Option.map_eq_some_iff.mp hs
    simp [remaining]
  | counting =>
    cases hs
    simp [remaining]
  | popping =>
    obtain ⟨-, hfits, -⟩ := hjoin nofun nofun nofun
    obtain ⟨s, hstep, rfl⟩ := Option.map_eq_some_iff.mp hs
    have hawake : state.worker = .awake := hfits
    have hd : state.data = [] := hquiet.data
    simp only [State.stepWorker, hawake, hd, Option.some.injEq] at hstep
    subst hstep
    simp [remaining, Worker.isWaiting]
  | uncounting =>
    obtain ⟨-, -, hfinish⟩ := hjoin nofun nofun nofun
    have hfinish' : finish = true := hfinish
    cases hs
    simp [remaining, hfinish']
  | running =>
    obtain ⟨-, hfits, -⟩ := hjoin nofun nofun nofun
    exact absurd hquiet.held hfits
  | finished => cases hs

theorem AtPlace.remaining_destructor (hw : c.Waited) (hs : c.stepDestructor = some c') : c'.remaining < c.remaining := by
  obtain ⟨state, stage, finish, destructor⟩ := c
  cases destructor with
  | readData => exact absurd rfl hw.1
  | readCallbacks => exact absurd rfl hw.2
  | setFinish =>
    cases hs
    cases stage <;> cases finish <;> simp [remaining]
  | release =>
    cases hs
    simp [remaining]
  | join =>
    simp only [stepDestructor] at hs
    split at hs <;> cases hs
    simp [remaining]
  | deleted => cases hs

/-- Until the destructor has ended, it or the worker can go on. -/
theorem AtPlace.goes_on (h : c.AtPlace requests) (hw : c.Waited) (hd : c.destructor ≠ .deleted) :
    ∃ c', c.stepWorker P = some c' ∨ c.stepDestructor = some c' := by
  have hjoin := h.joining hw
  have hquiet := h.quiet hw
  obtain ⟨state, stage, finish, destructor⟩ := c
  cases destructor with
  | readData => exact absurd rfl hw.1
  | readCallbacks => exact absurd rfl hw.2
  | setFinish | release => exact ⟨_, .inr rfl⟩
  | deleted => exact absurd rfl hd
  | join =>
    obtain ⟨-, hfits, -, hwake⟩ := h
    cases stage with
    | head | counting | uncounting => exact ⟨_, .inl rfl⟩
    | finished => exact ⟨_, .inr rfl⟩
    | acquiring =>
      have hasleep : state.worker = .waiting := hfits
      have hpermit : 0 < state.sempendingData := hwake rfl
      obtain ⟨s, hs⟩ : ∃ s, state.stepWorker P = some s := by simp [State.stepWorker, hasleep, hpermit]
      exact ⟨_, .inl (Option.map_eq_some_iff.mpr ⟨s, hs, rfl⟩)⟩
    | popping =>
      have hawake : state.worker = .awake := hfits
      have hnone : state.data = [] := hquiet.data
      obtain ⟨s, hs⟩ : ∃ s, state.stepWorker P = some s := by simp [State.stepWorker, hawake, hnone]
      exact ⟨_, .inl (Option.map_eq_some_iff.mpr ⟨s, hs, rfl⟩)⟩
    | running => exact absurd hquiet.held hfits

variable [DecidableEq K] [DecidableEq V]

/-- Nobody is left to use the semaphores that have been deleted. -/
theorem AtPlace.deleted (h : c.AtPlace requests) (hd : c.destructor = .deleted) {a : ClosingAction T} (hs : c.step P a = some c') :
    ∃ i, a = .apply i := by
  obtain ⟨state, stage, finish, destructor⟩ := c
  have hd' : destructor = .deleted := hd
  subst hd'
  obtain ⟨hquiet, hstage⟩ := h
  have hstage' : stage = .finished := hstage
  subst hstage'
  cases a with
  | worker | destructor => cases hs
  | apply i => exact ⟨i, rfl⟩
  | enter t i ok =>
    obtain ⟨s, hstep, -⟩ := Option.map_eq_some_iff.mp hs
    have hidle : state.threads t = .idle := hquiet.threads t
    have hflight : state.inFlight = [] := hquiet.inFlight
    simp [State.step, State.enterCallback, hidle, hflight] at hstep
  | callback t =>
    obtain ⟨s, hstep, -⟩ := Option.map_eq_some_iff.mp hs
    have hidle : state.threads t = .idle := hquiet.threads t
    simp [State.step, State.stepCallback, hidle] at hstep

/-- The worker writes one row and is woken once more to find nothing. -/
def oneWrite : List (ClosingAction 1) :=
  [.destructor] ++ List.replicate 7 .worker ++ [.apply 0, .enter 0 0 true, .callback 0, .callback 0] ++
    [.worker] ++ List.replicate 4 .destructor ++ List.replicate 5 .worker ++ [.destructor]

end ending

end Closing

end Hecuba
