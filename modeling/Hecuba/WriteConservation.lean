import Mathlib.Algebra.BigOperators.Fin
import Mathlib.Algebra.Order.BigOperators.Group.Finset
import Mathlib.Data.Multiset.Count
import Hecuba.WriteMoves

/-! Where the requests of the write protocol are, and what its two semaphores and the
counters of the Writers say about it. -/

namespace Hecuba

theorem sum_update_add {ι α M : Type*} [Fintype ι] [DecidableEq ι] [AddCommMonoid M] (f : ι → α)
    (g : α → M) (i : ι) (a : α) :
    ∑ j, g (Function.update f i a j) + g (f i) = ∑ j, g (f j) + g a := by
  have hrest : ∑ j ∈ Finset.univ.erase i, g (Function.update f i a j) =
      ∑ j ∈ Finset.univ.erase i, g (f j) := by
    apply Finset.sum_congr rfl
    intro j hj
    rw [Function.update_of_ne (Finset.ne_of_mem_erase hj)]
  rw [← Finset.add_sum_erase _ _ (Finset.mem_univ i),
    ← Finset.add_sum_erase Finset.univ (fun j => g (f j)) (Finset.mem_univ i), hrest,
    Function.update_self]
  ac_rfl

theorem existsUnique_mem_of_nodup_sum {ι α : Type*} [Fintype ι] [DecidableEq ι]
    {f : ι → Multiset α} (h : (∑ i, f i).Nodup) {a : α} (ha : a ∈ ∑ i, f i) : ∃! i, a ∈ f i := by
  obtain ⟨i, -, hi⟩ := Multiset.mem_sum.mp ha
  refine ⟨i, hi, fun j hj => ?_⟩
  by_contra hne
  rw [← Finset.add_sum_erase _ _ (Finset.mem_univ i)] at h
  have hrest : a ∈ ∑ k ∈ Finset.univ.erase i, f k :=
    Multiset.mem_sum.mpr ⟨j, Finset.mem_erase.mpr ⟨hne, Finset.mem_univ j⟩, hj⟩
  exact Multiset.disjoint_left.mp (Multiset.nodup_add.mp h).2.2 hi hrest

variable {N T : Nat} {K V : Type}

def Sending.held : Sending N K V → Multiset (Request N K V)
  | .push r => {r}
  | _ => 0

/-- A client that has pushed and not yet released `sempending_data`. -/
def Sending.signals : Sending N K V → Nat
  | .release => 1
  | _ => 0

def Worker.held : Worker N K V → Multiset (Request N K V)
  | .holding r | .bound r _ | .permitted r _ => {r}
  | _ => 0

def Worker.permits : Worker N K V → Nat
  | .permitted _ _ => 1
  | _ => 0

def Worker.signals : Worker N K V → Nat
  | .awake => 1
  | _ => 0

def Callback.held : Callback N K V → Multiset (Request N K V)
  | .idle => 0
  | .entered r _ | .released r _ | .retrying r | .bound r _ | .permitted r _ => {r}

def Callback.permits : Callback N K V → Nat
  | .entered _ _ | .permitted _ _ => 1
  | _ => 0

namespace State

variable (s : State N T K V)

def inHands : Multiset (Request N K V) := ∑ w, (s.clients w).sending.held

def inCallbacks : Multiset (Request N K V) := ∑ t, (s.threads t).held

def outstanding : Multiset (Request N K V) :=
  s.inHands + s.data + s.worker.held + (s.inFlight.map Prod.fst : List _) + s.inCallbacks +
    s.abandoned

/-- Requests between their acquire of `semmaxcallbacks` and the release in their callback. -/
def permitsHeld : Nat :=
  s.worker.permits + s.inFlight.length + ∑ t, (s.threads t).permits

def signalsDue : Nat := ∑ w, (s.clients w).sending.signals

theorem inHands_setClient (w : Fin N) (c : Client N K V) :
    (s.setClient w c).inHands + (s.clients w).sending.held = s.inHands + c.sending.held :=
  sum_update_add s.clients (fun c => c.sending.held) w c

theorem signalsDue_setClient (w : Fin N) (c : Client N K V) :
    (s.setClient w c).signalsDue + (s.clients w).sending.signals =
      s.signalsDue + c.sending.signals :=
  sum_update_add s.clients (fun c => c.sending.signals) w c

theorem inCallbacks_setThread (t : Fin T) (c : Callback N K V) :
    (s.setThread t c).inCallbacks + (s.threads t).held = s.inCallbacks + c.held :=
  sum_update_add s.threads Callback.held t c

theorem permitsHeld_setThread (t : Fin T) (c : Callback N K V) :
    (s.setThread t c).permitsHeld + (s.threads t).permits = s.permitsHeld + c.permits := by
  have hh : ∑ u, ((s.setThread t c).threads u).permits + (s.threads t).permits =
      ∑ u, (s.threads u).permits + c.permits := sum_update_add s.threads Callback.permits t c
  have he : (s.setThread t c).permitsHeld =
      s.worker.permits + s.inFlight.length + ∑ u, ((s.setThread t c).threads u).permits := rfl
  rw [he, permitsHeld]
  omega

theorem outstanding_setClient (w : Fin N) (c : Client N K V) :
    (s.setClient w c).outstanding + (s.clients w).sending.held =
      s.outstanding + c.sending.held := by
  have hh := s.inHands_setClient w c
  have he : (s.setClient w c).outstanding + (s.clients w).sending.held =
      (s.setClient w c).inHands + (s.clients w).sending.held + s.data + s.worker.held +
        (s.inFlight.map Prod.fst : List _) + s.inCallbacks + s.abandoned := by
    simp only [outstanding, setClient, inCallbacks]
    ac_rfl
  rw [he, hh]
  simp only [outstanding]
  ac_rfl

theorem outstanding_setThread (t : Fin T) (c : Callback N K V) :
    (s.setThread t c).outstanding + (s.threads t).held = s.outstanding + c.held := by
  have hh := s.inCallbacks_setThread t c
  have he : (s.setThread t c).outstanding + (s.threads t).held =
      s.inHands + s.data + s.worker.held + (s.inFlight.map Prod.fst : List _) +
        ((s.setThread t c).inCallbacks + (s.threads t).held) + s.abandoned := by
    simp only [outstanding, setThread, inHands]
    ac_rfl
  rw [he, hh]
  simp only [outstanding]
  ac_rfl

theorem ncallbacks_setClient {w : Fin N} {c : Client N K V}
    (h : c.ncallbacks = (s.clients w).ncallbacks) (v : Fin N) :
    ((s.setClient w c).clients v).ncallbacks = (s.clients v).ncallbacks := by
  by_cases hv : v = w
  · subst hv
    simpa [setClient] using h
  · simp [setClient, Function.update_of_ne hv]

end State

/-- What a move does to the requests outstanding: nothing, one more, or one acknowledged. -/
inductive Accounted (s s' : State N T K V) : Prop
  | same (ho : s'.outstanding = s.outstanding) (hr : s'.requests = s.requests)
      (ha : s'.acked = s.acked) (hn : ∀ w, (s'.clients w).ncallbacks = (s.clients w).ncallbacks)
  | queued (r : Request N K V) (hid : r.id = s.requests.length)
      (ho : s'.outstanding = s.outstanding + {r}) (hr : s'.requests = s.requests ++ [r])
      (ha : s'.acked = s.acked)
      (hn : ∀ w, (s'.clients w).ncallbacks =
        (s.clients w).ncallbacks + if r.writer = w then 1 else 0)
  | acked (r : Request N K V) (ho : s.outstanding = s'.outstanding + {r})
      (hr : s'.requests = s.requests) (ha : s'.acked = s.acked ++ [r])
      (hn : ∀ w, (s'.clients w).ncallbacks =
        (s.clients w).ncallbacks - if r.writer = w then 1 else 0)

theorem accounted_setClient {s : State N T K V} {w : Fin N} {c : Client N K V}
    (hs : c.sending = (s.clients w).sending) (hn : c.ncallbacks = (s.clients w).ncallbacks) :
    Accounted s (s.setClient w c) := by
  refine .same ?_ rfl rfl (s.ncallbacks_setClient hn)
  have hh := s.outstanding_setClient w c
  rw [hs] at hh
  exact add_right_cancel hh

theorem accounted_queue {P : Params N K V} {s : State N T K V} {w : Fin N} {c : Client N K V}
    (e : Parked K V) (now : Int) (hs : (s.clients w).sending = .idle)
    (hn : c.ncallbacks = (s.clients w).ncallbacks) :
    Accounted s (s.queueAsyncQuery P w c e now) := by
  let r : Request N K V :=
    ⟨s.requests.length, w, e.write, e.keys, e.values, P.takeStamp w c.last now⟩
  refine .queued r rfl ?_ rfl rfl fun v => ?_
  · have hh : (s.queueAsyncQuery P w c e now).outstanding + (s.clients w).sending.held =
        s.outstanding + {r} := State.outstanding_setClient _ w _
    simpa only [hs, Sending.held, add_zero] using hh
  · by_cases hv : v = w
    · subst hv
      simp [State.queueAsyncQuery, State.setClient, hn, r]
    · simp [State.queueAsyncQuery, State.setClient, Function.update_of_ne hv, r, Ne.symm hv]

theorem outstanding_data (s : State N T K V) (pre rest : List (Request N K V)) (r : Request N K V)
    (hd : s.data = pre ++ r :: rest) :
    s.outstanding = { s with data := pre ++ rest }.outstanding + {r} := by
  have hm : (s.data : Multiset (Request N K V)) = (pre ++ rest : List _) + {r} := by
    rw [hd, ← Multiset.coe_singleton, Multiset.coe_add]
    exact Multiset.coe_eq_coe.mpr (List.perm_middle.trans (List.perm_append_singleton _ _).symm)
  simp only [State.outstanding, State.inHands, State.inCallbacks, hm]
  ac_rfl

theorem outstanding_worker (s : State N T K V) (w : Worker N K V) :
    { s with worker := w }.outstanding + s.worker.held = s.outstanding + w.held := by
  simp only [State.outstanding, State.inHands, State.inCallbacks]
  ac_rfl

theorem outstanding_execute (s : State N T K V) (r : Request N K V) (st : Statement N K V) :
    (s.execute r st).outstanding = s.outstanding + {r} := by
  have hm : (((s.inFlight ++ [(r, st)]).map Prod.fst : List _) : Multiset (Request N K V)) =
      (s.inFlight.map Prod.fst : List _) + {r} := by
    rw [List.map_append, ← Multiset.coe_add]
    rfl
  simp only [State.execute, State.outstanding, State.inHands, State.inCallbacks, hm]
  ac_rfl

theorem outstanding_abandon (s : State N T K V) (r : Request N K V) :
    { s with abandoned := s.abandoned ++ [r] }.outstanding = s.outstanding + {r} := by
  simp only [State.outstanding, State.inHands, State.inCallbacks, ← Multiset.coe_add,
    Multiset.coe_singleton]
  ac_rfl

theorem outstanding_eraseIdx (s : State N T K V) {i : Nat} {r : Request N K V}
    {st : Statement N K V} (hi : s.inFlight[i]? = some (r, st)) :
    s.outstanding = { s with inFlight := s.inFlight.eraseIdx i }.outstanding + {r} := by
  obtain ⟨hlt, hget⟩ := List.getElem?_eq_some_iff.mp hi
  have hperm : ((r, st) :: s.inFlight.eraseIdx i).Perm s.inFlight := by
    rw [← hget]
    exact List.getElem_cons_eraseIdx_perm hlt
  have hm : ((s.inFlight.map Prod.fst : List _) : Multiset (Request N K V)) =
      ((s.inFlight.eraseIdx i).map Prod.fst : List _) + {r} := by
    rw [← Multiset.coe_eq_coe.mpr (hperm.map Prod.fst), add_comm]
    rfl
  simp only [State.outstanding, State.inHands, State.inCallbacks, hm]
  ac_rfl

/-- Moves of the worker that keep what it has in its hands. -/
theorem accounted_worker {s s' : State N T K V} (w : Worker N K V) (hw : w.held = s.worker.held)
    (ho : s'.outstanding = { s with worker := w }.outstanding) (hr : s'.requests = s.requests)
    (ha : s'.acked = s.acked) (hc : s'.clients = s.clients) : Accounted s s' := by
  refine .same (ho.trans ?_) hr ha fun v => by rw [hc]
  have hh := outstanding_worker s w
  rw [hw] at hh
  exact add_right_cancel hh

/-- Moves inside a callback that keep the request it is about. -/
theorem accounted_thread {s s' : State N T K V} {t : Fin T} (c : Callback N K V)
    (ht : c.held = (s.threads t).held) (ho : s'.outstanding = (s.setThread t c).outstanding)
    (hr : s'.requests = s.requests) (ha : s'.acked = s.acked) (hc : s'.clients = s.clients) :
    Accounted s s' := by
  refine .same (ho.trans ?_) hr ha fun v => by rw [hc]
  have hh := s.outstanding_setThread t c
  rw [ht] at hh
  exact add_right_cancel hh

theorem accounted_finish {s : State N T K V} {t : Fin T} {r : Request N K V}
    (ht : s.threads t = .released r true) : Accounted s (s.finishCallback t r) := by
  refine .acked r ?_ rfl rfl fun w => ?_
  · have hc : (State.setClient { s with ncallbacks := s.ncallbacks - 1, acked := s.acked ++ [r] }
        r.writer { s.clients r.writer with
          ncallbacks := (s.clients r.writer).ncallbacks - 1 }).outstanding = s.outstanding :=
      add_right_cancel (State.outstanding_setClient _ r.writer _)
    have hh := State.outstanding_setThread (State.setClient
      { s with ncallbacks := s.ncallbacks - 1, acked := s.acked ++ [r] } r.writer
      { s.clients r.writer with ncallbacks := (s.clients r.writer).ncallbacks - 1 }) t .idle
    rw [hc] at hh
    simpa [State.finishCallback, State.setClient, ht, Callback.held] using hh.symm
  · by_cases hw : w = r.writer
    · subst hw
      simp [State.finishCallback, State.setThread, State.setClient]
    · simp [State.finishCallback, State.setThread, State.setClient, Function.update_of_ne hw,
        Ne.symm hw]

structure RequestsCounted (s : State N T K V) : Prop where
  places : s.outstanding + s.acked = s.requests
  counted : ∀ w, (s.clients w).ncallbacks = s.outstanding.countP fun r => r.writer = w
  numbered : s.requests.map Request.id = List.range s.requests.length

theorem requestsCounted_step {s s' : State N T K V} (h : Accounted s s')
    (hc : RequestsCounted s) : RequestsCounted s' := by
  obtain ⟨hp, hn, hid⟩ := hc
  cases h with
  | same ho hr ha hn' =>
    refine ⟨by rw [ho, ha, hr, hp], fun w => ?_, by rw [hr, hid]⟩
    rw [hn', ho, hn]
  | queued r hrid ho hr ha hn' =>
    refine ⟨?_, fun w => ?_, ?_⟩
    · rw [ho, ha, hr, ← Multiset.coe_add, ← hp, Multiset.coe_singleton]
      ac_rfl
    · rw [hn', ho, Multiset.countP_add, hn]
      simp [Multiset.countP_eq_card_filter, Multiset.filter_singleton, apply_ite Multiset.card]
    · rw [hr, List.map_append, hid, List.length_append, List.length_singleton, List.range_succ,
        List.map_singleton, hrid]
  | acked r ho hr ha hn' =>
    refine ⟨?_, fun w => ?_, by rw [hr, hid]⟩
    · rw [ha, hr, ← hp, ho, ← Multiset.coe_add, Multiset.coe_singleton]
      ac_rfl
    · rw [hn', hn, ho, Multiset.countP_add]
      simp [Multiset.countP_eq_card_filter, Multiset.filter_singleton, apply_ite Multiset.card]

inductive Place where
  | client | queue | worker | callback | flight | acknowledged
  deriving DecidableEq

instance : Fintype Place where
  elems := {.client, .queue, .worker, .callback, .flight, .acknowledged}
  complete p := by cases p <;> simp

def State.at (s : State N T K V) : Place → Multiset (Request N K V)
  | .client => s.inHands
  | .queue => s.data
  | .worker => s.worker.held
  | .callback => s.inCallbacks
  | .flight => (s.inFlight.map Prod.fst : List _)
  | .acknowledged => s.acked

theorem sum_places (s : State N T K V) (ha : s.abandoned = []) :
    ∑ p, s.at p = s.outstanding + s.acked := by
  change ∑ p ∈ {.client, .queue, .worker, .callback, .flight, .acknowledged}, s.at p = _
  simp only [Finset.sum_insert, Finset.mem_insert, Finset.mem_singleton, reduceCtorEq, or_self,
    not_false_eq_true, Finset.sum_singleton, State.at, State.outstanding, ha, Multiset.coe_nil,
    add_zero]
  ac_rfl

def PermitsBalanced (P : Params N K V) (s : State N T K V) : Prop :=
  s.semmaxcallbacks + s.permitsHeld = P.maxCalls

-- a thread that changes its place takes or gives back what the two places differ by
theorem permitsBalanced_thread {P : Params N K V} {s s' : State N T K V} {t : Fin T}
    (c : Callback N K V) (hb : PermitsBalanced P s)
    (hp : s'.permitsHeld = (s.setThread t c).permitsHeld)
    (hs : s'.semmaxcallbacks + c.permits = s.semmaxcallbacks + (s.threads t).permits) :
    PermitsBalanced P s' := by
  have hh := s.permitsHeld_setThread t c
  unfold PermitsBalanced at *
  omega

variable [DecidableEq K]

theorem move_accounted {P : Params N K V} {s s' : State N T K V} (h : ProtocolMove P s s') :
    Accounted s s' := by
  cases h with
  | call w a hi => exact accounted_setClient rfl rfl
  | push w r hs hroom =>
    refine .same ?_ rfl rfl (State.ncallbacks_setClient _ rfl)
    have hd := outstanding_data { s with data := s.data ++ [r] } s.data [] r rfl
    have hh := State.outstanding_setClient { s with data := s.data ++ [r] } w
      { s.clients w with sending := .release }
    rw [hd] at hh
    simpa [hs, Sending.held] using hh
  | signal w hs =>
    refine .same ?_ rfl rfl (State.ncallbacks_setClient _ rfl)
    have hh := s.outstanding_setClient w { s.clients w with sending := .idle }
    rw [hs] at hh
    exact add_right_cancel hh
  | flushItem w now e rest hs hf => exact accounted_queue e now hs rfl
  | flushEnd w hs hf => exact accounted_setClient rfl rfl
  | write w now keys values rest hs hf ht hl => exact accounted_queue _ now hs rfl
  | inTable w c hs hf hm =>
    exact accounted_setClient hm.sameRequests.sending hm.sameRequests.ncallbacks
  | delete w now keys rest hs hf ht =>
    refine .same ?_ rfl rfl (State.ncallbacks_setClient _ rfl)
    have hh : (s.executeDelete P w (s.clients w) rest keys now).outstanding +
        (s.clients w).sending.held = s.outstanding + (s.clients w).sending.held :=
      State.outstanding_setClient _ w _
    exact add_right_cancel hh
  | deleted w st rest hs hf ht ha => exact accounted_setClient rfl rfl
  | wake hw hp => exact accounted_worker .awake (hw ▸ rfl) rfl rfl rfl rfl
  | popNothing hw hd => exact accounted_worker .waiting (hw ▸ rfl) rfl rfl rfl rfl
  | pop r rest hw hd =>
    refine .same ?_ rfl rfl fun _ => rfl
    have hz : s.worker.held = 0 := by rw [hw]; rfl
    have hh : _ + s.worker.held = _ := outstanding_worker { s with data := rest } (.holding r)
    rw [hz, add_zero] at hh
    rw [outstanding_data s [] rest r hd]
    exact hh
  | bind r hw =>
    exact accounted_worker (.bound r (bindCassstatement P s r)) (hw ▸ rfl) rfl rfl rfl rfl
  | acquire r st hw hp => exact accounted_worker (.permitted r st) (hw ▸ rfl) rfl rfl rfl rfl
  | execute r st hw =>
    refine .same ?_ rfl rfl fun _ => rfl
    have hh := outstanding_worker (s.execute r st) .waiting
    rw [outstanding_execute, show (s.execute r st).worker = .permitted r st from hw] at hh
    exact add_right_cancel (hh.trans (add_zero _))
  | apply st hst => exact .same rfl rfl rfl fun _ => rfl
  | enter t i r st ok ht hi hok =>
    refine .same ?_ rfl rfl fun _ => rfl
    have hh := State.outstanding_setThread { s with inFlight := s.inFlight.eraseIdx i } t
      (.entered r ok)
    rw [outstanding_eraseIdx s hi]
    simpa [ht, Callback.held] using hh
  | releasePermit t r ok ht =>
    exact accounted_thread (.released r ok) (ht ▸ rfl) rfl rfl rfl rfl
  | finish t r ht => exact accounted_finish ht
  | giveUp t r ht he =>
    refine .same ?_ rfl rfl fun _ => rfl
    have hh := State.outstanding_setThread { s with abandoned := s.abandoned ++ [r] } t .idle
    rw [outstanding_abandon, show State.threads { s with abandoned := s.abandoned ++ [r] } t =
      .released r false from ht] at hh
    exact add_right_cancel (hh.trans (add_zero _))
  | retry t r ht he => exact accounted_thread (.retrying r) (ht ▸ rfl) rfl rfl rfl rfl
  | rebind t r ht =>
    exact accounted_thread (.bound r (bindCassstatement P s r)) (ht ▸ rfl) rfl rfl rfl rfl
  | reacquire t r st ht hp =>
    exact accounted_thread (.permitted r st) (ht ▸ rfl) rfl rfl rfl rfl
  | reexecute t r st ht =>
    refine .same ?_ rfl rfl fun _ => rfl
    have hh := (s.execute r st).outstanding_setThread t .idle
    rw [outstanding_execute, show (s.execute r st).threads t = .permitted r st from ht] at hh
    simpa [Callback.held] using hh

theorem reachable_requestsCounted {P : Params N K V} [DecidableEq V] {s : State N T K V}
    (h : Reachable P s) : RequestsCounted s := by
  apply Reachable.invariant ?_ (fun _ _ hm => requestsCounted_step (move_accounted hm)) h
  have ho : (State.initial P : State N T K V).outstanding = 0 := by
    simp [State.outstanding, State.inHands, State.inCallbacks, State.initial, Client.new,
      Sending.held, Callback.held, Worker.held]
  refine ⟨?_, fun w => ?_, rfl⟩
  · rw [ho]
    rfl
  · rw [ho]
    rfl

theorem permitsBalanced_step {P : Params N K V} {s s' : State N T K V} (h : ProtocolMove P s s')
    (hb : PermitsBalanced P s) : PermitsBalanced P s' := by
  cases h with
  | call | push | signal | flushItem | flushEnd | write | inTable | delete | deleted | apply =>
    exact hb
  | wake hw | popNothing hw | pop r rest hw | bind r hw =>
    simp only [PermitsBalanced, State.permitsHeld, State.recordBinding, hw] at hb ⊢
    exact hb
  | acquire r st hw hp =>
    simp only [PermitsBalanced, State.permitsHeld, hw, Worker.permits] at hb ⊢
    omega
  | execute r st hw =>
    simp only [PermitsBalanced, State.permitsHeld, State.execute, hw, Worker.permits,
      List.length_append, List.length_singleton] at hb ⊢
    omega
  | enter t i r st ok ht hi hok =>
    have hlt := (List.getElem?_eq_some_iff.mp hi).1
    have hh := State.permitsHeld_setThread { s with inFlight := s.inFlight.eraseIdx i } t
      (.entered r ok)
    have he : State.permitsHeld { s with inFlight := s.inFlight.eraseIdx i } + 1 =
        s.permitsHeld := by
      simp only [State.permitsHeld, List.length_eraseIdx_of_lt hlt]
      omega
    show s.semmaxcallbacks + State.permitsHeld (State.setThread _ t (.entered r ok)) = P.maxCalls
    simp only [ht, Callback.permits] at hh
    unfold PermitsBalanced at hb
    omega
  | releasePermit t r ok ht => exact permitsBalanced_thread (.released r ok) hb rfl (ht ▸ rfl)
  | finish t r ht | giveUp t r ht he => exact permitsBalanced_thread .idle hb rfl (ht ▸ rfl)
  | retry t r ht he => exact permitsBalanced_thread (.retrying r) hb rfl (ht ▸ rfl)
  | rebind t r ht =>
    exact permitsBalanced_thread (.bound r (bindCassstatement P s r)) hb rfl (ht ▸ rfl)
  | reacquire t r st ht hp =>
    refine permitsBalanced_thread (.permitted r st) hb rfl ?_
    rw [ht]
    exact Nat.sub_add_cancel hp
  | reexecute t r st ht =>
    have hh := (s.execute r st).permitsHeld_setThread t .idle
    have he : (s.execute r st).permitsHeld = s.permitsHeld + 1 := by
      simp only [State.permitsHeld, State.execute, List.length_append, List.length_singleton]
      omega
    show s.semmaxcallbacks + ((s.execute r st).setThread t .idle).permitsHeld = P.maxCalls
    rw [show (s.execute r st).threads t = .permitted r st from ht] at hh
    simp only [Callback.permits] at hh
    unfold PermitsBalanced at hb
    omega

/-- Every request in the queue has its release of `sempending_data` done, due from the
client that pushed it, or taken by the worker on its way to the pop. -/
def SignalsBalanced (s : State N T K V) : Prop :=
  s.sempendingData + s.signalsDue + s.worker.signals = s.data.length

theorem signalsBalanced_step {P : Params N K V} {s s' : State N T K V} (h : ProtocolMove P s s')
    (hb : SignalsBalanced s) : SignalsBalanced s' := by
  unfold SignalsBalanced at *
  have hclient := s.signalsDue_setClient
  -- a client that stays where it is, or goes from idle to a push, owes no signal
  have hkeep {w : Fin N} {c : Client N K V}
      (hs : c.sending.signals = (s.clients w).sending.signals) :
      s.sempendingData + (s.setClient w c).signalsDue + s.worker.signals = s.data.length := by
    have hh := hclient w c
    omega
  have hpush {w : Fin N} (hs : (s.clients w).sending = .idle) (r : Request N K V) :
      (Sending.push r).signals = (s.clients w).sending.signals := by
    rw [hs]
    rfl
  cases h with
  | call w a hi => exact hkeep rfl
  | push w r hs hroom =>
    have hh := hclient w { s.clients w with sending := .release }
    show s.sempendingData + (s.setClient w { s.clients w with sending := .release }).signalsDue +
      s.worker.signals = (s.data ++ [r]).length
    simp only [hs, Sending.signals] at hh
    simp only [List.length_append, List.length_singleton]
    omega
  | signal w hs =>
    have hh := hclient w { s.clients w with sending := .idle }
    show s.sempendingData + 1 + (s.setClient w { s.clients w with sending := .idle }).signalsDue +
      s.worker.signals = s.data.length
    simp only [hs, Sending.signals] at hh ⊢
    omega
  | flushItem w now e rest hs hf => exact hkeep (hpush hs _)
  | flushEnd w hs hf => exact hkeep rfl
  | write w now keys values rest hs hf ht hl => exact hkeep (hpush hs _)
  | inTable w c hs hf hm => exact hkeep (congrArg _ hm.sameRequests.sending)
  | delete w now keys rest hs hf ht => exact hkeep rfl
  | deleted w st rest hs hf ht ha => exact hkeep rfl
  | wake hw hp =>
    rw [hw] at hb
    show s.sempendingData - 1 + s.signalsDue + 1 = s.data.length
    simp only [Worker.signals] at hb
    omega
  | popNothing hw hd =>
    rw [hw, hd] at hb
    show s.sempendingData + s.signalsDue + 0 = s.data.length
    simp only [Worker.signals, List.length_nil] at hb
    omega
  | pop r rest hw hd =>
    rw [hw, hd] at hb
    show s.sempendingData + s.signalsDue + 0 = rest.length
    simp only [Worker.signals, List.length_cons] at hb
    omega
  | bind r hw | acquire r st hw | execute r st hw =>
    rw [hw] at hb
    exact hb
  | apply | enter | releasePermit | giveUp | retry | rebind | reacquire | reexecute => exact hb
  | finish t r ht => exact hkeep (w := r.writer) rfl

theorem reachable_balanced {P : Params N K V} [DecidableEq V] {s : State N T K V}
    (h : Reachable P s) : PermitsBalanced P s ∧ SignalsBalanced s := by
  apply Reachable.invariant (I := fun s => PermitsBalanced P s ∧ SignalsBalanced s) ?_
    (fun _ _ hm hi => ⟨permitsBalanced_step hm hi.1, signalsBalanced_step hm hi.2⟩) h
  constructor
  · simp [PermitsBalanced, State.permitsHeld, State.initial, Worker.permits, Callback.permits]
  · simp [SignalsBalanced, State.signalsDue, State.initial, Client.new, Sending.signals,
      Worker.signals]

/-- The error counter counts the failed callbacks, and the first to be given up is
the one that takes it past the maximum. -/
structure ErrorsCounted (s : State N T K V) : Prop where
  errorCount : s.errorCount = u32 s.failed.length
  abandoned : s.abandoned = [] ↔ s.failed.length ≤ maxErrors

theorem errorsCounted_step {P : Params N K V} {s s' : State N T K V} (h : ProtocolMove P s s')
    (hc : ErrorsCounted s) : ErrorsCounted s' := by
  obtain ⟨he, ha⟩ := hc
  cases h with
  | giveUp t r ht hmax =>
    have hlen : (s.failed ++ [r]).length = s.failed.length + 1 := by simp
    simp only [he, u32, maxErrors] at hmax
    refine ⟨?_, ?_⟩
    · show u32 (s.errorCount + 1) = u32 (s.failed ++ [r]).length
      rw [hlen, he]
      simp only [u32]
      omega
    · show s.abandoned ++ [r] = [] ↔ (s.failed ++ [r]).length ≤ maxErrors
      rw [hlen]
      simp only [List.append_eq_nil_iff, List.cons_ne_nil, and_false, maxErrors, false_iff]
      omega
  | retry t r ht hmax =>
    have hlen : (s.failed ++ [r]).length = s.failed.length + 1 := by simp
    simp only [he, u32, maxErrors] at hmax
    refine ⟨?_, ?_⟩
    · show u32 (s.errorCount + 1) = u32 (s.failed ++ [r]).length
      rw [hlen, he]
      simp only [u32]
      omega
    · show s.abandoned = [] ↔ (s.failed ++ [r]).length ≤ maxErrors
      rw [hlen, ha]
      simp only [maxErrors]
      omega
  | _ => exact ⟨he, ha⟩

theorem reachable_errorsCounted {P : Params N K V} [DecidableEq V] {s : State N T K V}
    (h : Reachable P s) : ErrorsCounted s :=
  Reachable.invariant ⟨rfl, by simp [State.initial]⟩ (fun _ _ => errorsCounted_step) h

theorem reachable_requests_nodup {P : Params N K V} [DecidableEq V] {s : State N T K V}
    (h : Reachable P s) : s.requests.Nodup := by
  have hn := (reachable_requestsCounted h).numbered
  apply List.Nodup.of_map Request.id
  rw [hn]
  exact List.nodup_range

variable [DecidableEq V]

theorem outstanding_eq_filter {P : Params N K V} {s : State N T K V} (h : Reachable P s) :
    s.outstanding = (s.requests : Multiset (Request N K V)).filter (· ∉ s.acked) := by
  have hp := (reachable_requestsCounted h).places
  have hn : (s.outstanding + s.acked).Nodup := hp ▸ Multiset.coe_nodup.mpr (reachable_requests_nodup h)
  have hd := (Multiset.nodup_add.mp hn).2.2
  have ho : s.outstanding.filter (· ∉ s.acked) = s.outstanding :=
    Multiset.filter_eq_self.mpr fun r hr hm =>
      Multiset.disjoint_left.mp hd hr (Multiset.mem_coe.mpr hm)
  have ha : (s.acked : Multiset (Request N K V)).filter (· ∉ s.acked) = 0 :=
    Multiset.filter_eq_nil.mpr fun r hr hm => hm (Multiset.mem_coe.mp hr)
  rw [← hp, Multiset.filter_add, ho, ha, add_zero]

theorem ncallbacks_eq_filter {P : Params N K V} {s : State N T K V} (h : Reachable P s)
    (w : Fin N) : (s.clients w).ncallbacks =
      (s.requests.filter fun r => r.writer = w ∧ r ∉ s.acked).length := by
  rw [(reachable_requestsCounted h).counted, outstanding_eq_filter h,
    Multiset.countP_eq_card_filter, Multiset.filter_filter, Multiset.filter_coe,
    Multiset.coe_card]

/-- In every reachable state with at most `MAX_ERRORS` failed callbacks each request
counted by its Writer is in one place, the counter is the number of its requests not
acknowledged, and each semaphore accounts for what has been taken from it. -/
theorem write_conservation {P : Params N K V} {s : State N T K V} (h : Reachable P s)
    (hf : s.failed.length ≤ maxErrors) :
    (∀ r ∈ s.requests, ∃! p, r ∈ s.at p) ∧ (∀ p, (s.at p).Nodup) ∧
      (∀ w, (s.clients w).ncallbacks =
        (s.requests.filter fun r => r.writer = w ∧ r ∉ s.acked).length) ∧
      s.semmaxcallbacks + s.permitsHeld = P.maxCalls ∧
      (s.worker = .waiting → s.sempendingData + s.signalsDue = s.data.length) := by
  have hc := reachable_requestsCounted h
  have hb := reachable_balanced h
  have hsum : ∑ p, s.at p = s.requests := by
    rw [sum_places s ((reachable_errorsCounted h).abandoned.mpr hf), hc.places]
  have hnodup : (∑ p, s.at p).Nodup := by
    rw [hsum]
    exact Multiset.coe_nodup.mpr (reachable_requests_nodup h)
  refine ⟨fun r hr => ?_, fun p => ?_, ncallbacks_eq_filter h, hb.1, fun hw => ?_⟩
  · apply existsUnique_mem_of_nodup_sum hnodup
    rw [hsum]
    exact Multiset.mem_coe.mpr hr
  · rw [← Finset.add_sum_erase _ _ (Finset.mem_univ p)] at hnodup
    exact (Multiset.nodup_add.mp hnodup).1
  · have hh := hb.2
    simpa only [SignalsBalanced, hw, Worker.signals, add_zero] using hh

def oneTable : Params 1 Nat Nat where
  maxCalls := 1
  maxCalls_pos := Nat.one_pos
  writerBuffer := 1
  disableTimestamps _ := false
  cacheSize _ := 0
  writerMaxCalls _ := 16
  hash := id
  walk := id
  walk_perm _ := .refl _
  selectRows _ _ := []

def pushedWrite (w : Fin N) : List (Action N T Nat Nat) :=
  [.call w (.writeToCassandra ⟨0, 0⟩ 7), .client w 1, .client w 1]

/-- Between the count and the push a request is in none of the places of the
WriterThread, and between the push and the release the worker may be about to wait
with the semaphore below the length of the queue. -/
theorem request_in_the_hands_of_its_client :
    (∃ s : State 1 1 Nat Nat, Reachable oneTable s ∧ s.failed.length ≤ maxErrors ∧
      s.worker = .waiting ∧ ¬ s.data.length ≤ s.sempendingData) ∧
    ∃ s : State 1 1 Nat Nat, Reachable oneTable s ∧ s.failed.length ≤ maxErrors ∧
      ∃ r ∈ s.requests, (s.clients r.writer).ncallbacks = 1 ∧
        ∀ p, p ≠ .client → r ∉ s.at p := by
  constructor
  · obtain ⟨s, hs, hp⟩ := exists_reachable (T := 1) (P := oneTable) (pushedWrite 0) (fun s =>
      decide (s.failed.length ≤ maxErrors ∧ s.worker = .waiting ∧
        ¬ s.data.length ≤ s.sempendingData)) (by decide +kernel)
    exact ⟨s, hs, of_decide_eq_true hp⟩
  · obtain ⟨s, hs, hp⟩ := exists_reachable (T := 1) (P := oneTable) ((pushedWrite 0).take 2) (fun s =>
      decide (s.failed.length ≤ maxErrors ∧ ∃ r ∈ s.requests,
        (s.clients r.writer).ncallbacks = 1 ∧ ∀ p, p ≠ .client → r ∉ s.at p))
      (by decide +kernel)
    exact ⟨s, hs, of_decide_eq_true hp⟩

/-- Three writes: the first one fails and is sent again, the second one is pushed and the third one is counted. -/
def threeWrites (w : Fin N) (t : Fin T) : List (Action N T Nat Nat) :=
  pushedWrite w ++ [.client w 1, .worker, .worker, .worker, .worker, .worker] ++
    [.enter t 0 false, .callback t, .callback t, .callback t, .callback t, .callback t] ++
    pushedWrite w ++ [.client w 1] ++ (pushedWrite w).take 2

theorem write_conservation_retried :
    ∃ s : State 1 1 Nat Nat, Reachable oneTable s ∧ s.requests.length = 3 ∧ s.failed.length = 1 ∧
      (∀ r ∈ s.requests, ∃! p, r ∈ s.at p) ∧ (∀ p, (s.at p).Nodup) ∧
        (s.clients 0).ncallbacks = (s.requests.filter fun r => r.writer = 0 ∧ r ∉ s.acked).length ∧
        s.semmaxcallbacks + s.permitsHeld = 1 ∧ s.sempendingData + s.signalsDue = s.data.length := by
  obtain ⟨s, hs, hp⟩ := exists_reachable (T := 1) (P := oneTable) (threeWrites 0 0) (fun s =>
    decide (s.requests.length = 3 ∧ s.failed.length = 1 ∧ s.worker = .waiting)) (by decide +kernel)
  obtain ⟨hlen, hfailed, hworker⟩ := of_decide_eq_true hp
  have hfew : s.failed.length ≤ maxErrors := hfailed.trans_le (by decide)
  obtain ⟨hplaces, hnodup, hcounted, hpermits, hsignals⟩ := write_conservation hs hfew
  exact ⟨s, hs, hlen, hfailed, hplaces, hnodup, hcounted 0, hpermits, hsignals hworker⟩

end Hecuba
