import Hecuba.FlushSafety
import Hecuba.QueuedTimestamps

/-! How statements get from the requests to the database: what is in flight was bound for
its request, what is applied was sent, and what is acknowledged was applied. -/

namespace Hecuba

variable {N T : Nat} {K V : Type}

def Worker.pair : Worker N K V → Option (Request N K V × Statement N K V)
  | .bound r st | .permitted r st => some (r, st)
  | _ => none

def Callback.pair : Callback N K V → Option (Request N K V × Statement N K V)
  | .bound r st | .permitted r st => some (r, st)
  | _ => none

/-- The request whose success the callback has been told. -/
def Callback.confirmed : Callback N K V → Option (Request N K V)
  | .entered r true | .released r true => some r
  | _ => none

def State.Carries (s : State N T K V) (x : Request N K V × Statement N K V) : Prop :=
  s.worker.pair = some x ∨ (∃ t, (s.threads t).pair = some x) ∨ x ∈ s.inFlight

def State.Confirmed (s : State N T K V) (r : Request N K V) : Prop :=
  r ∈ s.acked ∨ ∃ t, (s.threads t).confirmed = some r

/-- The call of `w` that issued the statement is a delete and waits for it. -/
def State.AwaitsDelete (s : State N T K V) (w : Fin N) (st : Statement N K V) : Prop :=
  ∃ rest, (s.clients w).todo = .deleted st :: rest

structure Delivered (s : State N T K V) : Prop where
  carried : ∀ x, s.Carries x → ∃ b ∈ s.bindings, b.request = x.1 ∧ b.statement = x.2
  sent : ∀ st ∈ s.sent, (∃ b ∈ s.bindings, b.statement = st) ∨ st ∈ (s.clients st.table).issued
  applied : ∀ st ∈ s.applied, st ∈ s.sent
  confirmed : ∀ r, s.Confirmed r → ∃ b ∈ s.bindings, b.request = r ∧ b.statement ∈ s.applied
  issued : ∀ w, ∀ st ∈ (s.clients w).issued,
    (∃ r ∈ s.requests, r.statement = st) ∨ st ∈ s.applied ∨ s.AwaitsDelete w st

theorem exists_setThread {α : Type} (g : Callback N K V → Option α) {s : State N T K V} {t : Fin T}
    {c : Callback N K V} {x : α} (h : ∃ u, g ((s.setThread t c).threads u) = some x) :
    g c = some x ∨ ∃ u, g (s.threads u) = some x := by
  obtain ⟨u, hu⟩ := h
  by_cases hut : u = t
  · subst hut
    left
    simpa [State.setThread] using hu
  · right
    exact ⟨u, by simpa [State.setThread, Function.update_of_ne hut] using hu⟩

theorem carries_setThread {s : State N T K V} {t : Fin T} {c : Callback N K V}
    {x : Request N K V × Statement N K V} (hc : c.pair = none)
    (h : (s.setThread t c).Carries x) : s.Carries x := by
  rcases h with h | h | h
  · exact .inl h
  · rcases exists_setThread Callback.pair h with h | h
    · rw [hc] at h
      cases h
    · exact .inr (.inl h)
  · exact .inr (.inr h)

theorem confirmed_setThread {s : State N T K V} {t : Fin T} {c : Callback N K V}
    {r : Request N K V} (hc : ∀ a, c.confirmed = some a → (s.threads t).confirmed = some a)
    (h : (s.setThread t c).Confirmed r) : s.Confirmed r := by
  rcases h with h | h
  · exact .inl h
  · rcases exists_setThread Callback.confirmed h with h | h
    · exact .inr ⟨t, hc r h⟩
    · exact .inr h

theorem issued_setClient {s : State N T K V} {w v : Fin N} {c : Client N K V}
    {st : Statement N K V} (h : st ∈ ((s.setClient w c).clients v).issued) :
    v = w ∧ st ∈ c.issued ∨ st ∈ (s.clients v).issued := by
  by_cases hv : v = w
  · subst hv
    exact .inl ⟨rfl, by simpa [State.setClient] using h⟩
  · exact .inr (by simpa [State.setClient, Function.update_of_ne hv] using h)

variable [DecidableEq K]

theorem carries_of_move {P : Params N K V} {s s' : State N T K V} (hm : ProtocolMove P s s')
    {x : Request N K V × Statement N K V} (h : s'.Carries x) :
    s.Carries x ∨ ∃ b ∈ s'.bindings, b.request = x.1 ∧ b.statement = x.2 := by
  cases hm with
  | call | push | signal | flushItem | flushEnd | write | inTable | delete | deleted | apply =>
    exact .inl h
  | wake | popNothing | pop =>
    rcases h with h | h
    · cases h
    · exact .inl (.inr h)
  | bind r hw =>
    rcases h with h | h
    · cases h
      exact .inr ⟨_, List.mem_append_right _ (List.mem_singleton.mpr rfl), rfl, rfl⟩
    · exact .inl (.inr h)
  | acquire r st hw =>
    rcases h with h | h
    · exact .inl (.inl (by rw [hw]; exact h))
    · exact .inl (.inr h)
  | execute r st hw =>
    rcases h with h | h | h
    · cases h
    · exact .inl (.inr (.inl h))
    · rcases List.mem_append.mp h with h | h
      · exact .inl (.inr (.inr h))
      · rw [List.mem_singleton.mp h]
        exact .inl (.inl (by rw [hw]; rfl))
  | enter t i r st ok ht hi hok =>
    have hh := carries_setThread (by rfl) h
    rcases hh with hh | hh | hh
    · exact .inl (.inl hh)
    · exact .inl (.inr (.inl hh))
    · exact .inl (.inr (.inr (List.mem_of_mem_eraseIdx hh)))
  | releasePermit | finish | giveUp | retry => exact .inl (carries_setThread (by rfl) h)
  | rebind t r ht =>
    rcases h with h | h | h
    · exact .inl (.inl h)
    · rcases exists_setThread Callback.pair h with h | h
      · cases h
        exact .inr ⟨_, List.mem_append_right _ (List.mem_singleton.mpr rfl), rfl, rfl⟩
      · exact .inl (.inr (.inl h))
    · exact .inl (.inr (.inr h))
  | reacquire t r st ht =>
    rcases h with h | h | h
    · exact .inl (.inl h)
    · rcases exists_setThread Callback.pair h with h | h
      · exact .inl (.inr (.inl ⟨t, by rw [ht]; exact h⟩))
      · exact .inl (.inr (.inl h))
    · exact .inl (.inr (.inr h))
  | reexecute t r st ht =>
    have hh := carries_setThread (by rfl) h
    rcases hh with hh | hh | hh
    · exact .inl (.inl hh)
    · exact .inl (.inr (.inl hh))
    · rcases List.mem_append.mp hh with hh | hh
      · exact .inl (.inr (.inr hh))
      · rw [List.mem_singleton.mp hh]
        exact .inl (.inr (.inl ⟨t, by rw [ht]; rfl⟩))

structure Grows (s s' : State N T K V) : Prop where
  bindings : s.bindings ⊆ s'.bindings
  applied : s.applied ⊆ s'.applied
  sent : s.sent ⊆ s'.sent
  requests : s.requests ⊆ s'.requests
  issued : ∀ w, (s.clients w).issued ⊆ (s'.clients w).issued

theorem clientMove_issued {P : Params N K V} {s : State N T K V} {w : Fin N} {c : Client N K V}
    (hm : ClientMove P s w c) : (s.clients w).issued ⊆ c.issued := by
  cases hm with
  | flushItem | write | delete => exact List.subset_append_left _ _
  | inTable c hs hf hm =>
    rw [hm.sameRequests.issued]
    exact List.Subset.refl _
  | call | sent | flushEnd | deleted | finish => exact List.Subset.refl _

theorem move_grows {P : Params N K V} {s s' : State N T K V} (hm : ProtocolMove P s s') :
    Grows s s' := by
  have hissued (w : Fin N) : (s.clients w).issued ⊆ (s'.clients w).issued := by
    rcases move_client hm w with he | hc
    · rw [he]
      exact List.Subset.refl _
    · exact clientMove_issued hc
  have hrefl {α : Type} (l : List α) : l ⊆ l := List.Subset.refl l
  cases hm with
  | flushItem | write =>
    exact ⟨hrefl _, hrefl _, hrefl _, List.subset_append_left _ _, hissued⟩
  | delete | execute | reexecute =>
    exact ⟨hrefl _, hrefl _, List.subset_append_left _ _, hrefl _, hissued⟩
  | apply => exact ⟨hrefl _, List.subset_append_left _ _, hrefl _, hrefl _, hissued⟩
  | bind | rebind => exact ⟨List.subset_append_left _ _, hrefl _, hrefl _, hrefl _, hissued⟩
  | call | push | signal | flushEnd | inTable | deleted | wake | popNothing | pop | acquire | enter |
      releasePermit | finish | giveUp | retry | reacquire =>
    exact ⟨hrefl _, hrefl _, hrefl _, hrefl _, hissued⟩

theorem sent_of_move {P : Params N K V} {s s' : State N T K V} (hm : ProtocolMove P s s')
    {st : Statement N K V} (h : st ∈ s'.sent) :
    st ∈ s.sent ∨ (∃ r, s.Carries (r, st)) ∨ st ∈ (s'.clients st.table).issued := by
  cases hm with
  | delete w now keys rest hs hf ht =>
    rcases List.mem_append.mp h with h | h
    · exact .inl h
    · rw [List.mem_singleton.mp h]
      refine .inr (.inr ?_)
      simp [State.executeDelete, State.setClient]
  | execute r st hw =>
    rcases List.mem_append.mp h with h | h
    · exact .inl h
    · rw [List.mem_singleton.mp h]
      exact .inr (.inl ⟨r, .inl (by rw [hw]; rfl)⟩)
  | reexecute t r st ht =>
    rcases List.mem_append.mp h with h | h
    · exact .inl h
    · rw [List.mem_singleton.mp h]
      exact .inr (.inl ⟨r, .inr (.inl ⟨t, by rw [ht]; rfl⟩)⟩)
  | call | push | signal | flushItem | flushEnd | write | inTable | deleted | wake | popNothing | pop |
      bind | acquire | apply | enter | releasePermit | finish | giveUp | retry | rebind |
      reacquire => exact .inl h

theorem applied_of_move {P : Params N K V} {s s' : State N T K V} (hm : ProtocolMove P s s')
    {st : Statement N K V} (h : st ∈ s'.applied) : st ∈ s.applied ∨ st ∈ s.sent := by
  cases hm with
  | apply st hst =>
    rcases List.mem_append.mp h with h | h
    · exact .inl h
    · rw [List.mem_singleton.mp h]
      exact .inr hst
  | call | push | signal | flushItem | flushEnd | write | inTable | delete | deleted | wake |
      popNothing | pop | bind | acquire | execute | enter | releasePermit | finish | giveUp | retry |
      rebind | reacquire | reexecute => exact .inl h

theorem confirmed_of_move {P : Params N K V} {s s' : State N T K V} (hm : ProtocolMove P s s')
    {r : Request N K V} (h : s'.Confirmed r) :
    s.Confirmed r ∨ ∃ st, (r, st) ∈ s.inFlight ∧ st ∈ s.applied := by
  cases hm with
  | enter t i a st ok ht hi hok =>
    rcases h with h | h
    · exact .inl (.inl h)
    · rcases exists_setThread Callback.confirmed h with h | h
      · cases ok with
        | false => cases h
        | true =>
          obtain rfl : a = r := Option.some.inj h
          exact .inr ⟨st, List.mem_of_getElem? hi, hok rfl⟩
      · exact .inl (.inr h)
  | releasePermit t a ok ht =>
    refine .inl (confirmed_setThread (fun b hb => ?_) h)
    rw [show State.threads _ t = .entered a ok from ht]
    cases ok with
    | false => cases hb
    | true => exact hb
  | finish t a ht =>
    rcases h with h | h
    · rcases List.mem_append.mp h with h | h
      · exact .inl (.inl h)
      · rw [List.mem_singleton.mp h]
        exact .inl (.inr ⟨t, by rw [ht]; rfl⟩)
    · rcases exists_setThread Callback.confirmed h with h | h
      · cases h
      · exact .inl (.inr h)
  | giveUp t a ht | retry t a ht | rebind t a ht | reacquire t a st ht | reexecute t a st ht =>
    exact .inl (confirmed_setThread (fun b hb => by cases hb) h)
  | call | push | signal | flushItem | flushEnd | write | inTable | delete | deleted | wake |
      popNothing | pop | bind | acquire | execute | apply => exact .inl h

theorem awaitsDelete_of_move {P : Params N K V} {s s' : State N T K V} (hm : ProtocolMove P s s')
    {w : Fin N} {st : Statement N K V} (h : s.AwaitsDelete w st) :
    s'.AwaitsDelete w st ∨ st ∈ s.applied := by
  obtain ⟨rest, hr⟩ := h
  rcases move_client hm w with he | hc
  · exact .inl ⟨rest, by rw [he, hr]⟩
  unfold State.AwaitsDelete
  generalize s'.clients w = c at hc
  cases hc with
  | call a hi =>
    simp only [Client.isIdle, hr] at hi
    split at hi
    · rename_i hnil
      cases hnil
    · cases hi
  | deleted st' rest' hs hf ht ha =>
    rw [hr] at ht
    cases ht
    exact .inr ha
  | inTable c hs hf hm =>
    cases hm with
    | parked ht hl =>
      rw [hr] at ht
      cases ht
    | exec ht he =>
      rw [hr] at ht
      cases ht
      cases he
  | write r now keys values rest' hs hf ht hl =>
    rw [hr] at ht
    cases ht
  | delete now keys rest' hs hf ht =>
    rw [hr] at ht
    cases ht
  | sent | flushItem | flushEnd | finish => exact .inl ⟨rest, hr⟩

theorem issued_of_move {P : Params N K V} {s s' : State N T K V} (hm : ProtocolMove P s s')
    {v : Fin N} {st : Statement N K V} (h : st ∈ (s'.clients v).issued) :
    st ∈ (s.clients v).issued ∨ (∃ r ∈ s'.requests, r.statement = st) ∨ s'.AwaitsDelete v st := by
  cases hm with
  | flushItem w now e rest hs hf =>
    rcases issued_setClient h with ⟨rfl, hi⟩ | h
    · rcases List.mem_append.mp hi with h | h
      · exact .inl h
      · rw [List.mem_singleton.mp h]
        exact .inr (.inl ⟨_, List.mem_append_right _ (List.mem_singleton.mpr rfl), rfl⟩)
    · exact .inl h
  | write w now keys values rest hs hf ht hl =>
    rcases issued_setClient h with ⟨rfl, hi⟩ | h
    · rcases List.mem_append.mp hi with h | h
      · exact .inl h
      · rw [List.mem_singleton.mp h]
        exact .inr (.inl ⟨_, List.mem_append_right _ (List.mem_singleton.mpr rfl), rfl⟩)
    · exact .inl h
  | delete w now keys rest hs hf ht =>
    rcases issued_setClient h with ⟨rfl, hi⟩ | h
    · rcases List.mem_append.mp hi with h | h
      · exact .inl h
      · rw [List.mem_singleton.mp h]
        refine .inr (.inr ⟨.cacheRemove keys :: rest, ?_⟩)
        simp [State.executeDelete, State.setClient]
    · exact .inl h
  | inTable w c hs hf hm =>
    rcases issued_setClient h with ⟨rfl, hi⟩ | h
    · exact .inl (hm.sameRequests.issued ▸ hi)
    · exact .inl h
  | call w | push w | signal w | flushEnd w | deleted w =>
    rcases issued_setClient h with ⟨rfl, hi⟩ | h
    · exact .inl hi
    · exact .inl h
  | finish t r ht =>
    rcases issued_setClient (w := r.writer) h with ⟨rfl, hi⟩ | h
    · exact .inl hi
    · exact .inl h
  | wake | popNothing | pop | bind | acquire | execute | apply | enter | releasePermit | giveUp |
      retry | rebind | reacquire | reexecute => exact .inl h

theorem delivered_step {P : Params N K V} {s s' : State N T K V} (hm : ProtocolMove P s s')
    (h : Delivered s) : Delivered s' := by
  have hg := move_grows hm
  have hcarried (x : Request N K V × Statement N K V) (hx : s.Carries x) :
      ∃ b ∈ s'.bindings, b.request = x.1 ∧ b.statement = x.2 := by
    obtain ⟨b, hb, hh⟩ := h.carried x hx
    exact ⟨b, hg.bindings hb, hh⟩
  refine ⟨fun x hx => ?_, fun st hst => ?_, fun st hst => ?_, fun r hr => ?_, fun w st hst => ?_⟩
  · rcases carries_of_move hm hx with hx | hx
    · exact hcarried x hx
    · exact hx
  · rcases sent_of_move hm hst with hst | ⟨r, hr⟩ | hst
    · rcases h.sent st hst with ⟨b, hb, hh⟩ | hst
      · exact .inl ⟨b, hg.bindings hb, hh⟩
      · exact .inr (hg.issued _ hst)
    · obtain ⟨b, hb, -, hh⟩ := hcarried _ hr
      exact .inl ⟨b, hb, hh⟩
    · exact .inr hst
  · rcases applied_of_move hm hst with hst | hst
    · exact hg.sent (h.applied st hst)
    · exact hg.sent hst
  · rcases confirmed_of_move hm hr with hr | ⟨st, hst, ha⟩
    · obtain ⟨b, hb, hbr, hbs⟩ := h.confirmed r hr
      exact ⟨b, hg.bindings hb, hbr, hg.applied hbs⟩
    · obtain ⟨b, hb, hbr, rfl⟩ := hcarried _ (.inr (.inr hst))
      exact ⟨b, hb, hbr, hg.applied ha⟩
  · rcases issued_of_move hm hst with hst | hst | hst
    · rcases h.issued w st hst with ⟨r, hr, hh⟩ | hst | hst
      · exact .inl ⟨r, hg.requests hr, hh⟩
      · exact .inr (.inl (hg.applied hst))
      · rcases awaitsDelete_of_move hm hst with hst | hst
        · exact .inr (.inr hst)
        · exact .inr (.inl (hg.applied hst))
    · exact .inl hst
    · exact .inr (.inr hst)

variable [DecidableEq V]

theorem reachable_delivered {P : Params N K V} {s : State N T K V} (h : Reachable P s) :
    Delivered s := by
  refine Reachable.invariant ⟨?_, ?_, ?_, ?_, ?_⟩ (fun _ _ => delivered_step) h
  · rintro x (hx | ⟨t, hx⟩ | hx)
    · cases hx
    · cases hx
    · exact (List.not_mem_nil hx).elim
  · exact fun st hst => (List.not_mem_nil hst).elim
  · exact fun st hst => (List.not_mem_nil hst).elim
  · rintro r (hr | ⟨t, hr⟩)
    · exact (List.not_mem_nil hr).elim
    · cases hr
  · exact fun w st hst => (List.not_mem_nil hst).elim

end Hecuba
