import Hecuba.WriteConservation

/-! The timestamps of writes: each Writer stamps in the order of its calls, but the
stamp is kept in the payload of the key row until the statement is bound, and every
copy of that row shares the payload. -/

namespace Hecuba

variable {N T : Nat} {K V : Type}

theorem lt_nextStamp (last now : Int) : last < nextStamp last now := by
  unfold nextStamp
  split <;> omega

theorem takeStamp_eq_some {P : Params N K V} {w : Fin N} {last now x : Int}
    (h : x ∈ P.takeStamp w last now) : last < x := by
  unfold Params.takeStamp at h
  split at h
  · cases h
  · obtain rfl := Option.some.inj h
    exact lt_nextStamp last now

theorem le_takeStamp (P : Params N K V) (w : Fin N) (last now : Int) :
    last ≤ (P.takeStamp w last now).getD last := by
  cases hs : P.takeStamp w last now with
  | none => exact le_rfl
  | some x => exact le_of_lt (takeStamp_eq_some hs)

def Statement.Before (a b : Statement N K V) : Prop :=
  ∀ x ∈ a.timestamp, ∀ y ∈ b.timestamp, x < y

/-- The statements a table has asked for, in the order of its calls, with the generator's state. -/
structure StampsIncrease (P : Params N K V) (w : Fin N) (issued : List (Statement N K V))
    (last : Int) : Prop where
  increasing : issued.Pairwise Statement.Before
  bounded : ∀ st ∈ issued, ∀ x ∈ st.timestamp, x ≤ last
  table : ∀ st ∈ issued, st.table = w
  dated : ∀ st ∈ issued, st.timestamp.isSome = !P.disableTimestamps w

theorem StampsIncrease.append {P : Params N K V} {w : Fin N} {issued : List (Statement N K V)}
    {last : Int} (h : StampsIncrease P w issued last) (effect : Effect K V) (now : Int) :
    StampsIncrease P w (issued ++ [⟨w, effect, P.takeStamp w last now⟩])
      ((P.takeStamp w last now).getD last) := by
  have hle := le_takeStamp P w last now
  refine ⟨?_, fun st hst x hx => ?_, fun st hst => ?_, fun st hst => ?_⟩
  · refine List.pairwise_append.mpr ⟨h.increasing, List.pairwise_singleton _ _, ?_⟩
    intro a ha b hb x hx y hy
    rw [List.mem_singleton.mp hb] at hy
    exact lt_of_le_of_lt (h.bounded a ha x hx) (takeStamp_eq_some hy)
  · rcases List.mem_append.mp hst with hst | hst
    · exact le_trans (h.bounded st hst x hx) hle
    · rw [List.mem_singleton.mp hst] at hx
      rw [show P.takeStamp w last now = some x from hx]
      exact le_rfl
  · rcases List.mem_append.mp hst with hst | hst
    · exact h.table st hst
    · rw [List.mem_singleton.mp hst]
  · rcases List.mem_append.mp hst with hst | hst
    · exact h.dated st hst
    · rw [List.mem_singleton.mp hst]
      simp only [Params.takeStamp]
      split <;> simp_all

def Request.statement (r : Request N K V) : Statement N K V :=
  ⟨r.writer, .insert r.keys.content r.values, r.stamp⟩

/-- The stamp that the requests queued so far have left in a payload. -/
def lastStamp (payload : Nat) (requests : List (Request N K V)) : Int :=
  requests.foldl (fun t r => if r.keys.payload = payload then r.stamp.getD t else t) 0

theorem lastStamp_append (payload : Nat) (l : List (Request N K V)) (r : Request N K V) :
    lastStamp payload (l ++ [r]) =
      if r.keys.payload = payload then r.stamp.getD (lastStamp payload l)
      else lastStamp payload l := by
  rw [lastStamp, List.foldl_append]
  rfl

theorem lastStamp_of_last {pre post : List (Request N K V)} {r : Request N K V} {x : Int}
    (hx : r.stamp = some x) (hpost : ∀ a ∈ post, a.keys.payload ≠ r.keys.payload) :
    lastStamp r.keys.payload (pre ++ r :: post) = x := by
  induction post using List.reverseRecOn with
  | nil => rw [lastStamp_append, if_pos rfl, hx, Option.getD_some]
  | append_singleton post a ih =>
    have hsplit : pre ++ r :: (post ++ [a]) = pre ++ r :: post ++ [a] := by simp
    rw [hsplit, lastStamp_append, if_neg (hpost a (by simp))]
    exact ih fun b hb => hpost b (List.mem_append_left _ hb)

theorem exists_lastStamp (pre : List (Request N K V)) {post : List (Request N K V)} {payload : Nat}
    (hdated : ∀ a ∈ post, a.keys.payload = payload → a.stamp.isSome = true)
    (h : ∃ a ∈ post, a.keys.payload = payload) :
    ∃ a ∈ post, a.keys.payload = payload ∧ a.stamp = some (lastStamp payload (pre ++ post)) := by
  induction post using List.reverseRecOn with
  | nil =>
    obtain ⟨a, ha, -⟩ := h
    exact (List.not_mem_nil ha).elim
  | append_singleton post b ih =>
    rw [← List.append_assoc, lastStamp_append]
    by_cases hb : b.keys.payload = payload
    · refine ⟨b, by simp, hb, ?_⟩
      obtain ⟨y, hy⟩ := Option.isSome_iff_exists.mp (hdated b (by simp) hb)
      rw [if_pos hb, hy, Option.getD_some]
    · rw [if_neg hb]
      have hmem : ∃ a ∈ post, a.keys.payload = payload := by
        obtain ⟨a, ha, hp⟩ := h
        rcases List.mem_append.mp ha with ha | ha
        · exact ⟨a, ha, hp⟩
        · rw [List.mem_singleton.mp ha] at hp
          exact (hb hp).elim
      obtain ⟨a, ha, hp, hx⟩ := ih (fun a ha => hdated a (List.mem_append_left _ ha)) hmem
      exact ⟨a, List.mem_append_left _ ha, hp, hx⟩

theorem setTimestamp_eq (timestamps : Nat → Int) (payload p : Nat) (stamp : Option Int) :
    setTimestamp timestamps payload stamp p =
      if payload = p then stamp.getD (timestamps p) else timestamps p := by
  cases stamp with
  | none => simp [setTimestamp]
  | some x =>
    by_cases hp : payload = p
    · subst hp
      simp [setTimestamp]
    · simp [setTimestamp, hp, Function.update_of_ne (Ne.symm hp)]

structure StampsKept (s : State N T K V) : Prop where
  timestamps : ∀ p, s.timestamps p = lastStamp p s.requests
  issued : ∀ w, ((s.requests.filter fun r => r.writer = w).map Request.statement).Sublist
    (s.clients w).issued

theorem stampsKept_queue {P : Params N K V} {s : State N T K V} {w : Fin N} {c : Client N K V}
    (h : StampsKept s) (hc : c.issued = (s.clients w).issued) (e : Parked K V) (now : Int) :
    StampsKept (s.queueAsyncQuery P w c e now) := by
  refine ⟨fun p => ?_, fun v => ?_⟩
  · simp only [State.queueAsyncQuery, State.setClient]
    rw [lastStamp_append, setTimestamp_eq, h.timestamps]
  · have hv := h.issued v
    simp only [State.queueAsyncQuery, State.setClient, List.filter_append, List.map_append]
    by_cases hvw : v = w
    · subst hvw
      simpa [hc, Request.statement] using hv
    · simpa [Function.update_of_ne hvw, Ne.symm hvw] using hv

/-- What `bind_cassstatement` found when it ran: the stamp of the row at that moment. -/
structure BoundAt (P : Params N K V) (s : State N T K V) (b : Binding N K V) : Prop where
  queued_le : b.queued ≤ s.requests.length
  queued : b.request.id < b.queued
  request : s.requests[b.request.id]? = some b.request
  statement : b.statement = ⟨b.request.writer, .insert b.request.keys.content b.request.values,
    if P.disableTimestamps b.request.writer then none
    else some (lastStamp b.request.keys.payload (s.requests.take b.queued))⟩

theorem BoundAt.append {P : Params N K V} {s s' : State N T K V} {b : Binding N K V}
    (h : BoundAt P s b) {l : List (Request N K V)} (hr : s'.requests = s.requests ++ l) :
    BoundAt P s' b := by
  obtain ⟨hle, hq, hreq, hts⟩ := h
  refine ⟨?_, hq, ?_, ?_⟩
  · rw [hr, List.length_append]
    omega
  · rw [hr, List.getElem?_append_left (by omega), hreq]
  · rw [hts, hr, List.take_append_of_le_length hle]

variable [DecidableEq K]

theorem stampsKept_step {P : Params N K V} {s s' : State N T K V} (h : ProtocolMove P s s')
    (hi : StampsKept s) : StampsKept s' := by
  have hset {w : Fin N} {c : Client N K V} (hc : (s.clients w).issued.Sublist c.issued) :
      ∀ v, ((s.requests.filter fun r => r.writer = v).map Request.statement).Sublist
        ((s.setClient w c).clients v).issued := by
    intro v
    by_cases hv : v = w
    · subst hv
      simpa [State.setClient] using (hi.issued v).trans hc
    · simpa [State.setClient, Function.update_of_ne hv] using hi.issued v
  cases h with
  | flushItem w now e rest hs hf =>
    apply stampsKept_queue hi
    rfl
  | write w now keys values rest hs hf ht hl =>
    apply stampsKept_queue hi
    rfl
  | inTable w c hs hf hm =>
    exact ⟨hi.timestamps, hset (hm.sameRequests.issued ▸ List.Sublist.refl _)⟩
  | delete w now keys rest hs hf ht =>
    exact ⟨hi.timestamps, hset (List.sublist_append_left _ _)⟩
  | call w | push w | signal w | flushEnd w | deleted w =>
    exact ⟨hi.timestamps, hset (w := w) (List.Sublist.refl _)⟩
  | finish t r ht => exact ⟨hi.timestamps, hset (w := r.writer) (List.Sublist.refl _)⟩
  | wake | popNothing | pop | bind | acquire | execute | apply | enter | releasePermit | giveUp |
      retry | rebind | reacquire | reexecute => exact ⟨hi.timestamps, hi.issued⟩

theorem stampsIncrease_step {P : Params N K V} {s : State N T K V} {w : Fin N}
    {c : Client N K V} (hm : ClientMove P s w c)
    (h : StampsIncrease P w (s.clients w).issued (s.clients w).last) :
    StampsIncrease P w c.issued c.last := by
  cases hm with
  | flushItem r now e rest hs hf => exact h.append _ now
  | write r now keys values rest hs hf ht hl => exact h.append _ now
  | delete now keys rest hs hf ht => exact h.append _ now
  | inTable c hs hf hm =>
    rw [hm.sameRequests.issued, hm.sameRequests.last]
    exact h
  | call | sent | flushEnd | deleted | finish => exact h

variable [DecidableEq V]

theorem reachable_stampsKept {P : Params N K V} {s : State N T K V} (h : Reachable P s) :
    StampsKept s :=
  Reachable.invariant ⟨fun _ => rfl, fun _ => List.nil_sublist _⟩ (fun _ _ => stampsKept_step) h

theorem reachable_stampsIncrease {P : Params N K V} {s : State N T K V} (h : Reachable P s)
    (w : Fin N) : StampsIncrease P w (s.clients w).issued (s.clients w).last := by
  refine Reachable.clientInvariant (I := fun w c => StampsIncrease P w c.issued c.last)
    (fun w => ⟨List.Pairwise.nil, ?_, ?_, ?_⟩) (fun _ _ _ => stampsIncrease_step) h w <;>
    intro st hst <;> exact (List.not_mem_nil hst).elim

theorem statement_mem_issued {P : Params N K V} {s : State N T K V} (h : Reachable P s)
    {r : Request N K V} (hr : r ∈ s.requests) : r.statement ∈ (s.clients r.writer).issued :=
  ((reachable_stampsKept h).issued r.writer).mem
    (List.mem_map_of_mem (List.mem_filter.mpr ⟨hr, by simp⟩))

theorem request_dated {P : Params N K V} {s : State N T K V} (h : Reachable P s)
    {r : Request N K V} (hr : r ∈ s.requests) :
    r.stamp.isSome = !P.disableTimestamps r.writer :=
  (reachable_stampsIncrease h r.writer).dated _ (statement_mem_issued h hr)

theorem requests_stamped_in_order {P : Params N K V} {s : State N T K V} (h : Reachable P s) :
    s.requests.Pairwise fun a b => a.writer = b.writer → a.statement.Before b.statement := by
  have hw (w : Fin N) : s.requests.Pairwise fun a b =>
      a.writer = w → b.writer = w → a.statement.Before b.statement := by
    have hp := (reachable_stampsIncrease h w).increasing.sublist ((reachable_stampsKept h).issued w)
    simpa using List.pairwise_filter.mp (List.pairwise_map.mp hp)
  rw [List.pairwise_iff_getElem]
  intro i j hi hj hij hab
  exact List.pairwise_iff_getElem.mp (hw _) i j hi hj hij rfl hab.symm

theorem live_mem_requests {P : Params N K V} {s : State N T K V} (h : Reachable P s)
    {r : Request N K V} (hr : r ∈ s.outstanding) : r ∈ s.requests := by
  have hp := (reachable_requestsCounted h).places
  have hm : r ∈ s.outstanding + s.acked := Multiset.mem_add.mpr (.inl hr)
  rw [hp] at hm
  exact Multiset.mem_coe.mp hm

theorem request_at_id {P : Params N K V} {s : State N T K V} (h : Reachable P s)
    {r : Request N K V} (hr : r ∈ s.requests) : s.requests[r.id]? = some r := by
  obtain ⟨i, hi, rfl⟩ := List.mem_iff_getElem.mp hr
  have hn := (reachable_requestsCounted h).numbered
  have hid : (s.requests[i]).id = i := by
    have hh := congrArg (fun l => l[i]?) hn
    simpa [hi] using hh
  rw [hid]
  exact List.getElem?_eq_getElem hi

theorem boundAt_new {P : Params N K V} {s : State N T K V} (h : Reachable P s)
    {r : Request N K V} (hr : r ∈ s.requests) :
    BoundAt P s ⟨r, bindCassstatement P s r, s.requests.length⟩ := by
  have hat := request_at_id h hr
  refine ⟨le_rfl, (List.getElem?_eq_some_iff.mp hat).1, hat, ?_⟩
  rw [List.take_length, ← (reachable_stampsKept h).timestamps]
  rfl

theorem boundAt_step {P : Params N K V} {s s' : State N T K V} (h : Reachable P s)
    (hm : ProtocolMove P s s') (hi : ∀ b ∈ s.bindings, BoundAt P s b) :
    ∀ b ∈ s'.bindings, BoundAt P s' b := by
  have hsame (hb : s'.bindings = s.bindings) (hr : s'.requests = s.requests) :
      ∀ b ∈ s'.bindings, BoundAt P s' b := fun b hmem =>
    (hi b (hb ▸ hmem)).append (l := []) (by rw [hr, List.append_nil])
  have hnew {r : Request N K V} (hr : r ∈ s.outstanding)
      (hb : s'.bindings = s.bindings ++ [⟨r, bindCassstatement P s r, s.requests.length⟩])
      (hreq : s'.requests = s.requests) : ∀ b ∈ s'.bindings, BoundAt P s' b := by
    intro b hmem
    rw [hb] at hmem
    have hat : BoundAt P s b := by
      rcases List.mem_append.mp hmem with hmem | hmem
      · exact hi b hmem
      · rw [List.mem_singleton.mp hmem]
        exact boundAt_new h (live_mem_requests h hr)
    exact hat.append (l := []) (by rw [hreq, List.append_nil])
  cases hm with
  | flushItem | write => exact fun b hmem => (hi b hmem).append rfl
  | bind r hw => exact hnew (r := r) (by simp [State.outstanding, hw, Worker.held]) rfl rfl
  | rebind t r ht =>
    refine hnew (r := r) ?_ rfl rfl
    have hc : r ∈ s.inCallbacks := by
      rw [State.inCallbacks, Multiset.mem_sum]
      exact ⟨t, Finset.mem_univ t, by simp [ht, Callback.held]⟩
    simp [State.outstanding, hc]
  | call | push | signal | flushEnd | inTable | delete | deleted | wake | popNothing | pop | acquire |
      execute | apply | enter | releasePermit | finish | giveUp | retry | reacquire | reexecute =>
    exact hsame rfl rfl

theorem reachable_boundAt {P : Params N K V} {s : State N T K V} (h : Reachable P s) :
    ∀ b ∈ s.bindings, BoundAt P s b := by
  refine Reachable.relInvariant (I := fun s => ∀ b ∈ s.bindings, BoundAt P s b) ?_
    (fun _ _ => boundAt_step) h
  intro b hb
  exact (List.not_mem_nil hb).elim

theorem requests_cut {P : Params N K V} {s : State N T K V} (h : Reachable P s)
    {r : Request N K V} {n : Nat} (hr : s.requests[r.id]? = some r) (hn : r.id < n)
    (hle : n ≤ s.requests.length) :
    ∃ pre post, s.requests.take n = pre ++ r :: post ∧
      ∀ a ∈ s.requests.take n, r.id < a.id ↔ a ∈ post := by
  obtain ⟨l, hl⟩ : ∃ l, l = s.requests.take n := ⟨_, rfl⟩
  rw [← hl]
  have hlen : l.length = n := by
    rw [hl, List.length_take]
    omega
  have hat {i : Nat} (hi : i < n) : s.requests[i]? = l[i]? := by
    rw [hl, List.getElem?_take_of_lt hi]
  have hid {i : Nat} (hi : i < l.length) : l[i].id = i := by
    have hsub : l.Sublist s.requests := hl.symm ▸ List.take_sublist _ _
    have hmem : l[i] ∈ s.requests := hsub.mem (List.getElem_mem hi)
    have hself := request_at_id h hmem
    have hhere := hat (hlen ▸ hi)
    rw [List.getElem?_eq_getElem hi] at hhere
    exact (List.getElem?_inj (List.getElem?_eq_some_iff.mp hself).1
      (reachable_requests_nodup h)).mp (hself.trans hhere.symm)
  have hget : l.drop r.id = r :: l.drop (r.id + 1) := by
    have hh := (hat hn).symm.trans hr
    obtain ⟨hi, he⟩ := List.getElem?_eq_some_iff.mp hh
    rw [List.drop_eq_getElem_cons hi, he]
  refine ⟨l.take r.id, l.drop (r.id + 1), ?_, fun a ha => ?_⟩
  · rw [← hget, List.take_append_drop]
  obtain ⟨i, hi, rfl⟩ := List.mem_iff_getElem.mp ha
  rw [hid hi]
  constructor
  · intro hlt
    rw [List.mem_iff_getElem]
    refine ⟨i - (r.id + 1), by rw [List.length_drop]; omega, ?_⟩
    rw [List.getElem_drop]
    congr 1
    omega
  · intro hm
    obtain ⟨k, hk, he⟩ := List.mem_iff_getElem.mp hm
    rw [List.length_drop] at hk
    rw [List.getElem_drop] at he
    have hh := hid (i := r.id + 1 + k) (by omega)
    rw [he, hid hi] at hh
    omega

/-- A statement bound before the row is stamped again is the one asked for. -/
theorem binding_own_stamp {P : Params N K V} {s : State N T K V} (h : Reachable P s)
    {b : Binding N K V} (hb : b ∈ s.bindings)
    (hno : ∀ a ∈ s.requests.take b.queued, b.request.id < a.id →
      a.keys.payload ≠ b.request.keys.payload) : b.statement = b.request.statement := by
  obtain ⟨hle, hq, hreq, hst⟩ := reachable_boundAt h b hb
  have hd := request_dated h (List.mem_of_getElem? hreq)
  rw [hst, Request.statement]
  congr 1
  cases hts : P.disableTimestamps b.request.writer with
  | true =>
    rw [hts, Bool.not_true, Option.isSome_eq_false_iff, Option.isNone_iff_eq_none] at hd
    rw [hd]
    rfl
  | false =>
    rw [hts, Bool.not_false] at hd
    obtain ⟨x, hx⟩ := Option.isSome_iff_exists.mp hd
    obtain ⟨pre, post, hcut, hpost⟩ := requests_cut h hreq hq hle
    rw [hcut] at hno hpost ⊢
    rw [hx, lastStamp_of_last hx]
    · rfl
    · intro a ha
      have hat : a ∈ pre ++ b.request :: post := List.mem_append_right _ (List.mem_cons_of_mem _ ha)
      exact hno a hat ((hpost a hat).mpr ha)

/-- A statement bound after its row was stamped again for the same table is not. -/
theorem binding_later_stamp {P : Params N K V} {s : State N T K V} (h : Reachable P s)
    {b : Binding N K V} (hb : b ∈ s.bindings)
    (hts : P.disableTimestamps b.request.writer = false)
    (hrow : ∀ a ∈ s.requests, a.keys.payload = b.request.keys.payload →
      a.writer = b.request.writer)
    {a : Request N K V} (ha : a ∈ s.requests.take b.queued) (hlt : b.request.id < a.id)
    (hp : a.keys.payload = b.request.keys.payload) :
    b.statement.timestamp ≠ b.request.stamp := by
  obtain ⟨hle, hq, hreq, hst⟩ := reachable_boundAt h b hb
  obtain ⟨pre, post, hcut, hpost⟩ := requests_cut h hreq hq hle
  have hreqs {c : Request N K V} (hc : c ∈ post) : c ∈ s.requests := by
    apply List.mem_of_mem_take (i := b.queued)
    rw [hcut]
    exact List.mem_append_right _ (List.mem_cons_of_mem _ hc)
  have hdated : ∀ c ∈ post, c.keys.payload = b.request.keys.payload → c.stamp.isSome = true := by
    intro c hc hcp
    rw [request_dated h (hreqs hc), hrow c (hreqs hc) hcp, hts]
    rfl
  -- the last request on the row is a later one of the same Writer: its stamp is larger
  obtain ⟨c, hc, hcp, hcs⟩ :=
    exists_lastStamp (pre ++ [b.request]) hdated ⟨a, (hpost a ha).mp hlt, hp⟩
  rw [List.append_assoc, List.singleton_append] at hcs
  have horder : (pre ++ b.request :: post).Pairwise fun a b =>
      a.writer = b.writer → a.statement.Before b.statement :=
    hcut ▸ (requests_stamped_in_order h).sublist (List.take_sublist _ _)
  have hbefore := (List.pairwise_cons.mp (List.pairwise_append.mp horder).2.1).1 c hc
    (hrow c (hreqs hc) hcp).symm
  intro heq
  rw [hst, hts, if_neg Bool.false_ne_true, hcut] at heq
  exact lt_irrefl _ (hbefore _ heq.symm _ hcs)

/-- Each time a statement is bound, first attempt or retry, it carries the stamp its
request was given if no request queued after it, and before that moment, has the same
key row or a copy of it; and only then, where the rows of a table are not passed to
another table. -/
theorem queued_timestamp_kept_iff {P : Params N K V} {s : State N T K V} (h : Reachable P s)
    {b : Binding N K V} (hb : b ∈ s.bindings)
    (hts : P.disableTimestamps b.request.writer = false) :
    ((∀ a ∈ s.requests.take b.queued, b.request.id < a.id →
        a.keys.payload ≠ b.request.keys.payload) →
      b.statement.timestamp = b.request.stamp) ∧
    ((∀ a ∈ s.requests, a.keys.payload = b.request.keys.payload →
        a.writer = b.request.writer) →
      b.statement.timestamp = b.request.stamp →
      ∀ a ∈ s.requests.take b.queued, b.request.id < a.id →
        a.keys.payload ≠ b.request.keys.payload) := by
  constructor
  · intro hno
    rw [binding_own_stamp h hb hno]
    rfl
  · intro hrow heq a ha hlt hp
    exact binding_later_stamp h hb hts hrow ha hlt hp heq

def rowWrittenTwice (w : Fin N) : List (Action N T Nat Nat) :=
  [.call w (.putCrow ⟨5, 0⟩ 1), .client w 3, .client w 3, .client w 3, .client w 3,
    .call w (.putCrow ⟨5, 0⟩ 2), .client w 4, .worker, .worker, .worker]

/-- The first write was given 3 and is sent with 4. -/
theorem shared_row_takes_later_stamp :
    ∃ s : State 1 1 Nat Nat, Reachable oneTable s ∧ ∃ b ∈ s.bindings,
      b.request.stamp = some 3 ∧ b.statement.timestamp = some 4 := by
  obtain ⟨s, hs, hp⟩ := exists_reachable (T := 1) (P := oneTable) (rowWrittenTwice 0) (fun s =>
    decide (∃ b ∈ s.bindings, b.request.stamp = some 3 ∧ b.statement.timestamp = some 4))
    (by decide +kernel)
  exact ⟨s, hs, of_decide_eq_true hp⟩

def rowsWritten (w : Fin N) : List (Action N T Nat Nat) :=
  [.call w (.putCrow ⟨5, 0⟩ 1), .client w 3, .client w 3, .client w 3, .client w 3,
    .call w (.putCrow ⟨5, 1⟩ 2), .client w 4, .worker, .worker, .worker]

theorem queued_timestamp_kept_iff_rows :
    ∃ s : State 1 1 Nat Nat, Reachable oneTable s ∧ ∃ b ∈ s.bindings,
      b.request.stamp = some 3 ∧ b.statement.timestamp = b.request.stamp := by
  obtain ⟨s, hs, hp⟩ := exists_reachable (T := 1) (P := oneTable) (rowsWritten 0) (fun s =>
    decide (∃ b ∈ s.bindings, b.request.stamp = some 3 ∧
      ∀ a ∈ s.requests.take b.queued, b.request.id < a.id →
        a.keys.payload ≠ b.request.keys.payload)) (by decide +kernel)
  obtain ⟨b, hb, hst, hno⟩ := of_decide_eq_true hp
  refine ⟨s, hs, b, hb, hst, ?_⟩
  exact (queued_timestamp_kept_iff hs hb rfl).1 hno

end Hecuba
