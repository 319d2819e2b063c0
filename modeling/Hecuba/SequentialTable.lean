import Hecuba.AppliedStatements
import Hecuba.WaitGuards

/-! The table as its client sees it: every call done at once, each write and delete
reaching the database before the next. The write protocol refines this: what is left of
the call under way, done at once, always completes the calls so far to the sequential run. -/

namespace Hecuba

variable {N T : Nat} {K V : Type}

/-- The part of a client that a sequential run has. `effects` are the statements it has
asked for, without timestamps. -/
structure Seq (K V : Type) where
  lazyWriteEnabled : Bool
  dirtyBlocks : List (Parked K V)
  accepted : Nat
  effects : List (Effect K V)
  cache : Option (KVCache K V)
  answers : List (List V)

def Parked.effect (e : Parked K V) : Effect K V := .insert e.keys.content e.values

def Seq.new (cacheSize : Nat) : Seq K V where
  lazyWriteEnabled := false
  dirtyBlocks := []
  accepted := 0
  effects := []
  cache := if h : 0 < cacheSize then some (KVCache.new cacheSize h) else none
  answers := []

def Seq.flush (P : Params N K V) (q : Seq K V) : Seq K V :=
  if q.lazyWriteEnabled then
    { q with effects := q.effects ++ (P.walk q.dirtyBlocks).map Parked.effect, dirtyBlocks := [] }
  else q

def Seq.park (P : Params N K V) (q : Seq K V) (keys : TupleRow K) (values : V) : Seq K V :=
  { q with
    dirtyBlocks := match P.findParked q.dirtyBlocks keys with
      | none => q.dirtyBlocks ++ [⟨q.accepted, keys, values⟩]
      | some _ => q.dirtyBlocks.map fun e =>
        if P.hash e.keys.content = P.hash keys.content then ⟨q.accepted, e.keys, values⟩ else e
    accepted := q.accepted + 1 }

def Seq.write (P : Params N K V) (w : Fin N) (q : Seq K V) (keys : TupleRow K) (values : V) :
    Seq K V :=
  if q.lazyWriteEnabled then
    let q := q.park P keys values
    if P.writerMaxCalls w < q.dirtyBlocks.length then q.flush P else q
  else
    { q with effects := q.effects ++ [.insert keys.content values], accepted := q.accepted + 1 }

section

variable [DecidableEq K]

def Seq.addToCache (q : Seq K V) (keys : K) (values : V) : Seq K V :=
  { q with cache := q.cache.map fun kv => kv.add keys values }

def Seq.removeFromCache (q : Seq K V) (keys : K) : Seq K V :=
  { q with cache := q.cache.map fun kv => kv.remove keys }

variable (rowsAfter : List (Effect K V) → K → List V)

/-- A select reads the table as the statements so far have left it. -/
def Seq.select (q : Seq K V) (keys : K) : Seq K V :=
  match rowsAfter q.effects keys with
  | values :: others => { q.addToCache keys values with answers := q.answers ++ [values :: others] }
  | [] => { q with answers := q.answers ++ [[]] }

def Seq.lookup (P : Params N K V) (q : Seq K V) (keys : K) : Seq K V :=
  match q.cache.bind fun kv => kv.get keys with
  | some (values, kv) => { q with cache := some kv, answers := q.answers ++ [[values]] }
  | none => (q.flush P).select rowsAfter keys

def Seq.exec (P : Params N K V) (w : Fin N) (q : Seq K V) : Instr N K V → Seq K V
  | .write keys values => q.write P w keys values
  | .enableLazy => { q with lazyWriteEnabled := true }
  | .disableLazy => if q.lazyWriteEnabled then { q.flush P with lazyWriteEnabled := false } else q
  | .lazyOff => { q with lazyWriteEnabled := false }
  | .flushDirtyBlocks => q.flush P
  | .await => q
  | .cacheAdd keys values => q.addToCache keys values
  | .cacheRemove keys => q.removeFromCache keys
  | .lookup keys => q.lookup rowsAfter P keys
  | .select keys => q.select rowsAfter keys
  | .delete keys => { q.removeFromCache keys with effects := q.effects ++ [.delete keys] }
  | .deleted _ => q

def Seq.call (P : Params N K V) (w : Fin N) (q : Seq K V) (a : Call K V) : Seq K V :=
  (Client.program P w a).foldl (Seq.exec rowsAfter P w) q

def Seq.run (P : Params N K V) (w : Fin N) (calls : List (Call K V)) : Seq K V :=
  calls.foldl (Seq.call rowsAfter P w) (Seq.new (P.cacheSize w))

/-- What a client has done, with the flush it is in completed. -/
def Client.seq (c : Client N K V) : Seq K V where
  lazyWriteEnabled := c.lazyWriteEnabled
  dirtyBlocks := if c.flushing.isSome then [] else c.dirtyBlocks
  accepted := c.accepted.length
  effects := c.issued.map Statement.effect ++ (c.flushing.getD []).map Parked.effect
  cache := c.cache
  answers := c.answers

/-- The rest of the call under way, done at once. -/
def Client.resume (P : Params N K V) (w : Fin N) (c : Client N K V) : Seq K V :=
  c.todo.foldl (Seq.exec rowsAfter P w) c.seq

end

theorem seq_startFlush (P : Params N K V) {c : Client N K V} (hf : c.flushing = none) :
    (c.startFlush P).seq = c.seq.flush P := by
  unfold Client.startFlush Seq.flush
  split
  · rename_i hl
    simp [Client.seq, hf, hl]
  · rename_i hl
    rw [if_neg (by simpa [Client.seq] using hl)]

theorem seq_park (P : Params N K V) {c : Client N K V} (hf : c.flushing = none)
    (keys : TupleRow K) (values : V) : (c.park P keys values).seq = c.seq.park P keys values := by
  unfold Client.park Seq.park
  have hd : c.seq.dirtyBlocks = c.dirtyBlocks := by simp [Client.seq, hf]
  rw [hd]
  dsimp only
  cases P.findParked c.dirtyBlocks keys <;> simp [Client.seq, hf]

theorem seq_todo (c : Client N K V) (todo : List (Instr N K V)) :
    { c with todo := todo }.seq = c.seq := rfl

theorem seq_writeLazy (P : Params N K V) {c : Client N K V} (hf : c.flushing = none)
    (hl : c.lazyWriteEnabled = true) (w : Fin N) (rest : List (Instr N K V)) (keys : TupleRow K)
    (values : V) :
    (c.writeLazy P w rest keys values).seq = c.seq.write P w keys values := by
  have hpark := seq_park P hf keys values
  have hf' := (park_mode P c keys values).2.trans hf
  have hlen : (c.park P keys values).dirtyBlocks.length =
      (c.seq.park P keys values).dirtyBlocks.length := by
    rw [← hpark]
    simp [Client.seq, hf']
  unfold Client.writeLazy Seq.write
  rw [if_pos (show c.seq.lazyWriteEnabled = true from hl)]
  dsimp only
  rw [hlen]
  split
  · rw [seq_startFlush P (c := { c.park P keys values with todo := rest }) hf', seq_todo, hpark]
  · rw [seq_todo, hpark]

variable [DecidableEq K] {rowsAfter : List (Effect K V) → K → List V}

theorem resume_exec {P : Params N K V} {w : Fin N} {rows : K → List V} {c c' : Client N K V}
    {i : Instr N K V} {rest : List (Instr N K V)} (hf : c.flushing = none)
    (hrow : ∀ keys, i = .select keys → rows keys = rowsAfter c.seq.effects keys)
    (he : c.exec P rows rest i = some c') :
    c'.resume rowsAfter P w = rest.foldl (Seq.exec rowsAfter P w) (c.seq.exec rowsAfter P w i) := by
  have hflush := seq_startFlush P hf
  cases i with
  | write | delete | deleted => cases he
  | enableLazy | lazyOff | cacheAdd | cacheRemove =>
    cases he
    rfl
  | disableLazy =>
    simp only [Client.exec, Option.some.injEq] at he
    subst he
    simp only [Seq.exec]
    split
    · rename_i hl
      rw [if_pos (show c.seq.lazyWriteEnabled = true from hl), ← hflush]
      rfl
    · rename_i hl
      rw [if_neg (show ¬ c.seq.lazyWriteEnabled = true from hl)]
      rfl
  | flushDirtyBlocks =>
    cases he
    show rest.foldl _ (c.startFlush P).seq = _
    rw [hflush]
    rfl
  | await =>
    simp only [Client.exec] at he
    split at he
    · cases he
      rfl
    · cases he
  | lookup keys =>
    simp only [Client.exec] at he
    simp only [Seq.exec, Seq.lookup]
    have hcache : c.seq.cache = c.cache := rfl
    rw [hcache]
    cases hc : c.cache.bind fun kv => kv.get keys with
    | none =>
      simp only [hc] at he
      cases he
      rfl
    | some hit =>
      simp only [hc] at he
      cases he
      rfl
  | select keys =>
    simp only [Client.exec] at he
    simp only [Seq.exec, Seq.select]
    rw [← hrow keys rfl]
    cases hr : rows keys with
    | nil =>
      simp only [hr] at he
      cases he
      rfl
    | cons values others =>
      simp only [hr] at he
      cases he
      rfl

theorem resume_step {P : Params N K V} {s : State N T K V} {w : Fin N} {c : Client N K V}
    (hm : ClientMove P s w c)
    (hsel : ∀ keys rest, (s.clients w).todo = .select keys :: rest →
      (s.clients w).flushing = none →
      s.rowsOf P w keys = rowsAfter ((s.clients w).issued.map Statement.effect) keys)
    (h : (s.clients w).resume rowsAfter P w = Seq.run rowsAfter P w (s.clients w).calls) :
    c.resume rowsAfter P w = Seq.run rowsAfter P w c.calls := by
  cases hm with
  | call a hi =>
    rw [Client.resume, (isIdle_spec hi).2.2] at h
    rw [Client.resume, Seq.run, List.foldl_append]
    show (Client.program P w a).foldl _ (s.clients w).seq = _
    rw [show (s.clients w).seq = _ from h]
    rfl
  | flushItem r now e rest hs hf =>
    rw [← h, Client.resume, Client.resume]
    congr 1
    simp [Client.seq, hf, Parked.effect]
  | flushEnd hs hf =>
    rw [← h, Client.resume, Client.resume]
    congr 1
    simp [Client.seq, hf]
  | write r now keys values rest hs hf ht hl =>
    rw [← h, Client.resume, Client.resume, ht, List.foldl_cons]
    congr 1
    simp [Seq.exec, Seq.write, Client.seq, hf, hl]
  | inTable c hs hf hm =>
    rw [hm.sameRequests.calls, ← h]
    cases hm with
    | parked ht hl =>
      rw [Client.resume, Client.resume, ht, List.foldl_cons, writeLazy_todo,
        seq_writeLazy P hf hl]
      rfl
    | exec ht he =>
      have hr : (s.clients w).resume rowsAfter P w =
          (s.clients w).todo.foldl (Seq.exec rowsAfter P w) (s.clients w).seq := rfl
      rw [hr, ht, List.foldl_cons]
      refine resume_exec hf (fun keys hi => ?_) he
      subst hi
      rw [hsel keys _ ht hf]
      simp [Client.seq, hf]
  | delete now keys rest hs hf ht =>
    rw [← h, Client.resume, Client.resume, ht, List.foldl_cons, List.foldl_cons, List.foldl_cons]
    congr 1
    simp [Seq.exec, Seq.removeFromCache, Client.seq, hf]
  | deleted st rest hs hf ht ha =>
    rw [← h, Client.resume, Client.resume, ht, List.foldl_cons]
    rfl
  | sent | finish => exact h

theorem resume_of_idle (P : Params N K V) (w : Fin N) {c : Client N K V} (h : c.isIdle = true) :
    c.resume rowsAfter P w = c.seq := by
  rw [Client.resume, (isIdle_spec h).2.2]
  rfl

variable [DecidableEq V]

/-- Under a condition that earlier states of a run inherit, and that makes the selects of
`w` read what its statements have left, the protocol refines the sequential table. -/
theorem reachable_resume {P : Params N K V} {w : Fin N} {Q : State N T K V → Prop}
    (hQ : ∀ s s', ProtocolMove P s s' → Q s' → Q s)
    (hsel : ∀ s, Reachable P s → Q s → ∀ keys rest,
      (s.clients w).todo = .select keys :: rest → (s.clients w).flushing = none →
      s.rowsOf P w keys = rowsAfter ((s.clients w).issued.map Statement.effect) keys)
    {s : State N T K V} (h : Reachable P s) (hq : Q s) :
    (s.clients w).resume rowsAfter P w = Seq.run rowsAfter P w (s.clients w).calls := by
  refine Reachable.relInvariant (I := fun s => Q s →
    (s.clients w).resume rowsAfter P w = Seq.run rowsAfter P w (s.clients w).calls)
    (fun _ => rfl) (fun s s' hr hm ih hq' => ?_) h hq
  have hqs := hQ s s' hm hq'
  rcases move_client hm w with he | hc
  · rw [he]
    exact ih hqs
  · exact resume_step hc (hsel s hr hqs) (ih hqs)

end Hecuba
