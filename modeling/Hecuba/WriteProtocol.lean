import Mathlib.Logic.Function.Basic
import Mathlib.Logic.Relation
import Hecuba.KVCache
import Hecuba.MachineWord

/-! The write path: the Writers of the open tables, each used by one client thread,
the WriterThread they share, and the driver whose I/O threads run the callbacks.
One action lets one thread run up to its next access to shared data. Fields marked
as history are never read by the code; they record what a property speaks about. -/

namespace Hecuba

def maxErrors : Nat := 10

/-- A key row. Copies of a TupleRow share its payload, and with it the timestamp
that `set_timestamp` writes. -/
structure TupleRow (K : Type) where
  content : K
  payload : Nat
  deriving DecidableEq

inductive Effect (K V : Type) where
  | insert (key : K) (values : V)
  | delete (key : K)
  deriving DecidableEq

/-- A statement bound for the table of one Writer. -/
structure Statement (N : Nat) (K V : Type) where
  table : Fin N
  effect : Effect K V
  timestamp : Option Int
  deriving DecidableEq

/-- An item of dirty_blocks. `write` is the place of its values among the Writer's writes. -/
structure Parked (K V : Type) where
  write : Nat
  keys : TupleRow K
  values : V
  deriving DecidableEq

/-- An item of the WriterThread queue, with its number, the write whose values it
carries and the value that `next` returned for it. -/
structure Request (N : Nat) (K V : Type) where
  id : Nat
  writer : Fin N
  write : Nat
  keys : TupleRow K
  values : V
  stamp : Option Int
  deriving DecidableEq

inductive Call (K V : Type) where
  | writeToCassandra (keys : TupleRow K) (values : V)
  | writeColumn (keys : TupleRow K) (values : V)
  | enableLazyWrite
  | disableLazyWrite
  | flushElements
  | putCrow (keys : TupleRow K) (values : V)
  | getCrow (keys : K)
  | deleteCrow (keys : K)
  deriving DecidableEq

/-- What a call still has to do. -/
inductive Instr (N : Nat) (K V : Type) where
  | write (keys : TupleRow K) (values : V)
  | enableLazy
  | disableLazy
  | lazyOff
  | flushDirtyBlocks
  | await
  | cacheAdd (keys : K) (values : V)
  | cacheRemove (keys : K)
  | lookup (keys : K)
  | select (keys : K)
  | delete (keys : K)
  | deleted (statement : Statement N K V)
  deriving DecidableEq

/-- The inner frame of `queue_async_query`: the request has been counted and is
about to be pushed, or has been pushed and the semaphore is about to be released. -/
inductive Sending (N : Nat) (K V : Type) where
  | idle
  | push (r : Request N K V)
  | release
  deriving DecidableEq

/-- One table: its cache, its Writer and the thread that calls them. -/
structure Client (N : Nat) (K V : Type) where
  last : Int
  lazyWriteEnabled : Bool
  dirtyBlocks : List (Parked K V)
  ncallbacks : Nat
  cache : Option (KVCache K V)
  sending : Sending N K V
  /-- The items that the loop of `flush_dirty_blocks` has not reached. -/
  flushing : Option (List (Parked K V))
  todo : List (Instr N K V)
  -- history: the calls, the writes accepted, those replaced in dirty_blocks (with the
  -- write that replaced them), those queued, the statements asked for and the rows returned
  calls : List (Call K V)
  accepted : List (TupleRow K × V)
  replaced : List (Nat × Nat)
  queued : List (Parked K V)
  issued : List (Statement N K V)
  answers : List (List V)

inductive Worker (N : Nat) (K V : Type) where
  | waiting
  | awake
  | holding (r : Request N K V)
  | bound (r : Request N K V) (st : Statement N K V)
  | permitted (r : Request N K V) (st : Statement N K V)
  deriving DecidableEq

/-- A driver I/O thread: idle or somewhere in `callback`. -/
inductive Callback (N : Nat) (K V : Type) where
  | idle
  | entered (r : Request N K V) (ok : Bool)
  | released (r : Request N K V) (ok : Bool)
  | retrying (r : Request N K V)
  | bound (r : Request N K V) (st : Statement N K V)
  | permitted (r : Request N K V) (st : Statement N K V)
  deriving DecidableEq

structure Binding (N : Nat) (K V : Type) where
  request : Request N K V
  statement : Statement N K V
  queued : Nat

structure State (N T : Nat) (K V : Type) where
  clients : Fin N → Client N K V
  timestamps : Nat → Int
  data : List (Request N K V)
  sempendingData : Nat
  semmaxcallbacks : Nat
  ncallbacks : Nat
  errorCount : Nat
  worker : Worker N K V
  threads : Fin T → Callback N K V
  inFlight : List (Request N K V × Statement N K V)
  sent : List (Statement N K V)
  applied : List (Statement N K V)
  -- history
  requests : List (Request N K V)
  acked : List (Request N K V)
  abandoned : List (Request N K V)
  failed : List (Request N K V)
  bindings : List (Binding N K V)

/-- The configuration, and what the code takes from elsewhere: the content of
Writer::max_calls, the order in which the hash map is walked, std::hash on the bytes
of a key, and the rows that the database selects from the statements it has applied. -/
structure Params (N : Nat) (K V : Type) where
  maxCalls : Nat
  maxCalls_pos : 0 < maxCalls
  writerBuffer : Nat
  disableTimestamps : Fin N → Bool
  cacheSize : Fin N → Nat
  writerMaxCalls : Fin N → Nat
  hash : K → Nat
  walk : List (Parked K V) → List (Parked K V)
  walk_perm : ∀ l, (walk l).Perm l
  selectRows : List (Statement N K V) → K → List V

inductive Action (N T : Nat) (K V : Type) where
  | call (w : Fin N) (c : Call K V)
  | client (w : Fin N) (now : Int)
  | worker
  | apply (i : Nat)
  | enter (t : Fin T) (i : Nat) (ok : Bool)
  | callback (t : Fin T)

variable {N T : Nat} {K V : Type}

def nextStamp (last now : Int) : Int := if now ≤ last then last + 1 else now

def Client.new (cacheSize : Nat) : Client N K V where
  last := 0
  lazyWriteEnabled := false
  dirtyBlocks := []
  ncallbacks := 0
  cache := if h : 0 < cacheSize then some (KVCache.new cacheSize h) else none
  sending := .idle
  flushing := none
  todo := []
  calls := []
  accepted := []
  replaced := []
  queued := []
  issued := []
  answers := []

def State.initial (P : Params N K V) : State N T K V where
  clients w := .new (P.cacheSize w)
  timestamps _ := 0
  data := []
  sempendingData := 0
  semmaxcallbacks := P.maxCalls
  ncallbacks := 0
  errorCount := 0
  worker := .waiting
  threads _ := .idle
  inFlight := []
  sent := []
  applied := []
  requests := []
  acked := []
  abandoned := []
  failed := []
  bindings := []

def State.setClient (s : State N T K V) (w : Fin N) (c : Client N K V) : State N T K V :=
  { s with clients := Function.update s.clients w c }

def State.setThread (s : State N T K V) (t : Fin T) (c : Callback N K V) : State N T K V :=
  { s with threads := Function.update s.threads t c }

def Client.program (P : Params N K V) (w : Fin N) : Call K V → List (Instr N K V)
  | .writeToCassandra keys values => [.write keys values]
  | .writeColumn keys values => [.disableLazy, .write keys values]
  | .enableLazyWrite => [.enableLazy]
  | .disableLazyWrite => [.disableLazy]
  | .flushElements => [.flushDirtyBlocks, .await]
  | .putCrow keys values => [.write keys values, .cacheAdd keys.content values]
  | .getCrow keys => [.lookup keys]
  | .deleteCrow keys =>
    if P.disableTimestamps w then [.flushDirtyBlocks, .await, .delete keys] else [.delete keys]

section

variable [DecidableEq K]

/-- Lookup in dirty_blocks: two keys are equal there when their hashes are. -/
def Params.findParked (P : Params N K V) (dirty : List (Parked K V)) (keys : TupleRow K) :
    Option (Parked K V) :=
  dirty.find? fun e => P.hash e.keys.content = P.hash keys.content

/-- A write in lazy mode. An item found keeps its key row; only its values are replaced. -/
def Client.park (P : Params N K V) (c : Client N K V) (keys : TupleRow K) (values : V) :
    Client N K V :=
  let write := c.accepted.length
  match P.findParked c.dirtyBlocks keys with
  | none =>
    { c with
      dirtyBlocks := c.dirtyBlocks ++ [⟨write, keys, values⟩]
      accepted := c.accepted ++ [(keys, values)] }
  | some old =>
    { c with
      dirtyBlocks := c.dirtyBlocks.map fun e =>
        if P.hash e.keys.content = P.hash keys.content then ⟨write, e.keys, values⟩ else e
      accepted := c.accepted ++ [(keys, values)]
      replaced := c.replaced ++ [(old.write, write)] }

def Client.startFlush (P : Params N K V) (c : Client N K V) : Client N K V :=
  if c.lazyWriteEnabled then { c with flushing := some (P.walk c.dirtyBlocks) } else c

/-- The lazy branch of `write_to_cassandra`. -/
def Client.writeLazy (P : Params N K V) (w : Fin N) (c : Client N K V) (rest : List (Instr N K V))
    (keys : TupleRow K) (values : V) : Client N K V :=
  let c := { c.park P keys values with todo := rest }
  if P.writerMaxCalls w < c.dirtyBlocks.length then c.startFlush P else c

def Client.isWriteCompleted (c : Client N K V) : Bool :=
  c.ncallbacks = 0 && c.dirtyBlocks.isEmpty

def Client.addToCache (c : Client N K V) (keys : K) (values : V) : Client N K V :=
  { c with cache := c.cache.map fun kv => kv.add keys values }

/-- Instructions that touch nothing but the table's own client. `rows` is what a
select would find in the database. -/
def Client.exec (P : Params N K V) (rows : K → List V) (c : Client N K V)
    (rest : List (Instr N K V)) : Instr N K V → Option (Client N K V)
  | .enableLazy => some { c with lazyWriteEnabled := true, todo := rest }
  | .disableLazy =>
    some (if c.lazyWriteEnabled then { c.startFlush P with todo := .lazyOff :: rest }
      else { c with todo := rest })
  | .lazyOff => some { c with lazyWriteEnabled := false, todo := rest }
  | .flushDirtyBlocks => some { c.startFlush P with todo := rest }
  | .await => if c.isWriteCompleted then some { c with todo := rest } else none
  | .cacheAdd keys values => some { c.addToCache keys values with todo := rest }
  | .cacheRemove keys =>
    some { c with cache := c.cache.map fun kv => kv.remove keys, todo := rest }
  | .lookup keys =>
    match c.cache.bind fun kv => kv.get keys with
    | some (values, kv) =>
      some { c with cache := some kv, answers := c.answers ++ [[values]], todo := rest }
    | none => some { c with todo := .flushDirtyBlocks :: .await :: .select keys :: rest }
  | .select keys =>
    match rows keys with
    | values :: others =>
      some { c.addToCache keys values with answers := c.answers ++ [values :: others], todo := rest }
    | [] => some { c with answers := c.answers ++ [[]], todo := rest }
  | _ => none

def Params.takeStamp (P : Params N K V) (w : Fin N) (last now : Int) : Option Int :=
  if P.disableTimestamps w then none else some (nextStamp last now)

def setTimestamp (timestamps : Nat → Int) (payload : Nat) : Option Int → Nat → Int
  | none => timestamps
  | some stamp => Function.update timestamps payload stamp

/-- The first half of Writer::queue_async_query: the key row is stamped and the
request counted. -/
def State.queueAsyncQuery (P : Params N K V) (s : State N T K V) (w : Fin N) (c : Client N K V)
    (e : Parked K V) (now : Int) : State N T K V :=
  let stamp := P.takeStamp w c.last now
  let r : Request N K V := ⟨s.requests.length, w, e.write, e.keys, e.values, stamp⟩
  { s with
    timestamps := setTimestamp s.timestamps e.keys.payload stamp
    requests := s.requests ++ [r] }.setClient w
    { c with
      last := stamp.getD c.last
      ncallbacks := c.ncallbacks + 1
      sending := .push r
      queued := c.queued ++ [e]
      issued := c.issued ++ [Statement.mk w (.insert e.keys.content e.values) stamp] }

variable [DecidableEq V]

def State.rowsOf (P : Params N K V) (s : State N T K V) (w : Fin N) (keys : K) : List V :=
  P.selectRows (s.applied.filter fun st => st.table = w) keys

/-- The delete of a row is executed by the client itself, which then waits for it. -/
def State.executeDelete (P : Params N K V) (s : State N T K V) (w : Fin N) (c : Client N K V)
    (rest : List (Instr N K V)) (keys : K) (now : Int) : State N T K V :=
  let stamp := P.takeStamp w c.last now
  let st : Statement N K V := ⟨w, .delete keys, stamp⟩
  { s with sent := s.sent ++ [st] }.setClient w
    { c with
      last := stamp.getD c.last
      issued := c.issued ++ [st]
      todo := .deleted st :: .cacheRemove keys :: rest }

def State.stepInstr (P : Params N K V) (s : State N T K V) (w : Fin N) (c : Client N K V)
    (rest : List (Instr N K V)) (now : Int) : Instr N K V → Option (State N T K V)
  | .write keys values =>
    if c.lazyWriteEnabled then some (s.setClient w (c.writeLazy P w rest keys values))
    else
      some (s.queueAsyncQuery P w
        { c with accepted := c.accepted ++ [(keys, values)], todo := rest }
        ⟨c.accepted.length, keys, values⟩ now)
  | .delete keys => some (s.executeDelete P w c rest keys now)
  | .deleted st =>
    if st ∈ s.applied then some (s.setClient w { c with todo := rest }) else none
  | i => (c.exec P (s.rowsOf P w) rest i).map (s.setClient w)

def State.stepClient (P : Params N K V) (s : State N T K V) (w : Fin N) (now : Int) :
    Option (State N T K V) :=
  let c := s.clients w
  match c.sending with
  | .push r =>
    if s.data.length < P.writerBuffer then
      some ({ s with data := s.data ++ [r] }.setClient w { c with sending := .release })
    else none
  | .release =>
    some ({ s with sempendingData := s.sempendingData + 1 }.setClient w { c with sending := .idle })
  | .idle =>
    match c.flushing with
    | some (e :: rest) => some (s.queueAsyncQuery P w { c with flushing := some rest } e now)
    | some [] => some (s.setClient w { c with dirtyBlocks := [], flushing := none })
    | none =>
      match c.todo with
      | [] => none
      | i :: rest => s.stepInstr P w c rest now i

def bindCassstatement (P : Params N K V) (s : State N T K V) (r : Request N K V) :
    Statement N K V :=
  ⟨r.writer, .insert r.keys.content r.values,
    if P.disableTimestamps r.writer then none else some (s.timestamps r.keys.payload)⟩

def State.recordBinding (P : Params N K V) (s : State N T K V) (r : Request N K V) :
    State N T K V :=
  { s with bindings := s.bindings ++ [Binding.mk r (bindCassstatement P s r) s.requests.length] }

def State.execute (s : State N T K V) (r : Request N K V) (st : Statement N K V) :
    State N T K V :=
  { s with inFlight := s.inFlight ++ [(r, st)], sent := s.sent ++ [st] }

/-- `async_query_thread_code`, `call_async` and `async_query_execute` on the worker thread. -/
def State.stepWorker (P : Params N K V) (s : State N T K V) : Option (State N T K V) :=
  match s.worker with
  | .waiting =>
    if 0 < s.sempendingData then
      some { s with sempendingData := s.sempendingData - 1, worker := .awake }
    else none
  | .awake =>
    match s.data with
    | [] => some { s with worker := .waiting }
    | r :: rest => some { s with ncallbacks := s.ncallbacks + 1, data := rest, worker := .holding r }
  | .holding r => some { s.recordBinding P r with worker := .bound r (bindCassstatement P s r) }
  | .bound r st =>
    if 0 < s.semmaxcallbacks then
      some { s with semmaxcallbacks := s.semmaxcallbacks - 1, worker := .permitted r st }
    else none
  | .permitted r st => some { s.execute r st with worker := .waiting }

/-- `set_error_occurred` up to the retry. -/
def State.setErrorOccurred (s : State N T K V) (t : Fin T) (r : Request N K V) : State N T K V :=
  let s := { s with errorCount := u32 (s.errorCount + 1), failed := s.failed ++ [r] }
  if maxErrors < s.errorCount then
    { s with ncallbacks := s.ncallbacks - 1, abandoned := s.abandoned ++ [r] }.setThread t .idle
  else s.setThread t (.retrying r)

/-- The success branch of `callback`, with `finish_async_call`. -/
def State.finishCallback (s : State N T K V) (t : Fin T) (r : Request N K V) : State N T K V :=
  let c := s.clients r.writer
  ({ s with ncallbacks := s.ncallbacks - 1, acked := s.acked ++ [r] }.setClient r.writer
    { c with ncallbacks := c.ncallbacks - 1 }).setThread t .idle

def State.stepCallback (P : Params N K V) (s : State N T K V) (t : Fin T) :
    Option (State N T K V) :=
  match s.threads t with
  | .idle => none
  | .entered r ok =>
    some ({ s with semmaxcallbacks := s.semmaxcallbacks + 1 }.setThread t (.released r ok))
  | .released r true => some (s.finishCallback t r)
  | .released r false => some (s.setErrorOccurred t r)
  | .retrying r => some ((s.recordBinding P r).setThread t (.bound r (bindCassstatement P s r)))
  | .bound r st =>
    if 0 < s.semmaxcallbacks then
      some ({ s with semmaxcallbacks := s.semmaxcallbacks - 1 }.setThread t (.permitted r st))
    else none
  | .permitted r st => some ((s.execute r st).setThread t .idle)

/-- A driver thread takes up the callback of a request in flight. A statement that
failed may have been applied all the same. -/
def State.enterCallback (s : State N T K V) (t : Fin T) (i : Nat) (ok : Bool) :
    Option (State N T K V) :=
  match s.threads t, s.inFlight[i]? with
  | .idle, some (r, st) =>
    if ok = true → st ∈ s.applied then
      some ({ s with inFlight := s.inFlight.eraseIdx i }.setThread t (.entered r ok))
    else none
  | _, _ => none

def Client.isIdle (c : Client N K V) : Bool :=
  match c.sending, c.flushing, c.todo with
  | .idle, none, [] => true
  | _, _, _ => false

def State.step (P : Params N K V) (s : State N T K V) : Action N T K V → Option (State N T K V)
  | .call w a =>
    let c := s.clients w
    if c.isIdle then
      some (s.setClient w { c with todo := Client.program P w a, calls := c.calls ++ [a] })
    else none
  | .client w now => s.stepClient P w now
  | .worker => s.stepWorker P
  | .apply i => s.sent[i]?.map fun st => { s with applied := s.applied ++ [st] }
  | .enter t i ok => s.enterCallback t i ok
  | .callback t => s.stepCallback P t

def ProtocolStep (P : Params N K V) (s s' : State N T K V) : Prop := ∃ a, s.step P a = some s'

/-- The states of the runs of the write protocol. -/
abbrev Reachable (P : Params N K V) (s : State N T K V) : Prop :=
  Relation.ReflTransGen (ProtocolStep P) (State.initial P) s

def State.run (P : Params N K V) (s : State N T K V) (actions : List (Action N T K V)) :
    Option (State N T K V) :=
  actions.foldlM (State.step P) s

theorem reachable_run {P : Params N K V} {s s' : State N T K V} {actions : List (Action N T K V)}
    (h : s.run P actions = some s') : Relation.ReflTransGen (ProtocolStep P) s s' := by
  induction actions generalizing s with
  | nil =>
    cases h
    exact .refl
  | cons a actions ih =>
    obtain ⟨u, hu, hrest⟩ := Option.bind_eq_some_iff.mp (show (s.step P a).bind _ = some s' from h)
    exact .head ⟨a, hu⟩ (ih hrest)

theorem exists_reachable {P : Params N K V} (actions : List (Action N T K V))
    (p : State N T K V → Bool) (h : ((State.initial P).run P actions).map p = some true) :
    ∃ s, Reachable P s ∧ p s = true := by
  obtain ⟨s, hs, hp⟩ := Option.map_eq_some_iff.mp h
  exact ⟨s, reachable_run hs, hp⟩

end

end Hecuba
