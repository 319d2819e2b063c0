import Mathlib.Data.List.Infix
import Mathlib.Logic.Relation

/-! The prefetcher: a worker thread that runs the queries of a list of token ranges and
pushes their rows into a bounded queue, and a consumer that calls `get_cnext`. The object
is alive, so the capacity of the queue does not change and only the worker aborts. -/

namespace Hecuba

namespace Prefetch

def maxTries : Nat := 10

section model

variable {Row : Type}

abbrev QueryResult (Row : Type) := Option (List Row)

/-- Where `consume_tokens` stands, with the ranges after the current one. -/
inductive Worker (Row : Type) where
  | nextRange (ranges : List (QueryResult Row))
  | getResult (result : QueryResult Row) (tries : Nat) (ranges : List (QueryResult Row))
  | nextRow (rows : List Row) (ranges : List (QueryResult Row))
  | push (t : Row) (rows : List Row) (ranges : List (QueryResult Row))
  | pushBlocked (t : Row) (rows : List Row) (ranges : List (QueryResult Row))
  | complete
  | abort
  | returned

/-- Where `get_cnext` stands, or `idle` between two calls. -/
inductive Consumer where
  | idle
  | readCompleted
  | readEmpty
  | pop
  | popBlocked
  | caught
  deriving DecidableEq

/-- `results` is what the calls of `get_cnext` have returned, the last one at the end. -/
structure State (Row : Type) where
  worker : Worker Row
  data : List Row
  completed : Bool
  consumer : Consumer
  results : List (Option Row)

def State.initial (ranges : List (QueryResult Row)) : State Row := ⟨.nextRange ranges, [], false, .idle, []⟩

/-- The blocked call throws. No push of the worker can be blocked when the worker aborts. -/
def abortCalls (s : State Row) : State Row :=
  match s.consumer with
  | .popBlocked => { s with consumer := .caught }
  | _ => s

def workerStep (capacity : Nat) (s : State Row) : Option (State Row) :=
  match s.worker with
  | .nextRange [] => some { s with worker := .complete }
  | .nextRange (result :: ranges) =>
    if capacity = 0 then some { s with worker := .complete }
    else some { s with worker := .getResult result 0 ranges }
  | .getResult result tries ranges =>
    if capacity = 0 then some { s with worker := .complete }
    else
      match result with
      | some rows => some { s with worker := .nextRow rows ranges }
      | none =>
        if tries + 1 > maxTries then some { s with worker := .complete }
        else some { s with worker := .getResult none (tries + 1) ranges }
  | .nextRow [] ranges => some { s with worker := .nextRange ranges }
  | .nextRow (t :: rows) ranges =>
    if capacity = 0 then some { s with worker := .complete }
    else some { s with worker := .push t rows ranges }
  | .push t rows ranges =>
    if s.data.length < capacity then some { s with worker := .nextRow rows ranges, data := s.data ++ [t] }
    else some { s with worker := .pushBlocked t rows ranges }
  | .pushBlocked t rows ranges =>
    if s.data.length < capacity then some { s with worker := .nextRow rows ranges, data := s.data ++ [t] }
    else none
  | .complete => some { s with worker := .abort, completed := true }
  | .abort => some { abortCalls s with worker := .returned }
  | .returned => none

def State.give (s : State Row) (result : Option Row) : State Row :=
  { s with consumer := .idle, results := s.results ++ [result] }

def consumerStep (s : State Row) : Option (State Row) :=
  match s.consumer with
  | .idle => some { s with consumer := .readCompleted }
  | .readCompleted =>
    if s.completed then some { s with consumer := .readEmpty } else some { s with consumer := .pop }
  | .readEmpty => if s.data.isEmpty then some (s.give none) else some { s with consumer := .pop }
  | .pop =>
    match s.data with
    | t :: data => some ({ s with data := data }.give (some t))
    | [] => some { s with consumer := .popBlocked }
  | .popBlocked =>
    match s.data with
    | t :: data => some ({ s with data := data }.give (some t))
    | [] => none
  | .caught => if s.data.isEmpty then some (s.give none) else some { s with consumer := .readCompleted }

def Step (capacity : Nat) (s s' : State Row) : Prop :=
  workerStep capacity s = some s' ∨ consumerStep s = some s'

abbrev Reachable (capacity : Nat) (ranges : List (QueryResult Row)) : State Row → Prop :=
  Relation.ReflTransGen (Step capacity) (.initial ranges)

/-- The rows handed out so far. -/
def State.handed (s : State Row) : List Row := s.results.reduceOption

def allRows (ranges : List (QueryResult Row)) : List Row := ranges.flatMap fun result => result.getD []

end model

end Prefetch

end Hecuba
