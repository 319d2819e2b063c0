import Mathlib.Data.List.Induction
import Mathlib.Logic.Function.Basic

/-! Reads and writes of a persistent StorageDict of basic types, with the C++ cache or with
the Python memory of the object in its place. -/

namespace Hecuba

/-- `scalar` is what cannot be iterated, two values that Python finds equal being one; `other`
is an object of another class, with the elements that its iteration gives. -/
inductive PyObject (α : Type) where
  | scalar (x : α)
  | str (s : String)
  | tuple (items : List (PyObject α))
  | list (items : List (PyObject α))
  | other (cls : String) (hashable : Bool) (x : α) (items : List (PyObject α))

namespace PyObject

variable {α : Type}

mutual

def decEq [DecidableEq α] : (a b : PyObject α) → Decidable (a = b)
  | .scalar x, .scalar y => if h : x = y then .isTrue (by rw [h]) else .isFalse (by simp [h])
  | .str s, .str t => if h : s = t then .isTrue (by rw [h]) else .isFalse (by simp [h])
  | .tuple l, .tuple m =>
    match decEqList l m with
    | .isTrue h => .isTrue (by rw [h])
    | .isFalse h => .isFalse (by simp [h])
  | .list l, .list m =>
    match decEqList l m with
    | .isTrue h => .isTrue (by rw [h])
    | .isFalse h => .isFalse (by simp [h])
  | .other c b x l, .other d e y m =>
    if h : c = d ∧ b = e ∧ x = y then
      match decEqList l m with
      | .isTrue hl => .isTrue (by rw [h.1, h.2.1, h.2.2, hl])
      | .isFalse hl => .isFalse (by simp [hl])
    else .isFalse (by simp only [other.injEq]; tauto)
  | .scalar _, .str _ | .scalar _, .tuple _ | .scalar _, .list _ | .scalar _, .other .. => .isFalse (by simp)
  | .str _, .scalar _ | .str _, .tuple _ | .str _, .list _ | .str _, .other .. => .isFalse (by simp)
  | .tuple _, .scalar _ | .tuple _, .str _ | .tuple _, .list _ | .tuple _, .other .. => .isFalse (by simp)
  | .list _, .scalar _ | .list _, .str _ | .list _, .tuple _ | .list _, .other .. => .isFalse (by simp)
  | .other .., .scalar _ | .other .., .str _ | .other .., .tuple _ | .other .., .list _ => .isFalse (by simp)

def decEqList [DecidableEq α] : (l m : List (PyObject α)) → Decidable (l = m)
  | [], [] => .isTrue rfl
  | [], _ :: _ => .isFalse (by simp)
  | _ :: _, [] => .isFalse (by simp)
  | a :: l, b :: m =>
    match decEq a b with
    | .isFalse h => .isFalse (by simp [h])
    | .isTrue h =>
      match decEqList l m with
      | .isTrue hl => .isTrue (by rw [h, hl])
      | .isFalse hl => .isFalse (by simp [hl])

end

instance [DecidableEq α] : DecidableEq (PyObject α) := decEq

mutual

def hashable : PyObject α → Bool
  | .scalar _ | .str _ => true
  | .tuple items => hashableAll items
  | .list _ => false
  | .other _ hash _ _ => hash

def hashableAll : List (PyObject α) → Bool
  | [] => true
  | a :: items => a.hashable && hashableAll items

end

/-- The elements of an `Iterable`; the code sets strings apart wherever it asks. -/
def elements : PyObject α → Option (List (PyObject α))
  | .scalar _ | .str _ => none
  | .tuple items | .list items | .other _ _ _ items => some items

def typeName : PyObject α → String
  | .scalar _ => "<class 'object'>"
  | .str _ => "<class 'str'>"
  | .tuple _ => "<class 'tuple'>"
  | .list _ => "<class 'list'>"
  | .other cls _ _ _ => "<class '" ++ cls ++ "'>"

end PyObject

inductive DictError where
  | keyError
  | unhashable
  | indexError
  | exception (msg : String)
  deriving DecidableEq, Repr

/-- The numbers of key columns and of value columns. -/
structure DictSchema where
  primaryKeys : Nat
  columns : Nat

/-- The dictionary that the object inherits from, and its rows as `hcache` keeps them. -/
structure StorageDict (α : Type) where
  memory : PyObject α → Option (PyObject α)
  hcache : List (PyObject α) → Option (List (PyObject α))

inductive DictCall (α : Type) where
  | setitem (key val : PyObject α)
  | getitem (key : PyObject α)
  | delitem (key : PyObject α)

/-- What the caller sees: an exception, a value, or nothing. -/
abbrev DictAnswer (α : Type) := Except DictError (Option (PyObject α))

variable {α : Type} [DecidableEq α]

def makeKey (s : DictSchema) (key : PyObject α) : Except DictError (List (PyObject α)) :=
  match key.elements with
  | none => if s.primaryKeys = 1 then .ok [key] else .error (.exception "missing a primary key")
  | some items =>
    if items.length = s.primaryKeys then .ok items
    else .error (.exception ("wrong primary key " ++ key.typeName))

def makeValue : PyObject α → List (PyObject α)
  | .tuple items => [.tuple items]
  | value => value.elements.getD [value]

/-- The columns of a row, in a `namedtuple` when there are several. -/
def buildColumns (s : DictSchema) (persistentResult : List (PyObject α)) : Except DictError (PyObject α) :=
  if persistentResult.length < s.columns then .error .indexError
  else
    let finalResults := persistentResult.take s.columns
    if 1 < s.columns then .ok (.tuple finalResults)
    else match finalResults with
      | [] => .error .indexError
      | element :: _ => .ok element

/-- The row that `__delitem__` names: the number of its columns is not checked. -/
def deletedKey (key : PyObject α) : List (PyObject α) := key.elements.getD [key]

namespace StorageDict

def readRow (s : DictSchema) (d : StorageDict α) (key : PyObject α) : Except DictError (PyObject α) :=
  match makeKey s key with
  | .error e => .error e
  | .ok k =>
    match d.hcache k with
    | none => .error .keyError
    | some row => buildColumns s row

def setitem (s : DictSchema) (maxCacheSize : Nat) (d : StorageDict α) (key val : PyObject α) :
    DictAnswer α × StorageDict α :=
  match makeKey s key with
  | .error e => (.error e, d)
  | .ok k =>
    if maxCacheSize = 0 then
      if key.hashable then
        (.ok none, ⟨Function.update d.memory key (some val), Function.update d.hcache k (some (makeValue val))⟩)
      else (.error .unhashable, d)
    else (.ok none, { d with hcache := Function.update d.hcache k (some (makeValue val)) })

/-- With a cache of size 0 the memory answers first; an exception of it is passed over. -/
def getitem (s : DictSchema) (maxCacheSize : Nat) (d : StorageDict α) (key : PyObject α) : DictAnswer α :=
  if maxCacheSize = 0 ∧ key.hashable then
    match d.memory key with
    | some result => .ok (some result)
    | none => (d.readRow s key).map some
  else (d.readRow s key).map some

/-- The memory is left as it is. -/
def delitem (d : StorageDict α) (key : PyObject α) : StorageDict α :=
  { d with hcache := Function.update d.hcache (deletedKey key) none }

def step (s : DictSchema) (maxCacheSize : Nat) (d : StorageDict α) : DictCall α → DictAnswer α × StorageDict α
  | .setitem key val => d.setitem s maxCacheSize key val
  | .getitem key => (d.getitem s maxCacheSize key, d)
  | .delitem key => (.ok none, d.delitem key)

def answers (s : DictSchema) (maxCacheSize : Nat) (d : StorageDict α) : List (DictCall α) → List (DictAnswer α)
  | [] => []
  | call :: calls => (d.step s maxCacheSize call).1 :: (d.step s maxCacheSize call).2.answers s maxCacheSize calls

def after (s : DictSchema) (maxCacheSize : Nat) (d : StorageDict α) (calls : List (DictCall α)) : StorageDict α :=
  calls.foldl (fun d call => (d.step s maxCacheSize call).2) d

end StorageDict

/-- The value that a call assigns under `key`. -/
def assigned (s : DictSchema) (key : PyObject α) : DictCall α → Option (PyObject α)
  | .setitem k val => if k = key ∧ (makeKey s k).isOk then some val else none
  | _ => none

/-- What a call makes of the row at `k`. -/
def written (s : DictSchema) (k : List (PyObject α)) : DictCall α → Option (Option (List (PyObject α)))
  | .setitem key val =>
    match makeKey s key with
    | .ok k' => if k' = k then some (some (makeValue val)) else none
    | .error _ => none
  | .delitem key => if deletedKey key = k then some none else none
  | .getitem _ => none

def lastAssigned (s : DictSchema) (calls : List (DictCall α)) (key : PyObject α) : Option (PyObject α) :=
  calls.reverse.findSome? (assigned s key)

def rowAfter (s : DictSchema) (hcache : List (PyObject α) → Option (List (PyObject α)))
    (calls : List (DictCall α)) (k : List (PyObject α)) : Option (List (PyObject α)) :=
  (calls.reverse.findSome? (written s k)).getD (hcache k)

/-- Keys of assignments can be hashed, and each read of a key that was assigned before comes
when its row reads back as the value last assigned under that very key. -/
structure KeepsAnswers (s : DictSchema) (hcache : List (PyObject α) → Option (List (PyObject α)))
    (calls : List (DictCall α)) : Prop where
  hashable : ∀ key val, .setitem key val ∈ calls → (makeKey s key).isOk → key.hashable = true
  reads : ∀ before key rest, calls = before ++ .getitem key :: rest → ∀ val, lastAssigned s before key = some val →
    ∃ k row, makeKey s key = .ok k ∧ rowAfter s hcache before k = some row ∧ buildColumns s row = .ok val

namespace StorageDict

variable {s : DictSchema} {n : Nat} {hcache : List (PyObject α) → Option (List (PyObject α))}

theorem answers_append (d : StorageDict α) (calls : List (DictCall α)) (call : DictCall α) :
    d.answers s n (calls ++ [call]) = d.answers s n calls ++ [((d.after s n calls).step s n call).1] := by
  induction calls generalizing d with
  | nil => rfl
  | cons c calls ih => rw [List.cons_append, answers, answers, ih, after, after, List.foldl_cons]; rfl

theorem after_append (d : StorageDict α) (calls : List (DictCall α)) (call : DictCall α) :
    d.after s n (calls ++ [call]) = ((d.after s n calls).step s n call).2 := by
  simp [after]

theorem lastAssigned_append (calls : List (DictCall α)) (call : DictCall α) (key : PyObject α) :
    lastAssigned s (calls ++ [call]) key = (assigned s key call).or (lastAssigned s calls key) := by
  cases h : assigned s key call <;> simp [lastAssigned, h]

theorem rowAfter_append (calls : List (DictCall α)) (call : DictCall α) (k : List (PyObject α)) :
    rowAfter s hcache (calls ++ [call]) k = (written s k call).getD (rowAfter s hcache calls k) := by
  cases h : written s k call <;> simp [rowAfter, h]

/-- The table does not depend on the memory. -/
theorem hcache_step (d : StorageDict α) (call : DictCall α)
    (hhash : ∀ key val, call = .setitem key val → (makeKey s key).isOk → n = 0 → key.hashable = true)
    (k : List (PyObject α)) :
    (d.step s n call).2.hcache k = (written s k call).getD (d.hcache k) := by
  cases call with
  | getitem key => rfl
  | delitem key =>
    by_cases hk : deletedKey key = k
    · simp [step, delitem, written, hk]
    · simp [step, delitem, written, hk, Function.update_of_ne (Ne.symm hk)]
  | setitem key val =>
    cases hm : makeKey s key with
    | error e => simp [step, setitem, written, hm]
    | ok k' =>
      have hd : (d.step s n (.setitem key val)).2.hcache = Function.update d.hcache k' (some (makeValue val)) := by
        by_cases hn : n = 0
        · have hh := hhash key val rfl (by simp [hm, Except.isOk, Except.toBool]) hn
          simp [step, setitem, hm, hn, hh]
        · simp [step, setitem, hm, hn]
      rw [hd]
      by_cases hk : k' = k
      · simp [written, hm, hk]
      · simp [written, hm, hk, Function.update_of_ne (Ne.symm hk)]

theorem memory_step (d : StorageDict α) (call : DictCall α)
    (hhash : ∀ key val, call = .setitem key val → (makeKey s key).isOk → key.hashable = true) (key : PyObject α) :
    (d.step s 0 call).2.memory key = (assigned s key call).or (d.memory key) := by
  cases call with
  | getitem k => rfl
  | delitem k => rfl
  | setitem k val =>
    cases hm : makeKey s k with
    | error e => simp [step, setitem, assigned, hm, Except.isOk, Except.toBool]
    | ok k' =>
      have hok : (makeKey s k).isOk = true := by simp [hm, Except.isOk, Except.toBool]
      have hh := hhash k val rfl hok
      by_cases hk : k = key
      · subst hk
        simp [step, setitem, hm, hh, assigned, Except.isOk, Except.toBool]
      · simp [step, setitem, hm, hh, assigned, hk, Function.update_of_ne (Ne.symm hk)]

theorem hcache_after (d : StorageDict α) {calls : List (DictCall α)}
    (hhash : ∀ key val, .setitem key val ∈ calls → (makeKey s key).isOk → n = 0 → key.hashable = true) :
    (d.after s n calls).hcache = rowAfter s d.hcache calls := by
  induction calls using List.reverseRecOn with
  | nil => rfl
  | append_singleton calls call ih =>
    funext k
    rw [after_append, rowAfter_append, hcache_step _ _ (fun key val he => hhash key val (by simp [he])),
      ih fun key val hmem => hhash key val (by simp [hmem])]

theorem memory_after {calls : List (DictCall α)}
    (hhash : ∀ key val, .setitem key val ∈ calls → (makeKey s key).isOk → key.hashable = true) :
    (StorageDict.after s 0 ⟨fun _ => none, hcache⟩ calls).memory = lastAssigned s calls := by
  induction calls using List.reverseRecOn with
  | nil => rfl
  | append_singleton calls call ih =>
    funext key
    rw [after_append, lastAssigned_append, memory_step _ _ (fun key val he => hhash key val (by simp [he])),
      ih fun key val hmem => hhash key val (by simp [hmem])]

theorem step_setitem_answer (d : StorageDict α) (hn : n ≠ 0) (key val : PyObject α) :
    (d.step s n (.setitem key val)).1 = (makeKey s key).map fun _ => none := by
  cases hm : makeKey s key <;> simp [step, setitem, hm, hn, Except.map]

/-- The two answers to one call, given the same table. -/
theorem step_answer_iff {d d' : StorageDict α} (hn : n ≠ 0) (hsame : d.hcache = d'.hcache) (call : DictCall α) :
    (d.step s 0 call).1 = (d'.step s n call).1 ↔
      (∀ key val, call = .setitem key val → (makeKey s key).isOk → key.hashable = true) ∧
        ∀ key, call = .getitem key → key.hashable = true → ∀ val, d.memory key = some val →
          d.readRow s key = .ok val := by
  have hread : ∀ key, d.readRow s key = d'.readRow s key := fun key => by simp [readRow, hsame]
  cases call with
  | delitem key => simp [step]
  | setitem key val =>
    rw [step_setitem_answer d' hn]
    cases hm : makeKey s key with
    | error e => simp [step, setitem, hm, Except.map, Except.isOk, Except.toBool]
    | ok k =>
      by_cases hh : key.hashable = true
      · simp [step, setitem, hm, hh, Except.map]
      · simp [step, setitem, hm, hh, Except.map, Except.isOk, Except.toBool]
  | getitem key =>
    by_cases hh : key.hashable = true
    · cases hmem : d.memory key with
      | none => simp [step, getitem, hh, hmem, hn, hread]
      | some val =>
        simp [step, getitem, hh, hmem, hn, hread]
        cases hr : d'.readRow s key with
        | error e => simp [Except.map]
        | ok v => simp [Except.map, eq_comm]
    · simp [step, getitem, hh, hn, hread]

end StorageDict

/-- The answers without the C++ cache, from Python memory, are the answers with it. -/
def SameAnswers (s : DictSchema) (n : Nat) (hcache : List (PyObject α) → Option (List (PyObject α)))
    (calls : List (DictCall α)) : Prop :=
  StorageDict.answers s 0 ⟨fun _ => none, hcache⟩ calls = StorageDict.answers s n ⟨fun _ => none, hcache⟩ calls

section answers

variable {s : DictSchema} {n : Nat} {hcache : List (PyObject α) → Option (List (PyObject α))}

omit [DecidableEq α] in
theorem readRow_eq_ok_iff {d : StorageDict α} {key val : PyObject α} : d.readRow s key = .ok val ↔
    ∃ k row, makeKey s key = .ok k ∧ d.hcache k = some row ∧ buildColumns s row = .ok val := by
  cases hm : makeKey s key with
  | error e => simp [StorageDict.readRow, hm]
  | ok k => cases hr : d.hcache k <;> simp [StorageDict.readRow, hm, hr]

theorem hashable_of_assigned {calls : List (DictCall α)} {key val : PyObject α}
    (hhash : ∀ key val, .setitem key val ∈ calls → (makeKey s key).isOk → key.hashable = true)
    (h : lastAssigned s calls key = some val) : key.hashable = true := by
  obtain ⟨call, hmem, hcall⟩ := List.exists_of_findSome?_eq_some h
  cases call with
  | setitem k v =>
    simp only [assigned] at hcall
    split at hcall
    · rename_i hk
      obtain ⟨rfl, hok⟩ := hk
      exact hhash k v (by simpa using hmem) hok
    · cases hcall
  | getitem k => cases hcall
  | delitem k => cases hcall

theorem keepsAnswers_append (calls : List (DictCall α)) (call : DictCall α) : KeepsAnswers s hcache (calls ++ [call]) ↔
    KeepsAnswers s hcache calls ∧ (∀ key val, call = .setitem key val → (makeKey s key).isOk → key.hashable = true) ∧
      ∀ key, call = .getitem key → ∀ val, lastAssigned s calls key = some val →
        ∃ k row, makeKey s key = .ok k ∧ rowAfter s hcache calls k = some row ∧ buildColumns s row = .ok val := by
  constructor
  · intro h
    refine ⟨⟨fun key val hmem => h.hashable key val (by simp [hmem]), fun before key rest he => ?_⟩,
      fun key val he => h.hashable key val (by simp [he]), fun key he => ?_⟩
    · exact h.reads before key (rest ++ [call]) (by simp [he])
    · exact h.reads calls key [] (by simp [he])
  · rintro ⟨h, hset, hget⟩
    refine ⟨fun key val hmem => ?_, fun before key rest he => ?_⟩
    · rcases List.mem_append.mp hmem with hmem | hmem
      · exact h.hashable key val hmem
      · exact hset key val (List.mem_singleton.mp hmem).symm
    · rcases List.eq_nil_or_concat rest with rfl | ⟨rest, c, rfl⟩
      · obtain ⟨rfl, hc⟩ := List.append_inj' he rfl
        exact hget key (by simpa using hc)
      · rw [List.concat_eq_append, ← List.cons_append, ← List.append_assoc] at he
        exact h.reads before key rest (List.append_inj' he rfl).1

/-- The setting of the cache does not show exactly in the runs that keep answers: those without
an unhashable key in an assignment, without a read of a key that was assigned and whose row was
deleted or assigned under another spelling since, and without a read of a value that is stored
in another form than it was assigned in. -/
theorem sameAnswers_iff (hn : n ≠ 0) (calls : List (DictCall α)) :
    SameAnswers s n hcache calls ↔ KeepsAnswers s hcache calls := by
  induction calls using List.reverseRecOn with
  | nil => exact iff_of_true rfl ⟨fun _ _ h => by simp at h, fun before key rest h => by simp at h⟩
  | append_singleton calls call ih =>
    have hsplit : ∀ {l l' : List (DictAnswer α)} {x x' : DictAnswer α}, l ++ [x] = l' ++ [x'] ↔ l = l' ∧ x = x' :=
      ⟨fun h => ⟨(List.append_inj' h rfl).1, by simpa using (List.append_inj' h rfl).2⟩, fun h => by rw [h.1, h.2]⟩
    rw [SameAnswers, StorageDict.answers_append, StorageDict.answers_append, keepsAnswers_append, hsplit]
    rw [SameAnswers] at ih
    rw [ih]
    refine and_congr_right fun hkeeps => ?_
    have hrows : (StorageDict.after s 0 ⟨fun _ => none, hcache⟩ calls).hcache = rowAfter s hcache calls :=
      StorageDict.hcache_after _ fun key val hmem hok _ => hkeeps.hashable key val hmem hok
    have hrows' : (StorageDict.after s n ⟨fun _ => none, hcache⟩ calls).hcache = rowAfter s hcache calls :=
      StorageDict.hcache_after _ fun key val hmem hok h0 => absurd h0 hn
    rw [StorageDict.step_answer_iff hn (hrows.trans hrows'.symm), StorageDict.memory_after hkeeps.hashable]
    refine and_congr_right fun _ => forall_congr' fun key => forall_congr' fun _ => ?_
    simp only [readRow_eq_ok_iff, hrows]
    exact ⟨fun h val hval => h (hashable_of_assigned hkeeps.hashable hval) val hval, fun h _ => h⟩

theorem keepsAnswers_read_back : KeepsAnswers ⟨1, 1⟩ (fun _ => none)
    [.setitem (.scalar 1) (.str "a"), .getitem (.scalar 1), .delitem (.scalar 2), .getitem (.scalar 2)] :=
  (sameAnswers_iff (show 1000 ≠ 0 by decide) _).mp rfl

/-- A deleted value is still read from Python memory. -/
theorem deleted_value_read : ¬ SameAnswers ⟨1, 1⟩ 1000 (fun _ => none)
    [.setitem (.scalar 1) (.str "a"), .delitem (.scalar 1), .getitem (.scalar 1)] := by
  intro h
  have hread := congrArg (fun l => l[2]?) h
  have hmemory : (StorageDict.answers ⟨1, 1⟩ 0 ⟨fun _ => none, fun _ => none⟩
      [.setitem (.scalar 1) (.str "a"), .delitem (.scalar 1), .getitem (.scalar 1)])[2]? =
        some (.ok (some (.str "a"))) := rfl
  have htable : (StorageDict.answers ⟨1, 1⟩ 1000 ⟨fun _ => none, fun _ => none⟩
      [.setitem (.scalar 1) (.str "a"), .delitem (.scalar 1), .getitem (.scalar 1)])[2]? =
        some (.error .keyError) := rfl
  simp only [hmemory, htable] at hread
  cases hread

end answers

end Hecuba
