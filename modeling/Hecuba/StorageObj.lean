import Mathlib.Logic.Function.Basic

/-! The attributes of a persistent StorageObj: the copies in the instance and the columns of its
row. An object that is instantiated again has the row and no copies. -/

namespace Hecuba

/-- The names that the class declares, all of basic types, what the class itself has under a name (its
methods, and values at class level), and what the database makes of a value that is inserted in a column:
the value read back, or the error that refuses it. -/
structure ObjClass (V : Type) where
  persistentAttrs : List String
  classAttr : String → Option (Option V)
  insert : String → V → Except String V

/-- `none` is Python's None in a copy, and null in a column. -/
structure StorageObj (V : Type) where
  memory : String → Option (Option V)
  row : String → Option V

inductive ObjCall (V : Type) where
  | setattr (name : String) (value : Option V)
  | getattr (name : String)
  | delattr (name : String)

def ObjCall.name {V : Type} : ObjCall V → String
  | .setattr name _ | .getattr name | .delattr name => name

inductive ObjError where
  | attributeError
  | raised (error : String)
  deriving DecidableEq, Repr

/-- What the caller sees: an error, a value, or nothing. -/
abbrev ObjOutcome (V : Type) := Except ObjError (Option (Option V))

namespace ObjClass

variable {V : Type} (C : ObjClass V)

def isPersistent (name : String) : Bool :=
  name.toList.head? ≠ some '_' && name ∈ C.persistentAttrs

def column (name : String) : Option V → Except String (Option V)
  | none => .ok none
  | some v => (C.insert name v).map some

/-- Python looks in the instance and then in the class; `__getattr__` is called for what is in neither. -/
def getattr (obj : StorageObj V) (name : String) : ObjOutcome V × StorageObj V :=
  match obj.memory name, C.classAttr name with
  | some value, _ => (.ok (some value), obj)
  | none, some value => (.ok (some value), obj)
  | none, none =>
    if C.isPersistent name then
      match obj.row name with
      | none => (.error .attributeError, obj)
      | some v => (.ok (some (some v)), { obj with memory := Function.update obj.memory name (some (some v)) })
    else (.error .attributeError, obj)

def setattr (obj : StorageObj V) (name : String) (value : Option V) : ObjOutcome V × StorageObj V :=
  if C.isPersistent name then
    match C.column name value with
    | .error e => (.error (.raised e), obj)
    | .ok v => (.ok none, ⟨Function.update obj.memory name (some value), Function.update obj.row name v⟩)
  else (.ok none, { obj with memory := Function.update obj.memory name (some value) })

/-- The copy goes first: without one there is an error, and the column stays. -/
def delattr (obj : StorageObj V) (name : String) : ObjOutcome V × StorageObj V :=
  match obj.memory name with
  | none => (.error .attributeError, obj)
  | some _ => (.ok none,
      { memory := Function.update obj.memory name none
        row := if name ∈ C.persistentAttrs then Function.update obj.row name none else obj.row })

def step (obj : StorageObj V) : ObjCall V → ObjOutcome V × StorageObj V
  | .setattr name value => C.setattr obj name value
  | .getattr name => C.getattr obj name
  | .delattr name => C.delattr obj name

def outcomes (obj : StorageObj V) : List (ObjCall V) → List (ObjOutcome V)
  | [] => []
  | call :: calls => (C.step obj call).1 :: outcomes (C.step obj call).2 calls

def after (obj : StorageObj V) (calls : List (ObjCall V)) : StorageObj V :=
  calls.foldl (fun obj call => (C.step obj call).2) obj

end ObjClass

def StorageObj.reinstantiate {V : Type} (obj : StorageObj V) : StorageObj V := { obj with memory := fun _ => none }

namespace ObjClass

variable {V : Type} (C : ObjClass V)

/-- The first later use of a name with copy `x` and column `v`: an assignment, or a read that finds the same
value in the table. Assignments that are refused are passed over, and so are reads that find the same value
in the class. -/
def FirstUseAgrees (name : String) (x v : Option V) : List (ObjCall V) → Prop
  | [] => True
  | .setattr k value :: calls =>
    if k = name ∧ (C.isPersistent k = true → (C.column k value).isOk = true) then True
    else FirstUseAgrees name x v calls
  | .getattr k :: calls =>
    if k = name then
      match C.classAttr k with
      | some y => x = y ∧ FirstUseAgrees name x v calls
      | none => C.isPersistent k = true ∧ x = v ∧ x ≠ none
    else FirstUseAgrees name x v calls
  | .delattr k :: calls => if k = name then False else FirstUseAgrees name x v calls

section reinstantiation

variable {C}

theorem outcomes_cons (obj : StorageObj V) (call : ObjCall V) (calls : List (ObjCall V)) :
    C.outcomes obj (call :: calls) = (C.step obj call).1 :: C.outcomes (C.step obj call).2 calls := rfl

theorem firstUseAgrees_skip {name : String} {x v : Option V} {call : ObjCall V} (h : call.name ≠ name)
    (calls : List (ObjCall V)) : C.FirstUseAgrees name x v (call :: calls) ↔ C.FirstUseAgrees name x v calls := by
  cases call <;> simp_all [FirstUseAgrees, ObjCall.name]

/-- A call sees and changes one attribute. -/
theorem step_same {memory memory' : String → Option (Option V)} (row : String → Option V) (call : ObjCall V)
    (h : memory' call.name = memory call.name) :
    (C.step ⟨memory, row⟩ call).1 = (C.step ⟨memory', row⟩ call).1 ∧
      ∃ x v, (C.step ⟨memory, row⟩ call).2 = ⟨Function.update memory call.name x, Function.update row call.name v⟩ ∧
        (C.step ⟨memory', row⟩ call).2 = ⟨Function.update memory' call.name x, Function.update row call.name v⟩ := by
  have hself : ∀ name, memory' name = memory name →
      (⟨memory, row⟩ : StorageObj V) =
          ⟨Function.update memory name (memory name), Function.update row name (row name)⟩ ∧
        (⟨memory', row⟩ : StorageObj V) =
          ⟨Function.update memory' name (memory name), Function.update row name (row name)⟩ :=
    fun name hname => by simp [← hname]
  cases call with
  | setattr name value =>
    by_cases hp : C.isPersistent name = true
    · cases hc : C.column name value with
      | error e =>
        simp only [step, setattr, hp, hc, if_true]
        exact ⟨trivial, _, _, hself name h⟩
      | ok v =>
        simp only [step, setattr, hp, hc, if_true]
        exact ⟨trivial, _, _, rfl, rfl⟩
    · simp only [step, setattr, hp]
      exact ⟨rfl, some value, row name, by simp [ObjCall.name], by simp [ObjCall.name]⟩
  | getattr name =>
    simp only [ObjCall.name] at h
    cases hm : memory name with
    | some x =>
      simp only [step, getattr, h, hm]
      exact ⟨trivial, _, _, hself name h⟩
    | none =>
      cases hc : C.classAttr name with
      | some y =>
        simp only [step, getattr, h, hm, hc]
        exact ⟨trivial, _, _, hself name h⟩
      | none =>
        by_cases hp : C.isPersistent name = true
        · cases hr : row name with
          | none =>
            simp only [step, getattr, h, hm, hc, hp, hr, if_true]
            exact ⟨trivial, _, _, hself name h⟩
          | some v =>
            simp only [step, getattr, h, hm, hc, hp, hr, if_true]
            exact ⟨trivial, some (some v), row name, by simp [ObjCall.name], by simp [ObjCall.name]⟩
        · simp only [step, getattr, h, hm, hc, hp]
          exact ⟨rfl, _, _, hself name h⟩
  | delattr name =>
    simp only [ObjCall.name] at h
    cases hm : memory name with
    | none =>
      simp only [step, delattr, h, hm]
      exact ⟨trivial, _, _, hself name h⟩
    | some x =>
      by_cases hp : name ∈ C.persistentAttrs
      · simp only [step, delattr, h, hm, hp, if_true]
        exact ⟨trivial, _, _, rfl, rfl⟩
      · simp only [step, delattr, h, hm, hp, if_false]
        exact ⟨trivial, none, row name, by simp [ObjCall.name], by simp [ObjCall.name]⟩

/-- The copies in one memory that another lacks are first used as `FirstUseAgrees` says, one name apart. -/
def AgreesBut (C : ObjClass V) (k : String) (memory memory' : String → Option (Option V)) (row : String → Option V)
    (calls : List (ObjCall V)) : Prop :=
  ∀ name x, name ≠ k → memory name = some x → memory' name = none → C.FirstUseAgrees name x (row name) calls

def Agrees (C : ObjClass V) (memory memory' : String → Option (Option V)) (row : String → Option V)
    (calls : List (ObjCall V)) : Prop :=
  ∀ name x, memory name = some x → memory' name = none → C.FirstUseAgrees name x (row name) calls

section agreement

variable {memory memory' : String → Option (Option V)} {row : String → Option V} {calls : List (ObjCall V)} {k : String}

theorem agrees_update (y : Option (Option V)) (v : Option V) :
    C.Agrees (Function.update memory k y) (Function.update memory' k y) (Function.update row k v) calls ↔
      C.AgreesBut k memory memory' row calls := by
  refine forall_congr' fun name => forall_congr' fun x => ?_
  by_cases hn : name = k
  · subst hn
    cases y <;> simp
  · simp [hn]

theorem agreesBut_cons (call : ObjCall V) :
    C.AgreesBut call.name memory memory' row (call :: calls) ↔ C.AgreesBut call.name memory memory' row calls := by
  refine forall_congr' fun name => forall_congr' fun x => forall_congr' fun hn => ?_
  rw [firstUseAgrees_skip (Ne.symm hn)]

theorem agrees_of_same (h : memory' k = memory k) :
    C.Agrees memory memory' row calls ↔ C.AgreesBut k memory memory' row calls := by
  refine ⟨fun hall name x _ => hall name x, fun hbut name x hx hx' => ?_⟩
  by_cases hn : name = k
  · rw [hn, h] at hx'
    rw [hn, hx'] at hx
    cases hx
  · exact hbut name x hn hx hx'

theorem agrees_of_missing {x : Option V} (hx : memory k = some x) (hx' : memory' k = none) :
    C.Agrees memory memory' row calls ↔ C.FirstUseAgrees k x (row k) calls ∧ C.AgreesBut k memory memory' row calls := by
  refine ⟨fun hall => ⟨hall k x hx hx', fun name y _ => hall name y⟩, fun ⟨hk, hbut⟩ name y hy hy' => ?_⟩
  by_cases hn : name = k
  · rw [hn, hx] at hy
    obtain rfl := Option.some.inj hy
    rwa [hn]
  · exact hbut name y hn hy hy'

def Fewer (memory' memory : String → Option (Option V)) : Prop := ∀ name, memory' name = none ∨ memory' name = memory name

theorem Fewer.update (h : Fewer memory' memory) (k : String) (y : Option (Option V)) :
    Fewer (Function.update memory' k y) (Function.update memory k y) := by
  intro name
  by_cases hn : name = k
  · simp [hn]
  · simpa [hn] using h name

end agreement

section calls

variable {memory memory' : String → Option (Option V)} {row : String → Option V} {calls : List (ObjCall V)}
  {name : String} {x : Option V}

abbrev OutcomesAgree (C : ObjClass V) (calls : List (ObjCall V)) : Prop :=
  ∀ (memory memory' : String → Option (Option V)) (row : String → Option V), Fewer memory' memory →
    (C.outcomes ⟨memory, row⟩ calls = C.outcomes ⟨memory', row⟩ calls ↔ C.Agrees memory memory' row calls)

/-- After the same answer and with the same copy of the attribute in both, the others remain. -/
theorem OutcomesAgree.same_copy (ih : OutcomesAgree C calls) (hfewer : Fewer memory' memory) {call : ObjCall V}
    {y : Option (Option V)} {v : Option V} {obj obj' : StorageObj V}
    (hanswer : (C.step obj call).1 = (C.step obj' call).1)
    (hobj : (C.step obj call).2 = ⟨Function.update memory call.name y, Function.update row call.name v⟩)
    (hobj' : (C.step obj' call).2 = ⟨Function.update memory' call.name y, Function.update row call.name v⟩) :
    C.outcomes obj (call :: calls) = C.outcomes obj' (call :: calls) ↔
      C.AgreesBut call.name memory memory' row (call :: calls) := by
  rw [outcomes_cons, outcomes_cons, hanswer, List.cons_inj_right, hobj, hobj', ih _ _ _ (hfewer.update call.name y),
    agrees_update, agreesBut_cons]

theorem OutcomesAgree.same (ih : OutcomesAgree C calls) (hfewer : Fewer memory' memory) {call : ObjCall V}
    (h : memory' call.name = memory call.name) :
    C.outcomes ⟨memory, row⟩ (call :: calls) = C.outcomes ⟨memory', row⟩ (call :: calls) ↔
      C.Agrees memory memory' row (call :: calls) := by
  obtain ⟨hanswer, y, v, hobj, hobj'⟩ := step_same (C := C) row call h
  rw [ih.same_copy hfewer hanswer hobj hobj', agrees_of_same h]

theorem OutcomesAgree.unchanged (ih : OutcomesAgree C calls) (hfewer : Fewer memory' memory) {call : ObjCall V}
    {answer : ObjOutcome V} (hstep : C.step ⟨memory, row⟩ call = (answer, ⟨memory, row⟩))
    (hstep' : C.step ⟨memory', row⟩ call = (answer, ⟨memory', row⟩)) :
    C.outcomes ⟨memory, row⟩ (call :: calls) = C.outcomes ⟨memory', row⟩ (call :: calls) ↔
      C.Agrees memory memory' row calls := by
  rw [outcomes_cons, outcomes_cons, hstep, hstep', List.cons_inj_right, ih _ _ _ hfewer]

theorem OutcomesAgree.setattr_missing (ih : OutcomesAgree C calls) (hfewer : Fewer memory' memory)
    (hx : memory name = some x) (hx' : memory' name = none) (value : Option V) :
    C.outcomes ⟨memory, row⟩ (.setattr name value :: calls) = C.outcomes ⟨memory', row⟩ (.setattr name value :: calls) ↔
      C.Agrees memory memory' row (.setattr name value :: calls) := by
  rw [agrees_of_missing hx hx']
  by_cases hp : C.isPersistent name = true
  · cases hc : C.column name value with
    | error e =>
      have hstep : ∀ memory, C.step ⟨memory, row⟩ (.setattr name value) = (.error (.raised e), ⟨memory, row⟩) := by
        intro memory
        simp only [step, setattr, hp, hc, if_true]
      have hskip : C.FirstUseAgrees name x (row name) (.setattr name value :: calls) ↔
          C.FirstUseAgrees name x (row name) calls := by
        simp [FirstUseAgrees, hp, hc, Except.isOk, Except.toBool]
      rw [ih.unchanged hfewer (hstep memory) (hstep memory'), agrees_of_missing hx hx', hskip]
      exact and_congr_right fun _ => (agreesBut_cons (.setattr name value)).symm
    | ok v =>
      have hstep : ∀ memory, C.step ⟨memory, row⟩ (.setattr name value) =
          (.ok none, ⟨Function.update memory name (some value), Function.update row name v⟩) := by
        intro memory
        simp only [step, setattr, hp, hc, if_true]
      rw [ih.same_copy hfewer (by rw [hstep, hstep]) (by rw [hstep]; rfl) (by rw [hstep]; rfl)]
      exact (and_iff_right (by simp [FirstUseAgrees, hc, Except.isOk, Except.toBool])).symm
  · have hstep : ∀ memory, C.step ⟨memory, row⟩ (.setattr name value) =
        (.ok none, ⟨Function.update memory name (some value), Function.update row name (row name)⟩) := by
      intro memory
      rw [Function.update_eq_self]
      simp only [step, setattr, hp]
      rfl
    rw [ih.same_copy hfewer (by rw [hstep, hstep]) (by rw [hstep]; rfl) (by rw [hstep]; rfl)]
    exact (and_iff_right (by simp [FirstUseAgrees, hp])).symm

theorem OutcomesAgree.getattr_missing (ih : OutcomesAgree C calls) (hfewer : Fewer memory' memory)
    (hx : memory name = some x) (hx' : memory' name = none) :
    C.outcomes ⟨memory, row⟩ (.getattr name :: calls) = C.outcomes ⟨memory', row⟩ (.getattr name :: calls) ↔
      C.Agrees memory memory' row (.getattr name :: calls) := by
  have hcopy : C.step ⟨memory, row⟩ (.getattr name) = (.ok (some x), ⟨memory, row⟩) := by
    simp only [step, getattr, hx]
  rw [agrees_of_missing hx hx']
  cases hc : C.classAttr name with
  | some y =>
    have hclass : C.step ⟨memory', row⟩ (.getattr name) = (.ok (some y), ⟨memory', row⟩) := by
      simp only [step, getattr, hx', hc]
    by_cases hxy : x = y
    · subst hxy
      rw [ih.unchanged hfewer hcopy hclass, agrees_of_missing hx hx']
      have hread : C.FirstUseAgrees name x (row name) (.getattr name :: calls) ↔ C.FirstUseAgrees name x (row name) calls := by
        simp [FirstUseAgrees, hc]
      rw [hread]
      exact and_congr_right fun _ => (agreesBut_cons (.getattr name)).symm
    · rw [outcomes_cons, outcomes_cons, hcopy, hclass]
      simp [FirstUseAgrees, hc, hxy]
  | none =>
    by_cases hp : C.isPersistent name = true
    · cases hr : row name with
      | none => simp [outcomes_cons, step, getattr, hx, hx', hc, hp, hr, FirstUseAgrees]
      | some v =>
        have hrow : C.step ⟨memory', row⟩ (.getattr name) =
            (.ok (some (some v)), ⟨Function.update memory' name (some (some v)), Function.update row name (row name)⟩) := by
          rw [Function.update_eq_self]
          simp only [step, getattr, hx', hc, hp, hr, if_true]
        by_cases hxv : x = some v
        · subst hxv
          have hcopied : C.step ⟨memory, row⟩ (.getattr name) =
              (.ok (some (some v)), ⟨Function.update memory name (some (some v)), Function.update row name (row name)⟩) := by
            rw [hcopy, ← hx, Function.update_eq_self, Function.update_eq_self]
          rw [ih.same_copy hfewer (by rw [hrow, hcopied]) (by rw [hcopied]; rfl) (by rw [hrow]; rfl)]
          exact (and_iff_right (by simp [FirstUseAgrees, hc, hp])).symm
        · simp [outcomes_cons, hcopy, hrow, hc, hp, FirstUseAgrees, hxv]
    · simp [outcomes_cons, step, getattr, hx, hx', hc, hp, FirstUseAgrees]

theorem delattr_missing (hx : memory name = some x) (hx' : memory' name = none) :
    C.outcomes ⟨memory, row⟩ (.delattr name :: calls) = C.outcomes ⟨memory', row⟩ (.delattr name :: calls) ↔
      C.Agrees memory memory' row (.delattr name :: calls) := by
  rw [agrees_of_missing hx hx']
  simp [outcomes_cons, step, delattr, hx, hx', FirstUseAgrees]

end calls

theorem outcomes_eq_iff (calls : List (ObjCall V)) : OutcomesAgree C calls := by
  induction calls with
  | nil => exact fun _ _ _ _ => iff_of_true rfl fun _ _ _ _ => trivial
  | cons call calls ih =>
    intro memory memory' row hfewer
    by_cases hsame : memory' call.name = memory call.name
    · exact ih.same hfewer hsame
    -- only the first object has a copy of the attribute
    have hnone : memory' call.name = none := (hfewer call.name).resolve_right hsame
    obtain ⟨x, hx⟩ := Option.ne_none_iff_exists'.mp fun h => hsame (hnone.trans h.symm)
    cases call with
    | setattr name value => exact ih.setattr_missing hfewer hx hnone value
    | getattr name => exact ih.getattr_missing hfewer hx hnone
    | delattr name => exact delattr_missing hx hnone

/-- A run from a freshly instantiated object, cut where the object is instantiated again: the
later outcomes stay the same exactly if the first later use of each attribute with a copy is an
assignment, or a read that finds the value of the copy in the table. -/
theorem reinstantiation_iff (row : String → Option V) (before calls : List (ObjCall V)) :
    C.outcomes (C.after ⟨fun _ => none, row⟩ before) calls =
        C.outcomes (C.after ⟨fun _ => none, row⟩ before).reinstantiate calls ↔
      ∀ name x, (C.after ⟨fun _ => none, row⟩ before).memory name = some x →
        C.FirstUseAgrees name x ((C.after ⟨fun _ => none, row⟩ before).row name) calls := by
  refine (outcomes_eq_iff calls _ _ _ fun _ => .inl rfl).trans ?_
  exact ⟨fun h name x hx => h name x hx rfl, fun h name x hx _ => h name x hx⟩

def counterClass : ObjClass Nat where
  persistentAttrs := ["counter"]
  classAttr _ := none
  insert _ v := .ok v

/-- An attribute of an object just instantiated cannot be deleted before it is read. -/
theorem deletion_needs_copy :
    counterClass.outcomes (counterClass.after ⟨fun _ => none, fun _ => none⟩ [.setattr "counter" (some 1)])
        [.delattr "counter"] ≠
      counterClass.outcomes
        (counterClass.after ⟨fun _ => none, fun _ => none⟩ [.setattr "counter" (some 1)]).reinstantiate
        [.delattr "counter"] := by
  have hdeclared : counterClass.isPersistent "counter" = true := by decide
  have hcolumn : counterClass.column "counter" (some 1) = .ok (some 1) := rfl
  have hafter : counterClass.after ⟨fun _ => none, fun _ => none⟩ [.setattr "counter" (some 1)] =
      ⟨Function.update (fun _ => none) "counter" (some (some 1)),
        Function.update (fun _ => none) "counter" (some 1)⟩ := by
    simp [ObjClass.after, ObjClass.step, ObjClass.setattr, hdeclared, hcolumn]
  rw [hafter]
  simp [ObjClass.outcomes, ObjClass.step, ObjClass.delattr, StorageObj.reinstantiate]

end reinstantiation

end ObjClass

end Hecuba
