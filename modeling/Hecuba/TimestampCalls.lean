import Hecuba.TimestampGenerator

/-! The calls of `next` with their critical sections as single steps. The statements of the machine
refine these steps, and every sequence of them is a schedule of statements. -/

namespace Hecuba.TimestampGenerator

/-- A call as its callers see it: the lock keeps the others out between `timed` and `unlocked`. -/
inductive Stage where
  | ready
  | timed (now : Int64)
  | unlocked
  | returned (value : Int64)
  deriving DecidableEq

inductive Action (κ : Type*) where
  | readClock (c : κ)
  | critical (c : κ)
  | ret (c : κ)
  deriving DecidableEq

structure Calls (κ : Type*) where
  last : Int64
  stage : κ → Stage

def Calls.fresh (κ : Type*) : Calls κ := ⟨0, fun _ => .ready⟩

section

variable {κ : Type*}

/-- The stage of a call that read `reading`. -/
def Pc.stage (reading : Int64) : Pc → Stage
  | .readClock => .ready
  | .lock now | .compare now => .timed now
  | .store _ => .timed reading
  | .unlock | .ret => .unlocked
  | .returned value => .returned value

/-- The statement before which a call of this stage stands while the mutex is free. -/
def Stage.pc : Stage → Pc
  | .ready => .readClock
  | .timed now => .lock now
  | .unlocked => .ret
  | .returned value => .returned value

/-- What the next statement of a call does for the others: the store stands for its whole
critical section. -/
def Pc.action (c : κ) : Pc → Option (Action κ)
  | .readClock => some (.readClock c)
  | .store _ => some (.critical c)
  | .ret => some (.ret c)
  | .lock _ | .compare _ | .unlock | .returned _ => none

def Action.statements : Action κ → List κ
  | .readClock c | .ret c => [c]
  | .critical c => List.replicate 4 c

def Machine.calls (clock : κ → Int64) (s : Machine κ) : Calls κ := ⟨s.last, fun c => (s.pc c).stage (clock c)⟩

theorem Guarded.pc_of_free {clock : κ → Int64} {s : Machine κ} {c : κ} (h : Guarded clock s) (hfree : s.owner = none)
    {stage : Stage} (hc : (s.calls clock).stage c = stage) : s.pc c = stage.pc := by
  have hout : (s.pc c).inside = false := by
    rw [Bool.eq_false_iff, ne_eq, h.inside c, hfree]
    simp
  have hstage : (s.pc c).stage (clock c) = stage := hc
  rw [← hstage]
  cases hp : s.pc c with
  | readClock | lock now | ret | returned value => rfl
  | compare now | store now | unlock =>
    rw [hp] at hout
    cases hout

end

section

variable {κ : Type*} [DecidableEq κ] (clock : κ → Int64)

def Calls.step (s : Calls κ) : Action κ → Option (Calls κ)
  | .readClock c =>
    match s.stage c with
    | .ready => some { s with stage := Function.update s.stage c (.timed (clock c)) }
    | _ => none
  | .critical c =>
    match s.stage c with
    | .timed now => some ⟨advance s.last now, Function.update s.stage c .unlocked⟩
    | _ => none
  | .ret c =>
    match s.stage c with
    | .unlocked => some { s with stage := Function.update s.stage c (.returned s.last) }
    | _ => none

def Calls.run (s : Calls κ) (actions : List (Action κ)) : Option (Calls κ) :=
  actions.foldlM (Calls.step clock) s

def Machine.actions (s : Machine κ) : List κ → List (Action κ)
  | [] => []
  | c :: rest =>
    ((s.pc c).action c).toList ++
      match s.step clock c with
      | some s' => actions s' rest
      | none => []

variable {clock} {s s' : Machine κ} {c : κ}

theorem Machine.calls_update (last : Int64) (owner : Option κ) (p : Pc) :
    Machine.calls clock ⟨last, owner, Function.update s.pc c p⟩ =
      ⟨last, Function.update (s.calls clock).stage c (p.stage (clock c))⟩ := by
  simp only [Machine.calls, Calls.mk.injEq, true_and]
  funext d
  exact Function.apply_update (fun d p => Pc.stage (clock d) p) s.pc c p d

theorem Calls.step_cases {t t' : Calls κ} {a : Action κ} (h : t.step clock a = some t') :
    (∃ c, a = .readClock c ∧ t.stage c = .ready ∧
      t' = ⟨t.last, Function.update t.stage c (.timed (clock c))⟩) ∨
    (∃ c now, a = .critical c ∧ t.stage c = .timed now ∧
      t' = ⟨advance t.last now, Function.update t.stage c .unlocked⟩) ∨
    (∃ c, a = .ret c ∧ t.stage c = .unlocked ∧
      t' = ⟨t.last, Function.update t.stage c (.returned t.last)⟩) := by
  cases a with
  | readClock c =>
    simp only [step] at h
    split at h
    · next hc => exact .inl ⟨c, rfl, hc, (Option.some.inj h).symm⟩
    · cases h
  | critical c =>
    simp only [step] at h
    split at h
    · next now hc => exact .inr (.inl ⟨c, now, rfl, hc, (Option.some.inj h).symm⟩)
    · cases h
  | ret c =>
    simp only [step] at h
    split at h
    · next hc => exact .inr (.inr ⟨c, rfl, hc, (Option.some.inj h).symm⟩)
    · cases h

theorem Calls.run_append {t : Calls κ} (pre post : List (Action κ)) :
    t.run clock (pre ++ post) = (t.run clock pre).bind fun t => t.run clock post := List.foldlM_append

theorem Calls.run_toList {t : Calls κ} (a : Action κ) : t.run clock (some a).toList = t.step clock a := by
  simp [Calls.run]

/-- A statement that the other calls cannot tell from none. -/
theorem Machine.calls_stay (owner : Option κ) {p : Pc} (hp : p.stage (clock c) = (s.pc c).stage (clock c)) :
    Machine.calls clock ⟨s.last, owner, Function.update s.pc c p⟩ = s.calls clock := by
  rw [Machine.calls_update, hp]
  exact congrArg (Calls.mk s.last) (Function.update_eq_self c (s.calls clock).stage)

theorem Guarded.simulates (h : Guarded clock s) (hs : s.step clock c = some s') :
    (s.calls clock).run clock ((s.pc c).action c).toList = some (s'.calls clock) := by
  have hstage : (s.calls clock).stage c = (s.pc c).stage (clock c) := rfl
  rcases Machine.step_cases hs with ⟨hp, rfl⟩ | ⟨now, hp, -, rfl⟩ | ⟨now, hp, rfl⟩ | ⟨now, hp, rfl⟩ |
    ⟨hp, rfl⟩ | ⟨hp, rfl⟩
  · rw [hp] at hstage ⊢
    rw [Machine.calls_update]
    simp only [Pc.action, Calls.run_toList, Calls.step, hstage, Pc.stage]
    rfl
  · rw [Machine.calls_stay _ (by rw [hp]; rfl), hp]
    rfl
  · rw [Machine.calls_stay _ (by rw [hp, h.compare c now hp]; rfl), hp]
    rfl
  · rw [hp] at hstage ⊢
    rw [Machine.calls_update, h.store c now hp]
    simp only [Pc.action, Calls.run_toList, Calls.step, hstage, Pc.stage]
    rfl
  · rw [Machine.calls_stay _ (by rw [hp]; rfl), hp]
    rfl
  · rw [hp] at hstage ⊢
    rw [Machine.calls_update]
    simp only [Pc.action, Calls.run_toList, Calls.step, hstage, Pc.stage]
    rfl

theorem Guarded.refines (h : Guarded clock s) {schedule : List κ} (hs : s.run clock schedule = some s') :
    (s.calls clock).run clock (s.actions clock schedule) = some (s'.calls clock) ∧ Guarded clock s' := by
  induction schedule generalizing s with
  | nil =>
    obtain rfl := Option.some.inj hs
    exact ⟨rfl, h⟩
  | cons c schedule ih =>
    obtain ⟨u, hu, hrest⟩ := Option.bind_eq_some_iff.mp ((List.foldlM_cons ..).symm.trans hs)
    obtain ⟨hrun, hguard⟩ := ih (h.step hu) hrest
    refine ⟨?_, hguard⟩
    rw [Machine.actions, hu, Calls.run_append, h.simulates hu, Option.bind_some]
    exact hrun

/-- Every step of the calls is a few statements of one call. -/
theorem Guarded.realizes (h : Guarded clock s) (hfree : s.owner = none) {a : Action κ} {t : Calls κ}
    (hs : (s.calls clock).step clock a = some t) :
    ∃ s', s.run clock a.statements = some s' ∧ s'.owner = none ∧ s'.calls clock = t := by
  rcases Calls.step_cases hs with ⟨c, rfl, hc, rfl⟩ | ⟨c, now, rfl, hc, rfl⟩ | ⟨c, rfl, hc, rfl⟩
  · have hp := h.pc_of_free hfree hc
    refine ⟨⟨s.last, s.owner, Function.update s.pc c (.lock (clock c))⟩, ?_, hfree, Machine.calls_update ..⟩
    simp [Action.statements, Machine.run, Machine.step, hp, Stage.pc]
  · have hp := h.pc_of_free hfree hc
    refine ⟨⟨advance s.last now, none, Function.update s.pc c .ret⟩, ?_, rfl, Machine.calls_update ..⟩
    simp [Action.statements, Machine.run, Machine.step, List.replicate, hfree, hp, Stage.pc]
  · have hp := h.pc_of_free hfree hc
    refine ⟨⟨s.last, s.owner, Function.update s.pc c (.returned s.last)⟩, ?_, hfree, Machine.calls_update ..⟩
    simp [Action.statements, Machine.run, Machine.step, hp, Stage.pc]

theorem Guarded.run_realizes (h : Guarded clock s) (hfree : s.owner = none) {actions : List (Action κ)}
    {t : Calls κ} (hs : (s.calls clock).run clock actions = some t) :
    ∃ s', s.run clock (actions.flatMap Action.statements) = some s' ∧ s'.owner = none ∧ s'.calls clock = t := by
  induction actions generalizing s with
  | nil => exact ⟨s, rfl, hfree, Option.some.inj hs⟩
  | cons a actions ih =>
    obtain ⟨t', ha, hrest⟩ := Option.bind_eq_some_iff.mp ((List.foldlM_cons ..).symm.trans hs)
    obtain ⟨u, hu, hufree, rfl⟩ := h.realizes hfree ha
    obtain ⟨s', hs', hfree', hcalls⟩ := ih (h.refines hu).2 hufree hrest
    refine ⟨s', ?_, hfree', hcalls⟩
    rw [List.flatMap_cons, Machine.run, List.foldlM_append]
    exact Option.bind_eq_some_iff.mpr ⟨u, hu, hs'⟩

end

end Hecuba.TimestampGenerator
