import Mathlib.Algebra.BigOperators.Group.Finset.Basic
import Mathlib.Algebra.Order.BigOperators.Group.Finset
import Mathlib.Data.Fintype.BigOperators
import Mathlib.Data.List.Nodup

/-! The semaphore of the writer thread: a counter, a mutex and a condition variable. A step runs
one statement of one call of `release` or `acquire`, or wakes a call without a notification. -/

namespace Hecuba.Semaphore

inductive Op where
  | release
  | acquire
  deriving DecidableEq

/-- The statement that a call runs next. -/
inductive Pc where
  | lockRelease
  | increment
  | test
  | unlockReturn
  | unlockNotify
  | notifyOne
  | released
  | lockAcquire
  | check
  | wait
  | asleep
  | relock
  | decrement
  | unlockAcquire
  | acquired
  deriving DecidableEq

namespace Pc

def first : Op → Pc
  | .release => lockRelease
  | .acquire => lockAcquire

def called : Pc → Op
  | lockRelease | increment | test | unlockReturn | unlockNotify | notifyOne | released => .release
  | lockAcquire | check | wait | asleep | relock | decrement | unlockAcquire | acquired => .acquire

/-- Where a call goes on once it has the mutex. -/
def locking : Pc → Option Pc
  | lockRelease => some increment
  | lockAcquire | relock => some check
  | _ => none

def unlocking : Pc → Option Pc
  | unlockReturn => some released
  | unlockNotify => some notifyOne
  | unlockAcquire => some acquired
  | _ => none

def inside : Pc → Bool
  | increment | test | unlockReturn | unlockNotify | check | wait | decrement | unlockAcquire => true
  | _ => false

def hasReturned : Pc → Bool
  | released | acquired => true
  | _ => false

/-- What the call has added to the counter. -/
def added : Pc → Int
  | test | unlockReturn | unlockNotify | notifyOne | released => 1
  | unlockAcquire | acquired => -1
  | _ => 0

/-- A call that still gives a notification, or looks at the counter before it sleeps. -/
def awake : Pc → Int
  | test | unlockNotify | notifyOne | relock | check | decrement => 1
  | _ => 0

end Pc

/-- `waiting` are the calls that sleep in the condition variable. -/
structure Machine (κ : Type*) where
  counter : Int
  owner : Option κ
  waiting : List κ
  pc : κ → Pc

/-- `woken` is the place of the call that a notification picks. -/
inductive Action (κ : Type*) where
  | run (c : κ) (woken : Nat)
  | wakeUp (c : κ)

variable {κ : Type*}

def Machine.new (value : Int) (op : κ → Op) : Machine κ := ⟨value, none, [], fun c => .first (op c)⟩

variable [DecidableEq κ]

namespace Machine

def goTo (s : Machine κ) (c : κ) (p : Pc) : Machine κ := { s with pc := Function.update s.pc c p }

@[simp] theorem goTo_counter (s : Machine κ) (c : κ) (p : Pc) : (s.goTo c p).counter = s.counter := rfl

@[simp] theorem goTo_waiting (s : Machine κ) (c : κ) (p : Pc) : (s.goTo c p).waiting = s.waiting := rfl

def rouse (s : Machine κ) (c : κ) : Machine κ := { s.goTo c .relock with waiting := s.waiting.erase c }

def step (s : Machine κ) : Action κ → Option (Machine κ)
  | .wakeUp c => if c ∈ s.waiting then some (s.rouse c) else none
  | .run c woken =>
    match s.pc c with
    | .lockRelease => if s.owner = none then some { s.goTo c .increment with owner := some c } else none
    | .increment => some { s.goTo c .test with counter := s.counter + 1 }
    | .test => some (s.goTo c (if s.counter ≤ 0 then .unlockReturn else .unlockNotify))
    | .unlockReturn => some { s.goTo c .released with owner := none }
    | .unlockNotify => some { s.goTo c .notifyOne with owner := none }
    | .notifyOne =>
      match s.waiting, s.waiting[woken]? with
      | [], _ => some (s.goTo c .released)
      | _ :: _, some d => some ((s.goTo c .released).rouse d)
      | _ :: _, none => none
    | .lockAcquire | .relock => if s.owner = none then some { s.goTo c .check with owner := some c } else none
    | .check => some (s.goTo c (if 0 < s.counter then .decrement else .wait))
    -- the mutex is given up and the call sleeps in one step
    | .wait => some { s.goTo c .asleep with owner := none, waiting := s.waiting ++ [c] }
    | .decrement => some { s.goTo c .unlockAcquire with counter := s.counter - 1 }
    | .unlockAcquire => some { s.goTo c .acquired with owner := none }
    | .asleep | .released | .acquired => none

def run (s : Machine κ) (actions : List (Action κ)) : Option (Machine κ) := actions.foldlM step s

end Machine

/-- What a step does, by what it does to the mutex, the counter and the sleeping calls. -/
inductive Moves (s : Machine κ) : Machine κ → Prop where
  | lock {c p} : (s.pc c).locking = some p → s.owner = none → Moves s { s.goTo c p with owner := some c }
  | unlock {c p} : (s.pc c).unlocking = some p → Moves s { s.goTo c p with owner := none }
  | increment {c} : s.pc c = .increment → Moves s { s.goTo c .test with counter := s.counter + 1 }
  | decrement {c} : s.pc c = .decrement → Moves s { s.goTo c .unlockAcquire with counter := s.counter - 1 }
  | test {c} : s.pc c = .test → Moves s (s.goTo c (if s.counter ≤ 0 then .unlockReturn else .unlockNotify))
  | check {c} : s.pc c = .check → Moves s (s.goTo c (if 0 < s.counter then .decrement else .wait))
  | sleep {c} : s.pc c = .wait → Moves s { s.goTo c .asleep with owner := none, waiting := s.waiting ++ [c] }
  | notifyNobody {c} : s.pc c = .notifyOne → s.waiting = [] → Moves s (s.goTo c .released)
  | notify {c d} : s.pc c = .notifyOne → d ∈ s.waiting → Moves s ((s.goTo c .released).rouse d)
  | wakeUp {d} : d ∈ s.waiting → Moves s (s.rouse d)

variable {s s' : Machine κ} {value : Int} {op : κ → Op}

theorem moves_of_step {a : Action κ} (h : s.step a = some s') : Moves s s' := by
  cases a with
  | wakeUp d =>
    simp only [Machine.step] at h
    split at h
    · next hd =>
      cases h
      exact .wakeUp hd
    · cases h
  | run c woken =>
    simp only [Machine.step] at h
    split at h
    case h_1 hp | h_7 hp | h_8 hp =>
      split at h
      · next ho =>
        cases h
        exact .lock (by rw [hp]; rfl) ho
      · cases h
    case h_4 hp | h_5 hp | h_12 hp =>
      cases h
      exact .unlock (by rw [hp]; rfl)
    case h_2 hp =>
      cases h
      exact .increment hp
    case h_3 hp =>
      cases h
      exact .test hp
    case h_6 hp =>
      split at h
      · next hw =>
        cases h
        exact .notifyNobody hp hw
      · next hd =>
        cases h
        exact .notify hp (List.mem_of_getElem? hd)
      · cases h
    case h_9 hp =>
      cases h
      exact .check hp
    case h_10 hp =>
      cases h
      exact .sleep hp
    case h_11 hp =>
      cases h
      exact .decrement hp
    all_goals cases h

/-- Who holds the mutex, who sleeps, and what a call inside has seen of the counter. -/
structure Guarded (s : Machine κ) : Prop where
  inside : ∀ c, (s.pc c).inside = true ↔ s.owner = some c
  asleep : ∀ c, s.pc c = .asleep ↔ c ∈ s.waiting
  nodup : s.waiting.Nodup
  decrement : ∀ c, s.pc c = .decrement → 0 < s.counter
  wait : ∀ c, s.pc c = .wait → s.counter ≤ 0

omit [DecidableEq κ] in
theorem Pc.first_spec (o : Op) : (first o).inside = false ∧ first o ≠ .asleep ∧ first o ≠ .decrement ∧
    first o ≠ .wait ∧ (first o).added = 0 ∧ (first o).hasReturned = false := by
  cases o <;> decide

omit [DecidableEq κ] in
theorem Guarded.new (value : Int) (op : κ → Op) : Guarded (Machine.new value op) := by
  have hfirst (c : κ) := Pc.first_spec (op c)
  refine ⟨fun c => ?_, fun c => ?_, List.nodup_nil, fun c hc => ?_, fun c hc => ?_⟩
  · simp [Machine.new, (hfirst c).1]
  · simpa [Machine.new] using (hfirst c).2.1
  · exact absurd hc (hfirst c).2.2.1
  · exact absurd hc (hfirst c).2.2.2.1

omit [DecidableEq κ] in
theorem Guarded.mutual_exclusion (h : Guarded s) {c d : κ} (hc : (s.pc c).inside = true)
    (hd : (s.pc d).inside = true) : c = d :=
  Option.some.inj (((h.inside c).mp hc).symm.trans ((h.inside d).mp hd))

/-- A step that moves one call, and the counter only while that call is inside. -/
theorem Guarded.goTo (h : Guarded s) {c : κ} {p : Pc} (hpc : s'.pc = Function.update s.pc c p)
    (hinside : p.inside = true ↔ s'.owner = some c) (hothers : ∀ d ≠ c, s'.owner = some d ↔ s.owner = some d)
    (hasleep : p = .asleep ↔ c ∈ s'.waiting) (hwaiting : ∀ d ≠ c, d ∈ s'.waiting ↔ d ∈ s.waiting)
    (hnodup : s'.waiting.Nodup) (hcounter : s'.counter = s.counter ∨ s.owner = some c)
    (hdecrement : p = .decrement → 0 < s'.counter) (hwait : p = .wait → s'.counter ≤ 0) : Guarded s' := by
  have hself : s'.pc c = p := by rw [hpc, Function.update_self]
  have hother (d : κ) (hd : d ≠ c) : s'.pc d = s.pc d := by rw [hpc, Function.update_of_ne hd]
  have hsame (d : κ) (hd : d ≠ c) (hin : (s.pc d).inside = true) : s'.counter = s.counter :=
    hcounter.resolve_right fun ho => hd (Option.some.inj (((h.inside d).mp hin).symm.trans ho))
  refine ⟨fun d => ?_, fun d => ?_, hnodup, fun d hd => ?_, fun d hd => ?_⟩
  · by_cases hdc : d = c
    · rw [hdc, hself, hinside]
    · rw [hother d hdc, h.inside d, hothers d hdc]
  · by_cases hdc : d = c
    · rw [hdc, hself, hasleep]
    · rw [hother d hdc, h.asleep d, hwaiting d hdc]
  · by_cases hdc : d = c
    · exact hdecrement (hself.symm.trans (hdc ▸ hd))
    · rw [hother d hdc] at hd
      rw [hsame d hdc (by rw [hd]; rfl)]
      exact h.decrement d hd
  · by_cases hdc : d = c
    · exact hwait (hself.symm.trans (hdc ▸ hd))
    · rw [hother d hdc] at hd
      rw [hsame d hdc (by rw [hd]; rfl)]
      exact h.wait d hd

theorem Guarded.rouse (h : Guarded s) {d : κ} (hd : d ∈ s.waiting) : Guarded (s.rouse d) := by
  have hp := (h.asleep d).mpr hd
  have hout : s.owner ≠ some d := fun ho => by
    have hin := (h.inside d).mpr ho
    rw [hp] at hin
    cases hin
  refine h.goTo (c := d) (p := .relock) rfl (iff_of_false (by decide) hout) (fun _ _ => Iff.rfl) ?_
    (fun e he => by simp [Machine.rouse, List.mem_erase_of_ne he]) (h.nodup.erase d) (.inl rfl) nofun nofun
  exact iff_of_false (by decide) h.nodup.not_mem_erase

/-- A call that is awake and goes on without touching the mutex. -/
theorem Guarded.stay (h : Guarded s) {c : κ} {p : Pc} (hpc : s'.pc = Function.update s.pc c p)
    (hfrom : s.pc c ≠ .asleep) (hto : p ≠ .asleep) (hinside : p.inside = (s.pc c).inside)
    (howner : s'.owner = s.owner) (hwaiting : s'.waiting = s.waiting)
    (hcounter : s'.counter = s.counter ∨ (s.pc c).inside = true) (hdecrement : p = .decrement → 0 < s'.counter)
    (hwait : p = .wait → s'.counter ≤ 0) : Guarded s' := by
  refine h.goTo hpc (by rw [hinside, howner, h.inside c]) (fun d _ => by rw [howner]) ?_
    (fun d _ => by rw [hwaiting]) (hwaiting ▸ h.nodup) (hcounter.imp_right (h.inside c).mp) hdecrement hwait
  rw [hwaiting, ← h.asleep c]
  exact iff_of_false hto hfrom

omit [DecidableEq κ] in
theorem Pc.locking_spec {p q : Pc} (h : p.locking = some q) :
    p.inside = false ∧ p ≠ .asleep ∧ q.inside = true ∧ q ≠ .asleep ∧ q ≠ .decrement ∧ q ≠ .wait := by
  cases p <;> cases h <;> decide

omit [DecidableEq κ] in
theorem Pc.unlocking_spec {p q : Pc} (h : p.unlocking = some q) :
    p.inside = true ∧ p ≠ .asleep ∧ q.inside = false ∧ q ≠ .asleep ∧ q ≠ .decrement ∧ q ≠ .wait := by
  cases p <;> cases h <;> decide

theorem Guarded.moves (h : Guarded s) (hm : Moves s s') : Guarded s' := by
  cases hm with
  | @lock c p hp hfree =>
    obtain ⟨-, hfrom, hin, hto, hdec, hwait⟩ := Pc.locking_spec hp
    have hsleep : p = .asleep ↔ c ∈ s.waiting := iff_of_false hto fun hc => hfrom ((h.asleep c).mpr hc)
    refine h.goTo (c := c) (p := p) rfl (by simp [hin]) (fun d hd => ?_) hsleep (fun _ _ => Iff.rfl) h.nodup
      (.inl rfl) (fun e => absurd e hdec) fun e => absurd e hwait
    simp [hfree, Ne.symm hd]
  | @unlock c p hp =>
    obtain ⟨hin, hfrom, hout, hto, hdec, hwait⟩ := Pc.unlocking_spec hp
    have hsleep : p = .asleep ↔ c ∈ s.waiting := iff_of_false hto fun hc => hfrom ((h.asleep c).mpr hc)
    refine h.goTo (c := c) (p := p) rfl (by simp [hout]) (fun d hd => ?_) hsleep (fun _ _ => Iff.rfl) h.nodup
      (.inl rfl) (fun e => absurd e hdec) fun e => absurd e hwait
    simp [(h.inside c).mp hin, Ne.symm hd]
  | @increment c hp =>
    exact h.stay (c := c) rfl (by simp [hp]) (by simp) (by rw [hp]; rfl) rfl rfl (.inr (by rw [hp]; rfl)) nofun nofun
  | @decrement c hp =>
    exact h.stay (c := c) rfl (by simp [hp]) (by simp) (by rw [hp]; rfl) rfl rfl (.inr (by rw [hp]; rfl)) nofun nofun
  | @test c hp =>
    refine h.stay (c := c) rfl (by simp [hp]) ?_ ?_ rfl rfl (.inl rfl) ?_ ?_ <;> split <;> simp [hp, Pc.inside]
  | @check c hp =>
    refine h.stay (c := c) rfl (by simp [hp]) ?_ ?_ rfl rfl (.inl rfl) ?_ ?_ <;> split <;> rename_i hc <;>
      simp_all [Pc.inside, Machine.goTo]
  | @sleep c hp =>
    have howner := (h.inside c).mp (by rw [hp]; rfl)
    have hout : c ∉ s.waiting := fun hc => by
      have hs := (h.asleep c).mpr hc
      rw [hp] at hs
      cases hs
    refine h.goTo (c := c) (p := .asleep) rfl (by simp [Pc.inside]) (fun d hd => by simp [howner, Ne.symm hd])
      (by simp) (fun d hd => by simp [hd]) ?_ (.inl rfl) nofun nofun
    exact List.nodup_append.mpr ⟨h.nodup, List.nodup_singleton c, fun a ha b hb => by
      rw [List.mem_singleton.mp hb]
      rintro rfl
      exact hout ha⟩
  | @notifyNobody c hp =>
    exact h.stay (c := c) rfl (by simp [hp]) (by simp) (by rw [hp]; rfl) rfl rfl (.inl rfl) nofun nofun
  | @notify c d hp hd =>
    have hg : Guarded (s.goTo c .released) :=
      h.stay (c := c) rfl (by simp [hp]) (by simp) (by rw [hp]; rfl) rfl rfl (.inl rfl) nofun nofun
    exact hg.rouse hd
  | wakeUp hd => exact h.rouse hd

section

variable [Fintype κ]

def Machine.total (g : Pc → Int) (s : Machine κ) : Int := ∑ c, g (s.pc c)

theorem total_goTo (g : Pc → Int) {c : κ} {p : Pc} (hpc : s'.pc = Function.update s.pc c p) :
    s'.total g + g (s.pc c) = s.total g + g p := by
  have hs := Finset.add_sum_erase Finset.univ (fun d => g (s.pc d)) (Finset.mem_univ c)
  have hs' := Finset.add_sum_erase Finset.univ (fun d => g (s'.pc d)) (Finset.mem_univ c)
  have hrest : ∑ d ∈ Finset.univ.erase c, g (s'.pc d) = ∑ d ∈ Finset.univ.erase c, g (s.pc d) :=
    Finset.sum_congr rfl fun d hd => by rw [hpc, Function.update_of_ne (Finset.ne_of_mem_erase hd)]
  have hself : s'.pc c = p := by rw [hpc, Function.update_self]
  rw [hrest, hself] at hs'
  simp only [Machine.total]
  omega

/-- The counter is what the calls have made of its first value, and while calls sleep there is
an awake call for each unit of it. -/
structure Counted (value : Int) (s : Machine κ) : Prop where
  balance : s.counter = value + s.total Pc.added
  awake : s.waiting ≠ [] → s.counter ≤ s.total Pc.awake

omit [DecidableEq κ] in
theorem Counted.new (value : Int) (op : κ → Op) : Counted value (Machine.new value op) := by
  refine ⟨?_, fun h => absurd rfl h⟩
  have hzero : (Machine.new value op).total Pc.added = 0 :=
    Finset.sum_eq_zero fun c _ => (Pc.first_spec (op c)).2.2.2.2.1
  rw [hzero, add_zero]
  rfl

omit [DecidableEq κ] in
theorem total_awake_nonneg (s : Machine κ) : 0 ≤ s.total Pc.awake :=
  Finset.sum_nonneg fun c _ => by cases s.pc c <;> decide

theorem Counted.goTo (h : Counted value s) {c : κ} {p : Pc} (hpc : s'.pc = Function.update s.pc c p)
    (hadded : s'.counter + (s.pc c).added = s.counter + p.added) (hwaiting : s'.waiting = s.waiting)
    (hawake : s'.counter ≤ 0 ∨ s.waiting = [] ∨ s'.counter + (s.pc c).awake ≤ s.counter + p.awake) :
    Counted value s' := by
  have hb := total_goTo Pc.added hpc
  have ha := total_goTo Pc.awake hpc
  have hbalance := h.balance
  refine ⟨by omega, fun hw => ?_⟩
  rw [hwaiting] at hw
  have hle := h.awake hw
  have hpos := total_awake_nonneg s'
  rcases hawake with hz | hnil | hle'
  · omega
  · exact absurd hnil hw
  · omega

theorem Counted.rouse (hbalance : s.counter = value + s.total Pc.added) {d : κ} (hd : s.pc d = .asleep)
    (hroom : s.waiting ≠ [] → s.counter ≤ s.total Pc.awake + 1) : Counted value (s.rouse d) := by
  have hpc : (s.rouse d).pc = Function.update s.pc d .relock := rfl
  have hb := total_goTo Pc.added hpc
  have ha := total_goTo Pc.awake hpc
  rw [hd] at hb ha
  simp only [Pc.added, Pc.awake] at hb ha
  refine ⟨?_, fun hw => ?_⟩
  · rw [show (s.rouse d).counter = s.counter from rfl]
    omega
  · have hw' : s.waiting ≠ [] := fun hnil => hw (by simp [Machine.rouse, hnil])
    have hle := hroom hw'
    rw [show (s.rouse d).counter = s.counter from rfl]
    omega

omit [DecidableEq κ] in
theorem Pc.locking_counts {p q : Pc} (h : p.locking = some q) : p.added = q.added ∧ p.awake ≤ q.awake := by
  cases p <;> cases h <;> decide

omit [DecidableEq κ] in
theorem Pc.unlocking_counts {p q : Pc} (h : p.unlocking = some q) : p.added = q.added ∧ p.awake = q.awake := by
  cases p <;> cases h <;> decide

theorem Counted.moves (h : Counted value s) (hg : Guarded s) (hm : Moves s s') : Counted value s' := by
  cases hm with
  | @lock c p hp hfree =>
    obtain ⟨hadded, hawake⟩ := Pc.locking_counts hp
    exact h.goTo (c := c) (p := p) rfl (by simp [hadded]) rfl (.inr (.inr (by simpa using hawake)))
  | @unlock c p hp =>
    obtain ⟨hadded, hawake⟩ := Pc.unlocking_counts hp
    exact h.goTo (c := c) (p := p) rfl (by simp [hadded]) rfl (.inr (.inr (by simp [hawake])))
  | @increment c hp =>
    exact h.goTo (c := c) (p := .test) rfl (by simp [hp, Pc.added]) rfl (.inr (.inr (by simp [hp, Pc.awake])))
  | @decrement c hp =>
    exact h.goTo (c := c) (p := .unlockAcquire) rfl (by simp [hp, Pc.added, sub_eq_add_neg]) rfl
      (.inr (.inr (by simp [hp, Pc.awake])))
  | @test c hp =>
    by_cases hc : s.counter ≤ 0
    · exact h.goTo (c := c) rfl (by simp [hp, hc, Pc.added]) rfl (.inl hc)
    · exact h.goTo (c := c) rfl (by simp [hp, hc, Pc.added]) rfl
        (.inr (.inr (by simp [hp, hc, Pc.awake])))
  | @check c hp =>
    by_cases hc : 0 < s.counter
    · exact h.goTo (c := c) rfl (by simp [hp, hc, Pc.added]) rfl
        (.inr (.inr (by simp [hp, hc, Pc.awake])))
    · exact h.goTo (c := c) rfl (by simp [hp, hc, Pc.added]) rfl (.inl (not_lt.mp hc))
  | @sleep c hp =>
    have hpc : ({ s.goTo c .asleep with owner := none, waiting := s.waiting ++ [c] } : Machine κ).pc =
      Function.update s.pc c .asleep := rfl
    have hb := total_goTo Pc.added hpc
    rw [hp] at hb
    have hbalance := h.balance
    refine ⟨?_, fun _ => (hg.wait c hp).trans (total_awake_nonneg _)⟩
    simp only [Pc.added] at hb
    simp only [Machine.goTo] at hb ⊢
    omega
  | @notifyNobody c hp hw =>
    exact h.goTo (c := c) (p := .released) rfl (by simp [hp, Pc.added]) rfl (.inr (.inl hw))
  | @notify c d hp hd =>
    have hpc : (s.goTo c .released).pc = Function.update s.pc c .released := rfl
    have hb := total_goTo Pc.added hpc
    have ha := total_goTo Pc.awake hpc
    have hbalance := h.balance
    rw [hp] at hb ha
    simp only [Pc.added, Pc.awake] at hb ha
    have hcounter : (s.goTo c .released).counter = s.counter := rfl
    have hne : d ≠ c := fun he => by
      have hs := (hg.asleep d).mpr hd
      rw [he, hp] at hs
      cases hs
    refine Counted.rouse (by omega) (by rw [hpc, Function.update_of_ne hne, (hg.asleep d).mpr hd]) fun hw => ?_
    have hle := h.awake hw
    omega
  | @wakeUp d hd =>
    exact Counted.rouse h.balance ((hg.asleep d).mpr hd) fun hw => (h.awake hw).trans (by omega)

end

/-- One permit more, or one less where there is one: what a call does to a plain counter. -/
def count (op : κ → Op) (permits : Int) (c : κ) : Option Int :=
  match op c with
  | .release => some (permits + 1)
  | .acquire => if 0 < permits then some (permits - 1) else none

/-- `history` are the calls that have changed the counter, in the order in which they did. -/
structure Linearized (value : Int) (op : κ → Op) (s : Machine κ) (history : List κ) : Prop where
  ops : ∀ c, (s.pc c).called = op c
  nodup : history.Nodup
  done : ∀ c, c ∈ history ↔ (s.pc c).added ≠ 0
  counts : history.foldlM (count op) value = some s.counter

omit [DecidableEq κ] in
theorem Linearized.new (value : Int) (op : κ → Op) : Linearized value op (Machine.new value op) [] := by
  refine ⟨fun c => ?_, List.nodup_nil, fun c => ?_, rfl⟩
  · cases hc : op c <;> simp [Machine.new, hc, Pc.first, Pc.called]
  · simp [Machine.new, (Pc.first_spec (op c)).2.2.2.2.1]

/-- A step that counts nothing. -/
theorem Linearized.stay {history : List κ} (h : Linearized value op s history) {c : κ} {p : Pc}
    (hpc : s'.pc = Function.update s.pc c p) (hop : p.called = (s.pc c).called) (hadded : p.added = (s.pc c).added)
    (hcounter : s'.counter = s.counter) : Linearized value op s' history := by
  have hboth (d : κ) : (s'.pc d).called = (s.pc d).called ∧ (s'.pc d).added = (s.pc d).added := by
    by_cases hd : d = c
    · rw [hpc, hd, Function.update_self]
      exact ⟨hop, hadded⟩
    · rw [hpc, Function.update_of_ne hd]
      exact ⟨rfl, rfl⟩
  exact ⟨fun d => (hboth d).1.trans (h.ops d), h.nodup, fun d => by rw [h.done d, (hboth d).2],
    hcounter ▸ h.counts⟩

theorem Linearized.count {history : List κ} (h : Linearized value op s history) {c : κ} {p : Pc}
    (hpc : s'.pc = Function.update s.pc c p) (hop : p.called = (s.pc c).called) (hbefore : (s.pc c).added = 0)
    (hafter : p.added ≠ 0) (hcount : count op s.counter c = some s'.counter) :
    Linearized value op s' (history ++ [c]) := by
  have hself : s'.pc c = p := by rw [hpc, Function.update_self]
  have hother (d : κ) (hd : d ≠ c) : s'.pc d = s.pc d := by rw [hpc, Function.update_of_ne hd]
  have hout : c ∉ history := fun hc => (h.done c).mp hc hbefore
  refine ⟨fun d => ?_, ?_, fun d => ?_, ?_⟩
  · by_cases hd : d = c
    · rw [hd, hself, hop, h.ops c]
    · rw [hother d hd, h.ops d]
  · exact List.nodup_append.mpr ⟨h.nodup, List.nodup_singleton c, fun a ha b hb => by
      rw [List.mem_singleton.mp hb]
      rintro rfl
      exact hout ha⟩
  · by_cases hd : d = c
    · simp [hd, hself, hafter]
    · simp [hd, hother d hd, h.done d]
  · rw [List.foldlM_append, h.counts]
    simpa using hcount

omit [DecidableEq κ] in
theorem Pc.locking_op {p q : Pc} (h : p.locking = some q) : q.called = p.called := by
  cases p <;> cases h <;> rfl

omit [DecidableEq κ] in
theorem Pc.unlocking_op {p q : Pc} (h : p.unlocking = some q) : q.called = p.called := by
  cases p <;> cases h <;> rfl

theorem Linearized.moves {history : List κ} (h : Linearized value op s history) (hg : Guarded s)
    (hm : Moves s s') : ∃ later, Linearized value op s' (history ++ later) := by
  have hrouse {t : Machine κ} (ht : Linearized value op t history) {d : κ} (hd : t.pc d = .asleep) :
      Linearized value op (t.rouse d) history :=
    ht.stay (c := d) rfl (by rw [hd]; rfl) (by rw [hd]; rfl) rfl
  have stays {t : Machine κ} (ht : Linearized value op t history) :
      ∃ later, Linearized value op t (history ++ later) := ⟨[], by simpa using ht⟩
  cases hm with
  | @lock c p hp hfree =>
    exact stays (h.stay (c := c) rfl (Pc.locking_op hp) (Pc.locking_counts hp).1.symm rfl)
  | @unlock c p hp =>
    exact stays (h.stay (c := c) rfl (Pc.unlocking_op hp) (Pc.unlocking_counts hp).1.symm rfl)
  | @increment c hp =>
    have hrelease : op c = .release := by rw [← h.ops c, hp]; rfl
    exact ⟨[c], h.count (c := c) rfl (by rw [hp]; rfl) (by rw [hp]; rfl) (by decide)
      (by simp [Semaphore.count, hrelease])⟩
  | @decrement c hp =>
    have hacquire : op c = .acquire := by rw [← h.ops c, hp]; rfl
    exact ⟨[c], h.count (c := c) rfl (by rw [hp]; rfl) (by rw [hp]; rfl) (by decide)
      (by simp [Semaphore.count, hacquire, hg.decrement c hp])⟩
  | @test c hp =>
    exact stays (h.stay (c := c) rfl (by split <;> rw [hp] <;> rfl) (by split <;> rw [hp] <;> rfl) rfl)
  | @check c hp =>
    exact stays (h.stay (c := c) rfl (by split <;> rw [hp] <;> rfl) (by split <;> rw [hp] <;> rfl) rfl)
  | @sleep c hp =>
    exact stays (h.stay (c := c) rfl (by rw [hp]; rfl) (by rw [hp]; rfl) rfl)
  | @notifyNobody c hp hw =>
    exact stays (h.stay (c := c) rfl (by rw [hp]; rfl) (by rw [hp]; rfl) rfl)
  | @notify c d hp hd =>
    have hasleep := (hg.asleep d).mpr hd
    have hne : d ≠ c := fun he => by
      rw [he, hp] at hasleep
      cases hasleep
    have hgone : (s.goTo c .released).pc d = .asleep := by
      rw [← hasleep]
      exact Function.update_of_ne hne _ _
    have hreleased : Linearized value op (s.goTo c .released) history :=
      h.stay (c := c) rfl (by rw [hp]; rfl) (by rw [hp]; rfl) rfl
    exact stays (hrouse hreleased hgone)
  | @wakeUp d hd => exact stays (hrouse h ((hg.asleep d).mpr hd))

theorem Guarded.run (h : Guarded s) {actions : List (Action κ)} (hs : s.run actions = some s') : Guarded s' := by
  induction actions generalizing s with
  | nil =>
    obtain rfl := Option.some.inj hs
    exact h
  | cons a actions ih =>
    obtain ⟨u, hu, hrest⟩ := Option.bind_eq_some_iff.mp ((List.foldlM_cons ..).symm.trans hs)
    exact ih (h.moves (moves_of_step hu)) hrest

theorem Counted.run [Fintype κ] (h : Counted value s) (hg : Guarded s) {actions : List (Action κ)}
    (hs : s.run actions = some s') : Counted value s' := by
  induction actions generalizing s with
  | nil =>
    obtain rfl := Option.some.inj hs
    exact h
  | cons a actions ih =>
    obtain ⟨u, hu, hrest⟩ := Option.bind_eq_some_iff.mp ((List.foldlM_cons ..).symm.trans hs)
    exact ih (h.moves hg (moves_of_step hu)) (hg.moves (moves_of_step hu)) hrest

theorem Linearized.run {history : List κ} (h : Linearized value op s history) (hg : Guarded s)
    {actions : List (Action κ)} (hs : s.run actions = some s') :
    ∃ later, Linearized value op s' (history ++ later) := by
  induction actions generalizing s history with
  | nil =>
    obtain rfl := Option.some.inj hs
    exact ⟨[], by simpa using h⟩
  | cons a actions ih =>
    obtain ⟨u, hu, hrest⟩ := Option.bind_eq_some_iff.mp ((List.foldlM_cons ..).symm.trans hs)
    obtain ⟨l, hl⟩ := h.moves hg (moves_of_step hu)
    obtain ⟨l', hl'⟩ := ih hl (hg.moves (moves_of_step hu)) hrest
    exact ⟨l ++ l', by rwa [← List.append_assoc]⟩

/-- The calls take effect one after the other on a plain counter that is never taken below zero
by an `acquire`: a call that has returned has had its effect, one that has not begun has not,
and what has had its effect before a later part of the run stays before it. -/
theorem acts_as_counter {before after : List (Action κ)} (hs : (Machine.new value op).run before = some s)
    (hs' : s.run after = some s') :
    ∃ history later : List κ, (history ++ later).Nodup ∧
      history.foldlM (count op) value = some s.counter ∧ later.foldlM (count op) s.counter = some s'.counter ∧
      (∀ c, (s.pc c).hasReturned = true → c ∈ history) ∧ (∀ c, s.pc c = .first (op c) → c ∉ history) ∧
      ∀ c, (s'.pc c).hasReturned = true → c ∈ history ++ later := by
  have hg := (Guarded.new value op).run hs
  obtain ⟨history, hh⟩ := (Linearized.new value op).run (Guarded.new value op) hs
  rw [List.nil_append] at hh
  obtain ⟨later, hl⟩ := hh.run hg hs'
  have hreturned {p : Pc} (hp : p.hasReturned = true) : p.added ≠ 0 := by
    cases p <;> simp [Pc.hasReturned, Pc.added] at hp ⊢
  refine ⟨history, later, hl.nodup, hh.counts, ?_, fun c hc => (hh.done c).mpr (hreturned hc), fun c hc hm => ?_,
    fun c hc => (hl.done c).mpr (hreturned hc)⟩
  · have hcounts := hl.counts
    rw [List.foldlM_append, hh.counts] at hcounts
    simpa using hcounts
  · apply (hh.done c).mp hm
    rw [hc]
    exact (Pc.first_spec (op c)).2.2.2.2.1

def handover : Bool → Op
  | true => .release
  | false => .acquire

/-- One call sleeps until it is notified and takes the permit that another has given. -/
theorem acts_as_counter_handover :
    ∃ s s' : Machine Bool, s.pc false = .asleep ∧ (∀ c, (s'.pc c).hasReturned = true) ∧
      ∃ history later : List Bool, (history ++ later).Nodup ∧
        history.foldlM (count handover) 0 = some s.counter ∧
        later.foldlM (count handover) s.counter = some s'.counter ∧
        (∀ c, (s.pc c).hasReturned = true → c ∈ history) ∧ (∀ c, s.pc c = .first (handover c) → c ∉ history) ∧
        ∀ c, (s'.pc c).hasReturned = true → c ∈ history ++ later :=
  ⟨_, _, rfl, by simp only [Bool.forall_bool]; exact ⟨rfl, rfl⟩, @acts_as_counter Bool _ _ _ 0 handover
    [.run false 0, .run false 0, .run false 0, .run true 0, .run true 0]
    [.run true 0, .run true 0, .run true 0, .run false 0, .run false 0, .run false 0, .run false 0] rfl rfl⟩

/-- No call can go on by itself. -/
def Machine.Stuck (s : Machine κ) : Prop := ∀ c woken, s.step (.run c woken) = none

theorem Guarded.of_stuck (h : Guarded s) (hs : s.Stuck) (c : κ) :
    (s.pc c).hasReturned = true ∨ s.pc c = .asleep := by
  have hfree : s.owner = none := by
    cases ho : s.owner with
    | none => rfl
    | some d =>
      have hin := (h.inside d).mpr ho
      have hnone := hs d 0
      cases hp : s.pc d <;> simp [Machine.step, hp, Pc.inside] at hin hnone
  have hout : (s.pc c).inside = false := Bool.eq_false_iff.mpr fun hin => by
    simpa [hfree] using (h.inside c).mp hin
  have hnone := hs c 0
  cases hp : s.pc c
  case notifyOne =>
    cases hw : s.waiting <;> simp [Machine.step, hp, hw] at hnone
  all_goals simp [Machine.step, hp, hfree, Pc.inside, Pc.hasReturned] at hout hnone ⊢

/-- No notification is lost: when nothing goes on by itself each call has returned or sleeps, and
calls sleep only when no permit is left. -/
theorem no_lost_wakeup [Fintype κ] {actions : List (Action κ)} (hs : (Machine.new value op).run actions = some s)
    (hstuck : s.Stuck) :
    (∀ c, (s.pc c).hasReturned = true ∨ s.pc c = .asleep) ∧ s.counter = value + s.total Pc.added ∧
      ((∃ c, s.pc c = .asleep) → s.counter ≤ 0) := by
  have hg := (Guarded.new value op).run hs
  have hc := (Counted.new value op).run (Guarded.new value op) hs
  refine ⟨hg.of_stuck hstuck, hc.balance, fun ⟨c, hasleep⟩ => ?_⟩
  have hw : s.waiting ≠ [] := List.ne_nil_of_mem ((hg.asleep c).mp hasleep)
  have hzero : s.total Pc.awake = 0 := Finset.sum_eq_zero fun d _ => by
    rcases hg.of_stuck hstuck d with hd | hd
    · cases hp : s.pc d <;> simp [hp, Pc.hasReturned, Pc.awake] at hd ⊢
    · rw [hd]
      rfl
  exact hzero ▸ hc.awake hw

/-- Two calls for one permit: the second sleeps. -/
theorem second_acquire_sleeps :
    ∃ s : Machine Bool, (∀ c, (s.pc c).hasReturned = true ∨ s.pc c = .asleep) ∧
      s.counter = 1 + s.total Pc.added ∧ s.pc true = .asleep ∧ s.counter ≤ 0 := by
  obtain ⟨s, hs, hasleep, hstuck⟩ : ∃ s : Machine Bool, (Machine.new 1 fun _ => .acquire).run [.run false 0,
      .run false 0, .run false 0, .run false 0, .run true 0, .run true 0, .run true 0] = some s ∧
      s.pc true = .asleep ∧ s.Stuck :=
    ⟨_, rfl, rfl, fun c _ => by cases c <;> rfl⟩
  obtain ⟨hended, hbalance, hempty⟩ := no_lost_wakeup hs hstuck
  exact ⟨s, hended, hbalance, hasleep, hempty ⟨_, hasleep⟩⟩

end Hecuba.Semaphore
