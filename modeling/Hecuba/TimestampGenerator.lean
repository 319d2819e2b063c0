import Hecuba.WriteProtocol

/-! `TimestampGenerator::next`, called by any number of threads on one generator. A step of the
machine runs one statement of one call; `clock c` is what the call `c` reads from the clock. -/

namespace Hecuba.TimestampGenerator

/-- The value that a call stores. The sum is a 64-bit one. -/
def advance (last now : Int64) : Int64 := if now ≤ last then last + 1 else now

theorem toInt_advance {last : Int64} (now : Int64) (h : last.toInt + 1 < 2 ^ 63) :
    (advance last now).toInt = nextStamp last.toInt now.toInt := by
  have hlow := last.le_toInt
  simp only [advance, nextStamp, Int64.le_iff_toInt_le]
  split
  · rw [Int64.toInt_add, Int64.toInt_one, Int.bmod_eq_of_le (by omega) (by omega)]
  · rfl

/-- The statement a call runs next, with its local variable. -/
inductive Pc where
  | readClock
  | lock (now : Int64)
  | compare (now : Int64)
  | store (now : Int64)
  | unlock
  | ret
  | returned (value : Int64)
  deriving DecidableEq

def Pc.inside : Pc → Bool
  | .compare _ | .store _ | .unlock => true
  | .readClock | .lock _ | .ret | .returned _ => false

structure Machine (κ : Type*) where
  last : Int64
  owner : Option κ
  pc : κ → Pc

/-- `new TimestampGenerator()` clears the field. -/
def Machine.fresh (κ : Type*) : Machine κ := ⟨0, none, fun _ => .readClock⟩

section

variable {κ : Type*} {clock : κ → Int64} {s : Machine κ}

/-- Who holds the mutex, and what the local variables hold. -/
structure Guarded (clock : κ → Int64) (s : Machine κ) : Prop where
  inside : ∀ c, (s.pc c).inside = true ↔ s.owner = some c
  lock : ∀ c now, s.pc c = .lock now → now = clock c
  compare : ∀ c now, s.pc c = .compare now → now = clock c
  store : ∀ c now, s.pc c = .store now → now = advance s.last (clock c)

theorem Guarded.fresh : Guarded clock (Machine.fresh κ) := by
  constructor <;> simp [Machine.fresh, Pc.inside]

theorem Guarded.mutual_exclusion (h : Guarded clock s) {c d : κ} (hc : (s.pc c).inside = true)
    (hd : (s.pc d).inside = true) : c = d :=
  Option.some.inj (((h.inside c).mp hc).symm.trans ((h.inside d).mp hd))

end

section

variable {κ : Type*} [DecidableEq κ] (clock : κ → Int64)

def Machine.step (s : Machine κ) (c : κ) : Option (Machine κ) :=
  match s.pc c with
  | .readClock => some { s with pc := Function.update s.pc c (.lock (clock c)) }
  | .lock now =>
    if s.owner = none then some ⟨s.last, some c, Function.update s.pc c (.compare now)⟩ else none
  | .compare now => some { s with pc := Function.update s.pc c (.store (advance s.last now)) }
  | .store now => some ⟨now, s.owner, Function.update s.pc c .unlock⟩
  | .unlock => some ⟨s.last, none, Function.update s.pc c .ret⟩
  -- the mutex is free again: the value is that of the latest store
  | .ret => some { s with pc := Function.update s.pc c (.returned s.last) }
  | .returned _ => none

def Machine.run (s : Machine κ) (schedule : List κ) : Option (Machine κ) :=
  schedule.foldlM (Machine.step clock) s

variable {clock} {s s' : Machine κ} {c : κ}

theorem Machine.step_cases (h : s.step clock c = some s') :
    (s.pc c = .readClock ∧ s' = ⟨s.last, s.owner, Function.update s.pc c (.lock (clock c))⟩) ∨
    (∃ now, s.pc c = .lock now ∧ s.owner = none ∧
      s' = ⟨s.last, some c, Function.update s.pc c (.compare now)⟩) ∨
    (∃ now, s.pc c = .compare now ∧
      s' = ⟨s.last, s.owner, Function.update s.pc c (.store (advance s.last now))⟩) ∨
    (∃ now, s.pc c = .store now ∧ s' = ⟨now, s.owner, Function.update s.pc c .unlock⟩) ∨
    (s.pc c = .unlock ∧ s' = ⟨s.last, none, Function.update s.pc c .ret⟩) ∨
    (s.pc c = .ret ∧ s' = ⟨s.last, s.owner, Function.update s.pc c (.returned s.last)⟩) := by
  cases hp : s.pc c with
  | readClock => simpa [step, hp, eq_comm] using h
  | lock now =>
    simp only [step, hp] at h
    split at h
    · next ho => exact .inr (.inl ⟨now, rfl, ho, (Option.some.inj h).symm⟩)
    · cases h
  | compare now => simpa [step, hp, eq_comm] using h
  | store now => simpa [step, hp, eq_comm] using h
  | unlock => simpa [step, hp, eq_comm] using h
  | ret => simpa [step, hp, eq_comm] using h
  | returned value => simp [step, hp] at h

/-- A step changes one call, and the field `last` only while no other call is inside. -/
theorem Guarded.move (h : Guarded clock s) {p : Pc} (hpc : s'.pc = Function.update s.pc c p)
    (hinside : p.inside = true ↔ s'.owner = some c)
    (hothers : ∀ d ≠ c, s'.owner = some d ↔ s.owner = some d)
    (hlast : s'.last = s.last ∨ s.owner = some c)
    (hlock : ∀ now, p = .lock now → now = clock c) (hcompare : ∀ now, p = .compare now → now = clock c)
    (hstore : ∀ now, p = .store now → now = advance s'.last (clock c)) : Guarded clock s' := by
  have hother (d : κ) (hd : d ≠ c) : s'.pc d = s.pc d := by rw [hpc, Function.update_of_ne hd]
  have hself : s'.pc c = p := by rw [hpc, Function.update_self]
  refine ⟨fun d => ?_, fun d now hd => ?_, fun d now hd => ?_, fun d now hd => ?_⟩
  · by_cases hdc : d = c
    · rw [hdc, hself, hinside]
    · rw [hother d hdc, h.inside d, hothers d hdc]
  · by_cases hdc : d = c
    · rw [hdc]
      exact hlock now (hself.symm.trans (hdc ▸ hd))
    · exact h.lock d now ((hother d hdc).symm.trans hd)
  · by_cases hdc : d = c
    · rw [hdc]
      exact hcompare now (hself.symm.trans (hdc ▸ hd))
    · exact h.compare d now ((hother d hdc).symm.trans hd)
  · by_cases hdc : d = c
    · rw [hdc]
      exact hstore now (hself.symm.trans (hdc ▸ hd))
    · rw [hother d hdc] at hd
      have howner : s.owner = some d := (h.inside d).mp (by rw [hd]; rfl)
      rcases hlast with hlast | hlast
      · rw [hlast]
        exact h.store d now hd
      · exact absurd (Option.some.inj (howner.symm.trans hlast)) hdc

theorem Guarded.step (h : Guarded clock s) (hs : s.step clock c = some s') : Guarded clock s' := by
  have hc := h.inside c
  rcases Machine.step_cases hs with ⟨hp, rfl⟩ | ⟨now, hp, ho, rfl⟩ | ⟨now, hp, rfl⟩ | ⟨now, hp, rfl⟩ |
    ⟨hp, rfl⟩ | ⟨hp, rfl⟩
  all_goals simp only [hp, Pc.inside, true_iff, Bool.false_eq_true, false_iff] at hc
  · exact h.move rfl (by simpa [Pc.inside] using hc) (fun _ _ => Iff.rfl) (.inl rfl) (by simp) (by simp) (by simp)
  · have hnow := h.lock c now hp
    refine h.move rfl (by simp [Pc.inside]) (fun d hd => ?_) (.inl rfl) (by simp) (by simp [hnow]) (by simp)
    simp [ho, hd.symm]
  · have hnow := h.compare c now hp
    exact h.move rfl (by simpa [Pc.inside] using hc) (fun _ _ => Iff.rfl) (.inl rfl) (by simp) (by simp)
      (by simp [hnow])
  · exact h.move rfl (by simpa [Pc.inside] using hc) (fun _ _ => Iff.rfl) (.inr hc) (by simp) (by simp) (by simp)
  · refine h.move rfl (by simp [Pc.inside]) (fun d hd => ?_) (.inl rfl) (by simp) (by simp) (by simp)
    simp [hc, hd.symm]
  · exact h.move rfl (by simpa [Pc.inside] using hc) (fun _ _ => Iff.rfl) (.inl rfl) (by simp) (by simp) (by simp)

end

end Hecuba.TimestampGenerator
