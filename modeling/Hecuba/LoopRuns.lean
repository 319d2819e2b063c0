import Mathlib.Data.List.Forall2
import Mathlib.Tactic.Common

/-! The loop `while (!isDone()) step()` over an object with state: the answers of its steps,
when there are finitely many. -/

namespace Hecuba

variable {G A : Type*} {isDone : G → Bool} {step : G → A × G}

/-- The loop from `g` ends, and its steps answer `answers`. -/
inductive LoopRun (isDone : G → Bool) (step : G → A × G) : G → List A → Prop
  | stop {g : G} (h : isDone g = true) : LoopRun isDone step g []
  | next {g : G} {answers : List A} (h : isDone g = false) (rest : LoopRun isDone step (step g).2 answers) :
      LoopRun isDone step g ((step g).1 :: answers)

def Ends (isDone : G → Bool) (step : G → A × G) (g : G) : Prop := ∃ answers, LoopRun isDone step g answers

theorem LoopRun.unique {g : G} {answers answers' : List A} (h : LoopRun isDone step g answers)
    (h' : LoopRun isDone step g answers') : answers = answers' := by
  induction h generalizing answers' with
  | stop hdone =>
    cases h' with
    | stop => rfl
    | next hnot => exact absurd (hdone.symm.trans hnot) (by simp)
  | next hnot _ ih =>
    cases h' with
    | stop hdone => exact absurd (hdone.symm.trans hnot) (by simp)
    | next _ hrest => rw [ih hrest]

theorem loopRun_length_iff {g : G} {answers : List A} (h : LoopRun isDone step g answers) {n : Nat} :
    (∃ answers, LoopRun isDone step g answers ∧ answers.length = n) ↔ answers.length = n := by
  refine ⟨?_, fun hn => ⟨answers, h, hn⟩⟩
  rintro ⟨answers', h', hn⟩
  rwa [h.unique h']

/-- A state that no step leaves and in which the loop does not stop. -/
theorem not_ends_of_invariant {P : G → Prop} (hP : ∀ g, P g → isDone g = false ∧ P (step g).2) {g : G} (hg : P g) :
    ¬ Ends isDone step g := by
  rintro ⟨answers, h⟩
  induction h with
  | stop hdone => exact absurd (hdone.symm.trans (hP _ hg).1) (by simp)
  | next _ _ ih => exact ih (hP _ hg).2

theorem ends_of_measure (size : G → Nat) (hsize : ∀ g, isDone g = false → size (step g).2 < size g) (g : G) :
    Ends isDone step g := by
  induction hn : size g using Nat.strongRecOn generalizing g with
  | _ n ih =>
    by_cases hdone : isDone g = true
    · exact ⟨[], .stop hdone⟩
    · have hnot := Bool.eq_false_iff.mpr hdone
      obtain ⟨answers, hrest⟩ := ih _ (hn ▸ hsize g hnot) _ rfl
      exact ⟨_, .next hnot hrest⟩

theorem Ends.embed {H B : Type*} {isDone' : H → Bool} {step' : H → B × H} {f : G → H}
    (hdone : ∀ g, isDone' (f g) = isDone g) (hstep : ∀ g, (step' (f g)).2 = f (step g).2) {g : G}
    (h : Ends isDone step g) : Ends isDone' step' (f g) := by
  obtain ⟨answers, hrun⟩ := h
  induction hrun with
  | stop hd => exact ⟨[], .stop ((hdone _).trans hd)⟩
  | @next g answers hd _ ih =>
    obtain ⟨answers', hrest⟩ := ih
    rw [← hstep] at hrest
    exact ⟨_, .next ((hdone g).trans hd) hrest⟩

/-- The loop over an object that hands its steps on to another. -/
theorem LoopRun.embed {H : Type*} {isDone' : H → Bool} {step' : H → A × H} {f : G → H}
    (hdone : ∀ g, isDone' (f g) = isDone g) (hstep : ∀ g, step' (f g) = ((step g).1, f (step g).2))
    {g : G} {answers : List A} (h : LoopRun isDone step g answers) : LoopRun isDone' step' (f g) answers := by
  induction h with
  | stop hd => exact .stop ((hdone _).trans hd)
  | @next g answers hd _ ih =>
    have hrest : LoopRun isDone' step' (step' (f g)).2 answers := by
      rw [hstep]
      exact ih
    have hnext := LoopRun.next ((hdone g).trans hd) hrest
    rw [hstep] at hnext
    exact hnext

section counter

variable {P : G → Prop} {counter : G → Nat} {bound : Nat} {answer : Nat → A}

theorem loopRun_of_counter (hdone : ∀ g, P g → (isDone g = true ↔ bound ≤ counter g))
    (hstep : ∀ g, P g → counter g < bound →
      (step g).1 = answer (counter g) ∧ counter (step g).2 = counter g + 1 ∧ P (step g).2)
    {g : G} (hg : P g) :
    LoopRun isDone step g ((List.range' (counter g) (bound - counter g)).map answer) := by
  induction hm : bound - counter g generalizing g with
  | zero => exact .stop ((hdone g hg).mpr (by omega))
  | succ m ih =>
    obtain ⟨hanswer, hcounter, hnext⟩ := hstep g hg (by omega)
    have hnot : isDone g = false := by
      rw [Bool.eq_false_iff, ne_eq, hdone g hg]
      omega
    have hrest := ih hnext (by omega)
    rw [List.range'_succ, List.map_cons, ← hanswer, ← hcounter]
    exact .next hnot hrest

end counter

section list

variable {ι : Type*} {P : G → Prop} {left : G → List ι} {answer : ι → A}

theorem loopRun_of_list (hdone : ∀ g, P g → (isDone g = true ↔ left g = []))
    (hstep : ∀ g i l, P g → left g = i :: l → (step g).1 = answer i ∧ left (step g).2 = l ∧ P (step g).2)
    {g : G} (hg : P g) : LoopRun isDone step g ((left g).map answer) := by
  induction hl : left g generalizing g with
  | nil => exact .stop ((hdone g hg).mpr hl)
  | cons i l ih =>
    obtain ⟨hanswer, hleft, hnext⟩ := hstep g i l hg hl
    have hnot : isDone g = false := by
      rw [Bool.eq_false_iff, ne_eq, hdone g hg, hl]
      exact List.cons_ne_nil i l
    rw [List.map_cons, ← hanswer]
    exact .next hnot (ih hnext hleft)

end list

end Hecuba
