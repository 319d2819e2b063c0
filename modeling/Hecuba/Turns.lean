import Mathlib.Data.Nat.Basic

/-! Threads that take turns, and when all of them together come to an end. A thread that cannot go
on at its turn lets it pass. -/

namespace Hecuba

namespace Turns

variable {σ α : Type} (step : α → σ → Option σ)

def turn (s : σ) (a : α) : σ := (step a s).getD s

def play (s : σ) (turns : List α) : σ := turns.foldl (turn step) s

/-- Short of the end one thread helps: its step lowers the rank. A step of another one lowers it too,
or leaves the rank and the thread that helps as they are. -/
structure Helpful (Inv : σ → Prop) (rank : σ → Nat) (helper : σ → α) : Prop where
  inv : ∀ {a s s'}, Inv s → step a s = some s' → Inv s'
  helps : ∀ {s}, Inv s → rank s ≠ 0 → ∃ s', step (helper s) s = some s' ∧ rank s' < rank s
  others : ∀ {a s s'}, Inv s → step a s = some s' → rank s' < rank s ∨ (rank s' = rank s ∧ helper s' = helper s)

variable {step} {Inv : σ → Prop} {rank : σ → Nat} {helper : σ → α} (h : Helpful step Inv rank helper) {s : σ}

@[simp] theorem play_nil (s : σ) : play step s [] = s := rfl

@[simp] theorem play_cons (s : σ) (a : α) (turns : List α) :
    play step s (a :: turns) = play step (turn step s a) turns := rfl

theorem play_append (s : σ) (turns turns' : List α) :
    play step s (turns ++ turns') = play step (play step s turns) turns' := List.foldl_append

namespace Helpful

include h

theorem turn (hs : Inv s) (a : α) : Inv (turn step s a) := by
  unfold Turns.turn
  cases hstep : step a s with
  | none => exact hs
  | some s' => exact h.inv hs hstep

theorem play (hs : Inv s) (turns : List α) : Inv (play step s turns) := by
  induction turns generalizing s with
  | nil => exact hs
  | cons a turns ih => exact ih (h.turn hs a)

theorem turn_rank (hs : Inv s) (a : α) : rank (Turns.turn step s a) < rank s ∨
    (rank (Turns.turn step s a) = rank s ∧ helper (Turns.turn step s a) = helper s) := by
  unfold Turns.turn
  cases hstep : step a s with
  | none => exact .inr ⟨rfl, rfl⟩
  | some s' => exact h.others hs hstep

theorem play_rank_le (hs : Inv s) (turns : List α) : rank (Turns.play step s turns) ≤ rank s := by
  induction turns generalizing s with
  | nil => exact Nat.le_refl _
  | cons a turns ih =>
    have hrest := ih (h.turn hs a)
    rcases h.turn_rank hs a with hlt | ⟨heq, -⟩
    · exact Nat.le_of_lt (Nat.lt_of_le_of_lt hrest hlt)
    · exact heq ▸ hrest

/-- The thread that helps keeps helping until its turn. -/
theorem play_rank_lt (hs : Inv s) (hrank : rank s ≠ 0) {turns : List α} (hturn : helper s ∈ turns) :
    rank (Turns.play step s turns) < rank s := by
  induction turns generalizing s with
  | nil => cases hturn
  | cons a turns ih =>
    have hnext := h.turn hs a
    have hrest := h.play_rank_le hnext turns
    rcases h.turn_rank hs a with hlt | ⟨heq, hhelper⟩
    · exact Nat.lt_of_le_of_lt hrest hlt
    · rcases List.mem_cons.mp hturn with rfl | hturn
      · obtain ⟨s', hstep, hlt⟩ := h.helps hs hrank
        have hgo : Turns.turn step s (helper s) = s' := by rw [Turns.turn, hstep, Option.getD_some]
        rw [hgo] at heq
        exact absurd heq (Nat.ne_of_lt hlt)
      · have hlt := ih hnext (heq ▸ hrank) (hhelper ▸ hturn)
        exact heq ▸ hlt

/-- As many rounds as the rank says, with a turn for every thread in each, are enough. -/
theorem ends (hs : Inv s) {rounds : List (List α)} (hfair : ∀ round ∈ rounds, ∀ s, helper s ∈ round)
    (hlen : rank s ≤ rounds.length) : rank (Turns.play step s rounds.flatten) = 0 := by
  induction rounds generalizing s with
  | nil => exact Nat.le_zero.mp hlen
  | cons round rounds ih =>
    rw [List.flatten_cons, play_append]
    apply ih (h.play hs round) fun r hr => hfair r (List.mem_cons_of_mem _ hr)
    rw [List.length_cons] at hlen
    by_cases hrank : rank s = 0
    · exact Nat.le_trans (h.play_rank_le hs round) (by omega)
    · have hlt := h.play_rank_lt hs hrank (hfair round List.mem_cons_self s)
      omega

end Helpful

end Turns

end Hecuba
