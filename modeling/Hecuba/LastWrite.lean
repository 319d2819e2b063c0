import Mathlib.Order.Lattice
import Mathlib.Data.List.Induction

/-! A register that keeps the write with the highest stamp: what it holds after a list
of writes, and that the order of the list does not matter when stamps tell writes apart. -/

namespace Hecuba

section

variable {ι α β : Type*} [LinearOrder ι]

/-- Of two writes of one stamp the register keeps the one it has. -/
def newer (best : Option (ι × α)) (x : ι × α) : Option (ι × α) :=
  match best with
  | none => some x
  | some b => if b.1 < x.1 then some x else some b

def newest (writes : List (ι × α)) : Option (ι × α) := writes.foldl newer none

theorem newest_append_singleton (l : List (ι × α)) (x : ι × α) :
    newest (l ++ [x]) = newer (newest l) x := by
  rw [newest, List.foldl_append]
  rfl

theorem newest_eq_none_iff {l : List (ι × α)} : newest l = none ↔ l = [] := by
  induction l using List.reverseRecOn with
  | nil => exact ⟨fun _ => rfl, fun _ => rfl⟩
  | append_singleton l x ih =>
    rw [newest_append_singleton]
    cases newest l with
    | none => simp [newer]
    | some b =>
      simp only [newer]
      split <;> simp

theorem newest_spec {l : List (ι × α)} {b : ι × α} (h : newest l = some b) :
    b ∈ l ∧ ∀ x ∈ l, x.1 ≤ b.1 := by
  induction l using List.reverseRecOn generalizing b with
  | nil => cases h
  | append_singleton l x ih =>
    rw [newest_append_singleton] at h
    cases hn : newest l with
    | none =>
      rw [hn] at h
      obtain rfl := Option.some.inj h
      rw [newest_eq_none_iff.mp hn]
      simp
    | some a =>
      obtain ⟨ha, hmax⟩ := ih hn
      simp only [hn, newer] at h
      split at h
      · rename_i hlt
        obtain rfl := Option.some.inj h
        refine ⟨by simp, fun y hy => ?_⟩
        rcases List.mem_append.mp hy with hy | hy
        · exact le_trans (hmax y hy) (le_of_lt hlt)
        · rw [List.mem_singleton.mp hy]
      · rename_i hge
        obtain rfl := Option.some.inj h
        refine ⟨List.mem_append_left _ ha, fun y hy => ?_⟩
        rcases List.mem_append.mp hy with hy | hy
        · exact hmax y hy
        · rw [List.mem_singleton.mp hy]
          exact not_lt.mp hge

def StampsUnique (l : List (ι × α)) : Prop := ∀ x ∈ l, ∀ y ∈ l, x.1 = y.1 → x = y

theorem StampsUnique.of_increasing {l : List (ι × α)} (h : l.Pairwise fun a b => a.1 < b.1) :
    StampsUnique l := by
  have hne : l.Pairwise fun x y => x.1 = y.1 → x = y :=
    h.imp fun hlt he => absurd he (ne_of_lt hlt)
  have hflip : l.Pairwise fun x y => y.1 = x.1 → y = x :=
    h.imp fun hlt he => absurd he (ne_of_gt hlt)
  exact fun x hx y hy => List.Pairwise.forall_of_forall_of_flip (fun _ _ _ => rfl) hne hflip hx hy

/-- The order of the writes, and how often each arrives, does not matter. -/
theorem newest_congr {l l' : List (ι × α)} (hu : StampsUnique l) (h : ∀ x, x ∈ l ↔ x ∈ l') :
    newest l = newest l' := by
  cases hl : newest l with
  | none =>
    have hnil := newest_eq_none_iff.mp hl
    rw [hnil] at h
    rw [eq_comm, newest_eq_none_iff, List.eq_nil_iff_forall_not_mem]
    intro x hx
    exact List.not_mem_nil ((h x).mpr hx)
  | some b =>
    obtain ⟨hb, hmax⟩ := newest_spec hl
    cases hl' : newest l' with
    | none =>
      rw [newest_eq_none_iff.mp hl'] at h
      exact (List.not_mem_nil ((h b).mp hb)).elim
    | some b' =>
      obtain ⟨hb', hmax'⟩ := newest_spec hl'
      have hle := hmax b' ((h b').mpr hb')
      have hge := hmax' b ((h b).mp hb)
      rw [hu b hb b' ((h b').mpr hb') (le_antisymm hge hle)]

theorem newest_append_of_lt {l : List (ι × α)} {x : ι × α} (h : ∀ y ∈ l, y.1 < x.1) :
    newest (l ++ [x]) = some x := by
  rw [newest_append_singleton]
  cases hn : newest l with
  | none => rfl
  | some b => simp [newer, h b (newest_spec hn).1]

variable {f : ι × α → Option (ι × β)}

theorem newest_filterMap_append (hf : ∀ y z, f y = some z → z.1 = y.1) {l : List (ι × α)}
    {x : ι × α} (h : ∀ y ∈ l, y.1 < x.1) :
    newest ((l ++ [x]).filterMap f) = (f x).or (newest (l.filterMap f)) := by
  rw [List.filterMap_append]
  cases hx : f x with
  | none => simp [hx]
  | some z =>
    have hz : ∀ y ∈ l.filterMap f, y.1 < z.1 := by
      intro y hy
      obtain ⟨a, ha, hay⟩ := List.mem_filterMap.mp hy
      rw [hf a y hay, hf x z hx]
      exact h a ha
    have hone : [x].filterMap f = [z] := by simp [hx]
    rw [hone, newest_append_of_lt hz]
    rfl

theorem newest_filterMap_lt (hf : ∀ y z, f y = some z → z.1 = y.1) {l : List (ι × α)} {n : ι}
    (h : ∀ y ∈ l, y.1 < n) {b : ι × β} (hb : newest (l.filterMap f) = some b) : b.1 < n := by
  obtain ⟨a, ha, hab⟩ := List.mem_filterMap.mp (newest_spec hb).1
  rw [hf a b hab]
  exact h a ha

theorem newest_filterMap_congr (hf : ∀ y z, f y = some z → z.1 = y.1) {l l' : List (ι × α)}
    (hu : StampsUnique l) (h : ∀ x, x ∈ l ↔ x ∈ l') :
    newest (l.filterMap f) = newest (l'.filterMap f) := by
  apply newest_congr
  · intro x hx y hy hxy
    obtain ⟨a, ha, hax⟩ := List.mem_filterMap.mp hx
    obtain ⟨b, hb, hby⟩ := List.mem_filterMap.mp hy
    have hab : a = b := hu a ha b hb (by rw [← hf a x hax, ← hf b y hby, hxy])
    subst hab
    exact Option.some.inj (hax.symm.trans hby)
  · intro x
    simp only [List.mem_filterMap, h]

end

end Hecuba
