import Mathlib.Algebra.Order.Ring.Int
import Mathlib.Data.List.Lemmas
import Mathlib.Data.List.Pairwise
import Mathlib.Order.Lattice

/-! Lists of half-open ranges of a linear order, and how many of them hold a value. -/

namespace Hecuba

section neighbours

variable {α : Type*}

/-- The ranges between the neighbours in a list. -/
def consecutive (l : List α) : List (α × α) := l.zip l.tail

@[simp] theorem consecutive_cons_cons (a b : α) (l : List α) :
    consecutive (a :: b :: l) = (a, b) :: consecutive (b :: l) := rfl

theorem consecutive_append (l : List α) (a b : α) :
    consecutive (l ++ [a, b]) = consecutive (l ++ [a]) ++ [(a, b)] := by
  induction l with
  | nil => rfl
  | cons c l ih =>
    cases l with
    | nil => rfl
    | cons d l =>
      simp only [List.cons_append, consecutive_cons_cons] at ih ⊢
      rw [ih]

theorem consecutive_fst (a : α) (l : List α) : (consecutive (a :: l)).map Prod.fst ++ [l.getLastD a] = a :: l := by
  induction l generalizing a with
  | nil => rfl
  | cons b l ih =>
    rw [consecutive_cons_cons, List.getLastD_cons, List.map_cons, List.cons_append, ih]

end neighbours

variable {α : Type*} [LinearOrder α]

def inRange (v : α) (r : α × α) : Bool := decide (r.1 ≤ v ∧ v < r.2)

@[simp] theorem inRange_iff {v : α} {r : α × α} : inRange v r = true ↔ r.1 ≤ v ∧ v < r.2 := by simp [inRange]

/-- The ranges lead from `s` to `e` with no gap and no overlap. -/
inductive Tiles : α → List (α × α) → α → Prop where
  | nil (s : α) : Tiles s [] s
  | cons {a b e : α} {rs : List (α × α)} (hab : a ≤ b) (h : Tiles b rs e) : Tiles a ((a, b) :: rs) e

theorem Tiles.le {s e : α} {rs : List (α × α)} (h : Tiles s rs e) : s ≤ e := by
  induction h with
  | nil s => exact le_refl s
  | cons hab _ ih => exact hab.trans ih

theorem Tiles.append {s m e : α} {rs rs' : List (α × α)} (h : Tiles s rs m) (h' : Tiles m rs' e) :
    Tiles s (rs ++ rs') e := by
  induction h with
  | nil s => exact h'
  | cons hab _ ih => exact .cons hab (ih h')

theorem Tiles.mem {s e : α} {rs : List (α × α)} (h : Tiles s rs e) {r : α × α} (hr : r ∈ rs) :
    s ≤ r.1 ∧ r.1 ≤ r.2 ∧ r.2 ≤ e := by
  induction h with
  | nil s => cases hr
  | @cons a b e rs hab h ih =>
    rcases List.mem_cons.mp hr with rfl | hr
    · exact ⟨le_refl _, hab, h.le⟩
    · exact ⟨hab.trans (ih hr).1, (ih hr).2⟩

theorem Tiles.exists_first {s e : α} {rs : List (α × α)} (h : Tiles s rs e) (hne : rs ≠ []) : ∃ r ∈ rs, r.1 = s := by
  cases h with
  | nil s => exact absurd rfl hne
  | cons hab h => exact ⟨_, List.mem_cons_self, rfl⟩

theorem Tiles.exists_last {s e : α} {rs : List (α × α)} (h : Tiles s rs e) (hne : rs ≠ []) : ∃ r ∈ rs, r.2 = e := by
  induction h with
  | nil s => exact absurd rfl hne
  | @cons a b e rs hab h ih =>
    by_cases hrs : rs = []
    · subst hrs
      cases h
      exact ⟨_, List.mem_cons_self, rfl⟩
    · obtain ⟨r, hr, hlast⟩ := ih hrs
      exact ⟨r, List.mem_cons_of_mem _ hr, hlast⟩

theorem Tiles.countP {s e : α} {rs : List (α × α)} (h : Tiles s rs e) (v : α) :
    rs.countP (inRange v) = if s ≤ v ∧ v < e then 1 else 0 := by
  induction h with
  | nil s =>
    have hnot : ¬ (s ≤ v ∧ v < s) := fun h => absurd (h.1.trans_lt h.2) (lt_irrefl s)
    rw [if_neg hnot, List.countP_nil]
  | @cons a b e rs hab h ih =>
    rw [List.countP_cons, ih]
    by_cases hv : v < b
    · simp [inRange, hv, hv.trans_le h.le]
    · have hb : b ≤ v := not_lt.mp hv
      simp [inRange, hv, hb, hab.trans hb]

/-- Ranges that tile give each element between their ends once. -/
theorem Tiles.flatMap_filter {β : Type*} {s e : α} {rs : List (α × α)} (h : Tiles s rs e) (f : β → α) (l : List β) :
    (rs.flatMap fun r => l.filter fun b => inRange (f b) r).Perm (l.filter fun b => inRange (f b) (s, e)) := by
  induction h with
  | nil s =>
    have hnone : (l.filter fun b => inRange (f b) (s, s)) = [] :=
      List.filter_eq_nil_iff.mpr fun b _ hb => absurd ((inRange_iff.mp hb).1.trans_lt (inRange_iff.mp hb).2) (lt_irrefl s)
    rw [List.flatMap_nil, hnone]
  | @cons a b e rs hab h ih =>
    rw [List.flatMap_cons]
    refine (ih.append_left _).trans ?_
    have hle := h.le
    have hfirst : (l.filter fun x => inRange (f x) (a, b)) =
        (l.filter fun x => inRange (f x) (a, e)).filter fun x => f x < b := by
      rw [List.filter_filter]
      refine List.filter_congr fun x _ => ?_
      by_cases hx : f x < b
      · simp [inRange, hx, hx.trans_le hle]
      · simp [inRange, hx]
    have hlater : (l.filter fun x => inRange (f x) (b, e)) =
        (l.filter fun x => inRange (f x) (a, e)).filter fun x => !(f x < b : Bool) := by
      rw [List.filter_filter]
      refine List.filter_congr fun x _ => ?_
      by_cases hx : f x < b
      · simp [inRange, hx]
      · simp [inRange, hx, hab.trans (not_lt.mp hx), not_lt.mp hx]
    rw [hfirst, hlater]
    exact List.filter_append_perm _ _

/-- Every range begins before, and ends by, the start of each range after it. -/
def Spaced (rs : List (α × α)) : Prop := rs.Pairwise fun r r' => r.1 < r'.1 ∧ r.2 ≤ r'.1

theorem Tiles.spaced {s e : α} {rs : List (α × α)} (h : Tiles s rs e) (hstarts : (rs.map Prod.fst).Pairwise (· < ·)) :
    Spaced rs := by
  induction h with
  | nil s => exact List.Pairwise.nil
  | cons hab h ih =>
    obtain ⟨hfirst, hrest⟩ := List.pairwise_cons.mp hstarts
    exact List.pairwise_cons.mpr ⟨fun r hr => ⟨hfirst _ (List.mem_map_of_mem hr), (h.mem hr).1⟩, ih hrest⟩

theorem Spaced.countP_le_one {rs : List (α × α)} (h : Spaced rs) (v : α) : rs.countP (inRange v) ≤ 1 := by
  induction rs with
  | nil => simp
  | cons r rs ih =>
    obtain ⟨hfirst, hrest⟩ := List.pairwise_cons.mp h
    rw [List.countP_cons]
    by_cases hv : inRange v r = true
    · have hzero : rs.countP (inRange v) = 0 := by
        rw [List.countP_eq_zero]
        intro r' hr' hv'
        rw [inRange_iff] at hv hv'
        exact absurd (hv.2.trans_le ((hfirst r' hr').2.trans hv'.1)) (lt_irrefl v)
      simp [hzero, hv]
    · simpa [hv] using ih hrest

theorem Spaced.trichotomy {rs : List (α × α)} (h : Spaced rs) {r r' : α × α} (hr : r ∈ rs) (hr' : r' ∈ rs) :
    r = r' ∨ (r.1 < r'.1 ∧ r.2 ≤ r'.1) ∨ (r'.1 < r.1 ∧ r'.2 ≤ r.1) := by
  have hsymm : Std.Symm fun q q' : α × α => (q.1 < q'.1 ∧ q.2 ≤ q'.1) ∨ (q'.1 < q.1 ∧ q'.2 ≤ q.1) :=
    ⟨fun _ _ hlt => hlt.symm⟩
  by_cases heq : r = r'
  · exact .inl heq
  · have hpair : rs.Pairwise fun q q' => (q.1 < q'.1 ∧ q.2 ≤ q'.1) ∨ (q'.1 < q.1 ∧ q'.2 ≤ q.1) := h.imp Or.inl
    exact .inr (hpair.forall hr hr' heq)

section refinement

variable {f : α × α → List (α × α)}

theorem Tiles.flatMap {s e : α} {rs : List (α × α)} (h : Tiles s rs e) (hf : ∀ r ∈ rs, Tiles r.1 (f r) r.2) :
    Tiles s (rs.flatMap f) e := by
  induction h with
  | nil s => exact .nil s
  | cons hab h ih =>
    obtain ⟨hfirst, hrest⟩ := List.forall_mem_cons.mp hf
    exact hfirst.append (ih hrest)

/-- Ranges that are cut in pieces stay spaced if the pieces of each are, and no piece but one at
the start of its range begins at the end of it. -/
theorem Spaced.flatMap {rs : List (α × α)} (h : Spaced rs) (hf : ∀ r ∈ rs, Tiles r.1 (f r) r.2)
    (hspaced : ∀ r ∈ rs, Spaced (f r)) (hstart : ∀ r ∈ rs, ∀ p ∈ f r, p.1 < r.2 ∨ p.1 = r.1) :
    Spaced (rs.flatMap f) := by
  refine List.pairwise_flatMap.mpr ⟨hspaced, List.Pairwise.imp_of_mem (fun {r r'} hr hr' hlt p hp p' hp' => ?_) h⟩
  have hp' := ((hf r' hr').mem hp').1
  refine ⟨?_, ((hf r hr).mem hp).2.2.trans (hlt.2.trans hp')⟩
  rcases hstart r hr p hp with hend | hend
  · exact hend.trans_le (hlt.2.trans hp')
  · rw [hend]
    exact hlt.1.trans_le hp'

end refinement

theorem sum_countP {rs : List (α × α)} {vs : List α} (h : ∀ v ∈ vs, rs.countP (inRange v) ≤ 1) :
    (rs.map fun r => vs.countP fun v => inRange v r).sum = vs.countP fun v => rs.any (inRange v) := by
  induction vs with
  | nil => simp
  | cons v vs ih =>
    obtain ⟨hv, hvs⟩ := List.forall_mem_cons.mp h
    have hadd : (rs.map fun r => vs.countP (fun v => inRange v r) + if inRange v r = true then 1 else 0).sum =
        (rs.map fun r => vs.countP fun v => inRange v r).sum + rs.countP (inRange v) := by
      clear ih h hvs hv
      induction rs with
      | nil => rfl
      | cons r rs ih =>
        rw [List.map_cons, List.sum_cons, ih, List.map_cons, List.sum_cons, List.countP_cons]
        omega
    simp only [List.countP_cons]
    rw [hadd, ih hvs]
    by_cases hany : rs.any (inRange v) = true
    · have hpos : 0 < rs.countP (inRange v) := List.countP_pos_iff.mpr (List.any_eq_true.mp hany)
      simp only [hany, if_true]
      omega
    · have hzero : rs.countP (inRange v) = 0 := by simpa [List.countP_eq_zero] using hany
      simp [hany, hzero]

theorem consecutive_tiles {a : α} {l : List α} (h : (a :: l).Pairwise (· ≤ ·)) :
    Tiles a (consecutive (a :: l)) (l.getLastD a) := by
  induction l generalizing a with
  | nil => exact .nil a
  | cons b l ih =>
    obtain ⟨ha, hl⟩ := List.pairwise_cons.mp h
    rw [consecutive_cons_cons, List.getLastD_cons]
    exact .cons (ha b List.mem_cons_self) (ih hl)

end Hecuba
