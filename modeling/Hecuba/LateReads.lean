import Mathlib.Data.List.Induction
import Mathlib.Data.List.Nodup

/-! A register that is bumped by one party after another and read by each of them later. A reader
sees the bumps made so far; where no two see the same bumps, each sees its own last. -/

namespace Hecuba

section

variable {κ : Type*} {order : List κ}

theorem prefix_unique_of_nodup (hnd : order.Nodup) {l l' : List κ} {c : κ} (h : l ++ [c] <+: order)
    (h' : l' ++ [c] <+: order) : l = l' := by
  wlog hle : l.length ≤ l'.length generalizing l l'
  · exact (this h' h (by omega)).symm
  have hpre : l ++ [c] <+: l' ++ [c] := List.prefix_of_prefix_length_le h h' (by simpa using hle)
  rcases List.prefix_concat_iff.mp hpre with heq | hshort
  · exact (List.append_inj' heq rfl).1
  · have hc : c ∈ l' := hshort.subset (by simp)
    have hnd' : (l' ++ [c]).Nodup := hnd.sublist h'.sublist
    exact ((List.disjoint_of_nodup_append hnd') hc (by simp)).elim

/-- The last party of a longer prefix comes later. -/
theorem mem_later (hnd : order.Nodup) {pre rest l : List κ} {c d : κ} (horder : order = pre ++ c :: rest)
    (h : l ++ [d] <+: order) (hc : c ∈ l) : d ∈ rest := by
  have hown : pre ++ [c] <+: order := ⟨rest, by simp [horder]⟩
  obtain ⟨l₁, l₂, rfl⟩ := List.append_of_mem hc
  have hpre : l₁ = pre := prefix_unique_of_nodup hnd (List.IsPrefix.trans ⟨l₂ ++ [d], by simp⟩ h) hown
  obtain ⟨post, hpost⟩ := h
  have htail : l₂ ++ d :: post = rest := by
    have heq : pre ++ c :: (l₂ ++ d :: post) = pre ++ c :: rest := by
      rw [← horder, ← hpost, hpre]
      simp
    exact (List.cons.inj (List.append_cancel_left heq)).2
  rw [← htail]
  simp

theorem pairwise_of_splits {R : κ → κ → Prop} (h : ∀ pre c post, order = pre ++ c :: post → ∀ d ∈ post, R c d) :
    order.Pairwise R := by
  induction order with
  | nil => exact List.Pairwise.nil
  | cons c order ih =>
    refine List.pairwise_cons.mpr ⟨h [] c order rfl, ih fun pre d post horder => ?_⟩
    exact h (c :: pre) d post (by rw [horder, List.cons_append])

/-- Parties that see different bumps, each its own among them, see their own last. -/
theorem own_of_distinct (hnd : order.Nodup) {Sees : κ → List κ → Prop}
    (hsees : ∀ c p, Sees c p → p <+: order ∧ c ∈ p) (hall : ∀ c ∈ order, ∃ p, Sees c p)
    (hne : ∀ c d p q, c ≠ d → Sees c p → Sees d q → p ≠ q)
    {c : κ} {p : List κ} (h : Sees c p) : p.getLast? = some c := by
  have hmem : c ∈ order := (hsees c p h).1.subset (hsees c p h).2
  -- from the last party backwards: whoever bumps later sees its own bump last
  suffices hback : ∀ post pre, order = pre ++ post → ∀ c ∈ post, ∀ p, Sees c p → p.getLast? = some c from
    hback order [] rfl c hmem p h
  intro post
  induction post with
  | nil =>
    intro pre _ c hc
    exact absurd hc List.not_mem_nil
  | cons b post ih =>
    intro pre horder c hc p hp
    have hrest := ih (pre ++ [b]) (by simp [horder])
    rcases List.mem_cons.mp hc with rfl | hc
    · obtain ⟨hpre, hcp⟩ := hsees c p hp
      rcases List.eq_nil_or_concat' p with rfl | ⟨l, d, rfl⟩
      · exact absurd hcp List.not_mem_nil
      · by_cases hdc : d = c
        · simp [hdc]
        · have hcl : c ∈ l := by simpa [Ne.symm hdc] using hcp
          have hd : d ∈ post := mem_later hnd horder hpre hcl
          obtain ⟨q, hq⟩ := hall d (by simp [horder, hd])
          obtain ⟨l', rfl⟩ := List.getLast?_eq_some_iff.mp (hrest d hd q hq)
          have heq : l = l' := prefix_unique_of_nodup hnd hpre (hsees d _ hq).1
          exact absurd (by rw [heq]) (hne c d _ _ (Ne.symm hdc) hp hq)
    · exact hrest c hc p hp

end

section

variable {κ α : Type*} [LT α] {bump : α → κ → α} {start : α} {order : List κ}

/-- Every bump raises the register. -/
def Rises (bump : α → κ → α) (start : α) (order : List κ) : Prop :=
  ∀ pre c post, order = pre ++ c :: post → pre.foldl bump start < bump (pre.foldl bump start) c

theorem rises_cons_iff {c : κ} :
    Rises bump start (c :: order) ↔ start < bump start c ∧ Rises bump (bump start c) order := by
  constructor
  · intro h
    refine ⟨h [] c order rfl, fun pre d post heq => ?_⟩
    exact h (c :: pre) d post (by rw [heq, List.cons_append])
  · rintro ⟨hc, h⟩ pre d post heq
    cases pre with
    | nil =>
      obtain ⟨rfl, rfl⟩ := List.cons.inj heq
      exact hc
    | cons e pre =>
      obtain ⟨rfl, hrest⟩ := List.cons.inj heq
      exact h pre d post hrest

theorem Rises.lt [IsTrans α (· < ·)] (h : Rises bump start order) {p d : List κ} (hd : d ≠ [])
    (hp : p ++ d <+: order) : p.foldl bump start < (p ++ d).foldl bump start := by
  induction d using List.reverseRecOn with
  | nil => exact absurd rfl hd
  | append_singleton d c ih =>
    obtain ⟨post, hpost⟩ := hp
    have hlast := h (p ++ d) c post (by rw [← hpost]; simp)
    have hsplit : (p ++ (d ++ [c])).foldl bump start = bump ((p ++ d).foldl bump start) c := by simp
    rw [hsplit]
    by_cases hnil : d = []
    · rw [hnil, List.append_nil] at hlast ⊢
      exact hlast
    · exact trans_of (· < ·) (ih hnil ⟨c :: post, by rw [← hpost]; simp⟩) hlast

/-- Parties that read increasing values of their own have raised the register each time. -/
theorem rises_of_own (hstart : ∀ c, start < bump start c)
    (hlt : ∀ pre c d post, order = pre ++ c :: d :: post →
      (pre ++ [c]).foldl bump start < (pre ++ [c, d]).foldl bump start) : Rises bump start order := by
  intro pre d post horder
  rcases List.eq_nil_or_concat' pre with rfl | ⟨l, c, rfl⟩
  · exact hstart d
  · have hh := hlt l c d post (by simp [horder])
    have hsplit : (l ++ [c, d]).foldl bump start = bump ((l ++ [c]).foldl bump start) d := by simp
    rwa [hsplit] at hh

end

end Hecuba
