import Mathlib.Data.List.Basic
import Mathlib.Tactic.Common

/-! Copying regions between buffers. The effect of a copy is described by where
each moved cell comes from and goes to, so that loops of copies compose without
looking at the buffers again. -/

namespace Hecuba

variable {α ε ι : Type*}

/-- `n` cells of `src` from position `s` replace those of `dst` from position `d`. -/
def overwrite (dst : List α) (d : Nat) (src : List α) (s n : Nat) : List α :=
  dst.take d ++ ((src.drop s).take n ++ dst.drop (d + n))

theorem overwrite_length {dst src : List α} {d s n : Nat} (hd : d + n ≤ dst.length)
    (hs : s + n ≤ src.length) : (overwrite dst d src s n).length = dst.length := by
  simp only [overwrite, List.length_append, List.length_take, List.length_drop]
  omega

theorem overwrite_getElem? {dst src : List α} {d s n : Nat} (hd : d + n ≤ dst.length)
    (hs : s + n ≤ src.length) (a : Nat) :
    (overwrite dst d src s n)[a]? = if d ≤ a ∧ a < d + n then src[s + (a - d)]? else dst[a]? := by
  have ht : (dst.take d).length = d := by simp only [List.length_take]; omega
  have hm : ((src.drop s).take n).length = n := by
    simp only [List.length_take, List.length_drop]; omega
  rw [overwrite]
  by_cases h1 : a < d
  · rw [List.getElem?_append_left (by omega), List.getElem?_take_of_lt h1, if_neg (by omega)]
  · rw [List.getElem?_append_right (by omega), ht]
    by_cases h2 : a < d + n
    · rw [List.getElem?_append_left (by omega), List.getElem?_take_of_lt (by omega),
        List.getElem?_drop, if_pos (by omega)]
    · rw [List.getElem?_append_right (by omega), hm, List.getElem?_drop, if_neg (by omega)]
      congr 1
      omega

/-- `dst'` is `dst` after moving, for every `i` with `P i`, the cell `S i` of
`src` to position `D i`. -/
structure Transferred (src dst dst' : List α) (P : ι → Prop) (D S : ι → Nat) : Prop where
  length_eq : dst'.length = dst.length
  moved : ∀ i, P i → dst'[D i]? = src[S i]?
  frame : ∀ a, (∀ i, P i → D i ≠ a) → dst'[a]? = dst[a]?

theorem overwrite_transferred {dst src : List α} {d s n : Nat} (hd : d + n ≤ dst.length)
    (hs : s + n ≤ src.length) :
    Transferred src dst (overwrite dst d src s n) (· < n) (d + ·) (s + ·) where
  length_eq := overwrite_length hd hs
  moved i hi := by
    rw [overwrite_getElem? hd hs, if_pos (by omega)]
    congr 1
    omega
  frame a ha := by
    rw [overwrite_getElem? hd hs, if_neg]
    rintro ⟨h1, h2⟩
    exact ha (a - d) (by omega) (by omega)

theorem Transferred.reindex {κ : Type*} {src dst dst' : List α} {P : ι → Prop} {D S : ι → Nat}
    (h : Transferred src dst dst' P D S) {Q : κ → Prop} {D' S' : κ → Nat} (f : κ → ι)
    (hf : ∀ k, Q k → P (f k) ∧ D' k = D (f k) ∧ S' k = S (f k))
    (hsurj : ∀ i, P i → ∃ k, Q k ∧ f k = i) : Transferred src dst dst' Q D' S' where
  length_eq := h.length_eq
  moved k hk := by
    obtain ⟨hp, hD, hS⟩ := hf k hk
    rw [hD, hS, h.moved _ hp]
  frame a ha := by
    apply h.frame
    intro i hi
    obtain ⟨k, hk, rfl⟩ := hsurj i hi
    rw [← (hf k hk).2.1]
    exact ha k hk

theorem Transferred.loop {src : List α} {P : ι → Prop} {D S : Nat → ι → Nat}
    {step : List α → Nat → Except ε (List α)} (L b : Nat)
    (hstep : ∀ s < b, ∀ dst, dst.length = L →
      ∃ dst', step dst s = .ok dst' ∧ Transferred src dst dst' P (D s) (S s))
    (hdisj : ∀ s < b, ∀ s' < b, ∀ i i', P i → P i' → D s i = D s' i' → s = s')
    (dst : List α) (hL : dst.length = L) :
    ∃ dst', (List.range b).foldlM step dst = .ok dst' ∧
      Transferred src dst dst' (fun k : Nat × ι => k.1 < b ∧ P k.2)
        (fun k => D k.1 k.2) (fun k => S k.1 k.2) := by
  induction b with
  | zero =>
    refine ⟨dst, rfl, rfl, fun k hk => absurd hk.1 (by omega), fun a _ => rfl⟩
  | succ b ih =>
    obtain ⟨mid, hm, ht⟩ := ih (fun s hs => hstep s (by omega))
      (fun s hs s' hs' => hdisj s (by omega) s' (by omega))
    obtain ⟨dst', hd, ht'⟩ := hstep b (by omega) mid (ht.length_eq.trans hL)
    refine ⟨dst', ?_, ht'.length_eq.trans ht.length_eq, ?_, ?_⟩
    · rw [List.range_succ, List.foldlM_append, hm]
      change (List.foldlM step mid [b]) = _
      simp [hd]
    · rintro ⟨s, i⟩ ⟨hs, hi⟩
      by_cases he : s = b
      · subst he
        exact ht'.moved i hi
      · have hne : ∀ i', P i' → D b i' ≠ D s i :=
          fun i' hi' h => he (hdisj b (by omega) s hs i' i hi' hi h).symm
        rw [ht'.frame _ hne]
        exact ht.moved (s, i) ⟨by simp only at hs; omega, hi⟩
    · intro a ha
      rw [ht'.frame a (fun i hi => ha (b, i) ⟨by simp, hi⟩)]
      exact ht.frame a (fun k hk => ha k ⟨by omega, hk.2⟩)

section restore

variable {β : Type*} {step : List α → β → Except ε (List α)} {src : List α} {N : Nat}

/-- On lists of length `N` step `b` restores the cells in `P` and leaves the others. -/
def Restores (step : List α → β → Except ε (List α)) (src : List α) (N : Nat) (b : β) (P : Nat → Prop) :
    Prop :=
  ∀ dst : List α, dst.length = N → ∃ dst', step dst b = .ok dst' ∧ dst'.length = N ∧
    (∀ a, P a → dst'[a]? = src[a]?) ∧ ∀ a, ¬ P a → dst'[a]? = dst[a]?

theorem foldlM_restores {l : List β} (hstep : ∀ b ∈ l, ∃ P, Restores step src N b P) {dst : List α}
    (hdst : dst.length = N) :
    ∃ dst', l.foldlM step dst = .ok dst' ∧ dst'.length = N ∧
      ∀ a, (dst[a]? = src[a]? ∨ ∃ b ∈ l, ∃ P, Restores step src N b P ∧ P a) → dst'[a]? = src[a]? := by
  induction l generalizing dst with
  | nil =>
    refine ⟨dst, rfl, hdst, fun a ha => ?_⟩
    rcases ha with ha | ⟨b, hb, -⟩
    · exact ha
    · cases hb
  | cons b l ih =>
    obtain ⟨P, hP⟩ := hstep b List.mem_cons_self
    obtain ⟨mid, hmid, hlen, hmoved, hframe⟩ := hP dst hdst
    obtain ⟨dst', hok, hlen', hrest⟩ := ih (fun b' hb' => hstep b' (List.mem_cons_of_mem _ hb')) hlen
    refine ⟨dst', ?_, hlen', fun a ha => hrest a ?_⟩
    · rw [List.foldlM_cons, hmid]
      exact hok
    rcases ha with ha | ⟨b', hb', Q, hQ, hQa⟩
    · by_cases hPa : P a
      · exact .inl (hmoved a hPa)
      · exact .inl ((hframe a hPa).trans ha)
    · rcases List.mem_cons.mp hb' with rfl | hb'
      · obtain ⟨mid', hmid', -, hmoved', -⟩ := hQ dst hdst
        obtain rfl : mid = mid' := Except.ok.inj (hmid.symm.trans hmid')
        exact .inl (hmoved' a hQa)
      · exact .inr ⟨b', hb', Q, hQ, hQa⟩

theorem foldlM_restores_all {l : List β} (hstep : ∀ b ∈ l, ∃ P, Restores step src N b P)
    (hcover : ∀ a < N, ∃ b ∈ l, ∃ P, Restores step src N b P ∧ P a) (hsrc : src.length = N)
    {dst : List α} (hdst : dst.length = N) : l.foldlM step dst = .ok src := by
  obtain ⟨dst', hok, hlen, hrest⟩ := foldlM_restores hstep hdst
  rw [hok]
  refine congrArg Except.ok (List.ext_getElem? fun a => ?_)
  by_cases ha : a < N
  · exact hrest a (.inr (hcover a ha))
  · rw [List.getElem?_eq_none (by omega), List.getElem?_eq_none (by omega)]

/-- A run of restoring steps restores what any of them does, and nothing else. -/
theorem Restores.foldlM {κ : Type*} {P : κ → Nat → Prop} {ks : List κ} {l : List β}
    (h : List.Forall₂ (fun k b => Restores step src N b (P k)) ks l) :
    Restores (fun dst l => l.foldlM step dst) src N l (fun a => ∃ k ∈ ks, P k a) := by
  induction h with
  | nil => exact fun dst hdst => ⟨dst, rfl, hdst, fun a ⟨k, hk, _⟩ => absurd hk List.not_mem_nil, fun _ _ => rfl⟩
  | @cons k b ks l hb _ ih =>
    intro dst hdst
    obtain ⟨mid, hmid, hlen, hmoved, hframe⟩ := hb dst hdst
    obtain ⟨dst', hok, hlen', hmoved', hframe'⟩ := ih mid hlen
    refine ⟨dst', ?_, hlen', ?_, ?_⟩
    · show List.foldlM step dst (b :: l) = .ok dst'
      rw [List.foldlM_cons, hmid]
      exact hok
    · intro a ha
      by_cases hrest : ∃ k ∈ ks, P k a
      · exact hmoved' a hrest
      · obtain ⟨k', hk', hP⟩ := ha
        rcases List.mem_cons.mp hk' with rfl | hk'
        · exact (hframe' a hrest).trans (hmoved a hP)
        · exact absurd ⟨k', hk', hP⟩ hrest
    · intro a ha
      have hrest : ¬ ∃ k ∈ ks, P k a := fun ⟨k', hk', hP⟩ => ha ⟨k', List.mem_cons_of_mem _ hk', hP⟩
      exact (hframe' a hrest).trans (hframe a fun hP => ha ⟨k, List.mem_cons_self, hP⟩)

end restore

end Hecuba
