import Mathlib.Data.List.TakeWhile

/-! Searches in a list, from the left: the occurrences of a pattern that do not overlap, and
what comes before and after the first of them. -/

namespace Hecuba

variable {α : Type}

theorem forall_mem_of_all {p : α → Prop} [DecidablePred p] {l : List α} (h : (l.all fun a => p a) = true) :
    ∀ a ∈ l, p a := by
  simpa using h

theorem any_congr_mem {p q : α → Bool} {l : List α} (h : ∀ a ∈ l, p a = q a) : l.any p = l.any q := by
  rw [Bool.eq_iff_iff, List.any_eq_true, List.any_eq_true]
  exact exists_congr fun a => and_congr_right fun ha => by rw [h a ha]

theorem all_congr_mem {p q : α → Bool} {l : List α} (h : ∀ a ∈ l, p a = q a) : l.all p = l.all q := by
  rw [Bool.eq_iff_iff, List.all_eq_true, List.all_eq_true]
  exact forall_congr' fun a => forall_congr' fun ha => by rw [h a ha]

/-- Of two elements of a list, the one without the other before it comes first. -/
theorem mem_of_append_cons_eq {a b : α} {l r l' r' : List α} (h : l ++ a :: r = l' ++ b :: r') (hne : a ≠ b)
    (ha : a ∉ l') : b ∈ l := by
  rcases List.append_eq_append_iff.mp h with ⟨m, rfl, hm⟩ | ⟨m, rfl, hm⟩
  · cases m with
    | nil => exact absurd (List.cons.inj hm).1 hne
    | cons c m =>
      obtain ⟨rfl, -⟩ := List.cons.inj hm
      exact absurd (by simp) ha
  · cases m with
    | nil => exact absurd (List.cons.inj hm).1.symm hne
    | cons c m =>
      obtain ⟨rfl, -⟩ := List.cons.inj hm
      simp

theorem splitOnP_append {p : α → Bool} {m : List α} (hm : ∀ a ∈ m, p a = false) (l : List α) :
    (m ++ l).splitOnP p = (l.splitOnP p).modifyHead (m ++ ·) := by
  induction m with
  | nil => exact (congrFun List.modifyHead_id _).symm
  | cons a m ih =>
    obtain ⟨ha, hm⟩ := List.forall_mem_cons.mp hm
    rw [List.cons_append, List.splitOnP_cons_eq_if_modifyHead, ha, ih hm]
    simp [List.modifyHead_modifyHead, Function.comp_def]

/-- Splitting a list whose elements are written out, each separator as one. -/
theorem splitOnP_flatMap {β : Type} {p : α → Bool} {q : β → Bool} {g : α → List β} {l : List α}
    (hsep : ∀ a ∈ l, p a = true → ∃ b, g a = [b] ∧ q b = true)
    (hother : ∀ a ∈ l, p a = false → ∀ b ∈ g a, q b = false) :
    (l.flatMap g).splitOnP q = (l.splitOnP p).map fun m => m.flatMap g := by
  induction l with
  | nil => simp
  | cons a l ih =>
    have ih := ih (fun b hb => hsep b (by simp [hb])) fun b hb => hother b (by simp [hb])
    by_cases ha : p a = true
    · obtain ⟨b, hb, hq⟩ := hsep a (by simp) ha
      simp [List.splitOnP_cons_eq_if_modifyHead, hb, hq, ha, ih]
    · rw [List.flatMap_cons, splitOnP_append (hother a (by simp) (by simpa using ha)), ih,
        List.splitOnP_cons_eq_if_modifyHead, if_neg ha]
      cases l.splitOnP p <;> simp

theorem mem_of_mem_splitOnP {p : α → Bool} {l m : List α} (hm : m ∈ l.splitOnP p) {a : α} (ha : a ∈ m) : a ∈ l := by
  induction l generalizing m with
  | nil => simp_all
  | cons b l ih =>
    rw [List.splitOnP_cons_eq_if_modifyHead] at hm
    obtain ⟨first, rest, hsplit⟩ := List.exists_cons_of_ne_nil (List.splitOnP_ne_nil p l)
    rw [hsplit] at hm ih
    by_cases hb : p b = true
    · rw [if_pos hb] at hm
      rcases List.mem_cons.mp hm with rfl | hm
      · simp at ha
      · exact List.mem_cons_of_mem _ (ih hm ha)
    · rw [if_neg hb, List.modifyHead_cons] at hm
      rcases List.mem_cons.mp hm with rfl | hm
      · exact (List.mem_cons.mp ha).elim (fun h => by simp [h]) fun h => List.mem_cons_of_mem _ (ih (by simp) h)
      · exact List.mem_cons_of_mem _ (ih (by simp [hm]) ha)

theorem exists_mem_splitOnP {p : α → Bool} {l : List α} {a : α} (h : a ∈ l) (ha : p a = false) :
    ∃ m ∈ l.splitOnP p, a ∈ m := by
  induction l with
  | nil => simp at h
  | cons b l ih =>
    rw [List.splitOnP_cons_eq_if_modifyHead]
    obtain ⟨m, ms, hms⟩ := List.exists_cons_of_ne_nil (List.splitOnP_ne_nil p l)
    rcases List.mem_cons.mp h with rfl | h
    · simp [ha, hms]
    · obtain ⟨m', hm', ham⟩ := ih h
      by_cases hb : p b = true
      · exact ⟨m', by simp [hb, hm'], ham⟩
      · rw [hms] at hm' ⊢
        rcases List.mem_cons.mp hm' with rfl | hm'
        · exact ⟨b :: m', by simp [hb], by simp [ham]⟩
        · exact ⟨m', by simp [hb, hm'], ham⟩

variable [DecidableEq α]

/-- `skip` elements are left of an occurrence already counted. -/
def occurrencesFrom (pattern : List α) : Nat → List α → Nat
  | _, [] => 0
  | skip + 1, _ :: rest => occurrencesFrom pattern skip rest
  | 0, a :: rest =>
    if pattern.isPrefixOf (a :: rest) then 1 + occurrencesFrom pattern (pattern.length - 1) rest
    else occurrencesFrom pattern 0 rest

def occurrences (pattern l : List α) : Nat := occurrencesFrom pattern 0 l

/-- The list from the first occurrence on. -/
def dropUntil (pattern : List α) : List α → Option (List α)
  | [] => none
  | a :: rest => if pattern.isPrefixOf (a :: rest) then some (a :: rest) else dropUntil pattern rest

def replaceFirst (pattern new : List α) : List α → List α
  | [] => []
  | a :: rest =>
    if pattern.isPrefixOf (a :: rest) then new ++ (a :: rest).drop pattern.length
    else a :: replaceFirst pattern new rest

/-- What comes after the first `a`; all of it when there is none. -/
def afterFirst (a : α) (l : List α) : List α :=
  match l.dropWhile (· ≠ a) with
  | [] => l
  | _ :: rest => rest

def beforeLast (a : α) (l : List α) : List α := (afterFirst a l.reverse).reverse

/-- `skip` elements are left of an occurrence already erased. -/
def eraseFrom (pattern : List α) : Nat → List α → List α
  | _, [] => []
  | skip + 1, _ :: rest => eraseFrom pattern skip rest
  | 0, a :: rest =>
    if pattern.isPrefixOf (a :: rest) then eraseFrom pattern (pattern.length - 1) rest
    else a :: eraseFrom pattern 0 rest

def eraseAll (pattern l : List α) : List α := eraseFrom pattern 0 l

/-- The position of the first occurrence; -1 when there is none. -/
def firstIndex (pattern l : List α) : Int :=
  match dropUntil pattern l with
  | some rest => l.length - rest.length
  | none => -1

def lastIndex (a : α) (l : List α) : Int := if a ∈ l then (beforeLast a l).length else -1

/-- The elements from `start` on and before `stop`; negative positions are counted from the end. -/
def slice (start stop : Int) (l : List α) : List α := (l.take (clip stop)).drop (clip start)
where
  clip (i : Int) : Nat := if i < 0 then (l.length + i).toNat else i.toNat

section search

variable {a : α} {pattern l : List α}

theorem not_isPrefixOf (ha : a ∈ pattern) (h : a ∉ l) : pattern.isPrefixOf l = false := by
  by_contra hp
  rw [Bool.not_eq_false, List.isPrefixOf_iff_prefix] at hp
  exact h (hp.subset ha)

theorem occurrencesFrom_of_not_mem (ha : a ∈ pattern) (h : a ∉ l) (skip : Nat) :
    occurrencesFrom pattern skip l = 0 := by
  induction l generalizing skip with
  | nil => simp [occurrencesFrom]
  | cons b rest ih =>
    have hrest : a ∉ rest := fun hm => h (by simp [hm])
    cases skip <;> simp [occurrencesFrom, not_isPrefixOf ha h, ih hrest]

theorem occurrences_of_not_mem (ha : a ∈ pattern) (h : a ∉ l) : occurrences pattern l = 0 :=
  occurrencesFrom_of_not_mem ha h 0

theorem eraseFrom_of_not_mem (ha : a ∈ pattern) (h : a ∉ l) : eraseFrom pattern 0 l = l := by
  induction l with
  | nil => rfl
  | cons b rest ih =>
    have hrest : a ∉ rest := fun hm => h (by simp [hm])
    simp [eraseFrom, not_isPrefixOf ha h, ih hrest]

theorem dropUntil_of_not_mem (ha : a ∈ pattern) (h : a ∉ l) : dropUntil pattern l = none := by
  induction l with
  | nil => rfl
  | cons b rest ih =>
    have hrest : a ∉ rest := fun hm => h (by simp [hm])
    simp [dropUntil, not_isPrefixOf ha h, ih hrest]

theorem dropUntil_cons (b : α) (h : pattern.isPrefixOf (b :: l) = false) :
    dropUntil pattern (b :: l) = dropUntil pattern l := by
  simp [dropUntil, h]

theorem occurrences_singleton (a : α) (l : List α) : occurrences [a] l = l.count a := by
  induction l with
  | nil => rfl
  | cons b rest ih =>
    by_cases h : a = b
    · subst h
      simpa [occurrences, occurrencesFrom, List.isPrefixOf, Nat.add_comm] using ih
    · have hp : [a].isPrefixOf (b :: rest) = false := by simp [List.isPrefixOf, h]
      rw [List.count_cons_of_ne (Ne.symm h), ← ih]
      simp [occurrences, occurrencesFrom, hp]

theorem afterFirst_append (h : a ∉ l) (rest : List α) : afterFirst a (l ++ a :: rest) = rest := by
  have hl : ∀ x ∈ l, decide (x ≠ a) = true := fun x hx => by
    simpa using fun hxa : x = a => h (hxa ▸ hx)
  rw [afterFirst, List.dropWhile_append_of_pos hl]
  simp

theorem beforeLast_append (h : a ∉ l) (rest : List α) : beforeLast a (rest ++ a :: l) = rest := by
  have hl : a ∉ l.reverse := by simpa using h
  have := afterFirst_append hl rest.reverse
  simp [beforeLast, this]

theorem lastIndex_append (h : a ∉ l) (rest : List α) : lastIndex a (rest ++ a :: l) = rest.length := by
  rw [lastIndex, if_pos (by simp), beforeLast_append h]

theorem dropUntil_spec {rest : List α} (h : dropUntil pattern l = some rest) : rest <:+ l ∧ pattern <+: rest := by
  induction l with
  | nil => simp [dropUntil] at h
  | cons b l ih =>
    by_cases hb : pattern.isPrefixOf (b :: l) = true
    · obtain rfl : b :: l = rest := by simpa [dropUntil, hb] using h
      exact ⟨List.suffix_rfl, List.isPrefixOf_iff_prefix.mp hb⟩
    · obtain ⟨hrest, hpattern⟩ := ih (by simpa [dropUntil, hb] using h)
      exact ⟨hrest.trans (List.suffix_cons b l), hpattern⟩

theorem dropUntil_append {rest : List α} (h : dropUntil pattern l = some rest) (more : List α) :
    dropUntil pattern (l ++ more) = some (rest ++ more) := by
  induction l with
  | nil => simp [dropUntil] at h
  | cons b l ih =>
    by_cases hb : pattern.isPrefixOf (b :: l) = true
    · obtain rfl : b :: l = rest := by simpa [dropUntil, hb] using h
      have hmore : pattern.isPrefixOf (b :: (l ++ more)) = true := by
        rw [List.isPrefixOf_iff_prefix] at hb ⊢
        exact hb.trans (List.prefix_append (b :: l) more)
      simp [dropUntil, hmore]
    · have hrest : dropUntil pattern l = some rest := by simpa [dropUntil, hb] using h
      have hmore : pattern.isPrefixOf (b :: (l ++ more)) = false := by
        obtain ⟨hsuffix, hpattern⟩ := dropUntil_spec hrest
        have hlen : pattern.length ≤ (b :: l).length :=
          (hpattern.length_le.trans hsuffix.length_le).trans (Nat.le_succ _)
        by_contra hp
        rw [Bool.not_eq_false, List.isPrefixOf_iff_prefix, ← List.cons_append] at hp
        exact hb (List.isPrefixOf_iff_prefix.mpr (List.prefix_of_prefix_length_le hp (List.prefix_append _ _) hlen))
      rw [List.cons_append, dropUntil_cons b hmore, ih hrest]

theorem firstIndex_append (h : firstIndex pattern (l ++ pattern) = l.length) (more : List α) :
    firstIndex pattern (l ++ (pattern ++ more)) = l.length := by
  cases hd : dropUntil pattern (l ++ pattern) with
  | none =>
    simp only [firstIndex, hd] at h
    omega
  | some rest =>
    rw [← List.append_assoc, firstIndex, dropUntil_append hd]
    simp only [firstIndex, hd, List.length_append] at h ⊢
    omega

theorem firstIndex_singleton (h : a ∉ l) (more : List α) : firstIndex [a] (l ++ a :: more) = l.length := by
  have hdrop : dropUntil [a] (l ++ a :: more) = some (a :: more) := by
    induction l with
    | nil => simp [dropUntil]
    | cons b l ih =>
      rw [List.mem_cons, not_or] at h
      have hb : [a].isPrefixOf (b :: (l ++ a :: more)) = false := by simp [List.isPrefixOf, h.1]
      rw [List.cons_append, dropUntil_cons b hb, ih h.2]
  simp only [firstIndex, hdrop, List.length_append]
  omega

omit [DecidableEq α] in
theorem slice_append (l m r : List α) : slice l.length (l ++ m).length (l ++ (m ++ r)) = m := by
  have hclip (n : Nat) (s : List α) : slice.clip s n = n := by
    have hn : ¬(n : Int) < 0 := by omega
    simp [slice.clip, hn]
  rw [slice, hclip, hclip, ← List.append_assoc, List.take_left, List.drop_left]

theorem isPrefixOf_append_cons (ha : a ∉ pattern) (more : List α) :
    pattern.isPrefixOf (l ++ a :: more) = pattern.isPrefixOf l := by
  rw [Bool.eq_iff_iff, List.isPrefixOf_iff_prefix, List.isPrefixOf_iff_prefix]
  refine ⟨fun h => ?_, fun h => h.trans (List.prefix_append l _)⟩
  by_cases hlen : pattern.length ≤ l.length
  · exact List.prefix_of_prefix_length_le h (List.prefix_append l _) hlen
  · have hmem : a ∈ (l ++ a :: more).take pattern.length := by
      rw [List.take_append]
      refine List.mem_append_right _ ?_
      rw [List.take_cons (by omega)]
      exact List.mem_cons_self
    rw [← List.prefix_iff_eq_take.mp h] at hmem
    exact absurd hmem ha

/-- What is erased lies before an element that is not in the pattern, or after it. -/
theorem eraseFrom_append_cons (hne : pattern ≠ []) (ha : a ∉ pattern) {skip : Nat} (hskip : skip ≤ l.length) (more : List α) :
    eraseFrom pattern skip (l ++ a :: more) = eraseFrom pattern skip l ++ a :: eraseFrom pattern 0 more := by
  induction l generalizing skip with
  | nil =>
    obtain rfl : skip = 0 := by simpa using hskip
    have hp : pattern.isPrefixOf (a :: more) = false := by
      have hnil : pattern.isPrefixOf (a :: more) = pattern.isPrefixOf [] := isPrefixOf_append_cons (l := []) ha more
      rw [hnil, Bool.eq_false_iff, ne_eq, List.isPrefixOf_iff_prefix, List.prefix_nil]
      exact hne
    simp [eraseFrom, hp]
  | cons b l ih =>
    cases skip with
    | succ skip => simpa [eraseFrom] using ih (by simpa using hskip)
    | zero =>
      have hp : pattern.isPrefixOf (b :: (l ++ a :: more)) = pattern.isPrefixOf (b :: l) :=
        isPrefixOf_append_cons (l := b :: l) ha more
      by_cases hb : pattern.isPrefixOf (b :: l) = true
      · have hlen : pattern.length - 1 ≤ l.length := by
          have := (List.isPrefixOf_iff_prefix.mp hb).length_le
          simp only [List.length_cons] at this
          omega
        simp [eraseFrom, hp, hb, ih hlen]
      · simp [eraseFrom, hp, hb, ih]

end search

end Hecuba
