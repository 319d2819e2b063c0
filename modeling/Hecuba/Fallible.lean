import Mathlib.Data.List.Forall2

/-! Calls that may raise: the call after another one, and the calls over a list. -/

namespace Hecuba

variable {ε α β : Type}

theorem bind_ok_iff {x : Except ε α} {f : α → Except ε β} {y : β} :
    (x >>= f) = .ok y ↔ ∃ a, x = .ok a ∧ f a = .ok y := by
  cases x with
  | error e => exact iff_of_false (by rintro ⟨⟩) (by rintro ⟨a, ⟨⟩, -⟩)
  | ok a =>
    constructor
    · exact fun h => ⟨a, rfl, h⟩
    · rintro ⟨_, ⟨⟩, h⟩
      exact h

theorem map_ok_iff {x : Except ε α} {f : α → β} {y : β} : x.map f = .ok y ↔ ∃ a, x = .ok a ∧ f a = y := by
  cases x with
  | error e => exact iff_of_false (by rintro ⟨⟩) (by rintro ⟨a, ⟨⟩, -⟩)
  | ok a =>
    constructor
    · exact fun h => ⟨a, rfl, Except.ok.inj h⟩
    · rintro ⟨_, ⟨⟩, h⟩
      exact congrArg Except.ok h

theorem pure_eq_ok_iff {a b : α} : (pure a : Except ε α) = .ok b ↔ a = b := ⟨Except.ok.inj, congrArg Except.ok⟩

theorem mapM_ok_iff {f : α → Except ε β} {l : List α} {r : List β} :
    l.mapM f = .ok r ↔ List.Forall₂ (fun x y => f x = .ok y) l r := by
  induction l generalizing r with
  | nil =>
    rw [List.forall₂_nil_left_iff]
    exact ⟨fun h => (Except.ok.inj h).symm, fun h => h ▸ rfl⟩
  | cons x l ih =>
    rw [List.mapM_cons, bind_ok_iff, List.forall₂_cons_left_iff]
    refine exists_congr fun y => ?_
    simp only [bind_ok_iff, ih]
    constructor
    · rintro ⟨hx, ys, hys, ⟨⟩⟩
      exact ⟨ys, hx, hys, rfl⟩
    · rintro ⟨ys, hx, hys, rfl⟩
      exact ⟨hx, ys, hys, rfl⟩

theorem foldlM_eq_ok {f : α → β → Except ε α} {g : α → β → α} {l : List β}
    (h : ∀ b ∈ l, ∀ a, f a b = .ok (g a b)) (a : α) : l.foldlM f a = .ok (l.foldl g a) := by
  induction l generalizing a with
  | nil => rfl
  | cons b l ih =>
    rw [List.forall_mem_cons] at h
    rw [List.foldlM_cons, h.1, List.foldl_cons]
    exact ih h.2 (g a b)

theorem foldlM_range_succ {f : α → Nat → Except ε α} {n : Nat} {a b c : α}
    (h : (List.range n).foldlM f a = .ok b) (hn : f b n = .ok c) : (List.range (n + 1)).foldlM f a = .ok c := by
  rw [List.range_succ, List.foldlM_append]
  exact bind_ok_iff.mpr ⟨b, h, bind_ok_iff.mpr ⟨c, hn, rfl⟩⟩

theorem exists_of_mem_mapM {f : α → Except ε β} {l : List α} {r : List β} (h : l.mapM f = .ok r) {b : β}
    (hb : b ∈ r) : ∃ a ∈ l, f a = .ok b := by
  rw [mapM_ok_iff] at h
  induction h with
  | nil => simp at hb
  | @cons x y l r hxy _ ih =>
    by_cases hby : b = y
    · exact ⟨x, by simp, hby ▸ hxy⟩
    · obtain ⟨a, ha, hab⟩ := ih (by simpa [hby] using hb)
      exact ⟨a, by simp [ha], hab⟩

theorem mapM_eq_map {f : α → Except ε β} {g : α → β} {l : List α} (h : ∀ a ∈ l, f a = .ok (g a)) :
    l.mapM f = .ok (l.map g) := by
  rw [mapM_ok_iff, List.forall₂_map_right_iff, List.forall₂_same]
  exact h

/-- Calls that number their arguments, and whose results do not depend on the number. -/
theorem mapM_zipIdx_map {γ : Type} {f : β × Nat → Except ε γ} {item : α → β} {g : α → γ} {l : List α}
    (h : ∀ a ∈ l, ∀ i, f (item a, i) = .ok (g a)) : (l.map item).zipIdx.mapM f = .ok (l.map g) := by
  have hg : ∀ a ∈ l.zipIdx, (f ∘ Prod.map item id) a = .ok ((g ∘ Prod.fst) a) := fun a ha => by
    have hmem : a.1 ∈ l := by simpa using List.mem_map_of_mem (f := Prod.fst) ha
    exact h a.1 hmem a.2
  rw [List.zipIdx_map, List.mapM_map, mapM_eq_map hg, ← List.map_map, List.zipIdx_map_fst]

theorem toOption_eq_some_iff {x : Except ε α} {a : α} : x.toOption = some a ↔ x = .ok a := by
  cases x <;> simp [Except.toOption]

theorem toOption_eq_none_iff {x : Except ε α} : x.toOption = none ↔ ∀ a, x ≠ .ok a := by
  cases x <;> simp [Except.toOption]

theorem toOption_bind (x : Except ε α) (f : α → Except ε β) :
    (x >>= f).toOption = x.toOption.bind fun a => (f a).toOption := by
  cases x <;> rfl

theorem toOption_map (x : Except ε α) (f : α → β) : (x.map f).toOption = x.toOption.map f := by
  cases x <;> rfl

theorem toOption_mapM (f : α → Except ε β) (l : List α) : (l.mapM f).toOption = l.mapM fun a => (f a).toOption := by
  induction l with
  | nil => rfl
  | cons a l ih =>
    simp only [List.mapM_cons, toOption_bind, ih]
    rfl

theorem mapM_some_iff {f : α → Option β} {l : List α} {r : List β} :
    l.mapM f = some r ↔ List.Forall₂ (fun x y => f x = some y) l r := by
  induction l generalizing r with
  | nil => simp [List.forall₂_nil_left_iff, eq_comm]
  | cons x l ih =>
    rw [List.mapM_cons, List.forall₂_cons_left_iff]
    simp only [Option.bind_eq_bind, Option.bind_eq_some_iff, ih, Option.pure_def, Option.some.injEq]
    constructor
    · rintro ⟨y, hy, ys, hys, rfl⟩
      exact ⟨y, ys, hy, hys, rfl⟩
    · rintro ⟨y, ys, hy, hys, rfl⟩
      exact ⟨y, hy, ys, hys, rfl⟩

theorem exists_of_mem_mapM_option {f : α → Option β} {l : List α} {r : List β} (h : l.mapM f = some r) {b : β}
    (hb : b ∈ r) : ∃ a ∈ l, f a = some b := by
  rw [mapM_some_iff] at h
  induction h with
  | nil => simp at hb
  | @cons x y l r hxy _ ih =>
    rcases List.mem_cons.mp hb with rfl | hb
    · exact ⟨x, by simp, hxy⟩
    · obtain ⟨a, ha, hab⟩ := ih hb
      exact ⟨a, by simp [ha], hab⟩

theorem mapM_eq_some_map {f : α → Option β} {g : α → β} {l : List α} (h : ∀ a ∈ l, f a = some (g a)) :
    l.mapM f = some (l.map g) := by
  rw [mapM_some_iff, List.forall₂_map_right_iff, List.forall₂_same]
  exact h

theorem mapM_eq_none_iff {f : α → Option β} {l : List α} : l.mapM f = none ↔ ∃ a ∈ l, f a = none := by
  induction l with
  | nil => simp
  | cons a l ih =>
    cases hf : f a with
    | none => simp [hf]
    | some b =>
      have htail : (a :: l).mapM f = none ↔ l.mapM f = none := by
        cases hl : l.mapM f <;> simp [hf, hl]
      rw [htail, ih]
      simp [hf]

theorem mapM_option_congr {f g : α → Option β} {l : List α} (h : ∀ a ∈ l, f a = g a) : l.mapM f = l.mapM g := by
  induction l with
  | nil => rfl
  | cons a l ih =>
    obtain ⟨ha, hl⟩ := List.forall_mem_cons.mp h
    rw [List.mapM_cons, List.mapM_cons, ha, ih hl]

theorem mapM_bind_mapM {γ : Type} (f : α → Option β) (g : β → Option γ) (l : List α) :
    ((l.mapM f).bind fun r => r.mapM g) = l.mapM fun a => (f a).bind g := by
  ext r
  simp only [Option.bind_eq_some_iff, mapM_some_iff]
  constructor
  · rintro ⟨m, hm, hr⟩
    induction hm generalizing r with
    | nil => simp_all
    | cons hab _ ih =>
      obtain ⟨c, r', hc, hr', rfl⟩ := List.forall₂_cons_left_iff.mp hr
      exact .cons ⟨_, hab, hc⟩ (ih r' hr')
  · intro h
    induction h with
    | nil => exact ⟨[], .nil, .nil⟩
    | cons hab _ ih =>
      obtain ⟨b, hb, hc⟩ := hab
      obtain ⟨m, hm, hr⟩ := ih
      exact ⟨b :: m, .cons hb hm, .cons hc hr⟩

theorem mapM_flatten_option (f : α → Option β) (l : List (List α)) :
    l.flatten.mapM f = (l.mapM fun items : List α => items.mapM f).map List.flatten := by
  induction l with
  | nil => rfl
  | cons a l ih =>
    simp only [List.flatten_cons, List.mapM_append, ih, List.mapM_cons]
    cases a.mapM f <;> cases l.mapM (fun items : List α => items.mapM f) <;> rfl

theorem mapM_returns_iff {f : α → Except ε β} {l : List α} :
    (∃ r, l.mapM f = .ok r) ↔ ∀ a ∈ l, ∃ b, f a = .ok b := by
  simp only [mapM_ok_iff]
  induction l with
  | nil => simp
  | cons a l ih =>
    simp only [List.forall₂_cons_left_iff, List.forall_mem_cons, ← ih]
    constructor
    · rintro ⟨r, b, r', hb, hr', -⟩
      exact ⟨⟨b, hb⟩, r', hr'⟩
    · rintro ⟨⟨b, hb⟩, r', hr'⟩
      exact ⟨b :: r', b, r', hb, hr', rfl⟩

end Hecuba
