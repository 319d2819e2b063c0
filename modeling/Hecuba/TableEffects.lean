import Mathlib.Data.List.Perm.Basic
import Hecuba.CassandraTable

/-! Statements one after the other, seen from a single row, and which of them commute. -/

namespace Hecuba

variable {K C D : Type}

def Effect.key {V : Type} : Effect K V → K
  | .insert key _ => key
  | .delete key => key

/-- The columns that a statement names over what the row has. -/
def overlay (row : Option (C → Option D)) (values : Values C D) : C → Option D :=
  fun c => (values c).getD (row.bind fun r => r c)

theorem overlay_whole {values : Values C D} (hv : ∀ c, (values c).isSome = true)
    (row row' : Option (C → Option D)) : overlay row values = overlay row' values := by
  funext c
  obtain ⟨d, hd⟩ := Option.isSome_iff_exists.mp (hv c)
  rw [overlay, overlay, hd]
  rfl

variable [DecidableEq K]

def Effect.onRow (key : K) (row : Option (C → Option D)) :
    Effect K (Values C D) → Option (C → Option D)
  | .insert k values => if k = key then some (overlay row values) else row
  | .delete k => if k = key then none else row

def rowAt (key : K) (row : Option (C → Option D)) (effects : List (Effect K (Values C D))) :
    Option (C → Option D) :=
  effects.foldl (Effect.onRow key) row

theorem rowAt_append (key : K) (row : Option (C → Option D))
    (effects later : List (Effect K (Values C D))) :
    rowAt key row (effects ++ later) = rowAt key (rowAt key row effects) later :=
  List.foldl_append

theorem applyEffect_apply (table : K → Option (C → Option D)) (e : Effect K (Values C D)) (key : K) :
    applyEffect table e key = e.onRow key (table key) := by
  cases e with
  | insert k values =>
    by_cases hk : k = key
    · subst hk
      simp only [applyEffect, Function.update_self, Effect.onRow, if_true]
      rfl
    · simp [applyEffect, Effect.onRow, hk, Function.update_of_ne (Ne.symm hk)]
  | delete k =>
    by_cases hk : k = key
    · subst hk
      simp [applyEffect, Effect.onRow]
    · simp [applyEffect, Effect.onRow, hk, Function.update_of_ne (Ne.symm hk)]

theorem onRow_of_ne {e : Effect K (Values C D)} {key : K} (h : e.key ≠ key)
    (row : Option (C → Option D)) : e.onRow key row = row := by
  cases e <;> exact if_neg h

theorem contentOf_append_list (effects later : List (Effect K (Values C D))) :
    contentOf (effects ++ later) = later.foldl applyEffect (contentOf effects) :=
  List.foldl_append

theorem foldl_applyEffect_apply (effects : List (Effect K (Values C D)))
    (table : K → Option (C → Option D)) (key : K) :
    effects.foldl applyEffect table key = rowAt key (table key) effects := by
  induction effects generalizing table with
  | nil => rfl
  | cons e effects ih =>
    rw [List.foldl_cons, ih, applyEffect_apply]
    rfl

theorem contentOf_apply (effects : List (Effect K (Values C D))) (key : K) :
    contentOf effects key = rowAt key none effects := foldl_applyEffect_apply _ _ _

theorem applyEffect_comm {e e' : Effect K (Values C D)} (h : e.key ≠ e'.key)
    (table : K → Option (C → Option D)) :
    applyEffect (applyEffect table e) e' = applyEffect (applyEffect table e') e := by
  funext key
  simp only [applyEffect_apply]
  by_cases hk : e.key = key
  · rw [onRow_of_ne (e := e') (fun he => h (hk.trans he.symm)), onRow_of_ne (e := e')
      (fun he => h (hk.trans he.symm))]
  · rw [onRow_of_ne hk, onRow_of_ne hk]

theorem contentOf_perm (effects : List (Effect K (Values C D)))
    {later later' : List (Effect K (Values C D))} (hp : later.Perm later')
    (hn : (later.map Effect.key).Nodup) :
    contentOf (effects ++ later) = contentOf (effects ++ later') := by
  rw [contentOf_append_list, contentOf_append_list]
  refine hp.foldl_eq' (fun x hx y hy table => ?_) _
  by_cases hxy : x = y
  · rw [hxy]
  · exact applyEffect_comm (fun hk => hxy (List.inj_on_of_nodup_map hn hx hy hk)) table

theorem applyEffect_insert_insert (table : K → Option (C → Option D)) (key : K)
    (old : Values C D) {values : Values C D} (hv : ∀ c, (values c).isSome = true) :
    applyEffect (applyEffect table (.insert key old)) (.insert key values) =
      applyEffect table (.insert key values) := by
  funext k
  simp only [applyEffect_apply, Effect.onRow]
  split
  · rw [overlay_whole hv]
  · rfl

theorem applyEffect_insert_delete (table : K → Option (C → Option D)) (key : K)
    (values : Values C D) :
    applyEffect (applyEffect table (.insert key values)) (.delete key) =
      applyEffect table (.delete key) := by
  funext k
  simp only [applyEffect_apply, Effect.onRow]
  split <;> rfl

theorem rowAt_of_delete {key : K} {effects : List (Effect K (Values C D))}
    (h : .delete key ∈ effects) (row row' : Option (C → Option D)) :
    rowAt key row effects = rowAt key row' effects := by
  obtain ⟨pre, post, rfl⟩ := List.append_of_mem h
  rw [rowAt_append, rowAt_append]
  simp [rowAt, Effect.onRow]

theorem overlay_overlay (row : Option (C → Option D)) (f v : Values C D) :
    overlay (some (overlay row f)) v = overlay row fun c => (v c).or (f c) := by
  funext c
  cases hv : v c <;> simp [overlay, hv]

theorem rowAt_of_inserts {key : K} {effects : List (Effect K (Values C D))}
    (h : .delete key ∉ effects) :
    ∃ f : Values C D, (∀ c, f c ≠ none ↔ ∃ v, .insert key v ∈ effects ∧ v c ≠ none) ∧
      ((∃ v, .insert key v ∈ effects) → ∀ row, rowAt key row effects = some (overlay row f)) ∧
      ((∀ v, .insert key v ∉ effects) → ∀ row, rowAt key row effects = row) := by
  induction effects using List.reverseRecOn with
  | nil => exact ⟨fun _ => none, by simp, by simp, fun _ _ => rfl⟩
  | append_singleton effects e ih =>
    obtain ⟨f, hf, hsome, hnone⟩ := ih fun hm => h (List.mem_append_left _ hm)
    by_cases he : ∃ v, e = .insert key v
    · obtain ⟨v, rfl⟩ := he
      refine ⟨fun c => (v c).or (f c), fun c => ?_, fun _ row => ?_, fun hno => ?_⟩
      · rw [ne_eq, Option.or_eq_none_iff, not_and_or, ← ne_eq (f c), hf c]
        constructor
        · rintro (hv | ⟨u, hu, huc⟩)
          · exact ⟨v, List.mem_append_right _ List.mem_cons_self, hv⟩
          · exact ⟨u, List.mem_append_left _ hu, huc⟩
        · rintro ⟨u, hu, huc⟩
          rcases List.mem_append.mp hu with hu | hu
          · exact .inr ⟨u, hu, huc⟩
          · obtain rfl : u = v := by simpa using hu
            exact .inl huc
      · have hlast : rowAt key row (effects ++ [.insert key v]) =
            some (overlay (rowAt key row effects) v) := by
          rw [rowAt_append]
          exact if_pos rfl
        rw [hlast]
        by_cases hi : ∃ u, .insert key u ∈ effects
        · rw [hsome hi, overlay_overlay]
        · have hi (u : Values C D) : .insert key u ∉ effects := fun hu => hi ⟨u, hu⟩
          have hfn (c : C) : f c = none := by
            by_contra hc
            obtain ⟨u, hu, -⟩ := (hf c).mp hc
            exact hi u hu
          rw [hnone hi]
          simp only [hfn, Option.or_none]
      · exact (hno v (List.mem_append_right _ List.mem_cons_self)).elim
    · have hrow (row : Option (C → Option D)) :
          rowAt key row (effects ++ [e]) = rowAt key row effects := by
        rw [rowAt_append]
        apply onRow_of_ne
        rintro rfl
        cases e with
        | insert k v => exact he ⟨v, rfl⟩
        | delete k => exact h (List.mem_append_right _ List.mem_cons_self)
      have hmem (v : Values C D) : .insert key v ∈ effects ++ [e] ↔ .insert key v ∈ effects := by
        rw [List.mem_append, List.mem_singleton]
        exact ⟨fun hv => hv.resolve_right fun hh => he ⟨v, hh.symm⟩, .inl⟩
      simp only [hrow, hmem]
      exact ⟨f, hf, hsome, hnone⟩

/-- A row and no row come to the same when the statements delete it, or name each of the
columns that it has. -/
theorem rowAt_eq_iff {key : K} {effects : List (Effect K (Values C D))} (r : C → Option D) :
    rowAt key (some r) effects = rowAt key none effects ↔
      .delete key ∈ effects ∨ (∃ v, .insert key v ∈ effects) ∧
        ∀ c, r c ≠ none → ∃ v, .insert key v ∈ effects ∧ v c ≠ none := by
  by_cases hd : .delete key ∈ effects
  · exact ⟨fun _ => .inl hd, fun _ => rowAt_of_delete hd _ _⟩
  obtain ⟨f, hf, hsome, hnone⟩ := rowAt_of_inserts hd
  simp only [hd, false_or, ← hf]
  by_cases hi : ∃ v, .insert key v ∈ effects
  · rw [hsome hi, hsome hi, Option.some.injEq]
    constructor
    · refine fun he => ⟨hi, fun c hc hfc => hc ?_⟩
      simpa [overlay, hfc] using congrFun he c
    · rintro ⟨-, hcover⟩
      funext c
      cases hfc : f c with
      | some d => simp [overlay, hfc]
      | none =>
        have hr : r c = none := by
          by_contra hc
          exact hcover c hc hfc
        simp [overlay, hfc, hr]
  · rw [hnone fun v hv => hi ⟨v, hv⟩, hnone fun v hv => hi ⟨v, hv⟩]
    constructor
    · intro he
      cases he
    · rintro ⟨hh, -⟩
      exact (hi hh).elim

end Hecuba
