import Mathlib.Data.Int.Order.Basic
import Hecuba.LastWrite
import Hecuba.WriteProtocol

/-! A table of the database: per cell, per row marker and per row tombstone it keeps the
statement with the highest timestamp. Beside it the table that applies statements one
after the other. -/

namespace Hecuba

/-- The values row of a statement: for each column whether it is named, and with what. -/
abbrev Values (C D : Type) := C → Option (Option D)

variable {K C D : Type}

section

variable {N : Nat} {V : Type}

/-- A statement without a timestamp is dated by the database when it arrives. -/
def dated (log : List (Statement N K V)) : List (Int × Effect K V) :=
  log.zipIdx.map fun x => (x.1.timestamp.getD x.2, x.1.effect)

variable {log : List (Statement N K V)}

theorem dated_of_stamped (h : ∀ st ∈ log, st.timestamp.isSome = true) :
    dated log = log.map fun st => (st.timestamp.getD 0, st.effect) := by
  have hfst : log.map (fun st => (st.timestamp.getD 0, st.effect)) =
      log.zipIdx.map fun x => (x.1.timestamp.getD 0, x.1.effect) := by
    conv_lhs => rw [← List.zipIdx_map_fst 0 log, List.map_map]
    rfl
  rw [hfst, dated]
  apply List.map_congr_left
  intro x hx
  obtain ⟨t, ht⟩ := Option.isSome_iff_exists.mp (h x.1 (List.fst_mem_of_mem_zipIdx hx))
  rw [ht]
  rfl

theorem dated_of_arrival (h : ∀ st ∈ log, st.timestamp = none) :
    ((dated log).Pairwise fun a b => a.1 < b.1) ∧
      (dated log).map Prod.snd = log.map Statement.effect := by
  constructor
  · rw [dated, List.pairwise_map]
    have hsnd : (log.zipIdx.map Prod.snd).Pairwise (· < ·) := by
      rw [List.zipIdx_map_snd]
      exact List.pairwise_lt_range'
    refine (List.pairwise_map.mp hsnd).imp_of_mem fun {a b} ha hb hlt => ?_
    rw [h a.1 (List.fst_mem_of_mem_zipIdx ha), h b.1 (List.fst_mem_of_mem_zipIdx hb)]
    exact Int.ofNat_lt.mpr hlt
  · rw [dated, List.map_map]
    conv_rhs => rw [← List.zipIdx_map_fst 0 log, List.map_map]
    rfl

end

variable [DecidableEq K]

namespace Table

def cellWrite (key : K) (c : C) : Int × Effect K (Values C D) → Option (Int × Option D)
  | (t, .insert k values) => if k = key then (values c).map fun d => (t, d) else none
  | (_, .delete _) => none

/-- An INSERT sets the marker of the row, whichever columns it names. -/
def rowMarker (key : K) : Int × Effect K (Values C D) → Option (Int × Unit)
  | (t, .insert k _) => if k = key then some (t, ()) else none
  | (_, .delete _) => none

def tombstone (key : K) : Int × Effect K (Values C D) → Option (Int × Unit)
  | (t, .delete k) => if k = key then some (t, ()) else none
  | (_, .insert _ _) => none

/-- What a write leaves visible under the tombstone of its row. -/
def visible {α : Type} : Option (Int × α) → Option (Int × Unit) → Option α
  | none, _ => none
  | some x, none => some x.2
  | some x, some t => if t.1 < x.1 then some x.2 else none

def cell (log : List (Int × Effect K (Values C D))) (key : K) (c : C) : Option D :=
  (visible (newest (log.filterMap (cellWrite key c)))
    (newest (log.filterMap (tombstone key)))).join

def marked (log : List (Int × Effect K (Values C D))) (key : K) : Option Unit :=
  visible (newest (log.filterMap (rowMarker key))) (newest (log.filterMap (tombstone key)))

def row (log : List (Int × Effect K (Values C D))) (key : K) : Option (C → Option D) :=
  (marked log key).map fun _ => cell log key

end Table

/-- One statement on a table that has no timestamps. -/
def applyEffect (table : K → Option (C → Option D)) :
    Effect K (Values C D) → K → Option (C → Option D)
  | .insert key values =>
    Function.update table key (some fun c => (values c).getD ((table key).bind fun r => r c))
  | .delete key => Function.update table key none

def contentOf (effects : List (Effect K (Values C D))) : K → Option (C → Option D) :=
  effects.foldl applyEffect fun _ => none

theorem contentOf_append (effects : List (Effect K (Values C D))) (e : Effect K (Values C D)) :
    contentOf (effects ++ [e]) = applyEffect (contentOf effects) e := by
  rw [contentOf, List.foldl_append]
  rfl

namespace Table

theorem cellWrite_stamp (key : K) (c : C) (y : Int × Effect K (Values C D)) (z : Int × Option D)
    (h : cellWrite key c y = some z) : z.1 = y.1 := by
  obtain ⟨t, e⟩ := y
  cases e with
  | insert k values =>
    simp only [cellWrite] at h
    split at h
    · obtain ⟨d, -, rfl⟩ := Option.map_eq_some_iff.mp h
      rfl
    · cases h
  | delete k => cases h

theorem rowMarker_stamp (key : K) (y : Int × Effect K (Values C D)) (z : Int × Unit)
    (h : rowMarker key y = some z) : z.1 = y.1 := by
  obtain ⟨t, e⟩ := y
  cases e with
  | insert k values =>
    simp only [rowMarker] at h
    split at h
    · cases h
      rfl
    · cases h
  | delete k => cases h

theorem tombstone_stamp (key : K) (y : Int × Effect K (Values C D)) (z : Int × Unit)
    (h : tombstone key y = some z) : z.1 = y.1 := by
  obtain ⟨t, e⟩ := y
  cases e with
  | insert k values => cases h
  | delete k =>
    simp only [tombstone] at h
    split at h
    · cases h
      rfl
    · cases h

theorem visible_of_newer {α : Type} {x : Int × α} {t : Option (Int × Unit)}
    (h : ∀ y, t = some y → y.1 < x.1) : visible (some x) t = some x.2 := by
  cases t with
  | none => rfl
  | some y => simp [visible, h y rfl]

theorem visible_of_older {α : Type} {w : Option (Int × α)} {t : Int × Unit}
    (h : ∀ x, w = some x → x.1 < t.1) : visible w (some t) = none := by
  cases w with
  | none => rfl
  | some x => simp [visible, not_lt.mpr (le_of_lt (h x rfl))]

section

variable {log : List (Int × Effect K (Values C D))} {x : Int × Effect K (Values C D)}

theorem cell_append (h : ∀ y ∈ log, y.1 < x.1) (key : K) (c : C) :
    cell (log ++ [x]) key c = match x.2 with
      | .insert k values => if k = key then (values c).getD (cell log key c) else cell log key c
      | .delete k => if k = key then none else cell log key c := by
  obtain ⟨t, e⟩ := x
  rw [cell, newest_filterMap_append (cellWrite_stamp key c) h,
    newest_filterMap_append (tombstone_stamp key) h]
  cases e with
  | insert k values =>
    simp only [cellWrite, tombstone, Option.none_or]
    by_cases hk : k = key
    · simp only [if_pos hk]
      cases hv : values c with
      | none => rfl
      | some d =>
        have hnew := visible_of_newer (x := (t, d)) fun y hy =>
          newest_filterMap_lt (tombstone_stamp key) h hy
        simp only [Option.map_some, Option.some_or, hnew]
        rfl
    · simp only [if_neg hk, Option.none_or]
      rfl
  | delete k =>
    simp only [cellWrite, tombstone, Option.none_or]
    by_cases hk : k = key
    · have hold := visible_of_older (t := (t, ())) fun y hy =>
        newest_filterMap_lt (cellWrite_stamp key c) h hy
      simp only [if_pos hk, Option.some_or, hold]
      rfl
    · simp only [if_neg hk, Option.none_or]
      rfl

theorem marked_append (h : ∀ y ∈ log, y.1 < x.1) (key : K) :
    marked (log ++ [x]) key = match x.2 with
      | .insert k _ => if k = key then some () else marked log key
      | .delete k => if k = key then none else marked log key := by
  obtain ⟨t, e⟩ := x
  rw [marked, newest_filterMap_append (rowMarker_stamp key) h,
    newest_filterMap_append (tombstone_stamp key) h]
  cases e with
  | insert k values =>
    simp only [rowMarker, tombstone, Option.none_or]
    by_cases hk : k = key
    · have hnew := visible_of_newer (x := (t, ())) fun y hy =>
        newest_filterMap_lt (tombstone_stamp key) h hy
      simp only [if_pos hk, Option.some_or, hnew]
    · simp only [if_neg hk, Option.none_or]
      rfl
  | delete k =>
    simp only [rowMarker, tombstone, Option.none_or]
    by_cases hk : k = key
    · have hold := visible_of_older (t := (t, ())) fun y hy =>
        newest_filterMap_lt (rowMarker_stamp key) h hy
      simp only [if_pos hk, Option.some_or, hold]
    · simp only [if_neg hk, Option.none_or]
      rfl

end

/-- Applied in the order of their timestamps, the statements do what they do one after
the other. -/
theorem cell_marked_of_increasing {log : List (Int × Effect K (Values C D))}
    (h : log.Pairwise fun a b => a.1 < b.1) (key : K) :
    (∀ c, cell log key c = (contentOf (log.map Prod.snd) key).bind fun r => r c) ∧
      (marked log key).isSome = (contentOf (log.map Prod.snd) key).isSome := by
  induction log using List.reverseRecOn with
  | nil => exact ⟨fun _ => rfl, rfl⟩
  | append_singleton log x ih =>
    obtain ⟨hlog, -, hlast⟩ := List.pairwise_append.mp h
    have hnew : ∀ y ∈ log, y.1 < x.1 := fun y hy => hlast y hy x (List.mem_singleton.mpr rfl)
    obtain ⟨hcell, hmark⟩ := ih hlog
    rw [List.map_append, List.map_singleton, contentOf_append, marked_append hnew]
    simp only [cell_append hnew]
    obtain ⟨t, e⟩ := x
    cases e with
    | insert k values =>
      by_cases hk : k = key
      · subst hk
        simp [applyEffect, hcell]
      · simp [applyEffect, hk, Function.update_of_ne (Ne.symm hk), hcell, hmark]
    | delete k =>
      by_cases hk : k = key
      · subst hk
        simp [applyEffect]
      · simp [applyEffect, hk, Function.update_of_ne (Ne.symm hk), hcell, hmark]

theorem row_of_increasing {log : List (Int × Effect K (Values C D))}
    (h : log.Pairwise fun a b => a.1 < b.1) : row log = contentOf (log.map Prod.snd) := by
  funext key
  obtain ⟨hcell, hmark⟩ := cell_marked_of_increasing h key
  cases hc : contentOf (log.map Prod.snd) key with
  | none =>
    rw [hc, Option.isSome_none, Option.isSome_eq_false_iff, Option.isNone_iff_eq_none] at hmark
    simp [row, hmark]
  | some r =>
    rw [hc, Option.isSome_some] at hmark
    obtain ⟨u, hu⟩ := Option.isSome_iff_exists.mp hmark
    rw [row, hu, Option.map_some, Option.some.injEq]
    funext c
    rw [hcell, hc]
    rfl

theorem row_congr {log log' : List (Int × Effect K (Values C D))} (hu : StampsUnique log)
    (h : ∀ x, x ∈ log ↔ x ∈ log') : row log = row log' := by
  have htomb (key : K) := newest_filterMap_congr (tombstone_stamp (C := C) (D := D) key) hu h
  funext key
  have hm : marked log key = marked log' key := by
    rw [marked, marked, newest_filterMap_congr (rowMarker_stamp key) hu h, htomb]
  have hc : cell log key = cell log' key := by
    funext c
    rw [cell, cell, newest_filterMap_congr (cellWrite_stamp key c) hu h, htomb]
  rw [row, row, hm, hc]

end Table

/-- The rows that a select by full key returns: at most one. -/
def Table.select {N : Nat} (log : List (Statement N K (Values C D))) (key : K) :
    Option (Values C D) :=
  (row (dated log) key).map fun r c => some (r c)

end Hecuba
