import Mathlib.Data.List.Induction
import Mathlib.Data.List.Nodup

/-! Lists of pairs in the order of their last use, newest first and cut to a length, and
what the calls made so far say about them. -/

namespace Hecuba

variable {K V : Type} [DecidableEq K]

def moveToFront (key : K) (value : V) (items : List (K × V)) : List (K × V) :=
  (key, value) :: items.filter fun e => e.1 ≠ key

def findPair (key : K) (items : List (K × V)) : Option V :=
  (items.find? fun e => e.1 = key).map Prod.snd

def lruAdd (n : Nat) (key : K) (value : V) (items : List (K × V)) : List (K × V) :=
  (moveToFront key value items).take n

def lruRemove (key : K) (items : List (K × V)) : List (K × V) := items.filter fun e => e.1 ≠ key

inductive CacheCall (K V : Type) where
  | add (key : K) (value : V)
  | get (key : K)
  | remove (key : K)
  | clear
  deriving DecidableEq, Repr

inductive CacheOutcome (V : Type) where
  | done
  | value (v : V)
  | outOfRange
  deriving DecidableEq, Repr

def lruStep (n : Nat) (items : List (K × V)) : CacheCall K V → CacheOutcome V × List (K × V)
  | .add key value => (.done, lruAdd n key value items)
  | .get key =>
    match findPair key items with
    | some v => (.value v, moveToFront key v items)
    | none => (.outOfRange, items)
  | .remove key => (.done, lruRemove key items)
  | .clear => (.done, [])

/-- Calls with their outcomes, the last one first. -/
abbrev History (K V : Type) := List (CacheCall K V × CacheOutcome V)

/-- A call that adds `key` or finds it. -/
def uses (key : K) : CacheCall K V × CacheOutcome V → Bool
  | (.add k _, _) => k = key
  | (.get k, .value _) => k = key
  | _ => false

/-- When `key` was last used, counted from 1; it is 0 for a key that never was. -/
def lastUse (key : K) : History K V → Nat
  | [] => 0
  | e :: history => if uses key e then history.length + 1 else lastUse key history

def lastAdded (key : K) : History K V → Option V
  | [] => none
  | (.add k v, _) :: history => if k = key then some v else lastAdded key history
  | _ :: history => lastAdded key history

/-- The items are in the order of their last use, with the values last added. -/
structure Recent (history : History K V) (items : List (K × V)) : Prop where
  ordered : items.Pairwise fun a b => lastUse b.1 history < lastUse a.1 history
  latest : ∀ e ∈ items, lastAdded e.1 history = some e.2

theorem lastUse_le (key : K) (history : History K V) : lastUse key history ≤ history.length := by
  induction history with
  | nil => exact Nat.le_refl 0
  | cons e history ih =>
    by_cases h : uses key e = true
    · simp [lastUse, h]
    · simp only [lastUse, h, List.length_cons]
      exact Nat.le_succ_of_le ih

theorem findPair_mem {key : K} {v : V} {items : List (K × V)} (h : findPair key items = some v) :
    (key, v) ∈ items := by
  obtain ⟨e, he, rfl⟩ := Option.map_eq_some_iff.mp h
  obtain rfl : e.1 = key := by simpa using List.find?_some he
  exact List.mem_of_find?_eq_some he

theorem findPair_eq_none {key : K} {items : List (K × V)} :
    findPair key items = none ↔ key ∉ items.map Prod.fst := by
  have hnone : (items.find? fun e => e.1 = key) = none ↔ ∀ e ∈ items, e.1 ≠ key := by
    simp [List.find?_eq_none]
  rw [findPair, Option.map_eq_none_iff, hnone, List.mem_map]
  exact ⟨fun h ⟨e, he, hk⟩ => h e he hk, fun h e he hk => h ⟨e, he, hk⟩⟩

theorem findPair_iff {key : K} {v : V} {items : List (K × V)} (h : (items.map Prod.fst).Nodup) :
    findPair key items = some v ↔ (key, v) ∈ items := by
  refine ⟨findPair_mem, fun hmem => ?_⟩
  cases hf : findPair key items with
  | none => exact absurd (List.mem_map_of_mem hmem) (findPair_eq_none.mp hf)
  | some u =>
    have he := List.inj_on_of_nodup_map h (findPair_mem hf) hmem rfl
    rw [(Prod.mk.inj he).2]

theorem filter_absent {key : K} {items : List (K × V)} (h : findPair key items = none) :
    (items.filter fun e => e.1 ≠ key) = items :=
  List.filter_eq_self.mpr fun e he => by
    have hne : e.1 ≠ key := fun hk => findPair_eq_none.mp h (hk ▸ List.mem_map_of_mem he)
    simpa using hne

/-- A key that is present leaves room for itself. -/
theorem length_moveToFront {key : K} {v : V} {items : List (K × V)} (h : findPair key items = some v) (value : V) :
    (moveToFront key value items).length ≤ items.length := by
  have hlt : (items.filter fun e => e.1 ≠ key).length < items.length :=
    List.length_filter_lt_length_iff_exists.mpr ⟨(key, v), findPair_mem h, by simp⟩
  rw [moveToFront, List.length_cons]
  exact hlt

theorem lruAdd_room {n : Nat} {key : K} {items : List (K × V)} (h : findPair key items = none)
    (hlt : items.length < n) (value : V) : lruAdd n key value items = (key, value) :: items := by
  rw [lruAdd, moveToFront, filter_absent h, List.take_of_length_le (Nat.succ_le_of_lt hlt)]

theorem lruAdd_full {n : Nat} {key : K} {items : List (K × V)} (h : findPair key items = none)
    (hfull : items.length = n) (hn : 1 ≤ n) (value : V) :
    lruAdd n key value items = (key, value) :: items.dropLast := by
  obtain ⟨m, rfl⟩ := Nat.exists_eq_succ_of_ne_zero (Nat.pos_iff_ne_zero.mp hn)
  rw [lruAdd, moveToFront, filter_absent h, List.take_succ_cons, List.dropLast_eq_take, hfull]
  rfl

theorem lruAdd_length (n : Nat) (key : K) (value : V) (items : List (K × V)) :
    (lruAdd n key value items).length ≤ n := List.length_take_le n _

theorem lruStep_length {n : Nat} {items : List (K × V)} (h : items.length ≤ n) (call : CacheCall K V) :
    (lruStep n items call).2.length ≤ n := by
  cases call with
  | add key value => exact lruAdd_length n key value items
  | get key =>
    cases hf : findPair key items with
    | none => simpa [lruStep, hf] using h
    | some v => simpa [lruStep, hf] using Nat.le_trans (length_moveToFront hf v) h
  | remove key => exact Nat.le_trans (List.length_filter_le _ _) h
  | clear => exact Nat.zero_le n

namespace Recent

variable {history : History K V} {items : List (K × V)}

theorem nodup (h : Recent history items) : (items.map Prod.fst).Nodup := by
  rw [List.Nodup, List.pairwise_map]
  refine h.ordered.imp fun {a b} hlt (heq : a.1 = b.1) => ?_
  rw [heq] at hlt
  exact Nat.lt_irrefl _ hlt

theorem sublist {l : List (K × V)} (h : Recent history items) (hl : l.Sublist items) : Recent history l :=
  ⟨h.ordered.sublist hl, fun e he => h.latest e (hl.mem he)⟩

theorem skip {e : CacheCall K V × CacheOutcome V} (h : Recent history items)
    (huses : ∀ i ∈ items, uses i.1 e = false)
    (hadds : ∀ i ∈ items, lastAdded i.1 (e :: history) = lastAdded i.1 history) :
    Recent (e :: history) items := by
  have hlast : ∀ i ∈ items, lastUse i.1 (e :: history) = lastUse i.1 history :=
    fun i hi => by simp [lastUse, huses i hi]
  refine ⟨h.ordered.imp_of_mem fun ha hb hab => ?_, fun i hi => ?_⟩
  · rwa [hlast _ ha, hlast _ hb]
  · rw [hadds i hi, h.latest i hi]

theorem moveToFront {key : K} {v : V} {e : CacheCall K V × CacheOutcome V} (h : Recent history items)
    (huses : ∀ k, uses k e = decide (key = k))
    (hadds : ∀ k, k ≠ key → lastAdded k (e :: history) = lastAdded k history)
    (hv : lastAdded key (e :: history) = some v) :
    Recent (e :: history) (Hecuba.moveToFront key v items) := by
  have hkept : ∀ i ∈ items.filter (fun i => i.1 ≠ key), i.1 ≠ key := fun i hi => by
    simpa using (List.mem_filter.mp hi).2
  have hrest : Recent (e :: history) (items.filter fun i => i.1 ≠ key) :=
    (h.sublist List.filter_sublist).skip (fun i hi => by simp [huses, (hkept i hi).symm])
      fun i hi => hadds i.1 (hkept i hi)
  refine ⟨List.pairwise_cons.mpr ⟨fun i hi => ?_, hrest.ordered⟩, fun i hi => ?_⟩
  · have hle := lastUse_le i.1 history
    have hi' := (hkept i hi).symm
    simp [lastUse, huses, hi']
    omega
  · rcases List.mem_cons.mp hi with rfl | hi
    · exact hv
    · exact hrest.latest i hi

/-- Every call keeps the items in the order of their last use. -/
theorem step (h : Recent history items) (n : Nat) (call : CacheCall K V) :
    Recent ((call, (lruStep n items call).1) :: history) (lruStep n items call).2 := by
  cases call with
  | add key value =>
    refine (h.moveToFront (fun k => rfl) (fun k hk => ?_) ?_).sublist (List.take_sublist n _)
    · simp [lastAdded, hk.symm]
    · simp [lastAdded]
  | get key =>
    cases hf : findPair key items with
    | none =>
      simp only [lruStep, hf]
      exact h.skip (fun i hi => rfl) fun i hi => rfl
    | some v =>
      simp only [lruStep, hf]
      exact h.moveToFront (fun k => rfl) (fun k hk => rfl) (h.latest (key, v) (findPair_mem hf))
  | remove key => exact (h.sublist List.filter_sublist).skip (fun i hi => rfl) fun i hi => rfl
  | clear => exact ⟨List.Pairwise.nil, by simp [lruStep]⟩

/-- The item that `lruAdd` drops was used before all the others. -/
theorem evicted {n : Nat} {key : K} {value : V} (h : Recent history items) (hn : items.length ≤ n)
    {old e : K × V} (hold : old ∈ items) (hgone : old.1 ∉ (lruAdd n key value items).map Prod.fst)
    (he : e ∈ items) (hne : e.1 ≠ old.1) : lastUse old.1 history < lastUse e.1 history := by
  cases n with
  | zero =>
    have hnil : items = [] := List.length_eq_zero_iff.mp (Nat.le_zero.mp hn)
    simp [hnil] at hold
  | succ n =>
    simp only [lruAdd, Hecuba.moveToFront, List.take_succ_cons, List.map_cons, List.mem_cons, not_or] at hgone
    obtain ⟨hkey, hgone⟩ := hgone
    generalize hl : (items.filter fun i => i.1 ≠ key) = l at hgone
    have hsub : l.Sublist items := hl ▸ List.filter_sublist
    have hin : old ∈ l := hl ▸ List.mem_filter.mpr ⟨hold, by simpa using hkey⟩
    rw [← List.take_append_drop n l] at hin
    have hdrop : old ∈ l.drop n := by
      rcases List.mem_append.mp hin with hin | hin
      · exact absurd (List.mem_map_of_mem hin) hgone
      · exact hin
    -- something is dropped, so all the items were kept by the filter
    have hlen : items.length ≤ l.length := by
      have hpos := List.length_pos_of_mem hdrop
      rw [List.length_drop] at hpos
      omega
    obtain rfl : l = items := hsub.eq_of_length_le hlen
    have hord := h.ordered
    rw [← List.take_append_drop n l, List.pairwise_append] at hord
    rw [← List.take_append_drop n l] at he
    rcases List.mem_append.mp he with he | he
    · exact hord.2.2 e he old hdrop
    · obtain ⟨last, hlast⟩ : ∃ last, l.drop n = [last] := by
        have hpos := List.length_pos_of_mem hdrop
        rw [← List.length_eq_one_iff]
        rw [List.length_drop] at hpos ⊢
        omega
      rw [hlast, List.mem_singleton] at he hdrop
      exact absurd (by rw [he, hdrop]) hne

end Recent

def lruRun (n : Nat) (calls : List (CacheCall K V)) : History K V × List (K × V) :=
  calls.foldl (fun s call => ((call, (lruStep n s.2 call).1) :: s.1, (lruStep n s.2 call).2)) ([], [])

theorem lruRun_append (n : Nat) (calls : List (CacheCall K V)) (call : CacheCall K V) :
    lruRun n (calls ++ [call]) = ((call, (lruStep n (lruRun n calls).2 call).1) :: (lruRun n calls).1,
      (lruStep n (lruRun n calls).2 call).2) := by
  simp [lruRun]

theorem lruRun_length (n : Nat) (calls : List (CacheCall K V)) : (lruRun n calls).2.length ≤ n := by
  induction calls using List.reverseRecOn with
  | nil => exact Nat.zero_le n
  | append_singleton calls call ih =>
    rw [lruRun_append]
    exact lruStep_length ih call

theorem lruRun_recent (n : Nat) (calls : List (CacheCall K V)) :
    Recent (lruRun n calls).1 (lruRun n calls).2 := by
  induction calls using List.reverseRecOn with
  | nil => exact ⟨List.Pairwise.nil, by simp [lruRun]⟩
  | append_singleton calls call ih =>
    rw [lruRun_append]
    exact ih.step n call

end Hecuba
