import Hecuba.LateReads
import Hecuba.TimestampCalls
import Mathlib.Data.List.Pairwise

/-! Which runs of concurrent calls of `next` return different timestamps in the order of the
critical sections. -/

namespace Hecuba.TimestampGenerator

section

variable {κ : Type*}

def Action.enters : Action κ → Option κ
  | .critical c => some c
  | _ => none

/-- The calls in the order of their critical sections. -/
def sections (actions : List (Action κ)) : List κ := actions.filterMap Action.enters

theorem sections_append (pre post : List (Action κ)) : sections (pre ++ post) = sections pre ++ sections post :=
  List.filterMap_append

theorem sections_readClock (actions : List (Action κ)) (c : κ) :
    sections (actions ++ [.readClock c]) = sections actions := by simp [sections, Action.enters]

theorem sections_critical (actions : List (Action κ)) (c : κ) :
    sections (actions ++ [.critical c]) = sections actions ++ [c] := by simp [sections, Action.enters]

theorem sections_ret (actions : List (Action κ)) (c : κ) :
    sections (actions ++ [.ret c]) = sections actions := by simp [sections, Action.enters]

/-- The field `last` after the critical sections of `order`. -/
def lastAfter (clock : κ → Int64) (order : List κ) : Int64 :=
  order.foldl (fun last c => advance last (clock c)) 0

theorem lastAfter_append_singleton (clock : κ → Int64) (order : List κ) (c : κ) :
    lastAfter clock (order ++ [c]) = advance (lastAfter clock order) (clock c) := List.foldl_append

/-- The critical sections that lie before the return of `c`. -/
def Sees (actions : List (Action κ)) (c : κ) (order : List κ) : Prop :=
  ∃ pre post, actions = pre ++ .ret c :: post ∧ sections pre = order

/-- At every return, the latest critical section is that of the returning call. -/
def ReturnsOwn (actions : List (Action κ)) : Prop :=
  ∀ pre c post, actions = pre ++ .ret c :: post → (sections pre).getLast? = some c

theorem returnsOwn_append_singleton {actions : List (Action κ)} {a : Action κ} :
    ReturnsOwn (actions ++ [a]) ↔
      ReturnsOwn actions ∧ ∀ c, a = .ret c → (sections actions).getLast? = some c := by
  constructor
  · intro h
    refine ⟨fun pre c post hsplit => ?_, fun c hc => ?_⟩
    · exact h pre c (post ++ [a]) (by rw [hsplit, List.append_assoc, List.cons_append])
    · exact h actions c [] (by rw [hc])
  · rintro ⟨h, ha⟩ pre c post hsplit
    rcases List.eq_nil_or_concat' post with rfl | ⟨post, b, rfl⟩
    · obtain ⟨rfl, hb⟩ := List.append_inj' hsplit rfl
      exact ha c (List.cons.inj hb).1
    · rw [← List.cons_append, ← List.append_assoc] at hsplit
      exact h pre c post (List.append_inj' hsplit rfl).1

/-- The calls of `order`, one after the other. -/
def sequential (order : List κ) : List (Action κ) :=
  order.flatMap fun c => [.readClock c, .critical c, .ret c]

theorem sections_sequential (order : List κ) : sections (sequential order) = order := by
  induction order with
  | nil => rfl
  | cons c order ih =>
    rw [sequential, List.flatMap_cons, sections_append, ← sequential, ih]
    rfl

theorem returnsOwn_sequential (order : List κ) : ReturnsOwn (sequential order) := by
  induction order using List.reverseRecOn with
  | nil =>
    intro pre c post h
    simp [sequential] at h
  | append_singleton order c ih =>
    have hsplit : sequential (order ++ [c]) =
        sequential order ++ [.readClock c] ++ [.critical c] ++ [.ret c] := by simp [sequential]
    rw [hsplit]
    refine returnsOwn_append_singleton.mpr ⟨?_, fun d hd => ?_⟩
    · refine returnsOwn_append_singleton.mpr ⟨?_, fun d hd => by cases hd⟩
      exact returnsOwn_append_singleton.mpr ⟨ih, fun d hd => by cases hd⟩
    · rw [sections_critical, List.getLast?_concat, Action.ret.inj hd]

/-- No reading is so close to the greatest word that counting on from it, once for each later
critical section, leaves the words. -/
def Fits : List Int64 → Prop
  | [] => True
  | now :: rest => now.toInt + rest.length < 2 ^ 63 ∧ Fits rest

structure UniqueAndOrdered (actions : List (Action κ)) (s : Calls κ) : Prop where
  unique : ∀ c d v w, c ≠ d → s.stage c = .returned v → s.stage d = .returned w → v ≠ w
  ordered : (sections actions).Pairwise fun c d => ∀ v w, s.stage c = .returned v → s.stage d = .returned w → v < w

/-- Every call that has begun has returned. -/
def Calls.Complete (s : Calls κ) : Prop := ∀ c, s.stage c = .ready ∨ ∃ v, s.stage c = .returned v

theorem fits_step {last now : Int64} {rest : List Int64} :
    Fits (last :: now :: rest) ↔ last < advance last now ∧ Fits (advance last now :: rest) := by
  have hbound := (advance last now).toInt_lt
  simp only [Fits, List.length_cons, Int64.lt_iff_toInt_lt, Nat.cast_add, Nat.cast_one]
  by_cases hlast : last.toInt + 1 < 2 ^ 63
  · rw [toInt_advance now hlast, nextStamp]
    split
    · constructor
      · rintro ⟨h1, -, h3⟩
        exact ⟨by omega, by omega, h3⟩
      · rintro ⟨-, h2, h3⟩
        exact ⟨by omega, by omega, h3⟩
    · constructor
      · rintro ⟨-, h2, h3⟩
        exact ⟨by omega, h2, h3⟩
      · rintro ⟨-, h2, h3⟩
        exact ⟨by omega, h2, h3⟩
  · constructor
    · rintro ⟨h1, -⟩
      omega
    · rintro ⟨h1, -⟩
      omega

theorem fits_iff_rises {clock : κ → Int64} {order : List κ} {last : Int64} :
    Fits (last :: order.map clock) ↔ Rises (fun last c => advance last (clock c)) last order := by
  induction order generalizing last with
  | nil =>
    have hlt := last.toInt_lt
    simp only [List.map_nil, Fits, List.length_nil, Nat.cast_zero, Int.add_zero, and_true, hlt, true_iff]
    intro pre c post h
    simp at h
  | cons c order ih => rw [List.map_cons, fits_step, rises_cons_iff, ih]

/-- Below the greatest word the field runs as the unbounded stamps of the write path. -/
theorem toInt_lastAfter {clock : κ → Int64} {order : List κ} (h : Fits (0 :: order.map clock)) :
    (lastAfter clock order).toInt = order.foldl (fun last c => nextStamp last (clock c).toInt) 0 := by
  have hrises := fits_iff_rises.mp h
  clear h
  induction order using List.reverseRecOn with
  | nil => exact Int64.toInt_zero
  | append_singleton order c ih =>
    have hstep := hrises order c [] rfl
    have hroom := (advance (lastAfter clock order) (clock c)).toInt_lt
    change lastAfter clock order < advance (lastAfter clock order) (clock c) at hstep
    rw [Int64.lt_iff_toInt_lt] at hstep
    rw [lastAfter_append_singleton, List.foldl_append, ← ih ?_]
    · exact toInt_advance _ (by omega)
    · exact fun pre d post hsplit => hrises pre d (post ++ [c]) (by simp [hsplit])

theorem zero_lt_advance (now : Int64) : 0 < advance 0 now := by
  rw [Int64.lt_iff_toInt_lt, toInt_advance now (by decide), nextStamp]
  split
  · decide
  · next h => simpa using h

/-- What a run has left behind. -/
structure Trace (clock : κ → Int64) (actions : List (Action κ)) (s : Calls κ) : Prop where
  last : s.last = lastAfter clock (sections actions)
  nodup : (sections actions).Nodup
  timed : ∀ c now, s.stage c = .timed now → now = clock c
  entered : ∀ c, c ∈ sections actions ↔ s.stage c = .unlocked ∨ ∃ v, s.stage c = .returned v
  returned : ∀ c v, s.stage c = .returned v → .ret c ∈ actions

theorem Trace.fresh (clock : κ → Int64) : Trace clock [] (Calls.fresh κ) := by
  constructor <;> simp [Calls.fresh, sections, lastAfter]

end

section

variable {κ : Type*} [DecidableEq κ] {clock : κ → Int64}

/-- A step changes the stage of one call, and the order only by that call. -/
theorem Trace.move {actions : List (Action κ)} {s s' : Calls κ} (h : Trace clock actions s) {a : Action κ} {b : κ}
    {stage : Stage} (hstage : s'.stage = Function.update s.stage b stage)
    (hlast : s'.last = lastAfter clock (sections (actions ++ [a]))) (hnodup : (sections (actions ++ [a])).Nodup)
    (hothers : ∀ c ≠ b, c ∈ sections (actions ++ [a]) ↔ c ∈ sections actions)
    (hself : b ∈ sections (actions ++ [a]) ↔ stage = .unlocked ∨ ∃ v, stage = .returned v)
    (htimed : ∀ now, stage = .timed now → now = clock b) (hret : ∀ v, stage = .returned v → a = .ret b) :
    Trace clock (actions ++ [a]) s' := by
  have hother (c : κ) (hc : c ≠ b) : s'.stage c = s.stage c := by rw [hstage, Function.update_of_ne hc]
  have hb : s'.stage b = stage := by rw [hstage, Function.update_self]
  refine ⟨hlast, hnodup, fun c now hc => ?_, fun c => ?_, fun c v hc => ?_⟩
  · by_cases hcb : c = b
    · rw [hcb]
      exact htimed now (hb.symm.trans (hcb ▸ hc))
    · exact h.timed c now ((hother c hcb).symm.trans hc)
  · by_cases hcb : c = b
    · rw [hcb, hb, hself]
    · rw [hother c hcb, hothers c hcb, h.entered c]
  · by_cases hcb : c = b
    · rw [hcb, hret v (hb.symm.trans (hcb ▸ hc))]
      exact List.mem_append_right _ (List.mem_singleton_self _)
    · exact List.mem_append_left _ (h.returned c v ((hother c hcb).symm.trans hc))

theorem Trace.step {actions : List (Action κ)} {s s' : Calls κ} {a : Action κ} (h : Trace clock actions s)
    (hs : s.step clock a = some s') : Trace clock (actions ++ [a]) s' := by
  rcases Calls.step_cases hs with ⟨b, rfl, hb, rfl⟩ | ⟨b, now, rfl, hb, rfl⟩ | ⟨b, rfl, hb, rfl⟩
  · have hsec := sections_readClock actions b
    have hmem := h.entered b
    exact h.move rfl (hsec ▸ h.last) (hsec ▸ h.nodup) (by simp [hsec]) (by simp [hsec, hmem, hb]) (by simp) (by simp)
  · have hsec := sections_critical actions b
    have hmem : b ∉ sections actions := by simp [h.entered b, hb]
    refine h.move rfl ?_ ?_ (fun c hc => by simp [hsec, hc]) (by simp [hsec]) (by simp) (by simp)
    · rw [hsec, lastAfter_append_singleton, ← h.last, h.timed b now hb]
    · rw [hsec]
      refine List.nodup_append.mpr ⟨h.nodup, List.nodup_singleton b, fun c hc d hd he => ?_⟩
      rw [he, List.mem_singleton.mp hd] at hc
      exact hmem hc
  · have hsec := sections_ret actions b
    have hmem : b ∈ sections actions := (h.entered b).mpr (.inl hb)
    exact h.move rfl (hsec ▸ h.last) (hsec ▸ h.nodup) (by simp [hsec]) (by simp [hsec, hmem]) (by simp) (by simp)

theorem trace_of_run {actions : List (Action κ)} {s : Calls κ} (hs : (Calls.fresh κ).run clock actions = some s) :
    Trace clock actions s := by
  induction actions using List.reverseRecOn generalizing s with
  | nil =>
    obtain rfl := Option.some.inj hs
    exact Trace.fresh clock
  | append_singleton actions a ih =>
    obtain ⟨u, hu, ha⟩ := Option.bind_eq_some_iff.mp ((Calls.run_append actions [a]).symm.trans hs)
    exact (ih hu).step (by simpa [Calls.run] using ha)

theorem Calls.step_returned {s s' : Calls κ} {a : Action κ} (hs : s.step clock a = some s') {c : κ} {v : Int64}
    (hc : s.stage c = .returned v) : s'.stage c = .returned v := by
  have hne (b : κ) (hb : s.stage b ≠ .returned v) (stage : Stage) :
      Function.update s.stage b stage c = .returned v := by
    have hcb : c ≠ b := fun heq => hb (heq ▸ hc)
    rw [Function.update_of_ne hcb, hc]
  rcases Calls.step_cases hs with ⟨b, -, hb, rfl⟩ | ⟨b, now, -, hb, rfl⟩ | ⟨b, -, hb, rfl⟩
  all_goals exact hne b (by simp [hb]) _

theorem Calls.run_returned {s s' : Calls κ} {actions : List (Action κ)} (hs : s.run clock actions = some s') {c : κ}
    {v : Int64} (hc : s.stage c = .returned v) : s'.stage c = .returned v := by
  induction actions generalizing s with
  | nil => rwa [← Option.some.inj hs]
  | cons a actions ih =>
    obtain ⟨u, ha, hrest⟩ := Option.bind_eq_some_iff.mp ((List.foldlM_cons ..).symm.trans hs)
    exact ih hrest (Calls.step_returned ha hc)

theorem sees_spec {actions : List (Action κ)} {s : Calls κ} (hs : (Calls.fresh κ).run clock actions = some s)
    {c : κ} {order : List κ} (h : Sees actions c order) :
    (order <+: sections actions ∧ c ∈ order) ∧ s.stage c = .returned (lastAfter clock order) := by
  obtain ⟨pre, post, rfl, rfl⟩ := h
  obtain ⟨u, hu, hrest⟩ := Option.bind_eq_some_iff.mp ((Calls.run_append pre (.ret c :: post)).symm.trans hs)
  obtain ⟨u', ha, hpost⟩ := Option.bind_eq_some_iff.mp ((List.foldlM_cons ..).symm.trans hrest)
  have htrace := trace_of_run hu
  rcases Calls.step_cases ha with ⟨b, hb, -, -⟩ | ⟨b, now, hb, -, -⟩ | ⟨b, hb, hstage, rfl⟩
  · cases hb
  · cases hb
  · obtain rfl := Action.ret.inj hb
    refine ⟨⟨⟨sections (.ret c :: post), (sections_append ..).symm⟩, (htrace.entered c).mpr (.inl hstage)⟩, ?_⟩
    refine Calls.run_returned hpost ?_
    rw [← htrace.last]
    exact Function.update_self ..

theorem exists_sees {actions : List (Action κ)} {s : Calls κ} (hs : (Calls.fresh κ).run clock actions = some s)
    {c : κ} {v : Int64} (hc : s.stage c = .returned v) : ∃ order, Sees actions c order := by
  obtain ⟨pre, post, h⟩ := List.append_of_mem ((trace_of_run hs).returned c v hc)
  exact ⟨_, pre, post, h, rfl⟩

theorem ReturnsOwn.returned {actions : List (Action κ)} {s : Calls κ} (hown : ReturnsOwn actions)
    (hs : (Calls.fresh κ).run clock actions = some s) {pre post : List κ} {c : κ} {v : Int64}
    (horder : sections actions = pre ++ c :: post) (hc : s.stage c = .returned v) :
    v = lastAfter clock (pre ++ [c]) := by
  obtain ⟨order, hsees⟩ := exists_sees hs hc
  obtain ⟨⟨hfront, -⟩, hv⟩ := sees_spec hs hsees
  obtain ⟨before, after, hsplit, rfl⟩ := hsees
  obtain ⟨p, hp⟩ := List.getLast?_eq_some_iff.mp (hown before c after hsplit)
  rw [hp] at hfront hv
  have heq : p = pre := prefix_unique_of_nodup (trace_of_run hs).nodup hfront ⟨post, by simp [horder]⟩
  rw [Stage.returned.inj (hc.symm.trans hv), heq]

theorem UniqueAndOrdered.of_ordered {actions : List (Action κ)} {s : Calls κ}
    (hs : (Calls.fresh κ).run clock actions = some s)
    (h : (sections actions).Pairwise fun c d => ∀ v w, s.stage c = .returned v → s.stage d = .returned w → v < w) :
    UniqueAndOrdered actions s := by
  have hentered (c : κ) (v : Int64) (hc : s.stage c = .returned v) : c ∈ sections actions :=
    ((trace_of_run hs).entered c).mpr (.inr ⟨v, hc⟩)
  let Differ (c d : κ) : Prop := ∀ v w, s.stage c = .returned v → s.stage d = .returned w → v ≠ w
  have hsymm : Std.Symm Differ := ⟨fun c d hh v w hc hd => (hh w v hd hc).symm⟩
  have hdiffer : (sections actions).Pairwise Differ :=
    h.imp fun hlt v w hc hd heq => Int64.lt_irrefl (heq ▸ hlt v w hc hd)
  exact ⟨fun c d v w hcd hc hd => hdiffer.forall (hentered c v hc) (hentered d w hd) hcd v w hc hd, h⟩

theorem unique_and_ordered_of_returnsOwn {actions : List (Action κ)} {s : Calls κ}
    (hs : (Calls.fresh κ).run clock actions = some s) (hown : ReturnsOwn actions)
    (hfits : Fits (0 :: (sections actions).map clock)) : UniqueAndOrdered actions s := by
  have hrises := fits_iff_rises.mp hfits
  refine UniqueAndOrdered.of_ordered hs (pairwise_of_splits fun pre c post horder d hd v w hv hw => ?_)
  obtain ⟨mid, rest, rfl⟩ := List.append_of_mem hd
  have horder' : sections actions = (pre ++ [c] ++ mid) ++ d :: rest := by simp [horder]
  rw [hown.returned hs horder hv, hown.returned hs horder' hw, List.append_assoc (pre ++ [c])]
  exact hrises.lt (by simp) ⟨rest, by simp [horder]⟩

theorem returned_of_complete {actions : List (Action κ)} {s : Calls κ}
    (hs : (Calls.fresh κ).run clock actions = some s) (hdone : s.Complete) {c : κ} (hc : c ∈ sections actions) :
    ∃ v, s.stage c = .returned v := by
  rcases ((trace_of_run hs).entered c).mp hc with hc | hc
  · rcases hdone c with hd | ⟨v, hd⟩
    all_goals rw [hc] at hd; cases hd
  · exact hc

theorem returnsOwn_of_unique {actions : List (Action κ)} {s : Calls κ}
    (hs : (Calls.fresh κ).run clock actions = some s) (hdone : s.Complete) (h : UniqueAndOrdered actions s) :
    ReturnsOwn actions := by
  intro pre c post hsplit
  refine own_of_distinct (trace_of_run hs).nodup (fun c p hp => (sees_spec hs hp).1) (fun c hc => ?_)
    (fun c d p q hcd hp hq => ?_) ⟨pre, post, hsplit, rfl⟩
  · obtain ⟨v, hv⟩ := returned_of_complete hs hdone hc
    exact exists_sees hs hv
  · intro heq
    rw [heq] at hp
    exact h.unique c d _ _ hcd (sees_spec hs hp).2 (sees_spec hs hq).2 rfl

theorem fits_of_ordered {actions : List (Action κ)} {s : Calls κ}
    (hs : (Calls.fresh κ).run clock actions = some s) (hdone : s.Complete) (hown : ReturnsOwn actions)
    (h : UniqueAndOrdered actions s) : Fits (0 :: (sections actions).map clock) := by
  refine fits_iff_rises.mpr (rises_of_own (fun c => zero_lt_advance (clock c)) fun pre c d post horder => ?_)
  have horder' : sections actions = (pre ++ [c]) ++ d :: post := by simp [horder]
  obtain ⟨v, hv⟩ := returned_of_complete hs hdone (c := c) (by simp [horder])
  obtain ⟨w, hw⟩ := returned_of_complete hs hdone (c := d) (by simp [horder])
  have hpair := h.ordered
  rw [horder] at hpair
  have hlt := (List.pairwise_cons.mp (List.pairwise_append.mp hpair).2.1).1 d List.mem_cons_self v w hv hw
  rw [hown.returned hs horder hv, hown.returned hs horder' hw, List.append_assoc] at hlt
  exact hlt

/-- One after the other, the calls return the stamps of the write path. -/
theorem sequential_stamps {order pre post : List κ} {s : Calls κ}
    (hs : (Calls.fresh κ).run clock (sequential order) = some s) (hfits : Fits (0 :: order.map clock)) {c : κ}
    {v : Int64} (horder : order = pre ++ c :: post) (hc : s.stage c = .returned v) :
    v.toInt = (pre ++ [c]).foldl (fun last c => nextStamp last (clock c).toInt) 0 := by
  have hsplit : sections (sequential order) = pre ++ c :: post := (sections_sequential order).trans horder
  rw [(returnsOwn_sequential order).returned hs hsplit hc]
  refine toInt_lastAfter (fits_iff_rises.mpr fun before d after heq => ?_)
  exact fits_iff_rises.mp hfits before d (after ++ post) (by rw [horder, ← List.singleton_append, ← List.append_assoc,
    heq, List.append_assoc, List.cons_append])

/-- Statement by statement, on the machine with its mutex. -/
theorem statements_unique_and_ordered_iff {schedule : List κ} {s : Machine κ}
    (hs : (Machine.fresh κ).run clock schedule = some s) (hdone : (s.calls clock).Complete) :
    let actions := (Machine.fresh κ).actions clock schedule
    UniqueAndOrdered actions (s.calls clock) ↔
      ReturnsOwn actions ∧ Fits (0 :: (sections actions).map clock) := by
  have hrun := (Guarded.fresh.refines hs).1
  constructor
  · intro h
    have hown := returnsOwn_of_unique hrun hdone h
    exact ⟨hown, fits_of_ordered hrun hdone hown h⟩
  · rintro ⟨hown, hfits⟩
    exact unique_and_ordered_of_returnsOwn hrun hown hfits

theorem unique_and_ordered_iff {actions : List (Action κ)} {s : Calls κ}
    (hs : (Calls.fresh κ).run clock actions = some s) :
    (ReturnsOwn actions ∧ Fits (0 :: (sections actions).map clock) → UniqueAndOrdered actions s) ∧
      (s.Complete →
        (UniqueAndOrdered actions s ↔ ReturnsOwn actions ∧ Fits (0 :: (sections actions).map clock))) := by
  have hmeets : ReturnsOwn actions ∧ Fits (0 :: (sections actions).map clock) → UniqueAndOrdered actions s :=
    fun h => unique_and_ordered_of_returnsOwn hs h.1 h.2
  refine ⟨hmeets, fun hdone => ⟨fun h => ?_, hmeets⟩⟩
  have hown := returnsOwn_of_unique hs hdone h
  exact ⟨hown, fits_of_ordered hs hdone hown h⟩

/-- Two calls that read the clock one after the other. -/
def twoReadings (c : Nat) : Int64 := if c = 0 then 5 else 9

theorem unique_and_ordered_iff_two : ∃ s,
    (Calls.fresh Nat).run twoReadings (sequential [1, 0]) = some s ∧ s.stage 1 = .returned 9 ∧
      s.stage 0 = .returned 10 ∧ UniqueAndOrdered (sequential [1, 0]) s := by
  obtain ⟨s, hs⟩ : ∃ s, (Calls.fresh Nat).run twoReadings (sequential [1, 0]) = some s := ⟨_, rfl⟩
  refine ⟨s, hs, ?_, ?_, ?_⟩
  · obtain rfl := Option.some.inj hs
    decide
  · obtain rfl := Option.some.inj hs
    decide
  · exact (unique_and_ordered_iff hs).1 ⟨returnsOwn_sequential _, by simp [sections_sequential, Fits, twoReadings]⟩

/-- Both calls are past their unlock before the first returns. -/
def staggered : List (Action Nat) :=
  [.readClock 0, .readClock 1, .critical 0, .critical 1, .ret 0, .ret 1]

theorem staggered_not_unique : ∃ s, (Calls.fresh Nat).run twoReadings staggered = some s ∧ s.Complete ∧
    s.stage 0 = .returned 9 ∧ s.stage 1 = .returned 9 ∧ ¬ UniqueAndOrdered staggered s := by
  obtain ⟨s, hs⟩ : ∃ s, (Calls.fresh Nat).run twoReadings staggered = some s := ⟨_, rfl⟩
  have hzero : s.stage 0 = .returned 9 := by
    obtain rfl := Option.some.inj hs
    decide
  have hone : s.stage 1 = .returned 9 := by
    obtain rfl := Option.some.inj hs
    decide
  refine ⟨s, hs, fun c => ?_, hzero, hone, fun h => ?_⟩
  · match c with
    | 0 => exact .inr ⟨9, hzero⟩
    | 1 => exact .inr ⟨9, hone⟩
    | c + 2 =>
      obtain rfl := Option.some.inj hs
      exact .inl rfl
  · exact h.unique 0 1 9 9 Nat.zero_ne_one hzero hone rfl

end

end Hecuba.TimestampGenerator
