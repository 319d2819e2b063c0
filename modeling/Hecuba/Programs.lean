import Mathlib.Data.Set.Basic

/-! Programs over a state that may throw, with the rules of their pre- and postconditions. -/

namespace Hecuba

/-- A program returns or throws, and leaves a state in both cases. -/
def Program (σ ε α : Type) : Type := σ → Except ε α × σ

namespace Program

variable {σ ε α β : Type}

def bind (m : Program σ ε α) (f : α → Program σ ε β) : Program σ ε β := fun s =>
  match m s with
  | (.ok a, s') => f a s'
  | (.error e, s') => (.error e, s')

instance : Monad (Program σ ε) where
  pure a := fun s => (.ok a, s)
  bind := bind

def throw (e : ε) : Program σ ε α := fun s => (.error e, s)

/-- The state stays as the failed part has left it. -/
def tryCatch (m : Program σ ε α) (handler : ε → Program σ ε α) : Program σ ε α := fun s =>
  match m s with
  | (.ok a, s') => (.ok a, s')
  | (.error e, s') => handler e s'

def forEach (f : α → Program σ ε Unit) : List α → Program σ ε Unit
  | [] => pure ()
  | a :: l => do
    f a
    forEach f l

/-- A loop that leaves at the first element that fails the test. -/
def all (p : α → Program σ ε Bool) : List α → Program σ ε Bool
  | [] => pure true
  | a :: l => do
    if ← p a then all p l else pure false

def any (p : α → Program σ ε Bool) : List α → Program σ ε Bool
  | [] => pure false
  | a :: l => do
    if ← p a then pure true else any p l

def filter (p : α → Program σ ε Bool) : List α → Program σ ε (List α)
  | [] => pure []
  | a :: l => do
    let keep ← p a
    let rest ← filter p l
    pure (if keep then a :: rest else rest)

/-- Started in `P` the program returns in `Q` or throws in `E`. -/
def Triple (P : σ → Prop) (m : Program σ ε α) (Q : α → σ → Prop) (E : ε → σ → Prop) : Prop :=
  ∀ s, P s → match m s with
    | (.ok a, s') => Q a s'
    | (.error e, s') => E e s'

/-- The program does not throw. -/
def Never : ε → σ → Prop := fun _ _ => False

namespace Triple

variable {P P' : σ → Prop} {m : Program σ ε α} {f : α → Program σ ε β} {Q Q' : α → σ → Prop} {R : β → σ → Prop}
  {E E' : ε → σ → Prop}

theorem pure {a : α} (h : ∀ s, P s → Q a s) : Triple P (Pure.pure a : Program σ ε α) Q E := h

theorem throw {e : ε} (h : ∀ s, P s → E e s) : Triple P (Program.throw e : Program σ ε α) Q E := h

theorem bind (hm : Triple P m Q E) (hf : ∀ a, Triple (Q a) (f a) R E) : Triple P (m >>= f) R E := by
  intro s hs
  have hfirst := hm s hs
  change match Program.bind m f s with
    | (.ok a, s') => R a s'
    | (.error e, s') => E e s'
  unfold Program.bind
  cases hrun : m s with
  | mk result s' =>
    rw [hrun] at hfirst
    cases result with
    | ok a => exact hf a s' hfirst
    | error e => exact hfirst

theorem mono (hm : Triple P m Q E) (hP : ∀ s, P' s → P s) (hQ : ∀ a s, Q a s → Q' a s) (hE : ∀ e s, E e s → E' e s) :
    Triple P' m Q' E' := by
  intro s hs
  have h := hm s (hP s hs)
  cases hrun : m s with
  | mk result s' =>
    rw [hrun] at h
    cases result with
    | ok a => exact hQ a s' h
    | error e => exact hE e s' h

theorem post (hm : Triple P m Q E) (hQ : ∀ a s, Q a s → Q' a s) : Triple P m Q' E :=
  hm.mono (fun _ h => h) hQ fun _ _ h => h

theorem map {g : α → β} (hm : Triple P m Q E) (hR : ∀ a s, Q a s → R (g a) s) : Triple P (g <$> m) R E :=
  hm.bind fun a => pure fun s hs => hR a s hs

theorem map_never {g : α → β} (hm : Triple P m Q Never) (hR : ∀ a s, Q a s → R (g a) s) : Triple P (g <$> m) R E :=
  (hm.mono (fun _ h => h) (fun _ _ h => h) fun _ _ h => h.elim).map hR

/-- What is said of the result, whether it is returned or thrown. -/
theorem result {T : Except ε α → σ → Prop} (hm : Triple P m (fun a => T (.ok a)) fun e => T (.error e)) {s : σ} (hs : P s) :
    T (m s).1 (m s).2 := by
  have h := hm s hs
  cases hrun : m s with
  | mk result s' =>
    rw [hrun] at h
    cases result with
    | ok a => exact h
    | error e => exact h

theorem tryCatch {F : ε → σ → Prop} {handler : ε → Program σ ε α} (hm : Triple P m Q F) (hh : ∀ e, Triple (F e) (handler e) Q E) :
    Triple P (m.tryCatch handler) Q E := by
  intro s hs
  have hfirst := hm s hs
  unfold Program.tryCatch
  cases hrun : m s with
  | mk result s' =>
    rw [hrun] at hfirst
    cases result with
    | ok a => exact hfirst
    | error e => exact hh e s' hfirst

/-- What is fixed about the start need not be said in the state. -/
theorem assume {p : Prop} (h : p → Triple P m Q E) : Triple (fun s => p ∧ P s) m Q E := fun s hs => h hs.1 s hs.2

/-- The invariant speaks of the elements that are done and those that are still to come. -/
theorem forEach {g : α → Program σ ε Unit} (I : List α → List α → σ → Prop)
    (hstep : ∀ done a todo, Triple (I done (a :: todo)) (g a) (fun _ => I (done ++ [a]) todo) E) (l : List α) :
    Triple (I [] l) (Program.forEach g l) (fun _ => I l []) E := by
  suffices h : ∀ done todo, Triple (I done todo) (Program.forEach g todo) (fun _ => I (done ++ todo) []) E from h [] l
  intro done todo
  induction todo generalizing done with
  | nil =>
    apply pure
    intro s hs
    rwa [List.append_nil]
  | cons a todo ih =>
    apply bind (hstep done a todo)
    intro _
    have hrest := ih (done ++ [a])
    rwa [List.append_assoc, List.singleton_append] at hrest

/-- A test that leaves the assertion as it is and decides `q`. -/
def Decides (P : σ → Prop) (p : α → Program σ ε Bool) (q : α → Prop) (E : ε → σ → Prop) (l : List α) : Prop :=
  ∀ a ∈ l, Triple P (p a) (fun b s => P s ∧ (b = true ↔ q a)) E

variable {p : α → Program σ ε Bool} {q : α → Prop} {l : List α}

theorem Decides.tail {a : α} (h : Decides P p q E (a :: l)) : Decides P p q E l := fun b hb => h b (List.mem_cons_of_mem _ hb)

theorem all (h : Decides P p q E l) : Triple P (Program.all p l) (fun b s => P s ∧ (b = true ↔ ∀ a ∈ l, q a)) E := by
  induction l with
  | nil => exact pure fun s hs => ⟨hs, by simp⟩
  | cons a l ih =>
    apply bind (h a List.mem_cons_self)
    rintro (_ | _) s ⟨hs, hq⟩
    · exact ⟨hs, by simp [hq.symm]⟩
    · have hrest := (ih h.tail).post (fun b s' hb => show P s' ∧ (b = true ↔ ∀ a' ∈ a :: l, q a') from
        ⟨hb.1, by simp [hb.2, hq.mp rfl]⟩)
      exact hrest s hs

theorem any (h : Decides P p q E l) : Triple P (Program.any p l) (fun b s => P s ∧ (b = true ↔ ∃ a ∈ l, q a)) E := by
  induction l with
  | nil => exact pure fun s hs => ⟨hs, by simp⟩
  | cons a l ih =>
    apply bind (h a List.mem_cons_self)
    rintro (_ | _) s ⟨hs, hq⟩
    · have hrest := (ih h.tail).post (fun b s' hb => show P s' ∧ (b = true ↔ ∃ a' ∈ a :: l, q a') from
        ⟨hb.1, by simp [hb.2, hq.symm]⟩)
      exact hrest s hs
    · exact ⟨hs, by simp [hq.mp rfl]⟩

theorem filter (h : Decides P p q E l) : Triple P (Program.filter p l)
    (fun kept s => P s ∧ kept.Sublist l ∧ ∀ a, a ∈ kept ↔ a ∈ l ∧ q a) E := by
  induction l with
  | nil => exact pure fun s hs => ⟨hs, List.nil_sublist _, by simp⟩
  | cons a l ih =>
    apply bind (h a List.mem_cons_self)
    intro keep s hs
    have hrest := (ih h.tail).bind (R := fun kept s => P s ∧ kept.Sublist (a :: l) ∧ ∀ a', a' ∈ kept ↔ a' ∈ a :: l ∧ q a')
      (f := fun rest => Pure.pure (if keep then a :: rest else rest)) (fun rest => pure fun s' hs' => by
        obtain ⟨hs', hsub, hmem⟩ := hs'
        refine ⟨hs', ?_, fun a' => ?_⟩
        · cases keep
          · exact hsub.cons a
          · exact hsub.cons_cons a
        · cases keep
          · simp only [Bool.false_eq_true, if_false, hmem, List.mem_cons]
            constructor
            · exact fun h => ⟨.inr h.1, h.2⟩
            · rintro ⟨rfl | hl, hq⟩
              · exact absurd (hs.2.mpr hq) (by decide)
              · exact ⟨hl, hq⟩
          · simp only [if_true, List.mem_cons, hmem]
            constructor
            · rintro (rfl | ⟨hl, hq⟩)
              · exact ⟨.inl rfl, hs.2.mp rfl⟩
              · exact ⟨.inr hl, hq⟩
            · rintro ⟨rfl | hl, hq⟩
              · exact .inl rfl
              · exact .inr ⟨hl, hq⟩)
    exact hrest s hs.1

end Triple

end Program

end Hecuba
