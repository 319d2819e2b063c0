import Hecuba.SetAlgebra

/-! Runs of a client of a dictionary of sets, beside the writes that are applied and the rows that the
cache drops. Against the dictionary of Python sets it differs in what the queries show. -/

namespace Hecuba

open Program

inductive SetCall (α : Type) where
  | add (key value : PyObject α)
  | remove (key value : PyObject α)
  | discard (key value : PyObject α)
  | contains (key value : PyObject α)
  | len (key : PyObject α)
  | iter (key : PyObject α)
  | clear (key : PyObject α)
  | assign (key : PyObject α) (values : List (PyObject α))
  | update (key : PyObject α) (others : List (SetOperand α))
  | union (key : PyObject α) (others : List (SetOperand α))
  | intersection (key : PyObject α) (others : List (SetOperand α))
  | difference (key : PyObject α) (others : List (SetOperand α))
  | issubset (key : PyObject α) (other : SetOperand α)
  | issuperset (key : PyObject α) (other : SetOperand α)
  | sync
  | items
  | keys

inductive SetAnswer (α : Type) where
  | none
  | bool (b : Bool)
  | nat (n : Nat)
  | set (l : List (PyObject α))
  | items (d : List (PyObject α × List (PyObject α)))

variable {α : Type} [DecidableEq α]

namespace SetCall

def program (s : SetSchema) : SetCall α → SetProgram α (SetAnswer α)
  | .add key value => (fun _ => .none) <$> EmbeddedSet.add s (deletedKey key) value
  | .remove key value => (fun _ => .none) <$> EmbeddedSet.remove s (deletedKey key) value
  | .discard key value => (fun _ => .none) <$> EmbeddedSet.discard s (deletedKey key) value
  | .contains key value => .bool <$> EmbeddedSet.contains s (deletedKey key) value
  | .len key => .nat <$> EmbeddedSet.len s (deletedKey key)
  | .iter key => .set <$> EmbeddedSet.iter s (deletedKey key)
  | .clear key => (fun _ => .none) <$> EmbeddedSet.clear s (deletedKey key)
  | .assign key values => (fun _ => .none) <$> EmbeddedSet.assign s (deletedKey key) values
  | .update key others => (fun _ => .none) <$> EmbeddedSet.update s (deletedKey key) others
  | .union key others => .set <$> EmbeddedSet.union s (deletedKey key) others
  | .intersection key others => .set <$> EmbeddedSet.intersection s (deletedKey key) others
  | .difference key others => .set <$> EmbeddedSet.difference s (deletedKey key) others
  | .issubset key other => .bool <$> EmbeddedSet.issubset s (deletedKey key) other
  | .issuperset key other => .bool <$> EmbeddedSet.issuperset s (deletedKey key) other
  | .sync => (fun _ => .none) <$> SetSchema.flush
  | .items => .items <$> s.items
  | .keys => .set <$> s.keys

/-- Keys and elements have the columns that the dictionary was declared with. -/
def Valid (s : SetSchema) : SetCall α → Prop
  | .add key value | .remove key value | .discard key value | .contains key value =>
    Shaped s.primaryKeys key ∧ Shaped s.setTypes value
  | .len key | .iter key | .clear key => Shaped s.primaryKeys key
  | .assign key values => Shaped s.primaryKeys key ∧ ∀ v ∈ values, Shaped s.setTypes v
  | .update key others | .union key others | .intersection key others | .difference key others =>
    Shaped s.primaryKeys key ∧ ∀ other ∈ others, other.Valid s
  | .issubset key other | .issuperset key other => Shaped s.primaryKeys key ∧ other.Valid s
  | .sync | .items | .keys => True

/-- Whether the table has everything after the call, if it had before. -/
def leavesClean (clean : Bool) : SetCall α → Bool
  | .add .. | .assign .. | .update .. => false
  | .remove .. | .discard .. | .sync | .items | .keys => true
  | _ => clean

end SetCall

/-- The client goes on after an exception. -/
def runCalls (s : SetSchema) : List (SetCall α) → SetWorld α → List (Except DictError (SetAnswer α)) × SetWorld α
  | [], w => ([], w)
  | call :: calls, w =>
    let (answer, w') := call.program s w
    let (answers, w'') := runCalls s calls w'
    (answer :: answers, w'')

/-- What a method reads of a set: all of it when everything that was written is in the table. -/
structure Reads (clean : Bool) (S : Set (PyObject α)) (l : List (PyObject α)) : Prop where
  nodup : l.Nodup
  mem : ∀ v ∈ l, v ∈ S
  all : clean = true → ∀ v ∈ S, v ∈ l

structure Grouped (A : Sets α) (d : List (PyObject α × List (PyObject α))) : Prop where
  nodup : (d.map Prod.fst).Nodup
  entry : ∀ e ∈ d, e.2.Nodup ∧ ∀ v, v ∈ e.2 ↔ v ∈ A e.1
  keys : ∀ key, key ∈ d.map Prod.fst ↔ (A key).Nonempty

/-- What a call answers and leaves, said of the sets alone. -/
def SetCall.Meets (clean : Bool) (A : Sets α) : SetCall α → Except DictError (SetAnswer α) → Sets α → Prop
  | .add key v, r, A' => r = .ok .none ∧ A' = A.set key (insert v (A key))
  | .remove key v, r, A' => ((v ∈ A key ∧ r = .ok .none) ∨ (v ∉ A key ∧ r = .error .keyError)) ∧ A' = A.set key (A key \ {v})
  | .discard key v, r, A' => r = .ok .none ∧ A' = A.set key (A key \ {v})
  | .contains key v, r, A' => (∃ b, r = .ok (.bool b) ∧ (b = true ↔ v ∈ A key)) ∧ A' = A
  | .len key, r, A' => (∃ l, r = .ok (.nat l.length) ∧ Reads clean (A key) l) ∧ A' = A
  | .iter key, r, A' => (∃ l, r = .ok (.set l) ∧ Reads clean (A key) l) ∧ A' = A
  | .clear key, r, A' => r = .ok .none ∧ ∃ kept ⊆ A key, (clean = true → kept = ∅) ∧ A' = A.set key kept
  | .assign key values, r, A' =>
    r = .ok .none ∧ ∃ kept ⊆ A key, (clean = true → kept = ∅) ∧ A' = A.set key (kept ∪ {v | v ∈ values})
  | .update key others, r, A' =>
    r = .ok .none ∧ ∃ T ⊆ unionOf A others, (clean = true → unionOf A others ⊆ A key ∪ T) ∧ A' = A.set key (A key ∪ T)
  | .union key others, r, A' => (∃ l, r = .ok (.set l) ∧ Reads clean (A key ∪ unionOf A others) l) ∧ A' = A
  | .intersection key others, r, A' =>
    (∃ l, r = .ok (.set l) ∧ Reads clean {v | v ∈ A key ∧ ∀ other ∈ others, v ∈ other.elements A} l) ∧ A' = A
  | .difference key others, r, A' => (∃ l, r = .ok (.set l) ∧ Reads clean (A key \ unionOf A others) l) ∧ A' = A
  | .issubset key other, r, A' =>
    (clean = true → ∃ b, r = .ok (.bool b) ∧ (b = true ↔ A key ⊆ other.elements A)) ∧ A' = A
  | .issuperset key other, r, A' =>
    (clean = true → ∃ b, r = .ok (.bool b) ∧ (b = true ↔ other.elements A ⊆ A key)) ∧ A' = A
  | .sync, r, A' => r = .ok .none ∧ A' = A
  | .items, r, A' => (∃ d, r = .ok (.items d) ∧ Grouped A d) ∧ A' = A
  | .keys, r, A' => (∃ l, r = .ok (.set l) ∧ l.Nodup ∧ ∀ key, key ∈ l ↔ (A key).Nonempty) ∧ A' = A

/-- The answers of a run, with the sets between the calls. -/
def MeetsAll : Bool → Sets α → List (SetCall α) → List (Except DictError (SetAnswer α)) → Sets α → Prop
  | _, A, [], [], A' => A' = A
  | clean, A, call :: calls, r :: answers, A' =>
    ∃ A₁, call.Meets clean A r A₁ ∧ MeetsAll (call.leavesClean clean) A₁ calls answers A'
  | _, _, _, _, _ => False

section grouping

variable {s : SetSchema} {A : Sets α} {key v : PyObject α}

structure GroupOf (pairs : List (PyObject α × PyObject α)) (d : List (PyObject α × List (PyObject α))) : Prop where
  nodup : (d.map Prod.fst).Nodup
  entry : ∀ e ∈ d, e.2.Nodup ∧ ∀ v, v ∈ e.2 ↔ (e.1, v) ∈ pairs
  keys : ∀ key, key ∈ d.map Prod.fst ↔ ∃ v, (key, v) ∈ pairs

theorem map_fst_groupAdd (key v : PyObject α) (d : List (PyObject α × List (PyObject α))) :
    (SetSchema.groupAdd key v d).map Prod.fst =
      if key ∈ d.map Prod.fst then d.map Prod.fst else d.map Prod.fst ++ [key] := by
  induction d with
  | nil => simp [SetSchema.groupAdd]
  | cons e d ih =>
    obtain ⟨k, values⟩ := e
    by_cases hk : k = key
    · simp [SetSchema.groupAdd, hk]
    · have hk' : ¬ key = k := fun h => hk h.symm
      simp only [SetSchema.groupAdd, hk, if_false, List.map_cons, ih, List.mem_cons, hk', false_or]
      split <;> rfl

theorem mem_groupAdd {d : List (PyObject α × List (PyObject α))} (hd : (d.map Prod.fst).Nodup)
    {e : PyObject α × List (PyObject α)} : e ∈ SetSchema.groupAdd key v d ↔
      (e ∈ d ∧ e.1 ≠ key) ∨ (∃ values, (key, values) ∈ d ∧ e = (key, values.insert v)) ∨
        (key ∉ d.map Prod.fst ∧ e = (key, [v])) := by
  induction d with
  | nil => simp [SetSchema.groupAdd]
  | cons first d ih =>
    obtain ⟨k, values⟩ := first
    obtain ⟨hk, hd⟩ := List.nodup_cons.mp hd
    by_cases hkey : k = key
    · subst hkey
      have hother : ∀ e ∈ d, e.1 ≠ k := fun e he heq => hk (List.mem_map.mpr ⟨e, he, heq⟩)
      simp only [SetSchema.groupAdd, if_true, List.mem_cons]
      constructor
      · rintro (rfl | he)
        · exact .inr (.inl ⟨values, .inl rfl, rfl⟩)
        · exact .inl ⟨.inr he, hother e he⟩
      · rintro (⟨rfl | he, hne⟩ | ⟨values', heq | he, rfl⟩ | ⟨hnot, -⟩)
        · exact absurd rfl hne
        · exact .inr he
        · rw [(Prod.mk.inj heq).2]
          exact .inl rfl
        · exact absurd rfl (hother _ he)
        · exact absurd (List.mem_cons_self) hnot
    · have hkey' : key ≠ k := fun h => hkey h.symm
      simp only [SetSchema.groupAdd, hkey, if_false, List.mem_cons, ih hd, List.map_cons, Prod.mk.injEq, hkey', false_and,
        false_or]
      constructor
      · rintro (rfl | h | h | h)
        · exact .inl ⟨.inl rfl, hkey⟩
        · exact .inl ⟨.inr h.1, h.2⟩
        · exact .inr (.inl h)
        · exact .inr (.inr h)
      · rintro (⟨rfl | he, hne⟩ | h | h)
        · exact .inl rfl
        · exact .inr (.inl ⟨he, hne⟩)
        · exact .inr (.inr (.inl h))
        · exact .inr (.inr (.inr h))

theorem GroupOf.add {pairs : List (PyObject α × PyObject α)} {d : List (PyObject α × List (PyObject α))} (h : GroupOf pairs d)
    (key v : PyObject α) : GroupOf (pairs ++ [(key, v)]) (SetSchema.groupAdd key v d) := by
  obtain ⟨hnodup, hentry, hkeys⟩ := h
  refine ⟨?_, fun e he => ?_, fun key' => ?_⟩
  · rw [map_fst_groupAdd]
    split
    · exact hnodup
    · rename_i hnew
      refine List.nodup_append.mpr ⟨hnodup, List.nodup_singleton key, fun k hk k' hk' heq => hnew ?_⟩
      rwa [← List.mem_singleton.mp hk', ← heq]
  · rcases (mem_groupAdd hnodup).mp he with ⟨hin, hne⟩ | ⟨values, hvalues, rfl⟩ | ⟨hnew, rfl⟩
    · refine ⟨(hentry e hin).1, fun v' => ?_⟩
      rw [(hentry e hin).2 v']
      simp [hne]
    · have hold : values.Nodup := (hentry (key, values) hvalues).1
      refine ⟨hold.insert, fun v' => ?_⟩
      have hin : v' ∈ values ↔ (key, v') ∈ pairs := (hentry (key, values) hvalues).2 v'
      simp only [List.mem_insert_iff, List.mem_append, List.mem_singleton, Prod.mk.injEq, true_and, hin]
      exact or_comm
    · refine ⟨List.nodup_singleton v, fun v' => ?_⟩
      have hnone : (key, v') ∉ pairs := fun h => hnew ((hkeys key).mpr ⟨v', h⟩)
      simp [hnone]
  · rw [map_fst_groupAdd]
    have hold := hkeys key'
    by_cases hkk : key' = key
    · subst hkk
      have hin : key' ∈ (if key' ∈ d.map Prod.fst then d.map Prod.fst else d.map Prod.fst ++ [key']) := by
        split
        · assumption
        · simp
      exact iff_of_true hin ⟨v, by simp⟩
    · have hsame : key' ∈ (if key ∈ d.map Prod.fst then d.map Prod.fst else d.map Prod.fst ++ [key]) ↔
          key' ∈ d.map Prod.fst := by
        split
        · rfl
        · simp [hkk]
      rw [hsame, hold]
      simp [hkk]

theorem groupOf_foldl (f g : SetRow α → PyObject α) (rows : List (SetRow α)) :
    GroupOf (rows.map fun row => (f row, g row)) (rows.foldl (fun d row => SetSchema.groupAdd (f row) (g row) d) []) := by
  induction rows using List.reverseRecOn with
  | nil => exact ⟨List.nodup_nil, nofun, by simp⟩
  | append_singleton rows row ih =>
    rw [List.map_append, List.foldl_append]
    exact ih.add (f row) (g row)

omit [DecidableEq α] in
theorem Stores.row_iff {t : SetTable α} (h : Stores s A ∅ t) :
    (∃ row ∈ t.db, s.keyOf row = key ∧ s.valueOf row = v) ↔ v ∈ A key := by
  have hdb : ∀ row, row ∈ t.db ↔ ∃ key v, v ∈ A key ∧ row = setRow key v := by
    intro row
    rw [← h.rows row]
    exact ⟨.inl, fun h' => h'.elim id fun hp => (h.pending row hp).elim⟩
  constructor
  · rintro ⟨row, hrow, rfl, rfl⟩
    obtain ⟨key, v, hmem, rfl⟩ := (hdb row).mp hrow
    obtain ⟨hkey, hv⟩ := h.shaped key v hmem
    rwa [keyOf_setRow hkey, valueOf_setRow hkey hv]
  · intro hmem
    obtain ⟨hkey, hv⟩ := h.shaped key v hmem
    exact ⟨setRow key v, (hdb _).mpr ⟨key, v, hmem, rfl⟩, keyOf_setRow hkey, valueOf_setRow hkey hv⟩

theorem Stores.grouped {t : SetTable α} (h : Stores s A ∅ t) :
    Grouped A (t.db.foldl (fun d row => SetSchema.groupAdd (s.keyOf row) (s.valueOf row) d) []) := by
  obtain ⟨hnodup, hentry, hkeys⟩ := groupOf_foldl s.keyOf s.valueOf t.db
  have hpair : ∀ key v, (key, v) ∈ t.db.map (fun row => (s.keyOf row, s.valueOf row)) ↔ v ∈ A key := by
    intro key v
    rw [← h.row_iff, List.mem_map]
    simp [Prod.mk.injEq]
  refine ⟨hnodup, fun e he => ⟨(hentry e he).1, fun v => ?_⟩, fun key => ?_⟩
  · rw [(hentry e he).2 v, hpair]
  · rw [hkeys key]
    exact exists_congr fun v => hpair key v

theorem items_triple {D : Set (SetRow α)} : Triple (At s A D) s.items (fun d w => Grouped A d ∧ At s A ∅ w) Never := by
  apply flush_triple.bind
  intro _
  have hscan : Triple (At s A ∅) SetSchema.scan (fun rows w =>
      Grouped A (rows.foldl (fun d row => SetSchema.groupAdd (s.keyOf row) (s.valueOf row) d) []) ∧ At s A ∅ w) Never :=
    query_triple _ fun t h => h.grouped
  exact hscan.bind fun rows => .pure fun w hw => hw

theorem keys_triple {D : Set (SetRow α)} : Triple (At s A D) s.keys
    (fun l w => (l.Nodup ∧ ∀ key, key ∈ l ↔ (A key).Nonempty) ∧ At s A ∅ w) Never := by
  apply flush_triple.bind
  intro _
  have hscan : Triple (At s A ∅) SetSchema.scan (fun rows w =>
      (∀ key, key ∈ (rows.map s.keyOf).dedup ↔ (A key).Nonempty) ∧ At s A ∅ w) Never := by
    apply query_triple _ fun t h => ?_
    intro key
    rw [List.mem_dedup, List.mem_map]
    constructor
    · rintro ⟨row, hrow, hkey⟩
      exact ⟨_, h.row_iff.mp ⟨row, hrow, hkey, rfl⟩⟩
    · rintro ⟨v, hv⟩
      obtain ⟨row, hrow, hkey, -⟩ := h.row_iff.mpr hv
      exact ⟨row, hrow, hkey⟩
  exact hscan.bind fun rows => .pure fun w hw => ⟨⟨List.nodup_dedup _, hw.1⟩, hw.2⟩

end grouping

section runs

variable {s : SetSchema} {A : Sets α} {clean : Bool}

/-- The world holds the sets, and with `clean` nothing of them is still to be applied. -/
def HoldsSets (s : SetSchema) (A : Sets α) (clean : Bool) (w : SetWorld α) : Prop :=
  ∃ D, (clean = true → D = ∅) ∧ At s A D w

def Answers (s : SetSchema) (clean : Bool) (A : Sets α) (call : SetCall α) (r : Except DictError (SetAnswer α)) (w : SetWorld α) :
    Prop :=
  ∃ A', call.Meets clean A r A' ∧ HoldsSets s A' (call.leavesClean clean) w

omit [DecidableEq α] in
theorem Shown.reads {S missing : Set (PyObject α)} {l : List (PyObject α)} (h : Shown S missing l)
    (hclean : clean = true → missing = ∅) : Reads clean S l :=
  ⟨h.nodup, h.mem, fun hc v hv => h.all v hv (by rw [hclean hc]; exact Set.notMem_empty v)⟩

theorem call_triple {call : SetCall α} (hvalid : call.Valid s) {D : Set (SetRow α)} (hD : clean = true → D = ∅) :
    Triple (At s A D) (call.program s) (fun a => Answers s clean A call (.ok a)) (fun e => Answers s clean A call (.error e)) := by
  have hseen : ∀ key, clean = true → unseen D key = ∅ := fun key hc => by rw [hD hc]; rfl
  have hmissing : ∀ others : List (SetOperand α), clean = true → missingOf D others = ∅ := fun others hc => by
    rw [hD hc]
    simp [missingOf]
  have hrest : ∀ {key : PyObject α} {l : List (PyObject α)}, Shown (A key) (unseen D key) l →
      clean = true → A key \ {v | v ∈ l} = ∅ := fun {key l} hl hc => by
    rw [hseen key hc] at hl
    exact Set.eq_empty_of_forall_notMem fun v hv => hv.2 (hl.mem_iff.mpr hv.1)
  cases call with
  | add key v => exact (add_triple hvalid.1 hvalid.2).map_never fun _ w hw => ⟨_, ⟨rfl, rfl⟩, _, fun hc => absurd hc Bool.false_ne_true, hw⟩
  | remove key v =>
    apply ((remove_triple hvalid.1 hvalid.2).mono (fun _ h => h) (fun _ _ h => h) _).map
    · exact fun _ w hw => ⟨_, ⟨.inl ⟨hw.1, rfl⟩, rfl⟩, ∅, fun _ => rfl, hw.2⟩
    · rintro e w ⟨rfl, hnot, hw⟩
      have hsame : A.set key (A key \ {v}) = A := Sets.set_remove_missing hnot
      exact ⟨_, ⟨.inr ⟨hnot, rfl⟩, rfl⟩, ∅, fun _ => rfl, by rwa [hsame]⟩
  | discard key v => exact (discard_triple hvalid.1 hvalid.2).map_never fun _ w hw => ⟨_, ⟨rfl, rfl⟩, ∅, fun _ => rfl, hw⟩
  | contains key v =>
    exact (contains_decides hvalid.1 hvalid.2).map_never fun b w hw => ⟨A, ⟨⟨b, rfl, hw.2⟩, rfl⟩, D, hD, hw.1⟩
  | len key =>
    apply (len_triple hvalid).map_never
    rintro _ w ⟨⟨l, hl, rfl⟩, hw⟩
    exact ⟨A, ⟨⟨l, rfl, hl.reads (hseen key)⟩, rfl⟩, D, hD, hw⟩
  | iter key => exact (iter_triple hvalid).map_never fun l w hw => ⟨A, ⟨⟨l, rfl, hw.1.reads (hseen key)⟩, rfl⟩, D, hD, hw.2⟩
  | clear key =>
    apply (clear_triple hvalid).map_never
    rintro _ w ⟨l, hl, hw⟩
    exact ⟨_, ⟨rfl, _, fun v hv => hv.1, hrest hl, rfl⟩, D, hD, hw⟩
  | assign key values =>
    apply (assign_triple hvalid.1 hvalid.2).map_never
    rintro _ w ⟨l, hl, hw⟩
    exact ⟨_, ⟨rfl, _, fun v hv => hv.1, hrest hl, rfl⟩, _, fun hc => absurd hc Bool.false_ne_true, hw⟩
  | update key others =>
    apply (update_triple hvalid.1 hvalid.2).map_never
    rintro _ w ⟨T, D', hT, hall, hw⟩
    exact ⟨_, ⟨rfl, T, hT, fun hc => hall (hD hc), rfl⟩, D', fun hc => absurd hc Bool.false_ne_true, hw⟩
  | union key others =>
    apply (union_triple hvalid.1 hvalid.2).map_never
    rintro l w ⟨hl, hw⟩
    have hnone : clean = true → unseen D key ∪ missingOf D others = ∅ := fun hc => by
      rw [hseen key hc, hmissing others hc, Set.union_empty]
    exact ⟨A, ⟨⟨l, rfl, hl.reads hnone⟩, rfl⟩, D, hD, hw⟩
  | intersection key others =>
    exact (intersection_triple hvalid.1 hvalid.2).map_never fun l w hw =>
      ⟨A, ⟨⟨l, rfl, hw.1.reads (hseen key)⟩, rfl⟩, D, hD, hw.2⟩
  | difference key others =>
    exact (difference_triple hvalid.1 hvalid.2).map_never fun l w hw =>
      ⟨A, ⟨⟨l, rfl, hw.1.reads (hseen key)⟩, rfl⟩, D, hD, hw.2⟩
  | issubset key other =>
    exact (issubset_triple hvalid.1 hvalid.2).map_never fun b w hw =>
      ⟨A, ⟨fun hc => ⟨b, rfl, hw.1 (hD hc)⟩, rfl⟩, D, hD, hw.2⟩
  | issuperset key other =>
    exact (issuperset_triple hvalid.1 hvalid.2).map_never fun b w hw =>
      ⟨A, ⟨fun hc => ⟨b, rfl, hw.1 (hD hc)⟩, rfl⟩, D, hD, hw.2⟩
  | sync => exact flush_triple.map_never fun _ w hw => ⟨A, ⟨rfl, rfl⟩, ∅, fun _ => rfl, hw⟩
  | items => exact items_triple.map_never fun d w hw => ⟨A, ⟨⟨d, rfl, hw.1⟩, rfl⟩, ∅, fun _ => rfl, hw.2⟩
  | keys => exact keys_triple.map_never fun l w hw => ⟨A, ⟨⟨l, rfl, hw.1⟩, rfl⟩, ∅, fun _ => rfl, hw.2⟩

theorem call_answers {call : SetCall α} (hvalid : call.Valid s) {w : SetWorld α} (hw : HoldsSets s A clean w) :
    Answers s clean A call (call.program s w).1 (call.program s w).2 := by
  obtain ⟨D, hD, hat⟩ := hw
  exact (call_triple hvalid hD).result hat

omit [DecidableEq α] in
theorem holdsSets_empty (schedule : List (List SetMove)) :
    HoldsSets s (fun _ => (∅ : Set (PyObject α))) true ⟨⟨[], [], []⟩, schedule⟩ :=
  ⟨∅, fun _ => rfl, nofun, fun row => by simp, nofun, nofun, List.nodup_nil, List.nodup_nil⟩

end runs

/-- Two sets of one column. The second assignment is made when 1 has been applied and 2 has not. -/
def twoAssignments : List (SetCall Nat) :=
  [.assign (.str "k") [.scalar 1, .scalar 2], .assign (.str "k") [.scalar 3], .sync, .iter (.str "k")]

def firstApplied : List (List SetMove) := [[], [], [], [.apply 0]]

end Hecuba
