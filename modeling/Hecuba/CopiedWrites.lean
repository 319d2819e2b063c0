import Mathlib.Algebra.Order.BigOperators.Group.List
import Hecuba.WriterCopies

/-! When a copied Writer writes like the one it was copied from. -/

namespace Hecuba

variable {K V : Type}

namespace Reply

/-- The statements that reach the session. -/
def statements (r : Reply K V) : List (BoundStatement K V) := r.bound.filterMap Except.toOption

/-- What is raised, in the thread of the caller and in the WriterThread. -/
def exceptions (r : Reply K V) : List WriterFault :=
  r.raised.toList ++ r.bound.filterMap fun b => match b with
    | .error e => some e
    | .ok _ => none

/-- The statements of another reply, with none but its exceptions. -/
def Matches (r r' : Reply K V) : Prop := r.statements = r'.statements ∧ ∀ e ∈ r.exceptions, e ∈ r'.exceptions

theorem Matches.refl (r : Reply K V) : r.Matches r := ⟨rfl, fun _ => id⟩

end Reply

namespace Writer

/-- In every sequence of calls, the first Writer does what the second would do. -/
def WritesLike (order : DirtyOrder K V) (started : Bool) (c w : Writer K V) : Prop :=
  ∀ calls, List.Forall₂ Reply.Matches (c.run order started calls) (w.run order started calls)

/-- The WriterThread runs, or both Writers would start it with the same success. -/
def SameThread (started : Bool) (c w : Writer K V) : Prop :=
  started = true ∨ WriterThread.failure c.myconfig = WriterThread.failure w.myconfig

/-- The WriterThread runs or the Writer can start it. -/
def Starts (started : Bool) (w : Writer K V) : Prop := started = true ∨ WriterThread.failure w.myconfig = none

/-- Single columns are written with the query for whole rows, or with the same prepared queries. -/
def SameColumns (c w : Writer K V) : Prop :=
  w.tableMetadata.values.length ≤ 1 ∨
    ∀ name ∈ w.tableMetadata.values, c.preparedPartialQueries.lookup name = w.preparedPartialQueries.lookup name

/-- The Writer with the two fields that the assignment does not set. -/
def withUnassigned (w c : Writer K V) : Writer K V :=
  { w with preparedPartialQueries := c.preparedPartialQueries, myconfig := c.myconfig }

theorem assign_eq {dst w : Writer K V} (h : w.dirtyBlocks = []) : dst.assign w = w.withUnassigned dst := by
  obtain ⟨session, table, preparedQuery, partials, enabled, dirty, maxCalls, timestamps, stream, config, rfl, hparked⟩ := w
  obtain rfl : dirty = [] := h
  rfl

/-- What a call keeps of a Writer and of the WriterThread. -/
structure Progress (w : Writer K V) (started : Bool) (w' : Writer K V) (started' : Bool) : Prop where
  table : w'.tableMetadata = w.tableMetadata
  partials : w'.preparedPartialQueries = w.preparedPartialQueries
  config : w'.myconfig = w.myconfig
  running : started = true → started' = true
  starts : started' = true → Starts started w

section steps

variable {order : DirtyOrder K V} {w w' w'' c : Writer K V} {started started' started'' : Bool}

theorem Progress.refl (w : Writer K V) (started : Bool) : Progress w started w started :=
  ⟨rfl, rfl, rfl, id, Or.inl⟩

theorem Progress.trans (h : Progress w started w' started') (h' : Progress w' started' w'' started'') :
    Progress w started w'' started'' where
  table := h'.table.trans h.table
  partials := h'.partials.trans h.partials
  config := h'.config.trans h.config
  running hs := h'.running (h.running hs)
  starts hs := by
    rcases h'.starts hs with hs' | hnone
    · exact h.starts hs'
    · exact .inr (h.config ▸ hnone)

theorem queueAsyncQueries_progress (w : Writer K V) (started : Bool) (rows : List (K × List (Str × V))) :
    Progress w started w (w.queueAsyncQueries started rows).1 := by
  unfold queueAsyncQueries
  split
  · exact .refl w started
  · cases started with
    | true => exact .refl w true
    | false =>
      cases hf : WriterThread.failure w.myconfig with
      | some e => exact .refl w false
      | none => exact ⟨rfl, rfl, rfl, fun _ => rfl, fun _ => .inr hf⟩

theorem cleared_progress (h : Progress w started w' started') : Progress w started w'.cleared started' :=
  ⟨h.table, h.partials, h.config, h.running, h.starts⟩

theorem flushDirtyBlocks_progress (order : DirtyOrder K V) (w : Writer K V) (started : Bool) :
    Progress w started (w.flushDirtyBlocks order started).1 (w.flushDirtyBlocks order started).2.1 := by
  have hqueue := queueAsyncQueries_progress w started ((order.walk w.dirtyBlocks).map fun e => (e.1, w.wholeRow e.2))
  unfold flushDirtyBlocks
  dsimp only
  split
  · split
    · exact hqueue
    · exact cleared_progress hqueue
  · exact .refl w started

theorem disableLazyWrite_progress (order : DirtyOrder K V) (w : Writer K V) (started : Bool) :
    Progress w started (w.disableLazyWrite order started).1 (w.disableLazyWrite order started).2.1 := by
  have hflush := flushDirtyBlocks_progress order w started
  unfold disableLazyWrite
  dsimp only
  split
  · exact hflush
  · exact ⟨hflush.table, hflush.partials, hflush.config, hflush.running, hflush.starts⟩

theorem writeToCassandra_progress (order : DirtyOrder K V) (w : Writer K V) (started : Bool) (call : WriteCall K V) :
    Progress w started (w.writeToCassandra order started call).1 (w.writeToCassandra order started call).2.1 := by
  cases call with
  | row keys values =>
    rw [writeToCassandra]
    by_cases hlazy : w.lazyWriteEnabled = true
    · rw [dif_pos hlazy]
      have hpark : Progress w started (w.park order hlazy keys values) started := ⟨rfl, rfl, rfl, id, Or.inl⟩
      dsimp only
      split
      · exact hpark.trans (flushDirtyBlocks_progress order _ started)
      · exact hpark
    · rw [dif_neg hlazy]
      exact queueAsyncQueries_progress w started _
  | column keys value valueName =>
    have hoff := disableLazyWrite_progress order w started
    rw [writeToCassandra]
    dsimp only
    split
    · exact hoff
    · split
      · exact hoff
      · exact hoff.trans (queueAsyncQueries_progress _ _ _)

theorem bindCassStatement_wholeRow (w c : Writer K V) (keys : K) (values : Str → V) :
    (w.withUnassigned c).bindCassStatement keys (w.wholeRow values) = w.bindCassStatement keys (w.wholeRow values) := by
  have hwhole : ¬ (w.wholeRow values).length < w.tableMetadata.values.length := by simp [wholeRow]
  rw [bindCassStatement, bindCassStatement, if_neg hwhole]
  exact if_neg hwhole

theorem bindCassStatement_column (h : SameColumns c w) {name : Str} (hname : name ∈ w.tableMetadata.values) (keys : K)
    (value : V) :
    (w.withUnassigned c).bindCassStatement keys [(name, value)] = w.bindCassStatement keys [(name, value)] := by
  rw [bindCassStatement, bindCassStatement]
  rcases h with hone | hsame
  · have hwhole : ¬ [(name, value)].length < w.tableMetadata.values.length := by simpa using hone
    rw [if_neg hwhole]
    exact if_neg hwhole
  · have hlookup : [(name, value)].head?.bind (fun e => c.preparedPartialQueries.lookup e.1) =
        [(name, value)].head?.bind fun e => w.preparedPartialQueries.lookup e.1 := hsame name hname
    dsimp only [withUnassigned]
    rw [hlookup]
    rfl

theorem queueAsyncQueries_same (hthread : SameThread started c w) {rows : List (K × List (Str × V))}
    (hbind : Starts started w → ∀ e ∈ rows, (w.withUnassigned c).bindCassStatement e.1 e.2 = w.bindCassStatement e.1 e.2) :
    (w.withUnassigned c).queueAsyncQueries started rows = w.queueAsyncQueries started rows := by
  have hrows (h : Starts started w) : (rows.map fun e => (w.withUnassigned c).bindCassStatement e.1 e.2) =
      rows.map fun e => w.bindCassStatement e.1 e.2 := List.map_congr_left (hbind h)
  unfold queueAsyncQueries
  by_cases hempty : rows.isEmpty = true
  · rw [if_pos hempty, if_pos hempty]
  · rw [if_neg hempty, if_neg hempty]
    cases started with
    | true => simp only [if_true, hrows (.inl rfl)]
    | false =>
      have hfailure : WriterThread.failure (w.withUnassigned c).myconfig = WriterThread.failure w.myconfig := by
        rcases hthread with hs | hsame
        · cases hs
        · exact hsame
      simp only [Bool.false_eq_true, if_false, hfailure]
      cases hf : WriterThread.failure w.myconfig with
      | some e => rfl
      | none => simp only [hrows (.inr hf)]

theorem flushDirtyBlocks_same (hthread : SameThread started c w) :
    (w.withUnassigned c).flushDirtyBlocks order started =
      ((w.flushDirtyBlocks order started).1.withUnassigned c, (w.flushDirtyBlocks order started).2) := by
  have hqueue := @queueAsyncQueries_same K V w c started hthread
    ((order.walk w.dirtyBlocks).map fun e => (e.1, w.wholeRow e.2)) fun _ e he => by
      obtain ⟨e', -, rfl⟩ := List.mem_map.mp he
      exact bindCassStatement_wholeRow w c e'.1 e'.2
  unfold flushDirtyBlocks
  by_cases hlazy : w.lazyWriteEnabled = true
  · have hlazy' : (w.withUnassigned c).lazyWriteEnabled = true := hlazy
    rw [if_pos hlazy, if_pos hlazy']
    have hrows : ((order.walk (w.withUnassigned c).dirtyBlocks).map fun e => (e.1, (w.withUnassigned c).wholeRow e.2)) =
        (order.walk w.dirtyBlocks).map fun e => (e.1, w.wholeRow e.2) := rfl
    rw [hrows, hqueue]
    dsimp only
    split
    · rfl
    · rfl
  · have hlazy' : ¬ (w.withUnassigned c).lazyWriteEnabled = true := hlazy
    rw [if_neg hlazy, if_neg hlazy']

theorem disableLazyWrite_same (hthread : SameThread started c w) :
    (w.withUnassigned c).disableLazyWrite order started =
      ((w.disableLazyWrite order started).1.withUnassigned c, (w.disableLazyWrite order started).2) := by
  unfold disableLazyWrite
  rw [flushDirtyBlocks_same hthread]
  dsimp only
  split
  · rfl
  · rfl

theorem SameThread.progress (h : SameThread started c w) (hp : Progress w started w' started') :
    SameThread started' c w' := by
  rcases h with hs | hsame
  · exact .inl (hp.running hs)
  · exact .inr (hp.config ▸ hsame)

theorem SameColumns.progress (h : SameColumns c w) (hp : Progress w started w' started') : SameColumns c w' := by
  unfold SameColumns
  rw [hp.table, hp.partials]
  exact h

theorem Starts.back (h : Starts started' w') (hp : Progress w started w' started') : Starts started w := by
  rcases h with hs | hnone
  · exact hp.starts hs
  · exact .inr (hp.config ▸ hnone)

theorem getSingleValue_mem {t : WriterTable} {valueName name : Str} (h : t.getSingleValue valueName = .ok name) :
    name ∈ t.values := by
  unfold WriterTable.getSingleValue at h
  split at h
  · rename_i name' hfind
    obtain rfl := Except.ok.inj h
    exact List.mem_of_find?_eq_some hfind
  · cases h

/-- One call, on Writers that differ in the fields that are not assigned. -/
theorem writeToCassandra_same (hthread : SameThread started c w) (hcolumns : Starts started w → SameColumns c w)
    (call : WriteCall K V) :
    (w.withUnassigned c).writeToCassandra order started call =
      ((w.writeToCassandra order started call).1.withUnassigned c, (w.writeToCassandra order started call).2) := by
  cases call with
  | row keys values =>
    rw [writeToCassandra, writeToCassandra]
    by_cases hlazy : w.lazyWriteEnabled = true
    · have hlazy' : (w.withUnassigned c).lazyWriteEnabled = true := hlazy
      have hpark : SameThread started c (w.park order hlazy keys values) := hthread
      rw [dif_pos hlazy, dif_pos hlazy']
      have hsame : (w.withUnassigned c).park order hlazy' keys values = (w.park order hlazy keys values).withUnassigned c := rfl
      rw [hsame]
      dsimp only
      by_cases hfull : (w.park order hlazy keys values).maxCalls < (w.park order hlazy keys values).dirtyBlocks.length
      · have hfull' : ((w.park order hlazy keys values).withUnassigned c).maxCalls <
            ((w.park order hlazy keys values).withUnassigned c).dirtyBlocks.length := hfull
        rw [if_pos hfull, if_pos hfull', flushDirtyBlocks_same hpark]
      · have hfull' : ¬ ((w.park order hlazy keys values).withUnassigned c).maxCalls <
            ((w.park order hlazy keys values).withUnassigned c).dirtyBlocks.length := hfull
        rw [if_neg hfull, if_neg hfull']
    · have hlazy' : ¬ (w.withUnassigned c).lazyWriteEnabled = true := hlazy
      rw [dif_neg hlazy, dif_neg hlazy']
      have hqueue := @queueAsyncQueries_same K V w c started hthread [(keys, w.wholeRow values)] fun _ e he => by
        obtain rfl := List.mem_singleton.mp he
        exact bindCassStatement_wholeRow w c keys values
      exact congrArg (Prod.mk (w.withUnassigned c)) hqueue
  | column keys value valueName =>
    rw [writeToCassandra, writeToCassandra, disableLazyWrite_same hthread]
    have hp := disableLazyWrite_progress order w started
    generalize w.disableLazyWrite order started = off at hp ⊢
    obtain ⟨w', started', flushed⟩ := off
    dsimp only at hp ⊢
    by_cases hraised : flushed.raised.isSome = true
    · rw [if_pos hraised, if_pos hraised]
    · rw [if_neg hraised, if_neg hraised]
      have htable : (w'.withUnassigned c).tableMetadata = w'.tableMetadata := rfl
      rw [htable]
      cases hname : w'.tableMetadata.getSingleValue valueName with
      | error e => rfl
      | ok name =>
        have hqueue := @queueAsyncQueries_same K V w' c started' (hthread.progress hp) [(keys, [(name, value)])]
          fun hstarts e he => by
            obtain rfl := List.mem_singleton.mp he
            exact bindCassStatement_column ((hcolumns (hstarts.back hp)).progress hp) (getSingleValue_mem hname) keys value
        dsimp only
        rw [hqueue]

theorem run_same (hthread : SameThread started c w) (hcolumns : Starts started w → SameColumns c w)
    (calls : List (WriteCall K V)) : (w.withUnassigned c).run order started calls = w.run order started calls := by
  induction calls generalizing w started with
  | nil => rfl
  | cons call calls ih =>
    have hp := writeToCassandra_progress order w started call
    rw [run, run, writeToCassandra_same hthread hcolumns]
    dsimp only
    rw [ih (hthread.progress hp) fun hstarts => (hcolumns (hstarts.back hp)).progress hp]

end steps

theorem exists_unknown (t : WriterTable) : ∃ name, t.getSingleValue name =
    .error (.moduleException ("Unknown attribute name [" ++ String.ofList name ++ "]")) := by
  let name : Str := List.replicate ((t.values.map List.length).sum + 1) 'a'
  refine ⟨name, ?_⟩
  have hnone : t.values.find? (fun column => column = lowerName name) = none := by
    rw [List.find?_eq_none]
    intro column hcolumn heq
    have hlen : column.length = (t.values.map List.length).sum + 1 := by
      rw [of_decide_eq_true heq, lowerName, List.length_map, List.length_replicate]
    have hle := List.single_le_sum (fun _ _ => Nat.zero_le _) column.length (List.mem_map_of_mem hcolumn)
    omega
  rw [WriterTable.getSingleValue, hnone]

theorem failure_ne_unknown (config : Option WriterConfig) (name : Str) : WriterThread.failure config ≠
    some (.moduleException ("Unknown attribute name [" ++ String.ofList name ++ "]")) := by
  have hcheck (option : String) (valid : Int → Bool) (msg : String) (hmsg : msg.toList.head? = some 'W') (text : Option Str) :
      WriterThread.checkOption option valid msg text ≠
        some (.moduleException ("Unknown attribute name [" ++ String.ofList name ++ "]")) := by
    have hhead (s : String) (hs : s.toList.head? ≠ some 'U') (hne : s.toList ≠ []) :
        some (WriterFault.moduleException (s ++ " Malformed value in config for " ++ option)) ≠
          some (.moduleException ("Unknown attribute name [" ++ String.ofList name ++ "]")) := by
      intro h
      have htext := congrArg (fun s => s.toList.head?) (WriterFault.moduleException.inj (Option.some.inj h))
      simp only [String.toList_append, List.append_assoc, List.head?_append_of_ne_nil _ hne] at htext
      exact hs htext
    unfold WriterThread.checkOption
    cases text with
    | none => exact fun h => by cases h
    | some text =>
      dsimp only
      split
      · exact hhead "stoi" (by decide) (by decide)
      · split
        · exact fun h => by cases h
        · refine hhead msg (by rw [hmsg]; decide) fun hnil => ?_
          rw [hnil] at hmsg
          cases hmsg
  cases config with
  | none => exact fun h => by cases h
  | some config =>
    unfold WriterThread.failure
    dsimp only
    split
    · rename_i e he
      rw [← he]
      exact hcheck _ _ _ (by decide) _
    · exact hcheck _ _ _ (by decide) _

section calls

variable {order : DirtyOrder K V} {w : Writer K V} {started : Bool}

theorem disableLazyWrite_empty (h : w.dirtyBlocks = []) :
    w.disableLazyWrite order started = (w.eager, started, ⟨[], none⟩) := by
  have hwalk : order.walk w.dirtyBlocks = [] := by
    rw [h]
    exact (order.walk_perm []).eq_nil
  have hflush : w.flushDirtyBlocks order started = (if w.lazyWriteEnabled = true then w.cleared else w, started, ⟨[], none⟩) := by
    unfold flushDirtyBlocks
    rw [hwalk]
    by_cases hlazy : w.lazyWriteEnabled = true
    · rw [if_pos hlazy, if_pos hlazy]
      rfl
    · rw [if_neg hlazy, if_neg hlazy]
  rw [disableLazyWrite, hflush]
  by_cases hlazy : w.lazyWriteEnabled = true
  · rw [if_pos hlazy]
    rfl
  · rw [if_neg hlazy]
    rfl

theorem writeToCassandra_unknown (h : w.dirtyBlocks = []) {name : Str} {e : WriterFault}
    (hname : w.tableMetadata.getSingleValue name = .error e) (keys : K) (value : V) :
    w.writeToCassandra order started (.column keys value name) = (w.eager, started, ⟨[], some e⟩) := by
  have htable : w.eager.tableMetadata = w.tableMetadata := rfl
  rw [writeToCassandra, disableLazyWrite_empty h]
  dsimp only
  rw [htable, hname]
  rfl

theorem writeToCassandra_row_eager (w : Writer K V) (keys : K) (values : Str → V) :
    w.eager.writeToCassandra order started (.row keys values) =
      (w.eager, w.eager.queueAsyncQueries started [(keys, w.eager.wholeRow values)]) := by
  have hlazy : ¬ w.eager.lazyWriteEnabled = true := Bool.false_ne_true
  rw [writeToCassandra, dif_neg hlazy]

theorem queueAsyncQueries_starts (h : Starts started w) {rows : List (K × List (Str × V))} (hrows : rows ≠ []) :
    w.queueAsyncQueries started rows = (true, ⟨rows.map fun e => w.bindCassStatement e.1 e.2, none⟩) := by
  rw [queueAsyncQueries, if_neg (by simpa using hrows)]
  cases started with
  | true => rfl
  | false =>
    rcases h with hs | hnone
    · cases hs
    · simp only [Bool.false_eq_true, if_false, hnone]

theorem queueAsyncQueries_fails {e : WriterFault} (h : WriterThread.failure w.myconfig = some e)
    {rows : List (K × List (Str × V))} (hrows : rows ≠ []) : w.queueAsyncQueries false rows = (false, ⟨[], some e⟩) := by
  rw [queueAsyncQueries, if_neg (by simpa using hrows)]
  simp only [Bool.false_eq_true, if_false, h]

theorem bindCassStatement_whole (w : Writer K V) (keys : K) (values : Str → V) : w.bindCassStatement keys (w.wholeRow values) =
    .ok ⟨w.session, w.preparedQuery, keys, (w.wholeRow values).map Prod.snd, !w.disableTimestamps⟩ := by
  rw [bindCassStatement, if_neg (by simp [wholeRow])]

end calls

section conditions

variable {order : DirtyOrder K V} {w dst : Writer K V} {started : Bool}

theorem WritesLike.column {c : Writer K V} (h : WritesLike order started c w) (keys : K) (value : V) (name : Str) :
    (c.writeToCassandra order started (.column keys value name)).2.2.Matches
      (w.writeToCassandra order started (.column keys value name)).2.2 :=
  (List.forall₂_cons.mp (h [.column keys value name])).1

/-- Rows that are waiting in the original are sent by it alone. -/
theorem WritesLike.dirtyBlocks [Inhabited K] [Inhabited V] (h : WritesLike order started (dst.assign w) w) :
    w.dirtyBlocks = [] := by
  by_contra hdirty
  have hlazy : w.lazyWriteEnabled = true := by
    cases hon : w.lazyWriteEnabled with
    | true => rfl
    | false => exact absurd (w.parked hon) hdirty
  obtain ⟨name, hname⟩ := exists_unknown w.tableMetadata
  have hcopied := @writeToCassandra_unknown K V order (dst.assign w) started rfl name _ hname default default
  have hmatches := h.column default default name
  rw [hcopied] at hmatches
  obtain ⟨rows, hrows⟩ : ∃ rows, rows = (order.walk w.dirtyBlocks).map fun e => (e.1, w.wholeRow e.2) := ⟨_, rfl⟩
  have hne : rows ≠ [] := by
    rintro rfl
    have hwalk : order.walk w.dirtyBlocks = [] := List.map_eq_nil_iff.mp hrows.symm
    have hperm := order.walk_perm w.dirtyBlocks
    rw [hwalk] at hperm
    exact hdirty hperm.symm.eq_nil
  rw [writeToCassandra, disableLazyWrite, flushDirtyBlocks, if_pos hlazy, ← hrows] at hmatches
  by_cases hstarts : Starts started w
  · -- the original sends them when it turns lazy writes off
    have hqueue : w.queueAsyncQueries started rows = (true, ⟨rows.map fun e => w.bindCassStatement e.1 e.2, none⟩) :=
      queueAsyncQueries_starts hstarts hne
    have htable : w.cleared.eager.tableMetadata = w.tableMetadata := rfl
    rw [hqueue] at hmatches
    simp only [Option.isSome_none, Bool.false_eq_true, if_false, htable, hname] at hmatches
    have hstatements : (rows.map fun e => w.bindCassStatement e.1 e.2).filterMap Except.toOption = [] := hmatches.1.symm
    obtain ⟨e, he⟩ := List.exists_mem_of_ne_nil rows hne
    have hwhole : ∃ values, e.2 = w.wholeRow values := by
      rw [hrows] at he
      obtain ⟨e', -, rfl⟩ := List.mem_map.mp he
      exact ⟨_, rfl⟩
    obtain ⟨values, hvalues⟩ := hwhole
    have hbound := List.filterMap_eq_nil_iff.mp hstatements _ (List.mem_map_of_mem he)
    rw [hvalues, bindCassStatement_whole] at hbound
    cases hbound
  · -- the original fails before it looks for the column
    obtain ⟨hoff, hfailure⟩ := not_or.mp hstarts
    obtain rfl : started = false := by simpa using hoff
    obtain ⟨e, he⟩ := Option.ne_none_iff_exists'.mp hfailure
    rw [queueAsyncQueries_fails he hne] at hmatches
    simp only [Option.isSome_some, if_true] at hmatches
    have hraised := hmatches.2 _ List.mem_cons_self
    obtain rfl := List.mem_singleton.mp hraised
    exact failure_ne_unknown _ _ he

theorem WritesLike.sameThread [Inhabited K] [Inhabited V] (h : WritesLike order started (dst.assign w) w)
    (hdirty : w.dirtyBlocks = []) : SameThread started dst w := by
  by_contra hdiffer
  obtain ⟨hoff, hfailure⟩ := not_or.mp hdiffer
  obtain rfl : started = false := by simpa using hoff
  obtain ⟨name, hname⟩ := exists_unknown w.tableMetadata
  have hcopied := @writeToCassandra_unknown K V order (dst.assign w) false rfl name _ hname default default
  have horiginal := @writeToCassandra_unknown K V order w false hdirty name _ hname default default
  have hreplies := h [.column default default name, .row default default]
  simp only [run, hcopied, horiginal, writeToCassandra_row_eager] at hreplies
  have hmatches := (List.forall₂_cons.mp (List.forall₂_cons.mp hreplies).2).1
  have hrow {v : Writer K V} (hstarts : WriterThread.failure v.myconfig = none) :
      (v.eager.queueAsyncQueries false [(default, v.eager.wholeRow default)]).2.statements ≠ [] := by
    have hqueue : v.eager.queueAsyncQueries false [(default, v.eager.wholeRow default)] =
        (true, ⟨[v.eager.bindCassStatement default (v.eager.wholeRow default)], none⟩) :=
      queueAsyncQueries_starts (.inr hstarts) (List.cons_ne_nil _ _)
    rw [hqueue, bindCassStatement_whole]
    exact List.cons_ne_nil _ _
  have hnone {v : Writer K V} {e : WriterFault} (he : WriterThread.failure v.myconfig = some e) :
      (v.eager.queueAsyncQueries false [(default, v.eager.wholeRow default)]).2 = ⟨[], some e⟩ := by
    rw [queueAsyncQueries_fails (w := v.eager) he (List.cons_ne_nil _ _)]
  cases hc : WriterThread.failure (dst.assign w).myconfig with
  | none =>
    cases hw : WriterThread.failure w.myconfig with
    | none => exact hfailure (hc.trans hw.symm)
    | some e =>
      have hsame := hmatches.1
      rw [hnone hw] at hsame
      exact hrow hc hsame
  | some e =>
    cases hw : WriterThread.failure w.myconfig with
    | none =>
      have hsame := hmatches.1
      rw [hnone hc] at hsame
      exact hrow hw hsame.symm
    | some e' =>
      have hsame := hmatches.2
      rw [hnone hc, hnone hw] at hsame
      obtain rfl := List.mem_singleton.mp (hsame e List.mem_cons_self)
      exact hfailure (hc.trans hw.symm)

theorem writeToCassandra_column (hdirty : w.dirtyBlocks = []) (hstarts : Starts started w) {name : Str}
    (hname : name ∈ w.tableMetadata.values) (keys : K) (value : V) :
    (w.writeToCassandra order started (.column keys value name)).2.2 =
      ⟨[w.bindCassStatement keys [(name, value)]], none⟩ := by
  have hsingle : w.eager.tableMetadata.getSingleValue name = .ok name := by
    have hfind : ∃ found, w.tableMetadata.values.find? (fun column => column = lowerName name) = some found :=
      Option.isSome_iff_exists.mp (List.find?_isSome.mpr ⟨name, hname, by simp [w.tableMetadata.lower name hname]⟩)
    obtain ⟨found, hfound⟩ := hfind
    have heq : found = name := by
      have hlower := List.find?_some hfound
      rw [w.tableMetadata.lower name hname] at hlower
      exact of_decide_eq_true hlower
    rw [WriterTable.getSingleValue]
    rw [show w.eager.tableMetadata.values = w.tableMetadata.values from rfl, hfound, heq]
  have hqueue : w.eager.queueAsyncQueries started [(keys, [(name, value)])] =
      (true, ⟨[w.eager.bindCassStatement keys [(name, value)]], none⟩) :=
    queueAsyncQueries_starts hstarts (List.cons_ne_nil _ _)
  rw [writeToCassandra, disableLazyWrite_empty hdirty]
  dsimp only
  rw [hsingle]
  dsimp only
  rw [hqueue]
  rfl

theorem WritesLike.sameColumns [Inhabited K] [Inhabited V] (h : WritesLike order started (dst.assign w) w)
    (hdirty : w.dirtyBlocks = []) (hstarts : Starts started w) : SameColumns dst w := by
  by_contra hdiffer
  obtain ⟨hseveral, hlookup⟩ := not_or.mp hdiffer
  obtain ⟨name, hname⟩ := not_forall.mp hlookup
  obtain ⟨hmem, hne⟩ := Classical.not_imp.mp hname
  have hstarts' : Starts started (dst.assign w) := by
    rcases h.sameThread hdirty with hs | hsame
    · exact .inl hs
    · exact hstarts.imp_right hsame.trans
  have hmatches := h.column default default name
  have hcopied := @writeToCassandra_column K V order (dst.assign w) started rfl hstarts' name hmem default default
  rw [hcopied, writeToCassandra_column hdirty hstarts hmem] at hmatches
  have hbind (v : Writer K V) (hv : 1 < v.tableMetadata.values.length) :
      v.bindCassStatement default [(name, default)] = (v.preparedPartialQueries.lookup name).elim (.error .outOfRange)
        fun query => .ok ⟨v.session, query, default, [default], !v.disableTimestamps⟩ := by
    have hfirst : ([(name, (default : V))].head?.bind fun e => v.preparedPartialQueries.lookup e.1) =
        v.preparedPartialQueries.lookup name := rfl
    rw [bindCassStatement, if_pos (by simpa using hv), if_neg (by simp), hfirst]
    cases v.preparedPartialQueries.lookup name with
    | none => rfl
    | some query => rfl
  have hstatements := hmatches.1
  simp only [Reply.statements, hbind w (by omega), hbind (dst.assign w) (by exact not_le.mp hseveral)] at hstatements
  apply hne
  cases hc : (dst.assign w).preparedPartialQueries.lookup name with
  | none =>
    cases hw : w.preparedPartialQueries.lookup name with
    | none => exact hc
    | some query =>
      rw [hc, hw] at hstatements
      cases hstatements
  | some query =>
    cases hw : w.preparedPartialQueries.lookup name with
    | none =>
      rw [hc, hw] at hstatements
      cases hstatements
    | some query' =>
      rw [hc, hw] at hstatements
      have hquery := congrArg (fun l => l.map BoundStatement.query) hstatements
      have hsame : [query] = [query'] := hquery
      rw [← List.singleton_inj.mp hsame]
      exact hc

/-- A copy writes like its original when the original has no lazy writes waiting, the copy finds
or starts the WriterThread as the original would, and single columns have the same queries in
both. -/
theorem writesLike_iff [Inhabited K] [Inhabited V] (order : DirtyOrder K V) (started : Bool) (dst w : Writer K V) :
    WritesLike order started (dst.assign w) w ↔
      w.dirtyBlocks = [] ∧ SameThread started dst w ∧ (Starts started w → SameColumns dst w) := by
  constructor
  · intro h
    have hdirty := h.dirtyBlocks
    exact ⟨hdirty, h.sameThread hdirty, h.sameColumns hdirty⟩
  · rintro ⟨hdirty, hthread, hcolumns⟩ calls
    rw [assign_eq hdirty, run_same hthread hcolumns calls]
    exact List.forall₂_same.mpr fun r _ => .refl r

/-- The copy constructor, of a table with several columns: no single column is written. -/
theorem copy_column_fails (h : 1 < w.tableMetadata.values.length)
    (config : Option WriterConfig) (hconfig : started = true ∨ WriterThread.failure config = none) (keys : K) (value : V)
    {name : Str} (hname : name ∈ w.tableMetadata.values) :
    ((w.copy config).writeToCassandra order started (.column keys value name)).2.2 = ⟨[.error .outOfRange], none⟩ := by
  have hbound : (w.copy config).bindCassStatement keys [(name, value)] = .error .outOfRange := by
    have hsingle : [(name, value)].length < (w.copy config).tableMetadata.values.length := h
    have hone : ¬ 1 < [(name, value)].length := lt_irrefl 1
    rw [bindCassStatement, if_pos hsingle, if_neg hone]
    rfl
  have hcolumn := @writeToCassandra_column K V order (w.copy config) started rfl hconfig name hname keys value
  rw [hcolumn, hbound]

end conditions

/-- Two columns: the copy has no query for either. -/
theorem copy_pair_not_like : ¬ ∀ (order : DirtyOrder Nat Nat) (started : Bool) (config : Option WriterConfig)
    (w : Writer Nat Nat), WritesLike order started (w.copy config) w := by
  intro h
  let order : DirtyOrder Nat Nat := ⟨id, id, fun _ => .refl _⟩
  let table : WriterTable := ⟨1, ["x".toList, "y".toList], by decide, "INSERT INTO ks.pairs(k,x,y)VALUES (?,?,?);".toList,
    "INSERT INTO ks.pairs(k".toList⟩
  let w : Writer Nat Nat := .new table 1 0 ⟨none, none, none⟩ ⟨none, none, none⟩
  have hmatches := WritesLike.column (h order true none w) 1 2 "x".toList
  have hcopied : ((w.copy none).writeToCassandra order true (.column 1 2 "x".toList)).2.2 = ⟨[.error .outOfRange], none⟩ :=
    copy_column_fails (by decide) none (.inl rfl) 1 2 (by decide)
  have horiginal := @writeToCassandra_column Nat Nat order w true rfl (.inl rfl) "x".toList (by decide) 1 2
  rw [hcopied, horiginal] at hmatches
  have hbound : w.bindCassStatement 1 [("x".toList, 2)] =
      .ok ⟨1, table.getPartialInsertQuery "x".toList, 1, [2], true⟩ := rfl
  have hstatements := hmatches.1
  rw [hbound] at hstatements
  cases hstatements

end Writer

end Hecuba
