import Hecuba.LastWriteWins
import Hecuba.TableEffects

/-! The sequential table with lazy writes: what its rows are once dirty_blocks is flushed,
and the deletes that the flush undoes. -/

namespace Hecuba

variable {N T : Nat} {K C D : Type}

/-- The calls that the table content depends on; rows are put whole. -/
def Call.isLazyUpdate : Call K (Values C D) → Prop
  | .putCrow _ values => ∀ c, (values c).isSome = true
  | .writeColumn .. | .deleteCrow _ | .enableLazyWrite | .disableLazyWrite | .flushElements => True
  | _ => False

def Call.key {V : Type} : Call K V → Option K
  | .writeToCassandra keys _ | .writeColumn keys _ | .putCrow keys _ => some keys.content
  | .getCrow keys | .deleteCrow keys => some keys
  | _ => none

/-- dirty_blocks holds a whole row for each of its keys, and none out of lazy mode. -/
structure ParkedOnce (U : K → Prop) (q : Seq K (Values C D)) : Prop where
  nodup : (q.dirtyBlocks.map fun e => e.keys.content).Nodup
  whole : ∀ e ∈ q.dirtyBlocks, ∀ c, (e.values c).isSome = true
  used : ∀ e ∈ q.dirtyBlocks, U e.keys.content
  eager : q.lazyWriteEnabled = false → q.dirtyBlocks = []

theorem parked_keys (l : List (Parked K (Values C D))) :
    (l.map Parked.effect).map Effect.key = l.map fun e => e.keys.content := by
  rw [List.map_map]
  rfl

section

variable {P : Params N K (Values C D)} {U : K → Prop} {q : Seq K (Values C D)}

theorem exists_split (h : ParkedOnce U q) {e : Parked K (Values C D)} (he : e ∈ q.dirtyBlocks) :
    ∃ pre post, q.dirtyBlocks = pre ++ e :: post ∧
      (∀ d ∈ pre ++ post, d.keys.content ≠ e.keys.content) ∧
      q.dirtyBlocks.Perm ((pre ++ post) ++ [e]) := by
  obtain ⟨pre, post, hd⟩ := List.append_of_mem he
  have hp : q.dirtyBlocks.Perm ((pre ++ post) ++ [e]) := by
    rw [hd]
    exact (List.perm_middle.trans (List.perm_append_singleton _ _).symm)
  refine ⟨pre, post, hd, fun d hdm heq => ?_, hp⟩
  have hn := ((hp.map fun e => e.keys.content).nodup_iff).mp h.nodup
  rw [List.map_append, List.map_singleton] at hn
  exact (List.nodup_append.mp hn).2.2 _ (List.mem_map_of_mem hdm) _ (by simp) heq

theorem findParked_spec {keys : TupleRow K}
    (hinj : ∀ k k', U k → U k' → P.hash k = P.hash k' → k = k') (h : ParkedOnce U q)
    (hk : U keys.content) :
    (P.findParked q.dirtyBlocks keys = none → ∀ e ∈ q.dirtyBlocks, e.keys.content ≠ keys.content) ∧
    ∀ e, P.findParked q.dirtyBlocks keys = some e →
      e ∈ q.dirtyBlocks ∧ e.keys.content = keys.content := by
  constructor
  · intro hf e he heq
    have hh := List.find?_eq_none.mp hf e he
    rw [heq] at hh
    exact hh (by simp)
  · intro e hf
    have he := List.mem_of_find?_eq_some hf
    have hhash := List.find?_some hf
    exact ⟨he, hinj _ _ (h.used e he) hk (by simpa using hhash)⟩

theorem park_old (hinj : ∀ k k', U k → U k' → P.hash k = P.hash k' → k = k') (h : ParkedOnce U q)
    {keys : TupleRow K} {values : Values C D} (hk : U keys.content) {e : Parked K (Values C D)}
    {pre post : List (Parked K (Values C D))} (hf : P.findParked q.dirtyBlocks keys = some e)
    (heq : e.keys.content = keys.content) (hd : q.dirtyBlocks = pre ++ e :: post)
    (hne : ∀ d ∈ pre ++ post, d.keys.content ≠ e.keys.content) :
    q.park P keys values = { q with
      dirtyBlocks := pre ++ ⟨q.accepted, e.keys, values⟩ :: post, accepted := q.accepted + 1 } := by
  have hkeep : ∀ d ∈ pre ++ post, (if P.hash d.keys.content = P.hash keys.content then
      ⟨q.accepted, d.keys, values⟩ else d) = d := by
    intro d hdm
    have hdq : d ∈ q.dirtyBlocks := by
      rw [hd]
      simp only [List.mem_append, List.mem_cons] at hdm ⊢
      tauto
    exact if_neg fun hh => hne d hdm ((hinj _ _ (h.used d hdq) hk hh).trans heq.symm)
  have hpre := List.map_congr_left fun d hdm => hkeep d (List.mem_append_left _ hdm)
  have hpost := List.map_congr_left fun d hdm => hkeep d (List.mem_append_right _ hdm)
  have hmap : (q.dirtyBlocks.map fun d => if P.hash d.keys.content = P.hash keys.content then
      ⟨q.accepted, d.keys, values⟩ else d) = pre ++ ⟨q.accepted, e.keys, values⟩ :: post := by
    rw [hd, List.map_append, List.map_cons, hpre, hpost, heq, if_pos rfl, List.map_id',
      List.map_id']
  simp only [Seq.park, hf, hmap]

variable [DecidableEq K]

def lazyTable (P : Params N K (Values C D)) (w : Fin N) (calls : List (Call K (Values C D))) :
    Seq K (Values C D) :=
  Seq.run (fun _ _ => []) P w calls

/-- The rows once dirty_blocks has been flushed. -/
def Seq.rows (q : Seq K (Values C D)) : K → Option (C → Option D) :=
  contentOf (q.effects ++ q.dirtyBlocks.map Parked.effect)

theorem rows_flush (P : Params N K (Values C D)) (h : ParkedOnce U q) :
    (q.flush P).rows = q.rows ∧ ParkedOnce U (q.flush P) ∧ (q.flush P).dirtyBlocks = [] ∧
      (q.flush P).lazyWriteEnabled = q.lazyWriteEnabled := by
  unfold Seq.flush
  split
  · refine ⟨?_, ⟨List.nodup_nil, ?_, ?_, fun _ => rfl⟩, rfl, rfl⟩
    · simp only [Seq.rows, List.map_nil, List.append_nil]
      refine contentOf_perm _ ((P.walk_perm _).map _) ?_
      rw [parked_keys]
      exact (((P.walk_perm _).map _).nodup_iff).mpr h.nodup
    · exact fun e he => (List.not_mem_nil he).elim
    · exact fun e he => (List.not_mem_nil he).elim
  · rename_i hl
    exact ⟨rfl, h, h.eager (Bool.eq_false_of_not_eq_true hl), rfl⟩

theorem rows_of_split (h : ParkedOnce U q) {e : Parked K (Values C D)}
    {rest : List (Parked K (Values C D))} (hp : q.dirtyBlocks.Perm (rest ++ [e])) :
    q.rows = applyEffect (contentOf (q.effects ++ rest.map Parked.effect)) e.effect := by
  rw [Seq.rows, contentOf_perm _ (hp.map Parked.effect) (by rw [parked_keys]; exact h.nodup),
    List.map_append, List.map_singleton, ← List.append_assoc, contentOf_append]

theorem rows_park_new (h : ParkedOnce U q) (hl : q.lazyWriteEnabled = true) {keys : TupleRow K}
    {values : Values C D} (hk : U keys.content) (hv : ∀ c, (values c).isSome = true)
    (hf : P.findParked q.dirtyBlocks keys = none)
    (hnew : ∀ e ∈ q.dirtyBlocks, e.keys.content ≠ keys.content) :
    (q.park P keys values).rows = applyEffect q.rows (.insert keys.content values) ∧
      ParkedOnce U (q.park P keys values) := by
  have hq : q.park P keys values = { q with
      dirtyBlocks := q.dirtyBlocks ++ [⟨q.accepted, keys, values⟩]
      accepted := q.accepted + 1 } := by
    simp [Seq.park, hf]
  rw [hq]
  refine ⟨?_, ?_, ?_, ?_, fun hl' => ?_⟩
  · simp only [Seq.rows, List.map_append, List.map_singleton]
    rw [← List.append_assoc, contentOf_append]
    rfl
  · rw [List.map_append, List.map_singleton]
    refine List.nodup_append.mpr ⟨h.nodup, List.nodup_singleton _, fun a ha b hb => ?_⟩
    obtain ⟨e, he, rfl⟩ := List.mem_map.mp ha
    rw [List.mem_singleton.mp hb]
    exact hnew e he
  · intro e he
    rcases List.mem_append.mp he with he | he
    · exact h.whole e he
    · rw [List.mem_singleton.mp he]
      exact hv
  · intro e he
    rcases List.mem_append.mp he with he | he
    · exact h.used e he
    · rw [List.mem_singleton.mp he]
      exact hk
  · exact absurd hl (by simpa using hl')

theorem rows_park_old (hinj : ∀ k k', U k → U k' → P.hash k = P.hash k' → k = k')
    (h : ParkedOnce U q) (hl : q.lazyWriteEnabled = true) {keys : TupleRow K}
    {values : Values C D} (hk : U keys.content) (hv : ∀ c, (values c).isSome = true)
    {e : Parked K (Values C D)} (hf : P.findParked q.dirtyBlocks keys = some e)
    (he : e ∈ q.dirtyBlocks) (heq : e.keys.content = keys.content) :
    (q.park P keys values).rows = applyEffect q.rows (.insert keys.content values) ∧
      ParkedOnce U (q.park P keys values) := by
  obtain ⟨pre, post, hd, hne, hp⟩ := exists_split h he
  rw [park_old hinj h hk hf heq hd hne]
  let e' : Parked K (Values C D) := ⟨q.accepted, e.keys, values⟩
  have hmem (d : Parked K (Values C D)) (hdm : d ∈ pre ++ e' :: post) :
      d = e' ∨ d ∈ q.dirtyBlocks := by
    rw [hd]
    simp only [List.mem_append, List.mem_cons] at hdm ⊢
    tauto
  have hpark : ParkedOnce U { q with
      dirtyBlocks := pre ++ e' :: post, accepted := q.accepted + 1 } := by
    refine ⟨?_, fun d hdm => ?_, fun d hdm => ?_, fun hl' => absurd hl (by simpa using hl')⟩
    · have hn := h.nodup
      rw [hd] at hn
      simpa only [List.map_append, List.map_cons] using hn
    · rcases hmem d hdm with rfl | hdm
      · exact hv
      · exact h.whole d hdm
    · rcases hmem d hdm with rfl | hdm
      · exact h.used e he
      · exact h.used d hdm
  refine ⟨?_, hpark⟩
  have hp' : (pre ++ e' :: post).Perm ((pre ++ post) ++ [e']) :=
    List.perm_middle.trans (List.perm_append_singleton _ _).symm
  rw [rows_of_split hpark hp', rows_of_split h hp]
  show applyEffect _ (.insert e.keys.content values) = _
  rw [heq, Parked.effect, heq, applyEffect_insert_insert _ _ _ hv]

theorem rows_park (hinj : ∀ k k', U k → U k' → P.hash k = P.hash k' → k = k')
    (h : ParkedOnce U q) (hl : q.lazyWriteEnabled = true) {keys : TupleRow K}
    {values : Values C D} (hk : U keys.content) (hv : ∀ c, (values c).isSome = true) :
    (q.park P keys values).rows = applyEffect q.rows (.insert keys.content values) ∧
      ParkedOnce U (q.park P keys values) := by
  obtain ⟨hnew, hold⟩ := findParked_spec hinj h hk
  cases hf : P.findParked q.dirtyBlocks keys with
  | none => exact rows_park_new h hl hk hv hf (hnew hf)
  | some e =>
    obtain ⟨he, heq⟩ := hold e hf
    exact rows_park_old hinj h hl hk hv hf he heq

theorem rows_write (w : Fin N) (hinj : ∀ k k', U k → U k' → P.hash k = P.hash k' → k = k')
    (h : ParkedOnce U q) {keys : TupleRow K} {values : Values C D} (hk : U keys.content)
    (hv : q.lazyWriteEnabled = true → ∀ c, (values c).isSome = true) :
    (q.write P w keys values).rows = applyEffect q.rows (.insert keys.content values) ∧
      ParkedOnce U (q.write P w keys values) ∧
      (q.write P w keys values).lazyWriteEnabled = q.lazyWriteEnabled := by
  unfold Seq.write
  split
  · rename_i hl
    obtain ⟨hrows, hpark⟩ := rows_park hinj h hl hk (hv hl)
    obtain ⟨hflush, hpark', -, hl'⟩ := rows_flush P hpark
    dsimp only
    split
    · exact ⟨hflush.trans hrows, hpark', hl'⟩
    · exact ⟨hrows, hpark, rfl⟩
  · rename_i hl
    have hd := h.eager (Bool.eq_false_of_not_eq_true hl)
    refine ⟨?_, ⟨h.nodup, h.whole, h.used, h.eager⟩, rfl⟩
    simp only [Seq.rows, hd, List.map_nil, List.append_nil]
    rw [contentOf_append]

theorem rows_delete (h : ParkedOnce U q) (q' : Seq K (Values C D)) {keys : K}
    (he : q'.effects = q.effects ++ [.delete keys]) (hd : q'.dirtyBlocks = q.dirtyBlocks) :
    ((∀ e ∈ q.dirtyBlocks, e.keys.content ≠ keys) → q'.rows = applyEffect q.rows (.delete keys)) ∧
    ∀ e ∈ q.dirtyBlocks, e.keys.content = keys →
      q'.rows = applyEffect (applyEffect q.rows (.delete keys)) e.effect := by
  have hlate (rest : List (Parked K (Values C D))) (hn : (rest.map fun e => e.keys.content).Nodup)
      (hne : ∀ e ∈ rest, e.keys.content ≠ keys) :
      contentOf (q.effects ++ .delete keys :: rest.map Parked.effect) =
        applyEffect (contentOf (q.effects ++ rest.map Parked.effect)) (.delete keys) := by
    rw [contentOf_perm _ (List.perm_append_singleton _ _).symm, ← List.append_assoc,
      contentOf_append]
    rw [List.map_cons, parked_keys, List.nodup_cons]
    refine ⟨fun hm => ?_, hn⟩
    obtain ⟨e, he, heq⟩ := List.mem_map.mp hm
    exact hne e he heq
  constructor
  · intro hne
    rw [Seq.rows, he, hd, List.append_assoc, List.singleton_append, hlate _ h.nodup hne, Seq.rows]
  · intro e hmem heq
    obtain ⟨pre, post, -, hne, hp⟩ := exists_split h hmem
    have hn := ((hp.map fun e => e.keys.content).nodup_iff).mp h.nodup
    rw [List.map_append] at hn
    rw [rows_of_split h hp, Seq.rows, he, hd,
      contentOf_perm _ (hp.map Parked.effect) (by rw [parked_keys]; exact h.nodup),
      List.map_append, List.map_singleton, ← List.append_assoc, contentOf_append,
      List.append_assoc, List.singleton_append, hlate _ (List.nodup_append.mp hn).1 (heq ▸ hne),
      Parked.effect, heq, applyEffect_insert_delete]

theorem rows_disableLazy (w : Fin N) (h : ParkedOnce U q) :
    (q.exec (fun _ _ => []) P w .disableLazy).rows = q.rows ∧
      ParkedOnce U (q.exec (fun _ _ => []) P w .disableLazy) ∧
      (q.exec (fun _ _ => []) P w .disableLazy).lazyWriteEnabled = false := by
  obtain ⟨hrows, hpark, hd, -⟩ := rows_flush P h
  simp only [Seq.exec]
  split
  · exact ⟨hrows, ⟨hpark.nodup, hpark.whole, hpark.used, fun _ => hd⟩, rfl⟩
  · rename_i hl
    exact ⟨rfl, h, Bool.eq_false_of_not_eq_true hl⟩

/-- Each call does to the rows what it asks for, except a delete that leaves the row of
its key parked: the next flush brings that row back. -/
theorem rows_call (w : Fin N) (hinj : ∀ k k', U k → U k' → P.hash k = P.hash k' → k = k')
    (h : ParkedOnce U q) {a : Call K (Values C D)} (ha : a.isLazyUpdate) (hk : ∀ k ∈ a.key, U k) :
    ParkedOnce U (q.call (fun _ _ => []) P w a) ∧
      ((∀ k, a = .deleteCrow k → P.disableTimestamps w = false →
          ∀ e ∈ q.dirtyBlocks, e.keys.content ≠ k) →
        (q.call (fun _ _ => []) P w a).rows = a.effect.toList.foldl applyEffect q.rows) ∧
      ∀ k, a = .deleteCrow k → P.disableTimestamps w = false →
        ∀ e ∈ q.dirtyBlocks, e.keys.content = k →
          (q.call (fun _ _ => []) P w a).rows =
            applyEffect (applyEffect q.rows (.delete k)) e.effect := by
  have hflush := rows_flush P h
  cases a with
  | putCrow keys values =>
    obtain ⟨hrows, hpark, -⟩ := rows_write w hinj h (hk _ rfl) fun _ => ha
    exact ⟨⟨hpark.nodup, hpark.whole, hpark.used, hpark.eager⟩, fun _ => hrows,
      fun k hd => by cases hd⟩
  | writeColumn keys values =>
    obtain ⟨hrows, hpark, hl⟩ := rows_disableLazy (P := P) w h
    have hv : (q.exec (fun _ _ => []) P w .disableLazy).lazyWriteEnabled = true →
        ∀ c, (values c).isSome = true := fun hl' => by
      rw [hl] at hl'
      cases hl'
    have hw := rows_write w hinj hpark (hk _ rfl) hv
    rw [hrows] at hw
    exact ⟨hw.2.1, fun _ => hw.1, fun k hd => by cases hd⟩
  | enableLazyWrite =>
    exact ⟨⟨h.nodup, h.whole, h.used, fun hl => by cases hl⟩, fun _ => rfl, fun k hd => by cases hd⟩
  | disableLazyWrite =>
    obtain ⟨hrows, hpark, -⟩ := rows_disableLazy (P := P) w h
    exact ⟨hpark, fun _ => hrows, fun k hd => by cases hd⟩
  | flushElements => exact ⟨hflush.2.1, fun _ => hflush.1, fun k hd => by cases hd⟩
  | deleteCrow keys =>
    cases hts : P.disableTimestamps w with
    | true =>
      obtain ⟨hrows, hpark, hnil, -⟩ := hflush
      have hq : q.call (fun _ _ => []) P w (.deleteCrow keys) =
          (q.flush P).exec (fun _ _ => []) P w (.delete keys) := by
        simp only [Seq.call, Client.program, hts, if_true]
        rfl
      have hdel := (rows_delete hpark ((q.flush P).exec (fun _ _ => []) P w (.delete keys))
        rfl rfl).1 (by simp [hnil])
      rw [hq]
      exact ⟨⟨hpark.nodup, hpark.whole, hpark.used, hpark.eager⟩, fun _ => by rw [hdel, hrows]; rfl,
        fun _ _ hh => by cases hh⟩
    | false =>
      have hq : q.call (fun _ _ => []) P w (.deleteCrow keys) =
          q.exec (fun _ _ => []) P w (.delete keys) := by
        simp only [Seq.call, Client.program, hts]
        rfl
      obtain ⟨hnone, hsome⟩ := rows_delete h (q.exec (fun _ _ => []) P w (.delete keys)) rfl rfl
      rw [hq]
      refine ⟨⟨h.nodup, h.whole, h.used, h.eager⟩, fun hno => hnone (hno keys rfl rfl), ?_⟩
      rintro k hk' - e he rfl
      cases hk'
      exact hsome e he rfl
  | writeToCassandra | getCrow => exact ha.elim

end

variable [DecidableEq K]

/-- The call at `i` deletes a row while `e`, a write of it, waits in dirty_blocks; with
timestamps a delete does not flush. -/
def Revives (P : Params N K (Values C D)) (w : Fin N) (calls : List (Call K (Values C D))) (i : Nat)
    (e : Parked K (Values C D)) : Prop :=
  P.disableTimestamps w = false ∧ calls[i]? = some (.deleteCrow e.keys.content) ∧
    e ∈ (lazyTable P w (calls.take i)).dirtyBlocks

/-- The statements leave nothing of `e`: they delete its row, or write it and name each
column that `e` sets. -/
def Overwritten (e : Parked K (Values C D)) (later : List (Effect K (Values C D))) : Prop :=
  .delete e.keys.content ∈ later ∨ (∃ v, .insert e.keys.content v ∈ later) ∧
    ∀ c d, e.values c = some (some d) → ∃ v, .insert e.keys.content v ∈ later ∧ v c ≠ none

theorem revives_append {P : Params N K (Values C D)} {w : Fin N} {calls : List (Call K (Values C D))}
    {a : Call K (Values C D)} {i : Nat} {e : Parked K (Values C D)} :
    Revives P w (calls ++ [a]) i e ↔ Revives P w calls i e ∨ i = calls.length ∧
      P.disableTimestamps w = false ∧ a = .deleteCrow e.keys.content ∧
      e ∈ (lazyTable P w calls).dirtyBlocks := by
  unfold Revives
  rcases Nat.lt_trichotomy i calls.length with hi | rfl | hi
  · rw [List.getElem?_append_left hi, List.take_append_of_le_length hi.le]
    exact ⟨.inl, fun h => h.resolve_right fun hh => absurd hh.1 hi.ne⟩
  · simp
  · have h1 : (calls ++ [a])[i]? = none := by
      rw [List.getElem?_eq_none_iff, List.length_append, List.length_singleton]
      exact hi
    have h2 : calls[i]? = none := List.getElem?_eq_none hi.le
    rw [h1, h2]
    constructor
    · rintro ⟨-, hh, -⟩
      cases hh
    · rintro (⟨-, hh, -⟩ | ⟨rfl, -⟩)
      · cases hh
      · exact (lt_irrefl _ hi).elim

theorem lazyTable_append (P : Params N K (Values C D)) (w : Fin N)
    (calls : List (Call K (Values C D))) (a : Call K (Values C D)) :
    lazyTable P w (calls ++ [a]) = (lazyTable P w calls).call (fun _ _ => []) P w a := by
  rw [lazyTable, Seq.run, List.foldl_append]
  rfl

/-- The calls of one table that writes may wait in, by keys that the hash tells apart. -/
structure LazyCalls (P : Params N K (Values C D)) (calls : List (Call K (Values C D))) : Prop where
  update : ∀ a ∈ calls, a.isLazyUpdate
  hashed : ∀ k ∈ calls.filterMap Call.key, ∀ k' ∈ calls.filterMap Call.key,
    P.hash k = P.hash k' → k = k'

section

variable {P : Params N K (Values C D)} {w : Fin N} {calls : List (Call K (Values C D))}

theorem parkedOnce_run {U : K → Prop} (hinj : ∀ k k', U k → U k' → P.hash k = P.hash k' → k = k')
    (hops : ∀ a ∈ calls, a.isLazyUpdate) (hkeys : ∀ a ∈ calls, ∀ k ∈ a.key, U k) :
    ParkedOnce U (lazyTable P w calls) := by
  induction calls using List.reverseRecOn with
  | nil => exact ⟨List.nodup_nil, by simp [lazyTable, Seq.run, Seq.new],
      by simp [lazyTable, Seq.run, Seq.new], fun _ => rfl⟩
  | append_singleton calls a ih =>
    have ih := ih (fun b hb => hops b (List.mem_append_left _ hb))
      fun b hb => hkeys b (List.mem_append_left _ hb)
    have hlast : a ∈ calls ++ [a] := List.mem_append_right _ List.mem_cons_self
    rw [lazyTable_append]
    exact (rows_call w hinj ih (hops a hlast) (hkeys a hlast)).1

/-- A row of the lazy table is that of the calls done one after the other, up to the last
write that a delete has left waiting. -/
theorem rows_run {U : K → Prop} (hinj : ∀ k k', U k → U k' → P.hash k = P.hash k' → k = k')
    (hops : ∀ a ∈ calls, a.isLazyUpdate) (hkeys : ∀ a ∈ calls, ∀ k ∈ a.key, U k) (k : K) :
    ((lazyTable P w calls).rows k = contentOf (effectsOf calls) k ∧
        ∀ i e, e.keys.content = k → ¬ Revives P w calls i e) ∨
      ∃ i e, e.keys.content = k ∧ Revives P w calls i e ∧
        (∀ j e', e'.keys.content = k → Revives P w calls j e' → j ≤ i) ∧
        (lazyTable P w calls).rows k =
          rowAt k (some (overlay none e.values)) (effectsOf (calls.drop (i + 1))) ∧
        contentOf (effectsOf calls) k = rowAt k none (effectsOf (calls.drop (i + 1))) := by
  induction calls using List.reverseRecOn with
  | nil =>
    refine .inl ⟨rfl, fun i e _ hr => ?_⟩
    obtain ⟨-, hh, -⟩ := hr
    cases hh
  | append_singleton calls a ih =>
    have hops' : ∀ b ∈ calls, b.isLazyUpdate := fun b hb => hops b (List.mem_append_left _ hb)
    have hkeys' : ∀ b ∈ calls, ∀ k ∈ b.key, U k := fun b hb => hkeys b (List.mem_append_left _ hb)
    have ih := ih hops' hkeys'
    have hlast : a ∈ calls ++ [a] := List.mem_append_right _ List.mem_cons_self
    have hpark := parkedOnce_run (w := w) hinj hops' hkeys'
    obtain ⟨-, hdone, hrevived⟩ := rows_call w hinj hpark (hops a hlast) (hkeys a hlast)
    rw [lazyTable_append, effectsOf_append, contentOf_apply, rowAt_append, ← contentOf_apply]
    by_cases hr : ∃ e, e.keys.content = k ∧ P.disableTimestamps w = false ∧ a = .deleteCrow k ∧
        e ∈ (lazyTable P w calls).dirtyBlocks
    · obtain ⟨e, rfl, hts, rfl, he⟩ := hr
      refine .inr ⟨calls.length, e, rfl, revives_append.mpr (.inr ⟨rfl, hts, rfl, he⟩),
        fun j e' _ hj => ?_, ?_, ?_⟩
      · rcases revives_append.mp hj with ⟨-, hj, -⟩ | ⟨rfl, -⟩
        · exact (List.getElem?_eq_some_iff.mp hj).1.le
        · exact le_rfl
      · rw [hrevived _ rfl hts e he rfl]
        simp [applyEffect_apply, Parked.effect, Effect.onRow, effectsOf, rowAt]
      · simp [Call.effect, effectsOf, rowAt, Effect.onRow]
    · -- at `k` the call does what it asks for, whether or not it leaves another key waiting
      have hstep : ((lazyTable P w calls).call (fun _ _ => []) P w a).rows k =
          rowAt k ((lazyTable P w calls).rows k) a.effect.toList := by
        by_cases hother : ∃ e, P.disableTimestamps w = false ∧ a = .deleteCrow e.keys.content ∧
            e ∈ (lazyTable P w calls).dirtyBlocks
        · obtain ⟨e, hts, rfl, he⟩ := hother
          have hne : e.keys.content ≠ k := by
            rintro rfl
            exact hr ⟨e, rfl, hts, rfl, he⟩
          rw [hrevived _ rfl hts e he rfl, applyEffect_apply, onRow_of_ne (e := e.effect) hne,
            applyEffect_apply]
          rfl
        · rw [hdone ?_, foldl_applyEffect_apply]
          rintro k' rfl hts e he rfl
          exact hother ⟨e, hts, rfl, he⟩
      have hnew (i : Nat) (e : Parked K (Values C D)) (hk : e.keys.content = k)
          (h : Revives P w (calls ++ [a]) i e) : Revives P w calls i e := by
        rcases revives_append.mp h with h | ⟨-, hts, ha, he⟩
        · exact h
        · exact (hr ⟨e, hk, hts, hk ▸ ha, he⟩).elim
      rw [hstep]
      rcases ih with ⟨heq, hno⟩ | ⟨i, e, hk, hi, hlate, hrow, hcontent⟩
      · exact .inl ⟨by rw [heq], fun i e hk h => hno i e hk (hnew i e hk h)⟩
      · refine .inr ⟨i, e, hk, revives_append.mpr (.inl hi),
          fun j e' hk' hj => hlate j e' hk' (hnew j e' hk' hj), ?_, ?_⟩
        all_goals
          have hlen : i + 1 ≤ calls.length := (List.getElem?_eq_some_iff.mp hi.2.1).1
          rw [List.drop_append_of_le_length hlen, effectsOf_append, rowAt_append]
        · rw [hrow]
        · rw [hcontent]

theorem overwritten_iff (e : Parked K (Values C D)) (later : List (Effect K (Values C D))) :
    rowAt e.keys.content (some (overlay none e.values)) later = rowAt e.keys.content none later ↔
      Overwritten e later := by
  have hset (c : C) : overlay none e.values c ≠ none ↔ ∃ d, e.values c = some (some d) := by
    cases hv : e.values c with
    | none => simp [overlay, hv]
    | some d => cases d <;> simp [overlay, hv]
  rw [rowAt_eq_iff]
  simp only [hset, forall_exists_index]
  rfl

/-- The lazy table ends as the calls done one after the other exactly when nothing that a
delete has left waiting stays in it. -/
theorem rows_run_iff (hc : LazyCalls P calls) :
    (lazyTable P w calls).rows = contentOf (effectsOf calls) ↔
      ∀ i e, Revives P w calls i e → Overwritten e (effectsOf (calls.drop (i + 1))) := by
  have hinj (k k' : K) (hk : k ∈ calls.filterMap Call.key) (hk' : k' ∈ calls.filterMap Call.key) :=
    hc.hashed k hk k' hk'
  have hkeys : ∀ a ∈ calls, ∀ k ∈ a.key, k ∈ calls.filterMap Call.key :=
    fun a ha k hk => List.mem_filterMap.mpr ⟨a, ha, hk⟩
  have hrun := rows_run (w := w) hinj hc.update hkeys
  constructor
  · intro heq i e hr
    rcases hrun e.keys.content with ⟨-, hno⟩ | ⟨j, e', hk, hj, hlast, hrow, hcontent⟩
    · exact (hno i e rfl hr).elim
    rcases Nat.lt_or_eq_of_le (hlast i e rfl hr) with hlt | rfl
    · -- a later delete of the row
      refine .inl (List.mem_filterMap.mpr ⟨.deleteCrow e.keys.content, ?_, rfl⟩)
      rw [← hk]
      apply List.mem_of_getElem? (i := j - (i + 1))
      rw [List.getElem?_drop, Nat.add_sub_cancel' hlt]
      exact hj.2.1
    · have hpark : ParkedOnce (fun k => k ∈ calls.filterMap Call.key)
          (lazyTable P w (calls.take i)) :=
        parkedOnce_run hinj (fun a ha => hc.update a (List.mem_of_mem_take ha))
          fun a ha => hkeys a (List.mem_of_mem_take ha)
      obtain rfl : e = e' := List.inj_on_of_nodup_map hpark.nodup hr.2.2 hj.2.2 hk.symm
      rw [← overwritten_iff, ← hrow, ← hcontent, heq]
  · intro hover
    funext k
    rcases hrun k with ⟨heq, -⟩ | ⟨i, e, rfl, hi, -, hrow, hcontent⟩
    · exact heq
    · rw [hrow, hcontent]
      exact (overwritten_iff e _).mpr (hover i e hi)

end

end Hecuba
