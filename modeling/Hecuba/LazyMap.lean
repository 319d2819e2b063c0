import Mathlib.Data.Finset.Card
import Mathlib.Data.Fintype.Pigeonhole
import Hecuba.LastWriteWins

/-! The map of lazy writes. Its keys are compared by their hashes alone, so what a flush
queues depends on which of the keys written since the last flush collide. -/

namespace Hecuba

variable {N T : Nat} {K V : Type}

/-- The last value written for a key. -/
def lastValue [DecidableEq K] (written : List (K × V)) (key : K) : Option V :=
  (written.reverse.find? fun e => e.1 = key).map Prod.snd

/-- The pairs queued are those of the map from each key written to its last value. -/
def QueuesMap [DecidableEq K] (written : List (K × V)) (queued : List (Effect K V)) : Prop :=
  ∀ key values, .insert key values ∈ queued ↔ lastValue written key = some values

/-- What the calls of `write_to_cassandra` and a last `flush_dirty_blocks` queue: for each
flush, the writes since the one before and the statements that it asks for. -/
def flushes (P : Params N K V) (w : Fin N) (q : Seq K V) (written : List (K × V)) :
    List (TupleRow K × V) → List (List (K × V) × List (Effect K V))
  | [] => [(written, (q.flush P).effects.drop q.effects.length)]
  | (keys, values) :: rest =>
    let q' := q.write P w keys values
    let written := written ++ [(keys.content, values)]
    if q'.dirtyBlocks.isEmpty then
      (written, q'.effects.drop q.effects.length) :: flushes P w q' [] rest
    else flushes P w q' written rest

def hashesOf (hash : K → Nat) (written : List (K × V)) : Finset Nat :=
  (written.map fun e => hash e.1).toFinset

/-- The writes cut where the number of different hashes since the last cut exceeds
`max_calls`. -/
def batches (hash : K → Nat) (maxCalls : Nat) (written : List (K × V)) :
    List (K × V) → List (List (K × V))
  | [] => [written]
  | e :: rest =>
    let written := written ++ [e]
    if maxCalls < (hashesOf hash written).card then written :: batches hash maxCalls [] rest
    else batches hash maxCalls written rest

def HashesApart (hash : K → Nat) (written : List (K × V)) : Prop :=
  ∀ e ∈ written, ∀ e' ∈ written, hash e.1 = hash e'.1 → e.1 = e'.1

theorem hashesOf_append (hash : K → Nat) (written : List (K × V)) (e : K × V) :
    hashesOf hash (written ++ [e]) = insert (hash e.1) (hashesOf hash written) := by
  ext n
  simp [hashesOf]

theorem HashesApart.left {hash : K → Nat} {written rest : List (K × V)}
    (h : HashesApart hash (written ++ rest)) : HashesApart hash written :=
  fun e he e' he' => h e (List.mem_append_left _ he) e' (List.mem_append_left _ he')

theorem hash_replaced (hash : K → Nat) (keys : TupleRow K) (n : Nat) (values : V)
    (d : Parked K V) :
    hash (if hash d.keys.content = hash keys.content then (⟨n, d.keys, values⟩ : Parked K V)
      else d).keys.content = hash d.keys.content := by
  split <;> rfl

section

variable [DecidableEq K]

theorem lastValue_append (written : List (K × V)) (key : K) (values : V) (k : K) :
    lastValue (written ++ [(key, values)]) k =
      if key = k then some values else lastValue written k := by
  rw [lastValue, List.reverse_append, List.reverse_singleton, List.singleton_append,
    List.find?_cons]
  by_cases hk : key = k
  · simp [hk]
  · simp [hk, lastValue]

theorem lastValue_isSome {written : List (K × V)} {e : K × V} (h : e ∈ written) :
    (lastValue written e.1).isSome = true := by
  rw [lastValue, Option.isSome_map, List.find?_isSome]
  exact ⟨e, List.mem_reverse.mpr h, by simp⟩

theorem mem_of_lastValue {written : List (K × V)} {key : K} {values : V}
    (h : lastValue written key = some values) : (key, values) ∈ written := by
  obtain ⟨e, he, rfl⟩ := Option.map_eq_some_iff.mp h
  have hk : e.1 = key := by simpa using List.find?_some he
  subst hk
  exact List.mem_reverse.mp (List.mem_of_find?_eq_some he)

end

/-- One item for each hash written, and for each key where the hashes tell keys apart. -/
structure MapOf [DecidableEq K] (hash : K → Nat) (written : List (K × V))
    (dirty : List (Parked K V)) : Prop where
  nodup : (dirty.map fun e => hash e.keys.content).Nodup
  hashes : (dirty.map fun e => hash e.keys.content).toFinset = hashesOf hash written
  values : HashesApart hash written → ∀ key values,
    (∃ e ∈ dirty, e.keys.content = key ∧ e.values = values) ↔ lastValue written key = some values

section

variable [DecidableEq K] {P : Params N K V} {w : Fin N} {q : Seq K V} {written : List (K × V)}
  {dirty : List (Parked K V)}

theorem MapOf.nil (hash : K → Nat) : MapOf hash ([] : List (K × V)) [] :=
  ⟨List.nodup_nil, rfl, fun _ key values => by simp [lastValue]⟩

theorem MapOf.length {hash : K → Nat} (h : MapOf hash written dirty) :
    dirty.length = (hashesOf hash written).card := by
  rw [← h.hashes, List.toFinset_card_of_nodup h.nodup, List.length_map]

theorem MapOf.park_new {hash : K → Nat} (h : MapOf hash written dirty) {e : Parked K V}
    (hnew : ∀ d ∈ dirty, hash d.keys.content ≠ hash e.keys.content) :
    MapOf hash (written ++ [(e.keys.content, e.values)]) (dirty ++ [e]) := by
  refine ⟨?_, ?_, fun ha key values => ?_⟩
  · rw [List.map_append, List.map_singleton]
    refine List.nodup_append.mpr ⟨h.nodup, List.nodup_singleton _, fun a hm b hb => ?_⟩
    obtain ⟨d, hd, rfl⟩ := List.mem_map.mp hm
    rw [List.mem_singleton.mp hb]
    exact hnew d hd
  · rw [hashesOf_append, ← h.hashes]
    ext n
    simp
  · have hk : e.keys.content = key → ∀ d ∈ dirty, d.keys.content ≠ key :=
      fun hk d hd heq => hnew d hd (by rw [heq, hk])
    rw [lastValue_append]
    have hold := h.values ha.left key values
    by_cases hek : e.keys.content = key
    · rw [if_pos hek]
      constructor
      · rintro ⟨d, hd, hdk, rfl⟩
        rcases List.mem_append.mp hd with hd | hd
        · exact (hk hek d hd hdk).elim
        · rw [List.mem_singleton.mp hd]
      · intro hv
        exact ⟨e, by simp, hek, Option.some.inj hv⟩
    · rw [if_neg hek, ← hold]
      constructor
      · rintro ⟨d, hd, hdk, hdv⟩
        rcases List.mem_append.mp hd with hd | hd
        · exact ⟨d, hd, hdk, hdv⟩
        · rw [List.mem_singleton.mp hd] at hdk
          exact (hek hdk).elim
      · rintro ⟨d, hd, hdv⟩
        exact ⟨d, List.mem_append_left _ hd, hdv⟩

theorem MapOf.park_old {hash : K → Nat} (h : MapOf hash written dirty) {keys : TupleRow K}
    {values : V} {n : Nat} {old : Parked K V} (hold : old ∈ dirty)
    (hh : hash old.keys.content = hash keys.content) :
    MapOf hash (written ++ [(keys.content, values)]) (dirty.map fun d =>
      if hash d.keys.content = hash keys.content then ⟨n, d.keys, values⟩ else d) := by
  have hmap : ((dirty.map fun d =>
      if hash d.keys.content = hash keys.content then (⟨n, d.keys, values⟩ : Parked K V) else d).map
        fun e => hash e.keys.content) = dirty.map fun e => hash e.keys.content := by
    rw [List.map_map]
    exact List.map_congr_left fun d _ => hash_replaced hash keys n values d
  refine ⟨hmap ▸ h.nodup, ?_, fun ha key v => ?_⟩
  · rw [hmap, hashesOf_append, h.hashes, Finset.insert_eq_of_mem]
    rw [← h.hashes, List.mem_toFinset, ← hh]
    exact List.mem_map_of_mem hold
  · -- the item found has a key that was written, so it is the key of this write
    have hval := h.values ha.left
    have hkey : ∀ d ∈ dirty, (hash d.keys.content = hash keys.content ↔
        d.keys.content = keys.content) := fun d hd => by
      refine ⟨fun heq => ?_, congrArg hash⟩
      have hm := mem_of_lastValue ((hval _ _).mp ⟨d, hd, rfl, rfl⟩)
      exact ha _ (List.mem_append_left _ hm) _ (List.mem_append_right _ List.mem_cons_self) heq
    rw [lastValue_append]
    by_cases hk : keys.content = key
    · rw [if_pos hk]
      constructor
      · rintro ⟨d, hd, hdk, rfl⟩
        obtain ⟨c, hc, rfl⟩ := List.mem_map.mp hd
        by_cases hcc : hash c.keys.content = hash keys.content
        · rw [if_pos hcc]
        · rw [if_neg hcc] at hdk
          exact (hcc (by rw [hdk, hk])).elim
      · intro hv
        refine ⟨_, List.mem_map_of_mem hold, ?_⟩
        rw [if_pos hh]
        exact ⟨((hkey old hold).mp hh).trans hk, Option.some.inj hv⟩
    · rw [if_neg hk, ← hval]
      constructor
      · rintro ⟨d, hd, hdk, hdv⟩
        obtain ⟨c, hc, rfl⟩ := List.mem_map.mp hd
        by_cases hcc : hash c.keys.content = hash keys.content
        · rw [if_pos hcc] at hdk
          exact (hk (((hkey c hc).mp hcc).symm.trans hdk)).elim
        · rw [if_neg hcc] at hdk hdv
          exact ⟨c, hc, hdk, hdv⟩
      · rintro ⟨d, hd, hdk, hdv⟩
        refine ⟨d, List.mem_map.mpr ⟨d, hd, if_neg fun hdd => hk ?_⟩, hdk, hdv⟩
        exact ((hkey d hd).mp hdd).symm.trans hdk

theorem MapOf.park (h : MapOf P.hash written q.dirtyBlocks) (keys : TupleRow K) (values : V) :
    MapOf P.hash (written ++ [(keys.content, values)]) (q.park P keys values).dirtyBlocks := by
  unfold Seq.park
  cases hf : P.findParked q.dirtyBlocks keys with
  | none =>
    refine h.park_new (e := ⟨q.accepted, keys, values⟩) fun d hd heq => ?_
    have hh := List.find?_eq_none.mp hf d hd
    exact hh (by simpa using heq)
  | some old =>
    exact h.park_old (List.mem_of_find?_eq_some hf) (by simpa using List.find?_some hf)

/-- A flush queues the map exactly when no two keys that it holds writes of collide. -/
theorem MapOf.queuesMap_iff (h : MapOf P.hash written dirty) :
    QueuesMap written ((P.walk dirty).map Parked.effect) ↔ HashesApart P.hash written := by
  have hmem (key : K) (values : V) : .insert key values ∈ (P.walk dirty).map Parked.effect ↔
      ∃ e ∈ dirty, e.keys.content = key ∧ e.values = values := by
    rw [List.mem_map]
    constructor
    · rintro ⟨e, he, heff⟩
      obtain ⟨hk, hv⟩ := Effect.insert.inj heff
      exact ⟨e, (P.walk_perm dirty).mem_iff.mp he, hk, hv⟩
    · rintro ⟨e, he, rfl, rfl⟩
      exact ⟨e, (P.walk_perm dirty).mem_iff.mpr he, rfl⟩
  constructor
  · intro hq e he e' he' hh
    obtain ⟨v, hv⟩ := Option.isSome_iff_exists.mp (lastValue_isSome he)
    obtain ⟨v', hv'⟩ := Option.isSome_iff_exists.mp (lastValue_isSome he')
    obtain ⟨d, hd, hdk, -⟩ := (hmem _ _).mp ((hq _ _).mpr hv)
    obtain ⟨d', hd', hdk', -⟩ := (hmem _ _).mp ((hq _ _).mpr hv')
    have heq : d = d' := List.inj_on_of_nodup_map h.nodup hd hd' (by rw [hdk, hdk', hh])
    rw [← hdk, ← hdk', heq]
  · intro ha key values
    rw [hmem]
    exact h.values ha key values

theorem write_lazy (hl : q.lazyWriteEnabled = true) (h : MapOf P.hash written q.dirtyBlocks)
    (keys : TupleRow K) (values : V) :
    (q.write P w keys values).lazyWriteEnabled = true ∧
    if P.writerMaxCalls w < (hashesOf P.hash (written ++ [(keys.content, values)])).card then
      (q.write P w keys values).dirtyBlocks = [] ∧ (q.write P w keys values).effects =
        q.effects ++ (P.walk (q.park P keys values).dirtyBlocks).map Parked.effect
    else (q.write P w keys values).dirtyBlocks = (q.park P keys values).dirtyBlocks ∧
      (q.write P w keys values).dirtyBlocks ≠ [] := by
  have hpark := h.park keys values
  have hne : (q.park P keys values).dirtyBlocks ≠ [] := by
    intro hnil
    have hlen := hpark.length
    rw [hnil, hashesOf_append, List.length_nil, eq_comm, Finset.card_eq_zero] at hlen
    exact Finset.insert_ne_empty _ _ hlen
  rw [← hpark.length, Seq.write, if_pos hl]
  by_cases hc : P.writerMaxCalls w < (q.park P keys values).dirtyBlocks.length
  · rw [if_pos hc, if_pos hc, Seq.flush, if_pos (show (q.park P keys values).lazyWriteEnabled = true from hl)]
    exact ⟨hl, rfl, rfl⟩
  · rw [if_neg hc, if_neg hc]
    exact ⟨hl, rfl, hne⟩

theorem flushes_queueMap_iff (hl : q.lazyWriteEnabled = true)
    (h : MapOf P.hash written q.dirtyBlocks) (writes : List (TupleRow K × V)) :
    (∀ f ∈ flushes P w q written writes, QueuesMap f.1 f.2) ↔
      ∀ b ∈ batches P.hash (P.writerMaxCalls w) written (writes.map fun e => (e.1.content, e.2)),
        HashesApart P.hash b := by
  induction writes generalizing q written with
  | nil =>
    simp only [flushes, List.mem_singleton, forall_eq, List.map_nil, batches]
    rw [Seq.flush, if_pos hl, List.drop_left]
    exact h.queuesMap_iff
  | cons e rest ih =>
    obtain ⟨keys, values⟩ := e
    have hpark := h.park keys values
    obtain ⟨hl', hw⟩ := write_lazy (w := w) hl h keys values
    simp only [flushes, List.map_cons, batches]
    split at hw
    · rename_i hc
      obtain ⟨hnil, heff⟩ := hw
      rw [if_pos hc, if_pos (by rw [hnil]; rfl), List.forall_mem_cons, List.forall_mem_cons,
        ih hl' (hnil ▸ MapOf.nil P.hash), heff, List.drop_left, hpark.queuesMap_iff]
    · rename_i hc
      obtain ⟨hd, hne⟩ := hw
      rw [if_neg hc, if_neg (by simpa using hne)]
      exact ih hl' (hd ▸ hpark)

end

theorem flush_effects (P : Params N K V) (q : Seq K V) : q.effects <+: (q.flush P).effects := by
  unfold Seq.flush
  split
  · exact List.prefix_append _ _
  · exact List.prefix_refl _

theorem write_effects (P : Params N K V) (w : Fin N) {q : Seq K V} (hl : q.lazyWriteEnabled = true) (keys : TupleRow K)
    (values : V) :
    (q.write P w keys values).lazyWriteEnabled = true ∧
      q.effects <+: (q.write P w keys values).effects ∧
      ((q.write P w keys values).dirtyBlocks ≠ [] →
        (q.write P w keys values).effects = q.effects) := by
  rw [Seq.write, if_pos hl]
  have hl' : (q.park P keys values).lazyWriteEnabled = true := hl
  dsimp only
  split
  · refine ⟨?_, flush_effects P (q.park P keys values), fun hne => ?_⟩
    · rw [Seq.flush, if_pos hl']
      exact hl
    · rw [Seq.flush, if_pos hl'] at hne
      exact (hne rfl).elim
  · exact ⟨hl, List.prefix_refl _, fun _ => rfl⟩

section

variable [DecidableEq K] (P : Params N K V) (w : Fin N)

def lazyCalls (writes : List (TupleRow K × V)) : List (Call K V) :=
  writes.map fun e => .writeToCassandra e.1 e.2

theorem effects_of_flushes (rowsAfter : List (Effect K V) → K → List V)
    (writes : List (TupleRow K × V)) (q : Seq K V) (written : List (K × V))
    (hl : q.lazyWriteEnabled = true) :
    (((lazyCalls writes).foldl (Seq.call rowsAfter P w) q).flush P).effects =
      q.effects ++ (flushes P w q written writes).flatMap Prod.snd := by
  induction writes generalizing q written with
  | nil =>
    obtain ⟨rest, hr⟩ := flush_effects P q
    simp [lazyCalls, flushes, ← hr]
  | cons e rest ih =>
    obtain ⟨keys, values⟩ := e
    obtain ⟨hl', ⟨queued, hq⟩, hsame⟩ := write_effects P w hl keys values
    have hcall : (lazyCalls ((keys, values) :: rest)).foldl (Seq.call rowsAfter P w) q =
        (lazyCalls rest).foldl (Seq.call rowsAfter P w) (q.write P w keys values) := rfl
    rw [hcall, flushes]
    split
    · rw [ih _ [] hl', List.flatMap_cons, ← hq, List.drop_left, List.append_assoc]
    · rename_i hne
      rw [ih _ _ hl', hsame fun hnil => hne (by rw [hnil]; rfl)]

def Seq.lazy : Seq K V :=
  { Seq.new (P.cacheSize w) with lazyWriteEnabled := true }

/-- The statements of a Writer whose thread has written in lazy mode and flushed. -/
theorem issued_of_flushes [DecidableEq V] {P : Params N K V} {s : State N T K V}
    (h : Reachable P s) {writes : List (TupleRow K × V)}
    (hc : (s.clients w).calls = .enableLazyWrite :: lazyCalls writes ++ [.flushElements])
    (hi : (s.clients w).isIdle = true) :
    (s.clients w).issued.map Statement.effect =
      (flushes P w (Seq.lazy P w) [] writes).flatMap Prod.snd := by
  have hread (keys : K) : .getCrow keys ∉ (s.clients w).calls := by
    rw [hc]
    simp [lazyCalls]
  rw [issued_of_idle (fun _ _ => []) h hread hi, hc, Seq.run, List.foldl_append]
  exact effects_of_flushes P w _ writes (Seq.lazy P w) [] rfl

end

/-- The key of a block of a StorageNumpy: a UUID of 16 bytes and two 32-bit numbers. -/
structure BlockKey where
  storageId : Fin 16 → UInt8
  clusterId : UInt32
  blockId : UInt32
  deriving DecidableEq

def BlockKey.keyContent (key : BlockKey) : List UInt8 :=
  List.ofFn key.storageId ++
    (List.range 4).map (fun i => UInt8.ofNat (key.clusterId.toNat / 256 ^ i)) ++
    (List.range 4).map fun i => UInt8.ofNat (key.blockId.toNat / 256 ^ i)

/-- `HashCompare::hash` over a `std::hash` of the 24 bytes. -/
def HashCompare.hash (h : List UInt8 → UInt64) (key : BlockKey) : Nat := (h key.keyContent).toNat

def Params.hashedBy (P : Params N BlockKey V) (h : List UInt8 → UInt64) : Params N BlockKey V :=
  { P with hash := HashCompare.hash h }

/-- Every flush of a run of lazy writes queues the map of the writes since the last flush
exactly when the keys written between two flushes have hashes of their own. -/
theorem lazy_map_iff (P : Params N BlockKey V) (w : Fin N) (h : List UInt8 → UInt64)
    (writes : List (TupleRow BlockKey × V)) :
    (∀ f ∈ flushes (P.hashedBy h) w (Seq.lazy P w) [] writes, QueuesMap f.1 f.2) ↔
      ∀ b ∈ batches (HashCompare.hash h) (P.writerMaxCalls w) []
        (writes.map fun e => (e.1.content, e.2)), HashesApart (HashCompare.hash h) b :=
  flushes_queueMap_iff (P := P.hashedBy h) rfl (MapOf.nil _) writes

def keyOf (bytes : Fin 9 → Fin 256) : BlockKey :=
  ⟨fun i => if h : i.val < 9 then UInt8.ofNat (bytes ⟨i, h⟩).val else 0, 0, 0⟩

theorem keyOf_injective : Function.Injective keyOf := by
  intro a b hab
  funext i
  have hi := congrFun (congrArg BlockKey.storageId hab) ⟨i.val, by omega⟩
  simp only [keyOf, i.isLt, dif_pos] at hi
  have hn := congrArg UInt8.toNat hi
  rw [UInt8.toNat_ofNat', UInt8.toNat_ofNat', Nat.mod_eq_of_lt (a i).isLt,
    Nat.mod_eq_of_lt (b i).isLt] at hn
  exact Fin.ext hn

/-- 64 bits cannot tell 192 apart. -/
theorem hash_collides (h : List UInt8 → UInt64) :
    ∃ key key', key ≠ key' ∧ HashCompare.hash h key = HashCompare.hash h key' := by
  have hlt (key : BlockKey) : HashCompare.hash h key < 2 ^ 64 := (h key.keyContent).toNat_lt
  obtain ⟨a, b, hne, heq⟩ := Fintype.exists_ne_map_eq_of_card_lt
    (fun x : Fin 9 → Fin 256 => (⟨HashCompare.hash h (keyOf x), hlt _⟩ : Fin (2 ^ 64)))
    (by simp)
  exact ⟨_, _, fun hk => hne (keyOf_injective hk), Fin.mk.inj heq⟩

/-- Whatever the hash, some two writes of different keys are merged. -/
theorem exists_merged_writes (P : Params N BlockKey V) (w : Fin N) (h : List UInt8 → UInt64)
    (hmax : 0 < P.writerMaxCalls w) (values : V) :
    ∃ keys keys' : TupleRow BlockKey, keys.content ≠ keys'.content ∧
      ¬ ∀ f ∈ flushes (P.hashedBy h) w (Seq.lazy P w) [] [(keys, values), (keys', values)],
        QueuesMap f.1 f.2 := by
  obtain ⟨key, key', hne, hh⟩ := hash_collides h
  refine ⟨⟨key, 0⟩, ⟨key', 1⟩, hne, fun hf => hne ?_⟩
  have hb := (flushes_queueMap_iff (P := P.hashedBy h) rfl (MapOf.nil _) _).mp hf
  have hone : hashesOf (HashCompare.hash h) [(key, values)] = {HashCompare.hash h key} := by
    simp [hashesOf]
  have htwo : hashesOf (HashCompare.hash h) [(key, values), (key', values)] =
      {HashCompare.hash h key} := by
    simp [hashesOf, hh]
  have hmem : [(key, values), (key', values)] ∈ batches (HashCompare.hash h) (P.writerMaxCalls w)
      [] [(key, values), (key', values)] := by
    simp [batches, hone, htwo, Nat.not_lt.mpr hmax]
  exact hb _ hmem (key, values) (by simp) (key', values) (by simp) hh

def blockTable : Params 1 BlockKey Nat where
  maxCalls := 1
  maxCalls_pos := Nat.one_pos
  writerBuffer := 1
  disableTimestamps _ := false
  cacheSize _ := 0
  writerMaxCalls _ := 16
  hash _ := 0
  walk := id
  walk_perm _ := .refl _
  selectRows _ _ := []

def blockOf (n : UInt32) : TupleRow BlockKey := ⟨⟨fun _ => 0, n, 0⟩, n.toNat⟩

theorem flushes_colliding (w : Fin 1) :
    flushes (blockTable.hashedBy fun _ => 0) w (Seq.lazy blockTable w) []
        [(blockOf 0, 7), (blockOf 1, 8)] =
      [([((blockOf 0).content, 7), ((blockOf 1).content, 8)],
        [.insert (blockOf 0).content 8])] := rfl

/-- The key of the second block is never queued: its bytes go out under the first. -/
theorem colliding_block_lost :
    ¬ ∀ (h : List UInt8 → UInt64) (writes : List (TupleRow BlockKey × Nat)),
      ∀ f ∈ flushes (blockTable.hashedBy h) 0 (Seq.lazy blockTable 0) [] writes,
        QueuesMap f.1 f.2 := by
  intro hall
  have hf := hall (fun _ => 0) [(blockOf 0, 7), (blockOf 1, 8)]
  rw [flushes_colliding, List.forall_mem_singleton] at hf
  have hq := (hf (blockOf 1).content 8).mpr (by decide)
  rw [List.mem_singleton, Effect.insert.injEq] at hq
  exact absurd hq.1 (by decide)

end Hecuba
