import Mathlib.Data.List.Nodup
import Mathlib.Logic.Function.Basic
import Mathlib.Data.List.Lookmap

/-! The LRU cache of a CacheTable. The list is ordered by access, newest first;
the map of the source only points into it, so a key of the list occurs once. -/

namespace Hecuba

structure KVCache (K V : Type) where
  maxCacheSize : Nat
  items : List (K × V)
  nodup : (items.map Prod.fst).Nodup
  bounded : items.length ≤ maxCacheSize
  positive : 0 < maxCacheSize

namespace KVCache

variable {K V : Type} [DecidableEq K]

def new (size : Nat) (h : 0 < size) : KVCache K V :=
  ⟨size, [], List.nodup_nil, Nat.zero_le _, h⟩

def find (c : KVCache K V) (key : K) : Option V :=
  (c.items.find? fun e => e.1 = key).map Prod.snd

theorem fst_filter_ne (l : List (K × V)) (key : K) :
    (l.filter fun e => e.1 ≠ key).map Prod.fst = (l.map Prod.fst).filter (· ≠ key) := by
  rw [List.filter_map]
  rfl

theorem nodup_front {l : List (K × V)} (h : (l.map Prod.fst).Nodup) (key : K) (value : V) :
    (((key, value) :: l.filter fun e => e.1 ≠ key).map Prod.fst).Nodup := by
  rw [List.map_cons, fst_filter_ne]
  exact List.nodup_cons.mpr ⟨by simp, h.filter _⟩

theorem length_front_of_mem {l : List (K × V)} {key : K} {n : Nat} (h : key ∈ l.map Prod.fst)
    (hn : l.length ≤ n) (value : V) :
    ((key, value) :: l.filter fun e => e.1 ≠ key).length ≤ n := by
  obtain ⟨e, he, hk⟩ := List.mem_map.mp h
  have hh : (l.filter fun e => e.1 ≠ key).length < l.length :=
    List.length_filter_lt_length_iff_exists.mpr ⟨e, he, by simp [hk]⟩
  simp only [List.length_cons]
  omega

theorem mem_of_find {c : KVCache K V} {key : K} {value : V} (h : c.find key = some value) :
    (key, value) ∈ c.items := by
  obtain ⟨e, he, hv⟩ := Option.map_eq_some_iff.mp h
  have hk : e.1 = key := by simpa using List.find?_some he
  have hm := List.mem_of_find?_eq_some he
  rwa [show e = (key, value) from Prod.ext hk hv] at hm

theorem find_of_mem {c : KVCache K V} {key : K} {value : V} (h : (key, value) ∈ c.items) :
    c.find key = some value := by
  cases hf : c.items.find? fun e => e.1 = key with
  | none =>
    have hh := List.find?_eq_none.mp hf _ h
    simp at hh
  | some e =>
    have hk : e.1 = key := by simpa using List.find?_some hf
    have he : e = (key, value) :=
      List.inj_on_of_nodup_map c.nodup (List.mem_of_find?_eq_some hf) h hk
    simp [find, hf, he]

def get (c : KVCache K V) (key : K) : Option (V × KVCache K V) :=
  match h : c.find key with
  | none => none
  | some value => some (value,
      { c with
        items := (key, value) :: c.items.filter fun e => e.1 ≠ key
        nodup := nodup_front c.nodup key value
        bounded := length_front_of_mem (List.mem_map_of_mem (mem_of_find h)) c.bounded value })

/-- `add` on a key that is present: its value is replaced and it moves to the front. -/
def replace (c : KVCache K V) (key : K) (value : V) (h : key ∈ c.items.map Prod.fst) :
    KVCache K V :=
  { c with
    items := (key, value) :: c.items.filter fun e => e.1 ≠ key
    nodup := nodup_front c.nodup key value
    bounded := length_front_of_mem h c.bounded value }

/-- `add` on an absent key: a full cache drops its last item first. -/
def insert (c : KVCache K V) (key : K) (value : V) (h : key ∉ c.items.map Prod.fst) :
    KVCache K V :=
  { c with
    items := (key, value) ::
      if c.maxCacheSize < c.items.length + 1 then c.items.dropLast else c.items
    nodup := by
      rw [List.map_cons, List.nodup_cons]
      split
      · rw [List.map_dropLast]
        exact ⟨fun hm => h ((List.dropLast_sublist _).mem hm), c.nodup.sublist (List.dropLast_sublist _)⟩
      · exact ⟨h, c.nodup⟩
    bounded := by
      have hb := c.bounded
      have hp := c.positive
      split
      · simp only [List.length_cons, List.length_dropLast]
        omega
      · simp only [List.length_cons]
        omega }

def add (c : KVCache K V) (key : K) (value : V) : KVCache K V :=
  if h : key ∈ c.items.map Prod.fst then c.replace key value h else c.insert key value h

def remove (c : KVCache K V) (key : K) : KVCache K V :=
  { c with
    items := c.items.filter fun e => e.1 ≠ key
    nodup := by
      rw [fst_filter_ne]
      exact c.nodup.filter _
    bounded := Nat.le_trans (List.length_filter_le _ _) c.bounded }

theorem get_eq_some {c c' : KVCache K V} {key : K} {value : V} (h : c.get key = some (value, c')) :
    c.find key = some value ∧ ∀ k v, c'.find k = some v → c.find k = some v := by
  unfold get at h
  split at h
  · cases h
  · rename_i v hv
    obtain ⟨rfl, rfl⟩ := Prod.mk.inj (Option.some.inj h)
    refine ⟨hv, fun k u hu => ?_⟩
    rcases List.mem_cons.mp (mem_of_find hu) with he | he
    · obtain ⟨rfl, rfl⟩ := Prod.mk.inj he
      exact hv
    · exact find_of_mem (List.mem_of_mem_filter he)

theorem find_add {c : KVCache K V} {key k : K} {value v : V} (h : (c.add key value).find k = some v) :
    k = key ∧ v = value ∨ k ≠ key ∧ c.find k = some v := by
  have hm := mem_of_find h
  unfold add at hm
  split at hm
  · rename_i hk
    rcases List.mem_cons.mp hm with he | he
    · exact .inl (Prod.mk.inj he)
    · obtain ⟨hi, hne⟩ := List.mem_filter.mp he
      exact .inr ⟨by simpa using hne, find_of_mem hi⟩
  · rename_i hk
    rcases List.mem_cons.mp hm with he | he
    · exact .inl (Prod.mk.inj he)
    · have hi : (k, v) ∈ c.items := by
        split at he
        · exact (List.dropLast_sublist _).mem he
        · exact he
      refine .inr ⟨?_, find_of_mem hi⟩
      intro hkk
      exact hk (hkk ▸ List.mem_map_of_mem hi)

theorem find_remove {c : KVCache K V} {key k : K} {v : V} (h : (c.remove key).find k = some v) :
    k ≠ key ∧ c.find k = some v := by
  obtain ⟨hi, hne⟩ := List.mem_filter.mp (mem_of_find h)
  exact ⟨by simpa using hne, find_of_mem hi⟩

theorem get_eq_none {c : KVCache K V} {key : K} : c.get key = none ↔ c.find key = none := by
  unfold get
  split
  · simp [*]
  · simp [*]

theorem exists_get {c : KVCache K V} {key : K} {value : V} (h : c.find key = some value) :
    ∃ c', c.get key = some (value, c') := by
  cases hg : c.get key with
  | none =>
    rw [get_eq_none, h] at hg
    cases hg
  | some r =>
    obtain ⟨v, c'⟩ := r
    rw [(get_eq_some hg).1] at h
    cases h
    exact ⟨c', rfl⟩

theorem find_eq_some {c : KVCache K V} {key : K} {value : V} :
    c.find key = some value ↔ (key, value) ∈ c.items := ⟨mem_of_find, find_of_mem⟩

theorem find_front {c c' : KVCache K V} {key : K} {value : V}
    (h : c'.items = (key, value) :: c.items.filter fun e => e.1 ≠ key) :
    c'.find = Function.update c.find key (some value) := by
  funext k
  ext v
  rw [find_eq_some, h, List.mem_cons, List.mem_filter, ← find_eq_some]
  by_cases hk : k = key
  · simp [hk, eq_comm]
  · simp [hk]

theorem get_keeps {c c' : KVCache K V} {key : K} {value : V} (h : c.get key = some (value, c')) :
    c'.find = c.find ∧ c'.items.length ≤ c.items.length ∧ c'.maxCacheSize = c.maxCacheSize := by
  have hf := (get_eq_some h).1
  unfold get at h
  split at h
  · cases h
  · rename_i v hv
    obtain ⟨rfl, rfl⟩ := Prod.mk.inj (Option.some.inj h)
    refine ⟨?_, length_front_of_mem (List.mem_map_of_mem (mem_of_find hv)) (Nat.le_refl _) v, rfl⟩
    rw [find_front rfl, ← hv, Function.update_eq_self]

theorem find_add_of_room {c : KVCache K V} (h : c.items.length < c.maxCacheSize) (key : K)
    (value : V) : (c.add key value).find = Function.update c.find key (some value) := by
  unfold add
  split
  · exact find_front rfl
  · rename_i hk
    have hall : (c.items.filter fun e => e.1 ≠ key) = c.items :=
      List.filter_eq_self.mpr fun e he => by
        have hne : e.1 ≠ key := fun hek => hk (hek ▸ List.mem_map_of_mem he)
        simpa using hne
    refine find_front ?_
    rw [hall]
    simp only [insert]
    rw [if_neg (by omega)]

theorem length_add (c : KVCache K V) (key : K) (value : V) :
    (c.add key value).items.length ≤ c.items.length + 1 ∧
      (c.add key value).maxCacheSize = c.maxCacheSize := by
  unfold add
  split
  · rename_i hk
    exact ⟨Nat.le_succ_of_le (length_front_of_mem hk (Nat.le_refl _) value), rfl⟩
  · refine ⟨?_, rfl⟩
    simp only [insert, List.length_cons]
    split
    · simp only [List.length_dropLast]
      omega
    · omega

theorem find_remove_eq (c : KVCache K V) (key : K) :
    (c.remove key).find = Function.update c.find key none := by
  funext k
  ext v
  rw [find_eq_some, show (c.remove key).items = c.items.filter fun e => e.1 ≠ key from rfl,
    List.mem_filter, ← find_eq_some]
  by_cases hk : k = key
  · simp [hk]
  · simp [hk]

theorem length_remove (c : KVCache K V) (key : K) :
    (c.remove key).items.length ≤ c.items.length ∧
      (c.remove key).maxCacheSize = c.maxCacheSize :=
  ⟨List.length_filter_le _ _, rfl⟩

end KVCache

end Hecuba
