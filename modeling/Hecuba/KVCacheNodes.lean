import Hecuba.KVCache
import Hecuba.LruList

/-! The LRU cache as the source keeps it: a list of nodes at addresses of their own, and a
map from keys to the addresses of nodes. -/

namespace Hecuba

structure ListNode (K V : Type) where
  address : Nat
  key : K
  value : V

/-- The order of the pairs of `cacheItemsMap` means nothing. -/
structure KVCacheNodes (K V : Type) where
  maxCacheSize : Nat
  cacheItemsList : List (ListNode K V)
  cacheItemsMap : List (K × Nat)

/-- `dangling` is the use of an iterator that points to no node of the list. -/
inductive CacheFault where
  | outOfRange (message : String)
  | dangling
  deriving DecidableEq, Repr

/-- Where the memory of a new node may be: anywhere but at a node that is still there. -/
structure Allocator where
  fresh : List Nat → Nat
  unused : ∀ live, fresh live ∉ live

@[simp] theorem CacheFault.ok_bind {α β : Type} (a : α) (f : α → Except CacheFault β) : (.ok a >>= f) = f a := rfl

@[simp] theorem CacheFault.pure_eq {α : Type} (a : α) : (pure a : Except CacheFault α) = .ok a := rfl

@[simp] theorem CacheFault.ok_map {α β : Type} (a : α) (f : α → β) :
    (f <$> (.ok a : Except CacheFault α)) = .ok (f a) := rfl

section nodes

variable {K V : Type}

def deref (it : Nat) (l : List (ListNode K V)) : Except CacheFault (ListNode K V) :=
  match l.find? fun node => node.address = it with
  | some node => .ok node
  | none => .error .dangling

/-- `splice` of one node of a list to its beginning. -/
def splice (it : Nat) (l : List (ListNode K V)) : Except CacheFault (List (ListNode K V)) := do
  return (← deref it l) :: l.filter fun node => node.address ≠ it

def setValue (it : Nat) (value : V) (l : List (ListNode K V)) : List (ListNode K V) :=
  l.map fun node => if node.address = it then { node with value := value } else node

def ListNode.entry (node : ListNode K V) : K × V := (node.key, node.value)

def ListNode.link (node : ListNode K V) : K × Nat := (node.key, node.address)

variable {l : List (ListNode K V)}

theorem deref_of_mem (h : (l.map ListNode.address).Nodup) {node : ListNode K V} (hnode : node ∈ l) :
    deref node.address l = .ok node := by
  cases hf : l.find? fun i => i.address = node.address with
  | none =>
    have hne := List.find?_eq_none.mp hf node hnode
    simp at hne
  | some i =>
    have hi : i.address = node.address := by simpa using List.find?_some hf
    rw [List.inj_on_of_nodup_map h (List.mem_of_find?_eq_some hf) hnode hi] at hf
    simp [deref, hf]

theorem splice_of_mem (h : (l.map ListNode.address).Nodup) {node : ListNode K V} (hnode : node ∈ l) :
    splice node.address l = .ok (node :: l.filter fun i => i.address ≠ node.address) := by
  simp [splice, deref_of_mem h hnode]

theorem filter_address [DecidableEq K] (ha : (l.map ListNode.address).Nodup) (hk : (l.map ListNode.key).Nodup)
    {node : ListNode K V} (hnode : node ∈ l) :
    (l.filter fun i => i.address ≠ node.address) = l.filter fun i => i.key ≠ node.key := by
  refine List.filter_congr fun i hi => ?_
  have heq : i.address = node.address ↔ i.key = node.key :=
    ⟨fun hh => by rw [List.inj_on_of_nodup_map ha hi hnode hh],
      fun hh => by rw [List.inj_on_of_nodup_map hk hi hnode hh]⟩
  simp [heq]

theorem perm_toFront (h : (l.map ListNode.address).Nodup) {node : ListNode K V} (hnode : node ∈ l) :
    (node :: l.filter fun i => i.address ≠ node.address).Perm l := by
  have hl : l.Nodup := List.Nodup.of_map _ h
  refine (List.perm_ext_iff_of_nodup (List.nodup_cons.mpr ⟨by simp, hl.filter _⟩) hl).mpr fun i => ?_
  by_cases hi : i = node
  · simp [hi, hnode]
  · have hne : i ∈ l → i.address ≠ node.address := fun hm hh => hi (List.inj_on_of_nodup_map h hm hnode hh)
    simp [hi]
    exact hne

theorem map_entry_filter [DecidableEq K] (key : K) : (l.filter fun i => i.key ≠ key).map ListNode.entry =
    (l.map ListNode.entry).filter fun e => e.1 ≠ key := by
  rw [List.filter_map]
  rfl

theorem map_link_filter [DecidableEq K] (key : K) : (l.filter fun i => i.key ≠ key).map ListNode.link =
    (l.map ListNode.link).filter fun e => e.1 ≠ key := by
  rw [List.filter_map]
  rfl

@[simp] theorem map_key_setValue (it : Nat) (value : V) :
    (setValue it value l).map ListNode.key = l.map ListNode.key := by
  rw [setValue, List.map_map]
  exact List.map_congr_left fun node _ => by by_cases h : node.address = it <;> simp [h]

@[simp] theorem map_address_setValue (it : Nat) (value : V) :
    (setValue it value l).map ListNode.address = l.map ListNode.address := by
  rw [setValue, List.map_map]
  exact List.map_congr_left fun node _ => by by_cases h : node.address = it <;> simp [h]

@[simp] theorem map_link_setValue (it : Nat) (value : V) :
    (setValue it value l).map ListNode.link = l.map ListNode.link := by
  rw [setValue, List.map_map]
  exact List.map_congr_left fun node _ => by by_cases h : node.address = it <;> simp [ListNode.link, h]

theorem filter_setValue (it : Nat) (value : V) :
    ((setValue it value l).filter fun node => node.address ≠ it) = l.filter fun node => node.address ≠ it := by
  induction l with
  | nil => rfl
  | cons node l ih =>
    by_cases h : node.address = it
    · simpa [setValue, h] using ih
    · simpa [setValue, h] using ih

theorem mem_setValue {node : ListNode K V} (h : node ∈ l) (value : V) :
    { node with value := value } ∈ setValue node.address value l :=
  List.mem_map.mpr ⟨node, h, if_pos rfl⟩

end nodes

namespace KVCacheNodes

variable {K V : Type} [DecidableEq K]

def new (size : Nat) : KVCacheNodes K V := ⟨size, [], []⟩

def size (c : KVCacheNodes K V) : Nat := c.cacheItemsMap.length

def find (c : KVCacheNodes K V) (key : K) : Option Nat := findPair key c.cacheItemsMap

def get (c : KVCacheNodes K V) (key : K) : Except CacheFault (V × KVCacheNodes K V) :=
  match c.find key with
  | none => .error (.outOfRange "No such key in the cache")
  | some it => do
    let l ← splice it c.cacheItemsList
    return ((← deref it l).value, { c with cacheItemsList := l })

/-- The removal of the last element in `add`. -/
def evict (c : KVCacheNodes K V) : Except CacheFault (KVCacheNodes K V) :=
  match c.cacheItemsList.getLast? with
  | none => .error .dangling
  | some last => .ok { c with
      cacheItemsMap := c.cacheItemsMap.filter fun e => e.1 ≠ last.key
      cacheItemsList := c.cacheItemsList.dropLast }

def pushFront (alloc : Allocator) (c : KVCacheNodes K V) (key : K) (value : V) : KVCacheNodes K V :=
  let it := alloc.fresh (c.cacheItemsList.map ListNode.address)
  { c with
    cacheItemsList := ⟨it, key, value⟩ :: c.cacheItemsList
    cacheItemsMap := (key, it) :: c.cacheItemsMap.filter fun e => e.1 ≠ key }

def add (alloc : Allocator) (c : KVCacheNodes K V) (key : K) (value : V) :
    Except CacheFault (KVCacheNodes K V) :=
  match c.find key with
  | none => do
    let c ← if c.maxCacheSize < c.size + 1 then c.evict else pure c
    return c.pushFront alloc key value
  | some it => do
    let _ ← deref it c.cacheItemsList
    return { c with cacheItemsList := ← splice it (setValue it value c.cacheItemsList) }

def remove (c : KVCacheNodes K V) (key : K) : Except CacheFault (KVCacheNodes K V) :=
  match c.find key with
  | none => .ok c
  | some it => do
    let _ ← deref it c.cacheItemsList
    return { c with
      cacheItemsList := c.cacheItemsList.filter fun node => node.address ≠ it
      cacheItemsMap := c.cacheItemsMap.filter fun e => e.1 ≠ key }

def clear (c : KVCacheNodes K V) : KVCacheNodes K V := ⟨c.maxCacheSize, [], []⟩

/-- A call with what its caller sees of it. -/
def perform (alloc : Allocator) (c : KVCacheNodes K V) :
    CacheCall K V → Except CacheFault (CacheOutcome V × KVCacheNodes K V)
  | .add key value => do return (.done, ← c.add alloc key value)
  | .get key =>
    match c.get key with
    | .ok (v, c) => .ok (.value v, c)
    | .error (.outOfRange _) => .ok (.outOfRange, c)
    | .error .dangling => .error .dangling
  | .remove key => do return (.done, ← c.remove key)
  | .clear => .ok (.done, c.clear)

/-- The calls made so far and the cache after them. Each new node is placed by the allocator
that comes with its call. -/
def run (n : Nat) (calls : List (Allocator × CacheCall K V)) :
    Except CacheFault (History K V × KVCacheNodes K V) :=
  calls.foldlM (fun s call => do
    let r ← s.2.perform call.1 call.2
    return ((call.2, r.1) :: s.1, r.2)) ([], new n)

def entries (c : KVCacheNodes K V) : List (K × V) := c.cacheItemsList.map ListNode.entry

/-- The map and the list are in bijection: each entry of the map is the key and the address
of one node. -/
structure Linked (c : KVCacheNodes K V) : Prop where
  addresses : (c.cacheItemsList.map ListNode.address).Nodup
  keys : (c.cacheItemsList.map ListNode.key).Nodup
  links : c.cacheItemsMap.Perm (c.cacheItemsList.map ListNode.link)

/-- The cache is linked, of capacity `n`, and its list holds `items`. -/
structure Represents (n : Nat) (items : List (K × V)) (c : KVCacheNodes K V) : Prop extends Linked c where
  capacity : c.maxCacheSize = n
  holds : c.entries = items

namespace Linked

variable {c : KVCacheNodes K V}

omit [DecidableEq K] in
theorem size_eq (h : Linked c) : c.size = c.entries.length := by
  rw [size, h.links.length_eq, entries, List.length_map, List.length_map]

omit [DecidableEq K] in
theorem nodup (h : Linked c) : (c.entries.map Prod.fst).Nodup := by
  rw [entries, List.map_map]
  exact h.keys

omit [DecidableEq K] in
theorem perm {l : List (ListNode K V)} (h : Linked c) (hl : l.Perm c.cacheItemsList) :
    Linked { c with cacheItemsList := l } :=
  ⟨(hl.map _).nodup_iff.mpr h.addresses, (hl.map _).nodup_iff.mpr h.keys, h.links.trans (hl.map _).symm⟩

theorem find_iff (h : Linked c) {key : K} {it : Nat} : c.find key = some it ↔
    ∃ node ∈ c.cacheItemsList, node.key = key ∧ node.address = it := by
  have hnodup : (c.cacheItemsMap.map Prod.fst).Nodup := by
    rw [(h.links.map Prod.fst).nodup_iff, List.map_map]
    exact h.keys
  rw [find, findPair_iff hnodup, h.links.mem_iff, List.mem_map]
  simp [ListNode.link]

theorem find_none (h : Linked c) {key : K} (hf : c.find key = none) : findPair key c.entries = none := by
  rw [findPair_eq_none, entries, List.map_map]
  intro hmem
  obtain ⟨node, hnode, hk⟩ := List.mem_map.mp hmem
  rw [h.find_iff.mpr ⟨node, hnode, hk, rfl⟩] at hf
  cases hf

/-- A key of the map: its node, and the pair that the node holds. -/
theorem find_some (h : Linked c) {key : K} {it : Nat} (hf : c.find key = some it) :
    ∃ value, ⟨it, key, value⟩ ∈ c.cacheItemsList ∧ findPair key c.entries = some value := by
  obtain ⟨⟨address, k, value⟩, hnode, rfl, rfl⟩ := h.find_iff.mp hf
  exact ⟨value, hnode, (findPair_iff h.nodup).mpr (List.mem_map_of_mem (f := ListNode.entry) hnode)⟩

/-- Taking the nodes of one key out of both structures. -/
theorem without (h : Linked c) (key : K) : Linked { c with
    cacheItemsList := c.cacheItemsList.filter fun node => node.key ≠ key
    cacheItemsMap := c.cacheItemsMap.filter fun e => e.1 ≠ key } := by
  refine ⟨h.addresses.sublist (List.filter_sublist.map _), h.keys.sublist (List.filter_sublist.map _), ?_⟩
  rw [map_link_filter]
  exact h.links.filter _

theorem filter_last (h : Linked c) {last : ListNode K V} (hlast : c.cacheItemsList.getLast? = some last) :
    (c.cacheItemsList.filter fun node => node.key ≠ last.key) = c.cacheItemsList.dropLast := by
  obtain ⟨front, hfront⟩ := List.getLast?_eq_some_iff.mp hlast
  have hkeys := h.keys
  rw [hfront, List.map_append, List.nodup_append] at hkeys
  rw [hfront, List.filter_append, List.dropLast_concat]
  have hall : (front.filter fun node => node.key ≠ last.key) = front :=
    List.filter_eq_self.mpr fun node hnode => by
      simpa using hkeys.2.2 _ (List.mem_map_of_mem hnode) last.key (by simp)
  rw [hall]
  simp

theorem pushFront (h : Linked c) (alloc : Allocator) {key : K} (hf : c.find key = none) (value : V) :
    Linked (c.pushFront alloc key value) := by
  have hkey : key ∉ c.cacheItemsList.map ListNode.key := by
    have hnone := findPair_eq_none.mp (h.find_none hf)
    rwa [entries, List.map_map] at hnone
  have hmap : (c.cacheItemsMap.filter fun e => e.1 ≠ key) = c.cacheItemsMap :=
    List.filter_eq_self.mpr fun e he => by
      have hne : e.1 ≠ key := fun hek => findPair_eq_none.mp hf (hek ▸ List.mem_map_of_mem he)
      simpa using hne
  refine ⟨List.nodup_cons.mpr ⟨alloc.unused _, h.addresses⟩, List.nodup_cons.mpr ⟨hkey, h.keys⟩, ?_⟩
  simp only [KVCacheNodes.pushFront, hmap, List.map_cons]
  exact h.links.cons _

end Linked

variable {c : KVCacheNodes K V} {n : Nat} {items : List (K × V)}

namespace Represents

omit [DecidableEq K] in
theorem size_eq (h : Represents n items c) : c.size = items.length := by
  rw [h.toLinked.size_eq, h.holds]

omit [DecidableEq K] in
theorem new (n : Nat) : Represents n [] (KVCacheNodes.new n : KVCacheNodes K V) :=
  ⟨⟨List.nodup_nil, List.nodup_nil, List.Perm.nil⟩, rfl, rfl⟩

theorem toFront (h : Represents n items c) {node : ListNode K V} (hnode : node ∈ c.cacheItemsList) :
    ∃ l, splice node.address c.cacheItemsList = .ok l ∧ deref node.address l = .ok node ∧
      Represents n (moveToFront node.key node.value items) { c with cacheItemsList := l } := by
  have hlinked := h.perm (perm_toFront h.addresses hnode)
  refine ⟨_, splice_of_mem h.addresses hnode, deref_of_mem hlinked.addresses List.mem_cons_self, hlinked,
    h.capacity, ?_⟩
  simp only [entries, List.map_cons, filter_address h.addresses h.keys hnode, map_entry_filter]
  rw [moveToFront, ← h.holds]
  rfl

omit [DecidableEq K] in
theorem setValue (h : Represents n items c) (it : Nat) (value : V) :
    Represents n ((Hecuba.setValue it value c.cacheItemsList).map ListNode.entry)
      { c with cacheItemsList := Hecuba.setValue it value c.cacheItemsList } := by
  refine ⟨⟨?_, ?_, ?_⟩, h.capacity, rfl⟩
  · simpa using h.addresses
  · simpa using h.keys
  · simpa using h.links

theorem moveToFront_setValue (h : Represents n items c) {node : ListNode K V} (hnode : node ∈ c.cacheItemsList)
    (value : V) :
    moveToFront node.key value ((Hecuba.setValue node.address value c.cacheItemsList).map ListNode.entry) =
      moveToFront node.key value items := by
  have hset := h.setValue node.address value
  have hfilter := filter_setValue (l := c.cacheItemsList) node.address value
  have hleft := filter_address hset.addresses hset.keys (mem_setValue hnode value)
  rw [hfilter, filter_address h.addresses h.keys hnode] at hleft
  rw [moveToFront, moveToFront, ← map_entry_filter, ← h.holds, entries, ← map_entry_filter]
  exact congrArg (fun l => (node.key, value) :: l.map ListNode.entry) hleft.symm

theorem evict (h : Represents n items c) (hpos : items ≠ []) :
    ∃ c', c.evict = .ok c' ∧ Represents n items.dropLast c' ∧ ∀ key, c.find key = none → c'.find key = none := by
  have hne : c.cacheItemsList ≠ [] := by
    intro hnil
    exact hpos (by rw [← h.holds, entries, hnil, List.map_nil])
  obtain ⟨last, hlast⟩ := Option.ne_none_iff_exists'.mp (List.getLast?_eq_none_iff.not.mpr hne)
  have hlinked := h.without last.key
  rw [h.filter_last hlast] at hlinked
  refine ⟨_, by rw [KVCacheNodes.evict, hlast], ⟨hlinked, h.capacity, ?_⟩, fun key hf => ?_⟩
  · rw [entries, List.map_dropLast, ← h.holds, entries]
  · rw [find, findPair_eq_none] at hf ⊢
    exact fun hmem => hf ((List.filter_sublist.map Prod.fst).mem hmem)

theorem pushFront (h : Represents n items c) (alloc : Allocator) {key : K} (hf : c.find key = none) (value : V) :
    Represents n ((key, value) :: items) (c.pushFront alloc key value) :=
  ⟨h.toLinked.pushFront alloc hf value, h.capacity, by rw [← h.holds]; rfl⟩

end Represents

theorem get_hit (h : Represents n items c) {key : K} {value : V} (hf : findPair key items = some value) :
    ∃ c', c.get key = .ok (value, c') ∧ Represents n (moveToFront key value items) c' := by
  cases hc : c.find key with
  | none =>
    rw [← h.holds, h.find_none hc] at hf
    cases hf
  | some it =>
    obtain ⟨v, hnode, hv⟩ := h.find_some hc
    rw [h.holds, hf] at hv
    cases hv
    obtain ⟨l, hsplice, hderef, hl⟩ := h.toFront hnode
    simp only at hsplice hderef
    exact ⟨_, by simp [get, hc, hsplice, hderef], hl⟩

theorem get_miss (h : Represents n items c) {key : K} (hf : findPair key items = none) :
    c.get key = .error (.outOfRange "No such key in the cache") := by
  cases hc : c.find key with
  | none => simp [get, hc]
  | some it =>
    obtain ⟨v, -, hv⟩ := h.find_some hc
    rw [h.holds, hf] at hv
    cases hv

theorem add_replaces (alloc : Allocator) (h : Represents n items c) (hle : items.length ≤ n) {key : K}
    {it : Nat} (hc : c.find key = some it) (value : V) :
    ∃ c', c.add alloc key value = .ok c' ∧ Represents n (lruAdd n key value items) c' := by
  obtain ⟨v, hnode, hv⟩ := h.find_some hc
  rw [h.holds] at hv
  obtain ⟨l, hsplice, -, hl⟩ := (h.setValue it value).toFront (mem_setValue hnode value)
  rw [h.moveToFront_setValue hnode] at hl
  simp only at hsplice hl
  have hlen := Nat.le_trans (length_moveToFront hv value) hle
  have hderef := deref_of_mem h.addresses hnode
  simp only at hderef
  refine ⟨{ c with cacheItemsList := l }, by simp [add, hc, hderef, hsplice], ?_⟩
  rwa [lruAdd, List.take_of_length_le hlen]

theorem add_inserts (alloc : Allocator) (h : Represents n items c) (hn : 1 ≤ n) (hle : items.length ≤ n) {key : K}
    (hc : c.find key = none) (value : V) :
    ∃ c', c.add alloc key value = .ok c' ∧ Represents n (lruAdd n key value items) c' := by
  have hnone := h.find_none hc
  rw [h.holds] at hnone
  by_cases hfull : items.length = n
  · have hne : items ≠ [] := by
      rintro rfl
      simp at hfull
      omega
    obtain ⟨c', hevict, hrep, hkeep⟩ := h.evict hne
    have hsize : c.maxCacheSize < c.size + 1 := by
      rw [h.capacity, h.size_eq]
      omega
    refine ⟨c'.pushFront alloc key value, by simp [add, hc, hsize, hevict], ?_⟩
    rw [lruAdd_full hnone hfull hn]
    exact hrep.pushFront alloc (hkeep key hc) value
  · have hsize : ¬ c.maxCacheSize < c.size + 1 := by
      rw [h.capacity, h.size_eq]
      omega
    refine ⟨c.pushFront alloc key value, by simp [add, hc, hsize], ?_⟩
    rw [lruAdd_room hnone (by omega)]
    exact h.pushFront alloc hc value

theorem add_spec (alloc : Allocator) (h : Represents n items c) (hn : 1 ≤ n) (hle : items.length ≤ n) (key : K)
    (value : V) : ∃ c', c.add alloc key value = .ok c' ∧ Represents n (lruAdd n key value items) c' := by
  cases hc : c.find key with
  | some it => exact add_replaces alloc h hle hc value
  | none => exact add_inserts alloc h hn hle hc value

theorem remove_spec (h : Represents n items c) (key : K) :
    ∃ c', c.remove key = .ok c' ∧ Represents n (lruRemove key items) c' := by
  cases hc : c.find key with
  | none =>
    have hnone := h.find_none hc
    rw [h.holds] at hnone
    refine ⟨c, by simp [remove, hc], ?_⟩
    rwa [lruRemove, filter_absent hnone]
  | some it =>
    obtain ⟨v, hnode, -⟩ := h.find_some hc
    have hderef := deref_of_mem h.addresses hnode
    have hlist := filter_address h.addresses h.keys hnode
    simp only at hderef hlist
    refine ⟨_, by simp only [remove, hc, hderef, CacheFault.ok_bind, CacheFault.pure_eq, hlist], h.without key,
      h.capacity, ?_⟩
    rw [entries, map_entry_filter, ← h.holds]
    rfl

omit [DecidableEq K] in
theorem clear_spec (h : Represents n items c) : Represents n [] c.clear :=
  ⟨⟨List.nodup_nil, List.nodup_nil, List.Perm.nil⟩, h.capacity, rfl⟩

/-- A call on the two structures is the call on the list that they represent. -/
theorem perform_spec (alloc : Allocator) (h : Represents n items c) (hn : 1 ≤ n) (hle : items.length ≤ n)
    (call : CacheCall K V) : ∃ c', c.perform alloc call = .ok ((lruStep n items call).1, c') ∧
      Represents n (lruStep n items call).2 c' := by
  cases call with
  | add key value =>
    obtain ⟨c', hadd, hrep⟩ := add_spec alloc h hn hle key value
    exact ⟨c', by simp [perform, hadd, lruStep], hrep⟩
  | get key =>
    cases hf : findPair key items with
    | none =>
      simp only [lruStep, hf]
      exact ⟨c, by simp [perform, get_miss h hf], h⟩
    | some value =>
      obtain ⟨c', hget, hrep⟩ := get_hit h hf
      simp only [lruStep, hf]
      exact ⟨c', by simp [perform, hget], hrep⟩
  | remove key =>
    obtain ⟨c', hremove, hrep⟩ := remove_spec h key
    exact ⟨c', by simp [perform, hremove, lruStep], hrep⟩
  | clear => exact ⟨c.clear, rfl, clear_spec h⟩

/-- A run never meets a dangling iterator, and represents the list that its calls make. -/
theorem run_spec {n : Nat} (hn : 1 ≤ n) (calls : List (Allocator × CacheCall K V)) :
    ∃ c, run n calls = .ok ((lruRun n (calls.map Prod.snd)).1, c) ∧
      Represents n (lruRun n (calls.map Prod.snd)).2 c := by
  induction calls using List.reverseRecOn with
  | nil => exact ⟨new n, rfl, Represents.new n⟩
  | append_singleton calls call ih =>
    obtain ⟨c, hrun, hrep⟩ := ih
    obtain ⟨c', hperform, hrep'⟩ := perform_spec call.1 hrep hn (lruRun_length n _) call.2
    rw [List.map_append, List.map_singleton, lruRun_append]
    refine ⟨c', ?_, hrep'⟩
    rw [run] at hrun
    rw [run, List.foldlM_append, hrun]
    simp [hperform]

/-- What a cache answers after the calls of `history`. -/
structure AnswersLru (n : Nat) (history : History K V) (c : KVCacheNodes K V) : Prop where
  linked : c.Linked
  bounded : c.size ≤ n
  hit : ∀ key it, c.find key = some it → ∃ v c', c.get key = .ok (v, c') ∧ lastAdded key history = some v
  miss : ∀ key, c.find key = none → c.get key = .error (.outOfRange "No such key in the cache")
  evicts : ∀ alloc key value c', c.add alloc key value = .ok c' → ∀ old, c.find old ≠ none → c'.find old = none →
    ∀ k, c.find k ≠ none → k ≠ old → lastUse old history < lastUse k history

theorem Represents.answers {history : History K V} (h : Represents n items c) (hn : 1 ≤ n) (hle : items.length ≤ n)
    (hrecent : Recent history items) : AnswersLru n history c where
  linked := h.toLinked
  bounded := by
    rw [h.size_eq]
    exact hle
  hit := fun key it hf => by
    obtain ⟨v, -, hv⟩ := h.find_some hf
    rw [h.holds] at hv
    obtain ⟨c', hget, -⟩ := get_hit h hv
    exact ⟨v, c', hget, hrecent.latest _ (findPair_mem hv)⟩
  miss := fun key hf => by simp [get, hf]
  evicts := fun alloc key value c' hadd old hold hgone k hk hne => by
    obtain ⟨it, hit⟩ := Option.ne_none_iff_exists'.mp hold
    obtain ⟨v, -, hv⟩ := h.find_some hit
    obtain ⟨itk, hitk⟩ := Option.ne_none_iff_exists'.mp hk
    obtain ⟨u, -, hu⟩ := h.find_some hitk
    obtain ⟨d, hd, hrep⟩ := add_spec alloc h hn hle key value
    rw [hadd] at hd
    cases hd
    have habsent := findPair_eq_none.mp (hrep.find_none hgone)
    rw [hrep.holds] at habsent
    rw [h.holds] at hv hu
    exact hrecent.evicted hle (findPair_mem hv) habsent (findPair_mem hu) hne

/-- The cache of two linked structures is the list of pairs moved to the front by use and cut
to its length, over any calls and wherever its nodes are placed. -/
theorem kvcache_refines_lru {n : Nat} (hn : 1 ≤ n) (calls : List (Allocator × CacheCall K V)) :
    ∃ history c, run n calls = .ok (history, c) ∧ (history, c.entries) = lruRun n (calls.map Prod.snd) ∧
      AnswersLru n history c := by
  obtain ⟨c, hrun, hrep⟩ := run_spec hn calls
  refine ⟨_, c, hrun, ?_, hrep.answers hn (lruRun_length n _) (lruRun_recent n _)⟩
  rw [hrep.holds]

theorem le_foldr_max {a : Nat} {live : List Nat} (h : a ∈ live) : a ≤ live.foldr max 0 := by
  induction live with
  | nil => simp at h
  | cons b live ih =>
    rcases List.mem_cons.mp h with rfl | h
    · exact Nat.le_max_left _ _
    · exact Nat.le_trans (ih h) (Nat.le_max_right _ _)

/-- The allocator that goes on to higher addresses. -/
def nextAddress : Allocator where
  fresh live := live.foldr max 0 + 1
  unused _ h := Nat.not_succ_le_self _ (le_foldr_max h)

theorem kvcache_refines_lru_two : ∃ history c,
    run 2 [(nextAddress, .add 1 10), (nextAddress, .add 2 20), (nextAddress, .get 1), (nextAddress, .add 3 30)] =
        .ok (history, c) ∧
      (history, c.entries) = lruRun 2 [.add 1 10, .add 2 20, .get 1, .add 3 30] ∧ AnswersLru 2 history c :=
  kvcache_refines_lru (by decide)
    [(nextAddress, .add 1 10), (nextAddress, .add 2 20), (nextAddress, .get 1), (nextAddress, .add 3 30)]

end KVCacheNodes

section model

variable {K V : Type} [DecidableEq K]

/-- The cache that the other modules use is the list too. -/
theorem KVCache.items_add (c : KVCache K V) (key : K) (value : V) :
    (c.add key value).items = lruAdd c.maxCacheSize key value c.items := by
  by_cases h : key ∈ c.items.map Prod.fst
  · have hlen : (moveToFront key value c.items).length ≤ c.maxCacheSize := length_front_of_mem h c.bounded value
    rw [add, dif_pos h, lruAdd, List.take_of_length_le hlen]
    rfl
  · have hnone := findPair_eq_none.mpr h
    rw [add, dif_neg h]
    by_cases hfull : c.items.length = c.maxCacheSize
    · rw [lruAdd_full hnone hfull c.positive]
      simp [insert, hfull]
    · have hlt : c.items.length < c.maxCacheSize := Nat.lt_of_le_of_ne c.bounded hfull
      rw [lruAdd_room hnone hlt]
      simp [insert]
      omega

theorem KVCache.items_remove (c : KVCache K V) (key : K) : (c.remove key).items = lruRemove key c.items := rfl

theorem KVCache.get_items (c : KVCache K V) (key : K) : (c.get key).map (fun r => (r.1, r.2.items)) =
    (findPair key c.items).map fun v => (v, moveToFront key v c.items) := by
  cases hf : findPair key c.items with
  | none =>
    have hget : c.get key = none := get_eq_none.mpr hf
    simp [hget]
  | some v =>
    obtain ⟨c', hget⟩ := exists_get hf
    have hitems : c'.items = moveToFront key v c.items := by
      unfold get at hget
      split at hget
      · cases hget
      · obtain ⟨rfl, rfl⟩ := Prod.mk.inj (Option.some.inj hget)
        rfl
    simp [hget, hitems]

end model

end Hecuba
