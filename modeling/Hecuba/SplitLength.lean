import Hecuba.TokensPartitions

/-! `len` of a dictionary and of the pieces that splitting it gives. -/

namespace Hecuba

/-- A table: the name and type of its keys, the first of which is the partition key, and the
tokens of its rows. -/
structure DictTable where
  partitionKey : String × String
  clusteringKeys : List (String × String)
  rows : List Int

namespace DictTable

variable (t : DictTable)

/-- The arguments that `__len__` gives to `token`. -/
def allKeys : List String :=
  (t.partitionKey :: t.clusteringKeys).map fun (name, type) => if type = "text" then "'" ++ name ++ "'" else name

/-- Cassandra counts the rows between two tokens if they are those of the partition key, and
refuses the query otherwise. -/
def countElements (r : Int × Int) : Option Nat :=
  if t.allKeys = [t.partitionKey.1] then some (t.rows.countP fun v => inRange v r) else none

/-- `tokens[0][0] == _min_token and tokens[-1][1] == _max_token`. -/
def looksWhole (tokens : List (Int × Int)) : Bool :=
  tokens.head?.any (·.1 = minToken) && tokens.getLast?.any (·.2 = maxToken)

/-- `__len__`; `none` is an error. -/
def len (tokens : List (Int × Int)) : Option Nat :=
  if tokens = [] then none
  else if looksWhole tokens then some t.rows.length
  else tokens.foldlM (fun total r => (t.countElements r).map (total + ·)) 0

/-- The number of rows in one of the ranges. -/
def rowsIn (tokens : List (Int × Int)) : Nat := t.rows.countP fun v => tokens.any (inRange v)

end DictTable

section ring

variable {Host : Type*} (tm : TokenMap Host)

theorem TokenMap.ranges_eq : ∃ token rest, tm.ring = token :: rest ∧ discreteTokenRanges tm.ring =
    (if minToken < token then [(minToken, token)] else []) ++ consecutive (token :: rest) ++
      [(rest.getLastD token, maxToken)] := by
  have hsort := (tm.ring_sorted.imp le_of_lt).insertionSort_eq
  cases hring : tm.ring with
  | nil => exact absurd hring tm.ring_ne
  | cons token rest =>
    rw [hring] at hsort
    exact ⟨token, rest, rfl, discreteTokenRanges_cons hsort⟩

theorem TokenMap.tiles : Tiles minToken (discreteTokenRanges tm.ring) maxToken :=
  discreteTokenRanges_tiles tm.ring_ne tm.ring_isToken

theorem TokenMap.range_le {r : Int × Int} (hr : r ∈ discreteTokenRanges tm.ring) :
    minToken ≤ r.1 ∧ r.1 ≤ r.2 ∧ r.2 ≤ maxToken := tm.tiles.mem hr

theorem TokenMap.starts : (discreteTokenRanges tm.ring).map Prod.fst =
    if minToken ∈ tm.ring then tm.ring else minToken :: tm.ring := by
  obtain ⟨token, rest, hring, heq⟩ := tm.ranges_eq
  have hsorted := tm.ring_sorted
  have hmin : minToken ≤ token := (tm.ring_isToken token (by simp [hring])).1
  rw [heq, List.append_assoc, List.map_append, List.map_append, List.map_singleton, consecutive_fst, hring]
  rw [hring] at hsorted
  by_cases hlt : minToken < token
  · have hnot : minToken ∉ token :: rest := by
      refine List.not_mem_cons_of_ne_of_not_mem hlt.ne fun hmem => ?_
      exact absurd ((List.pairwise_cons.mp hsorted).1 _ hmem) hlt.not_gt
    simp [hlt, hnot]
  · obtain rfl : minToken = token := le_antisymm hmin (not_lt.mp hlt)
    simp

theorem TokenMap.spaced : Spaced (discreteTokenRanges tm.ring) := by
  refine tm.tiles.spaced ?_
  rw [tm.starts]
  by_cases hmin : minToken ∈ tm.ring
  · simpa [hmin] using tm.ring_sorted
  · rw [if_neg hmin]
    refine List.pairwise_cons.mpr ⟨fun t ht => lt_of_le_of_ne (tm.ring_isToken t ht).1 ?_, tm.ring_sorted⟩
    exact fun heq => hmin (heq ▸ ht)

theorem TokenMap.first_range : ∃ b rest, discreteTokenRanges tm.ring = (minToken, b) :: rest := by
  have htiles := tm.tiles
  generalize discreteTokenRanges tm.ring = ranges at htiles ⊢
  generalize hs : minToken = s at htiles
  generalize he : maxToken = e at htiles
  cases htiles with
  | nil => exact absurd (hs.trans he.symm) (by decide)
  | cons hab h => exact ⟨_, _, rfl⟩

theorem bisectRight_congr {ring : List Int} {s v : Int} (h : ∀ t ∈ ring, t ≤ s ↔ t ≤ v) :
    bisectRight ring s = bisectRight ring v := by
  induction ring with
  | nil => rfl
  | cons t ring ih =>
    obtain ⟨ht, hring⟩ := List.forall_mem_cons.mp h
    have hih := ih hring
    simp only [bisectRight] at hih ⊢
    by_cases hle : t ≤ s
    · simp [hle, ht.mp hle, hih]
    · simp [hle, mt ht.mpr hle]

theorem TokenMap.exists_range {v : Int} (hmin : minToken ≤ v) (hmax : v < maxToken) :
    ∃ r ∈ discreteTokenRanges tm.ring, inRange v r = true := by
  have hcount := tm.tiles.countP v
  rw [if_pos ⟨hmin, hmax⟩] at hcount
  exact List.countP_pos_iff.mp (hcount ▸ Nat.one_pos)

/-- No token of the ring lies inside a range, so all its tokens have the owner of its start. -/
theorem TokenMap.owner_eq {r : Int × Int} {v : Int} (hr : r ∈ discreteTokenRanges tm.ring) (hv : inRange v r = true) :
    tm.owner v = tm.owner r.1 := by
  obtain ⟨hle, hlt⟩ := inRange_iff.mp hv
  have hpoint : bisectRight tm.ring r.1 = bisectRight tm.ring v := by
    refine bisectRight_congr fun t ht => ⟨fun h => h.trans hle, fun h => ?_⟩
    have hstart : t ∈ (discreteTokenRanges tm.ring).map Prod.fst := by
      rw [tm.starts]
      by_cases hmin : minToken ∈ tm.ring <;> simp [hmin, ht]
    obtain ⟨r', hr', rfl⟩ := List.mem_map.mp hstart
    rcases tm.spaced.trichotomy hr hr' with rfl | ⟨-, hafter⟩ | ⟨hbefore, -⟩
    · exact le_refl _
    · omega
    · exact hbefore.le
  simp only [TokenMap.owner, hpoint]

end ring

section lengths

namespace DictTable

variable {t : DictTable} {tokens : List (Int × Int)}

theorem len_whole (hne : tokens ≠ []) (h : looksWhole tokens = true) : t.len tokens = some t.rows.length := by
  simp [len, hne, h]

theorem len_refused (hne : tokens ≠ []) (h : looksWhole tokens = false) (hkeys : t.allKeys ≠ [t.partitionKey.1]) :
    t.len tokens = none := by
  obtain ⟨r, rest, rfl⟩ := List.exists_cons_of_ne_nil hne
  simp [len, h, countElements, hkeys]

theorem len_counted (hne : tokens ≠ []) (h : looksWhole tokens = false) (hkeys : t.allKeys = [t.partitionKey.1])
    (hone : ∀ v, tokens.countP (inRange v) ≤ 1) : t.len tokens = some (t.rowsIn tokens) := by
  have hcount : ∀ r, t.countElements r = some (t.rows.countP fun v => inRange v r) := fun r => if_pos hkeys
  have hfold : ∀ (l : List (Int × Int)) (total : Nat),
      l.foldlM (fun total r => (t.countElements r).map (total + ·)) total =
        some (total + (l.map fun r => t.rows.countP fun v => inRange v r).sum) := by
    intro l
    induction l with
    | nil => exact fun _ => rfl
    | cons r l ih =>
      intro total
      rw [List.foldlM_cons, hcount, Option.map_some, Option.bind_eq_bind, Option.bind_some, ih, List.map_cons,
        List.sum_cons, Nat.add_assoc]
  rw [len, if_neg hne, h, if_neg (by simp), hfold, sum_countP fun v _ => hone v, rowsIn, Nat.zero_add]

/-- Cassandra answers the queries of `__len__` if the only key is one that is not put in quotes. -/
theorem allKeys_eq_iff : t.allKeys = [t.partitionKey.1] ↔ t.clusteringKeys = [] ∧ t.partitionKey.2 ≠ "text" := by
  have hquoted : ∀ name : String, "'" ++ name ++ "'" ≠ name := by
    intro name h
    have hlen := congrArg String.length h
    simp only [String.length_append] at hlen
    have hquote : "'".length = 1 := rfl
    omega
  by_cases htext : t.partitionKey.2 = "text"
  · simp [allKeys, htext, hquoted]
  · simp [allKeys, htext]

end DictTable

end lengths

section slicing

theorem groupSize_one (n : Nat) : groupSize 1 n = max n 1 := by
  rw [groupSize, Int.fdiv_one]
  omega

theorem groupSize_le {splitsPerNode : Int} (h : 2 ≤ splitsPerNode) (n : Nat) :
    groupSize splitsPerNode n ≤ max (n / 2) 1 := by
  have hle : 2 * ((n : Int) / splitsPerNode) ≤ n := by
    have hquot : 0 ≤ (n : Int) / splitsPerNode := Int.ediv_nonneg (by omega) (by omega)
    have hmul := Int.mul_ediv_self_le (x := (n : Int)) (k := splitsPerNode) (by omega)
    exact (Int.mul_le_mul_of_nonneg_right h hquot).trans hmul
  rw [groupSize, Int.fdiv_eq_ediv_of_nonneg _ (by omega)]
  omega

variable {splitsPerNode : Int} {partition group : List (Int × Int)}

/-- A group that begins at the least token is the first one of its node. -/
theorem first_slice {size : Nat} (hsize : 0 < size) (hspaced : Spaced partition)
    (hmin : ∀ piece ∈ partition, minToken ≤ piece.1) (hgroup : group ∈ slices size partition)
    (hfirst : group.head?.any (·.1 = minToken) = true) : group = partition.take size := by
  obtain ⟨i, hi, rfl⟩ := List.mem_map.mp hgroup
  by_cases hzero : i = 0
  · simp [hzero]
  · have hpos : 0 < i * size := Nat.mul_pos (Nat.pos_of_ne_zero hzero) hsize
    have hlt : i * size < partition.length := by
      have hdiv := (Nat.lt_div_iff_mul_lt hsize).mp (List.mem_range.mp hi)
      omega
    have hhead : partition[i * size].1 = minToken := by
      simpa [List.head?_take, hsize.ne', List.head?_drop, List.getElem?_eq_getElem hlt] using hfirst
    have hbefore := (List.pairwise_iff_getElem.mp hspaced 0 (i * size) (by omega) hlt hpos).1
    have hleast := hmin partition[0] (List.getElem_mem _)
    omega

theorem after_greatest {front rest : List (Int × Int)} (hspaced : Spaced (front ++ rest))
    (hbounds : ∀ piece ∈ rest, piece.1 ≤ maxToken) (hlast : front.getLast?.any (·.2 = maxToken) = true) :
    (∀ piece ∈ rest, piece.1 = maxToken) ∧ rest.length ≤ 1 := by
  obtain ⟨-, hrest, hcross⟩ := List.pairwise_append.mp hspaced
  obtain ⟨last, hmem, hend⟩ := (Option.any_eq_true _ _).mp hlast
  have hstart : ∀ piece ∈ rest, piece.1 = maxToken := by
    intro piece hpiece
    have hafter := (hcross last (List.mem_of_getLast? hmem) piece hpiece).2
    rw [of_decide_eq_true hend] at hafter
    exact le_antisymm (hbounds piece hpiece) hafter
  refine ⟨hstart, ?_⟩
  rcases rest with _ | ⟨p, _ | ⟨q, rest⟩⟩
  · simp
  · simp
  · have hlt := ((List.pairwise_cons.mp hrest).1 q (by simp)).1
    rw [hstart p (by simp), hstart q (by simp)] at hlt
    exact absurd hlt (lt_irrefl _)

/-- A group that looks like all tokens holds all of its node, or is one piece from the least
token to the greatest. -/
theorem whole_slice (hsplits : 1 ≤ splitsPerNode) (hspaced : Spaced partition)
    (hbounds : ∀ piece ∈ partition, minToken ≤ piece.1 ∧ piece.1 ≤ piece.2 ∧ piece.2 ≤ maxToken)
    (hgroup : group ∈ slices (groupSize splitsPerNode partition.length) partition)
    (hwhole : DictTable.looksWhole group = true) :
    (splitsPerNode = 1 ∧ group = partition) ∨ (2 ≤ splitsPerNode ∧ group = [(minToken, maxToken)]) := by
  obtain ⟨hfirst, hlast⟩ := (Bool.and_eq_true _ _).mp hwhole
  have hsize := groupSize_pos splitsPerNode partition.length
  obtain rfl := first_slice hsize hspaced (fun piece hpiece => (hbounds piece hpiece).1) hgroup hfirst
  generalize hn : groupSize splitsPerNode partition.length = size at *
  have hsplit := List.take_append_drop size partition
  have hrest : (partition.drop size).length ≤ 1 := by
    refine (after_greatest (by rwa [hsplit]) (fun piece hpiece => ?_) hlast).2
    have hpiece := hbounds piece (List.mem_of_mem_drop hpiece)
    exact hpiece.2.1.trans hpiece.2.2
  rw [List.length_drop] at hrest
  by_cases hone : splitsPerNode = 1
  · subst hone
    rw [groupSize_one] at hn
    exact .inl ⟨rfl, List.take_of_length_le (by omega)⟩
  · have htwo : 2 ≤ splitsPerNode := by omega
    have hle := groupSize_le htwo partition.length
    obtain rfl : size = 1 := by omega
    refine .inr ⟨htwo, ?_⟩
    cases partition with
    | nil => simp at hfirst
    | cons p rest =>
      simp only [List.take_succ_cons, List.take_zero] at hfirst hlast ⊢
      exact congrArg (fun r => [r]) (Prod.ext (by simpa using hfirst) (by simpa using hlast))

end slicing

end Hecuba
