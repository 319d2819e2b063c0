import Hecuba.SplitLength

/-! When the lengths of the pieces of a dictionary are those of their ranges. -/

namespace Hecuba

/-- What the lengths of the pieces of a dictionary should be. -/
structure PieceLengths (t : DictTable) (tokens : List (Int × Int)) (pieces : List (List (Int × Int))) : Prop where
  each : ∀ piece ∈ pieces, t.len piece = some (t.rowsIn piece)
  sum : (pieces.mapM t.len).map List.sum = t.len tokens

theorem looksWhole_of_mem {tokens : List (Int × Int)} (hspaced : Spaced tokens)
    (hbounds : ∀ p ∈ tokens, minToken ≤ p.1 ∧ p.1 ≤ p.2 ∧ p.2 ≤ maxToken) (hfirst : ∃ p ∈ tokens, p.1 = minToken)
    (hlast : ∃ p ∈ tokens, p.2 = maxToken) : DictTable.looksWhole tokens = true := by
  obtain ⟨p, hp, hmin⟩ := hfirst
  obtain ⟨q, hq, hmax⟩ := hlast
  have hhead : ∀ a rest, tokens = a :: rest → a.1 = minToken := by
    rintro a rest rfl
    rcases List.mem_cons.mp hp with rfl | hp
    · exact hmin
    · have hlt := ((List.pairwise_cons.mp hspaced).1 p hp).1
      have hle := (hbounds a List.mem_cons_self).1
      omega
  have hend : ∀ front b, tokens = front ++ [b] → b.2 = maxToken := by
    rintro front b rfl
    have hb := hbounds b (by simp)
    rcases List.mem_append.mp hq with hq | hq
    · have hle := ((List.pairwise_append.mp hspaced).2.2 q hq b (by simp)).2
      omega
    · rwa [List.mem_singleton.mp hq] at hmax
  rw [DictTable.looksWhole, Bool.and_eq_true]
  constructor
  · cases tokens with
    | nil => cases hp
    | cons a rest => simp [hhead a rest rfl]
  · rcases List.eq_nil_or_concat tokens with rfl | ⟨front, b, rfl⟩
    · cases hq
    · simp [hend front b (List.concat_eq_append)]

theorem looksWhole_of_all {tokens : List (Int × Int)} (hne : tokens ≠ []) (h : ∀ p ∈ tokens, p = (minToken, maxToken)) :
    DictTable.looksWhole tokens = true := by
  have hhead := h _ (List.head_mem hne)
  have hlast := h _ (List.getLast_mem hne)
  simp [DictTable.looksWhole, List.head?_eq_some_head hne, List.getLast?_eq_some_getLast hne, hhead, hlast]

theorem looksWhole_first {tokens : List (Int × Int)} (h : DictTable.looksWhole tokens = true) :
    ∃ p ∈ tokens, p.1 = minToken := by
  obtain ⟨p, hp, hmin⟩ := (Option.any_eq_true _ _).mp ((Bool.and_eq_true _ _).mp h).1
  exact ⟨p, List.mem_of_mem_head? hp, of_decide_eq_true hmin⟩

theorem looksWhole_last {tokens : List (Int × Int)} (h : DictTable.looksWhole tokens = true) :
    ∃ p ∈ tokens, p.2 = maxToken := by
  obtain ⟨p, hp, hmax⟩ := (Option.any_eq_true _ _).mp ((Bool.and_eq_true _ _).mp h).2
  exact ⟨p, List.mem_of_getLast? hp, of_decide_eq_true hmax⟩

section nodes

variable {Host : Type*} [DecidableEq Host] (tm : TokenMap Host) {step : Int}

/-- The pieces of the ranges that a host owns. -/
def TokenMap.hostPieces (step : Int) (k : Host) : List (Int × Int) :=
  partitionOf step ((discreteTokenRanges tm.ring).filter fun r => tm.owner r.1 = k)

theorem TokenMap.mem_hostPieces {k : Host} {p : Int × Int} : p ∈ tm.hostPieces step k ↔
    ∃ r ∈ discreteTokenRanges tm.ring, tm.owner r.1 = k ∧ p ∈ cut step r := by
  simp [TokenMap.hostPieces, partitionOf, List.mem_flatMap, and_assoc]

theorem TokenMap.hostPieces_bounds {k : Host} (hstep : 0 < step) :
    ∀ p ∈ tm.hostPieces step k, minToken ≤ p.1 ∧ p.1 ≤ p.2 ∧ p.2 ≤ maxToken := by
  intro p hp
  obtain ⟨r, hr, -, hcut⟩ := tm.mem_hostPieces.mp hp
  have hrange := tm.range_le hr
  have hpiece := (cut_tiles hstep hrange.2.1).mem hcut
  exact ⟨hrange.1.trans hpiece.1, hpiece.2.1, hpiece.2.2.trans hrange.2.2⟩

theorem TokenMap.hostPieces_spaced (k : Host) (hstep : 0 < step) : Spaced (tm.hostPieces step k) := by
  have hle : ∀ r ∈ (discreteTokenRanges tm.ring).filter fun r => tm.owner r.1 = k, r.1 ≤ r.2 :=
    fun r hr => (tm.range_le (List.mem_of_mem_filter hr)).2.1
  exact Spaced.flatMap (tm.spaced.filter _) (fun r hr => cut_tiles hstep (hle r hr))
    (fun r hr => cut_spaced hstep (hle r hr)) fun r _ => cut_start hstep r

theorem TokenMap.any_hostPieces {k : Host} {v : Int} (hstep : 0 < step) (hmin : minToken ≤ v) (hmax : v < maxToken) :
    (tm.hostPieces step k).any (inRange v) = true ↔ tm.owner v = k := by
  rw [List.any_eq_true]
  constructor
  · rintro ⟨p, hp, hv⟩
    obtain ⟨r, hr, rfl, hcut⟩ := tm.mem_hostPieces.mp hp
    have hpiece := (cut_tiles hstep (tm.range_le hr).2.1).mem hcut
    obtain ⟨hle, hlt⟩ := inRange_iff.mp hv
    exact tm.owner_eq hr (inRange_iff.mpr ⟨hpiece.1.trans hle, hlt.trans_le hpiece.2.2⟩)
  · rintro rfl
    obtain ⟨r, hr, hv⟩ := tm.exists_range hmin hmax
    have hpieces := cut_countP hstep (tm.range_le hr).2.1 v
    rw [if_pos hv] at hpieces
    obtain ⟨p, hp, hvp⟩ := List.countP_pos_iff.mp (hpieces ▸ Nat.one_pos)
    exact ⟨p, tm.mem_hostPieces.mpr ⟨r, hr, (tm.owner_eq hr hv).symm, hp⟩, hvp⟩

theorem TokenMap.owner_min {k : Host} {p : Int × Int} (hstep : 0 < step) (hp : p ∈ tm.hostPieces step k)
    (hmin : p.1 = minToken) : k = tm.owner minToken := by
  obtain ⟨r, hr, rfl, hcut⟩ := tm.mem_hostPieces.mp hp
  have hrange := tm.range_le hr
  have hpiece := ((cut_tiles hstep hrange.2.1).mem hcut).1
  rw [le_antisymm (hmin ▸ hpiece) hrange.1]

theorem TokenMap.hostPieces_first (hstep : 0 < step) :
    ∃ p ∈ tm.hostPieces step (tm.owner minToken), p.1 = minToken := by
  obtain ⟨b, rest, heq⟩ := tm.first_range
  have hr : (minToken, b) ∈ discreteTokenRanges tm.ring := by simp [heq]
  obtain ⟨p, hp, hmin⟩ := (cut_tiles hstep (tm.range_le hr).2.1).exists_first (cut_ne hstep _)
  exact ⟨p, tm.mem_hostPieces.mpr ⟨_, hr, rfl, hp⟩, hmin⟩

/-- The pieces of a host look like all tokens if it owns the first range and one that ends at the
greatest token. -/
theorem TokenMap.looksWhole_iff {k : Host} (hstep : 0 < step) : DictTable.looksWhole (tm.hostPieces step k) = true ↔
    k = tm.owner minToken ∧ ∃ r ∈ discreteTokenRanges tm.ring, r.2 = maxToken ∧ tm.owner r.1 = k := by
  constructor
  · intro h
    obtain ⟨p, hp, hmin⟩ := looksWhole_first h
    obtain ⟨q, hq, hmax⟩ := looksWhole_last h
    obtain ⟨r, hr, howner, hcut⟩ := tm.mem_hostPieces.mp hq
    have hrange := tm.range_le hr
    have hpiece := ((cut_tiles hstep hrange.2.1).mem hcut).2.2
    exact ⟨tm.owner_min hstep hp hmin, r, hr, le_antisymm hrange.2.2 (hmax ▸ hpiece), howner⟩
  · rintro ⟨rfl, r, hr, hmax, howner⟩
    obtain ⟨q, hq, hend⟩ := (cut_tiles hstep (tm.range_le hr).2.1).exists_last (cut_ne hstep r)
    exact looksWhole_of_mem (tm.hostPieces_spaced _ hstep) (tm.hostPieces_bounds hstep) (tm.hostPieces_first hstep)
      ⟨q, tm.mem_hostPieces.mpr ⟨r, hr, howner, hq⟩, hend.trans hmax⟩

end nodes

section sums

variable {Host : Type*} {tm : TokenMap Host} {step : Int} {pieces : List (List (Int × Int))} {t : DictTable}

theorem SplitOf.countP_le_one (h : SplitOf tm.owner step (discreteTokenRanges tm.ring) pieces)
    {piece : List (Int × Int)} (hpiece : piece ∈ pieces) (v : Int) : piece.countP (inRange v) ≤ 1 := by
  have hle := (List.sublist_flatten_of_mem hpiece).countP_le (p := inRange v)
  rw [h.countP] at hle
  exact hle.trans (tm.spaced.countP_le_one v)

theorem SplitOf.sum_rowsIn (h : SplitOf tm.owner step (discreteTokenRanges tm.ring) pieces)
    (hrows : ∀ v ∈ t.rows, IsToken v ∧ v ≠ maxToken) : (pieces.map t.rowsIn).sum = t.rows.length := by
  have hpieces : pieces.map t.rowsIn =
      pieces.map fun piece => (piece.map fun r => t.rows.countP fun v => inRange v r).sum :=
    List.map_congr_left fun piece hpiece => (sum_countP fun v _ => h.countP_le_one hpiece v).symm
  have hflat : (pieces.map fun piece => (piece.map fun r => t.rows.countP fun v => inRange v r).sum).sum =
      (pieces.flatten.map fun r => t.rows.countP fun v => inRange v r).sum := by
    rw [List.map_flatten, List.sum_flatten, List.map_map]
    rfl
  have hone : ∀ v ∈ t.rows, pieces.flatten.countP (inRange v) = 1 := by
    intro v hv
    obtain ⟨⟨hmin, hmax⟩, hne⟩ := hrows v hv
    rw [h.countP, tm.tiles.countP, if_pos ⟨hmin, lt_of_le_of_ne hmax hne⟩]
  rw [hpieces, hflat, sum_countP fun v hv => (hone v hv).le, List.countP_eq_length]
  intro v hv
  exact List.any_eq_true.mpr (List.countP_pos_iff.mp ((hone v hv).symm ▸ Nat.one_pos))

theorem TokenMap.looksWhole : DictTable.looksWhole (discreteTokenRanges tm.ring) = true := by
  have hne : discreteTokenRanges tm.ring ≠ [] := by
    obtain ⟨b, rest, heq⟩ := tm.first_range
    simp [heq]
  exact looksWhole_of_mem tm.spaced (fun r hr => tm.range_le hr) (tm.tiles.exists_first hne) (tm.tiles.exists_last hne)

/-- The lengths are right if a piece that takes the count of the whole table for its own holds
every row, and Cassandra answers the queries of the other pieces. -/
theorem pieceLengths_iff (h : SplitOf tm.owner step (discreteTokenRanges tm.ring) pieces)
    (hrows : ∀ v ∈ t.rows, IsToken v ∧ v ≠ maxToken) : PieceLengths t (discreteTokenRanges tm.ring) pieces ↔
      ∀ piece ∈ pieces, if DictTable.looksWhole piece = true then t.rowsIn piece = t.rows.length
        else t.allKeys = [t.partitionKey.1] := by
  have heach : ∀ piece ∈ pieces, t.len piece = some (t.rowsIn piece) ↔
      if DictTable.looksWhole piece = true then t.rowsIn piece = t.rows.length else t.allKeys = [t.partitionKey.1] := by
    intro piece hpiece
    have hne := h.ne piece hpiece
    by_cases hwhole : DictTable.looksWhole piece = true
    · simp [DictTable.len_whole hne hwhole, hwhole, eq_comm]
    · have hfalse : DictTable.looksWhole piece = false := by simpa using hwhole
      by_cases hkeys : t.allKeys = [t.partitionKey.1]
      · simp [DictTable.len_counted hne hfalse hkeys (h.countP_le_one hpiece), hfalse, hkeys]
      · simp [DictTable.len_refused hne hfalse hkeys, hfalse, hkeys]
  refine ⟨fun hlen piece hpiece => (heach piece hpiece).mp (hlen.each piece hpiece), fun hall => ?_⟩
  have hlen : ∀ piece ∈ pieces, t.len piece = some (t.rowsIn piece) :=
    fun piece hpiece => (heach piece hpiece).mpr (hall piece hpiece)
  refine ⟨hlen, ?_⟩
  rw [mapM_some hlen, Option.map_some, h.sum_rowsIn hrows, DictTable.len_whole _ tm.looksWhole]
  obtain ⟨b, rest, heq⟩ := tm.first_range
  simp [heq]

/-- If all pieces go from the least token to the greatest, the only range does. -/
theorem lone_range (hstep : 0 < step)
    (hall : ∀ r ∈ discreteTokenRanges tm.ring, ∀ p ∈ cut step r, p = (minToken, maxToken)) :
    tm.ring = [minToken] ∧ maxToken - minToken ≤ step := by
  have hrange : ∀ r ∈ discreteTokenRanges tm.ring, r.1 = minToken ∧ (minToken, maxToken) ∈ cut step r := by
    intro r hr
    obtain ⟨p, hp⟩ := List.exists_mem_of_ne_nil _ (cut_ne hstep r)
    obtain rfl := hall r hr p hp
    have hbounds := tm.range_le hr
    exact ⟨le_antisymm ((cut_tiles hstep hbounds.2.1).mem hp).1 hbounds.1, hp⟩
  have htoken : ∀ t ∈ tm.ring, t = minToken := by
    intro t ht
    have hstart : t ∈ (discreteTokenRanges tm.ring).map Prod.fst := by
      rw [tm.starts]
      by_cases hmin : minToken ∈ tm.ring <;> simp [hmin, ht]
    obtain ⟨r, hr, rfl⟩ := List.mem_map.mp hstart
    exact (hrange r hr).1
  constructor
  · have hsorted := tm.ring_sorted
    cases hring : tm.ring with
    | nil => exact absurd hring tm.ring_ne
    | cons a rest =>
      rw [hring] at htoken hsorted
      obtain ⟨ha, hrest⟩ := List.forall_mem_cons.mp htoken
      cases rest with
      | nil => rw [ha]
      | cons b rest =>
        have hlt := (List.pairwise_cons.mp hsorted).1 b List.mem_cons_self
        rw [ha, hrest b List.mem_cons_self] at hlt
        exact absurd hlt (lt_irrefl _)
  · obtain ⟨b, rest, heq⟩ := tm.first_range
    exact cut_le_step hstep _ _ (hrange (minToken, b) (by simp [heq])).2

end sums

section pieces

variable {Host : Type*} [DecidableEq Host] {tm : TokenMap Host} {config : SplitConfig} {one : Option (Int × Int)}
  {step : Int} {pieces : List (List (Int × Int))}

/-- The pieces are the groups of the hosts that own a range. -/
def HostGroups (tm : TokenMap Host) (splitsPerNode step : Int) (pieces : List (List (Int × Int))) : Prop :=
  ∀ piece, piece ∈ pieces ↔ ∃ k, (∃ r ∈ discreteTokenRanges tm.ring, tm.owner r.1 = k) ∧
    piece ∈ slices (groupSize splitsPerNode (tm.hostPieces step k).length) (tm.hostPieces step k)

theorem Yields.spec (h : Yields tm config one (discreteTokenRanges tm.ring) pieces)
    (hsize : stepSize config one (tokensPerNode tm.owner (discreteTokenRanges tm.ring)).length = some step)
    (hstep : 0 < step) : SplitOf tm.owner step (discreteTokenRanges tm.ring) pieces ∧
      HostGroups tm config.splitsPerNode step pieces := by
  obtain ⟨keys, hnodup, hkeys, heq⟩ := tokensPerNode_eq tm.owner (discreteTokenRanges tm.ring)
  rw [heq, List.length_map] at hsize
  obtain rfl := h.unique (yields_of_keys heq hsize hstep)
  refine ⟨nodeGroups_splitOf _ hnodup (fun r hr => (hkeys _).mpr ⟨r, hr, rfl⟩) hstep
    fun r hr => (tm.range_le hr).2.1, fun piece => ?_⟩
  simp only [List.mem_flatMap, hkeys]
  rfl

theorem mem_hostGroups {k : Host} (hsplits : 1 ≤ config.splitsPerNode) (hstep : 0 < step) {piece : List (Int × Int)}
    (hpiece : piece ∈ slices (groupSize config.splitsPerNode (tm.hostPieces step k).length) (tm.hostPieces step k))
    (hwhole : DictTable.looksWhole piece = true) :
    (config.splitsPerNode = 1 ∧ piece = tm.hostPieces step k) ∨
      (2 ≤ config.splitsPerNode ∧ piece = [(minToken, maxToken)]) :=
  whole_slice hsplits (tm.hostPieces_spaced k hstep) (tm.hostPieces_bounds hstep) hpiece hwhole

variable {t : DictTable}

/-- When the lengths of the pieces are right. A lone host is given one piece if a node gets one, or
if its only range is not cut. -/
def LengthsHold (tm : TokenMap Host) (splitsPerNode step : Int) (t : DictTable) : Prop :=
  if t.clusteringKeys = [] ∧ t.partitionKey.2 ≠ "text" then
    splitsPerNode ≠ 1 ∨
      (∀ r ∈ discreteTokenRanges tm.ring, r.2 = maxToken → tm.owner r.1 ≠ tm.owner minToken) ∨
      ∀ v ∈ t.rows, tm.owner v = tm.owner minToken
  else
    (splitsPerNode = 1 ∧ ∀ r ∈ discreteTokenRanges tm.ring, tm.owner r.1 = tm.owner minToken) ∨
      (tm.ring = [minToken] ∧ maxToken - minToken ≤ step)

theorem slices_length {l : List (Int × Int)} (hne : l ≠ []) : slices l.length l = [l] := by
  have hpos := List.length_pos_of_ne_nil hne
  have hone : (l.length + l.length - 1) / l.length = 1 := by
    rw [Nat.div_eq_iff hpos]
    omega
  simp [slices, hone]

theorem rowsIn_hostPieces (hstep : 0 < step) (hrows : ∀ v ∈ t.rows, IsToken v ∧ v ≠ maxToken) {k : Host} :
    t.rowsIn (tm.hostPieces step k) = t.rows.length ↔ ∀ v ∈ t.rows, tm.owner v = k := by
  rw [DictTable.rowsIn, List.countP_eq_length]
  refine forall₂_congr fun v hv => ?_
  obtain ⟨⟨hmin, hmax⟩, hne⟩ := hrows v hv
  exact tm.any_hostPieces hstep hmin (lt_of_le_of_ne hmax hne)

theorem rowsIn_whole (hrows : ∀ v ∈ t.rows, IsToken v ∧ v ≠ maxToken) {piece : List (Int × Int)}
    (h : (minToken, maxToken) ∈ piece) : t.rowsIn piece = t.rows.length := by
  rw [DictTable.rowsIn, List.countP_eq_length]
  intro v hv
  obtain ⟨⟨hmin, hmax⟩, hne⟩ := hrows v hv
  exact List.any_eq_true.mpr ⟨_, h, inRange_iff.mpr ⟨hmin, lt_of_le_of_ne hmax hne⟩⟩

/-- Where the queries are answered, only the pieces of a host that owns both ends can go wrong. -/
theorem counted_iff (hsplits : 1 ≤ config.splitsPerNode) (hstep : 0 < step)
    (hspec : HostGroups tm config.splitsPerNode step pieces)
    (hrows : ∀ v ∈ t.rows, IsToken v ∧ v ≠ maxToken) :
    (∀ piece ∈ pieces, DictTable.looksWhole piece = true → t.rowsIn piece = t.rows.length) ↔
      config.splitsPerNode ≠ 1 ∨
        (∀ r ∈ discreteTokenRanges tm.ring, r.2 = maxToken → tm.owner r.1 ≠ tm.owner minToken) ∨
        ∀ v ∈ t.rows, tm.owner v = tm.owner minToken := by
  constructor
  · intro hall
    by_contra hcon
    push Not at hcon
    obtain ⟨hone, ⟨r, hr, hmax, howner⟩, v, hv, hother⟩ := hcon
    have hwhole := (tm.looksWhole_iff hstep).mpr ⟨rfl, r, hr, hmax, howner⟩
    have hne : tm.hostPieces step (tm.owner minToken) ≠ [] := by
      obtain ⟨p, hp, -⟩ := tm.hostPieces_first hstep
      exact List.ne_nil_of_mem hp
    have hpiece : tm.hostPieces step (tm.owner minToken) ∈ pieces := by
      refine (hspec _).mpr ⟨_, ⟨r, hr, howner⟩, ?_⟩
      rw [hone, groupSize_one, max_eq_left (List.length_pos_of_ne_nil hne), slices_length hne]
      exact List.mem_singleton_self _
    exact hother ((rowsIn_hostPieces hstep hrows).mp (hall _ hpiece hwhole) v hv)
  · intro hcond piece hpiece hwhole
    obtain ⟨k, -, hslice⟩ := (hspec piece).mp hpiece
    rcases mem_hostGroups hsplits hstep hslice hwhole with ⟨hone, rfl⟩ | ⟨-, rfl⟩
    · obtain ⟨rfl, r, hr, hmax, howner⟩ := (tm.looksWhole_iff hstep).mp hwhole
      rcases hcond with hcond | hcond | hcond
      · exact absurd hone hcond
      · exact absurd howner (hcond r hr hmax)
      · exact (rowsIn_hostPieces hstep hrows).mpr hcond
    · exact rowsIn_whole hrows (List.mem_singleton_self _)

theorem HostGroups.exists_piece (hspec : HostGroups tm config.splitsPerNode step pieces) {r p : Int × Int}
    (hr : r ∈ discreteTokenRanges tm.ring) (hp : p ∈ cut step r) : ∃ piece ∈ pieces, p ∈ piece ∧
      piece ∈ slices (groupSize config.splitsPerNode (tm.hostPieces step (tm.owner r.1)).length)
        (tm.hostPieces step (tm.owner r.1)) := by
  have hsize := groupSize_pos config.splitsPerNode (tm.hostPieces step (tm.owner r.1)).length
  have hmem := tm.mem_hostPieces.mpr ⟨r, hr, rfl, hp⟩
  rw [← slices_flatten hsize (tm.hostPieces step (tm.owner r.1))] at hmem
  obtain ⟨piece, hslice, hpiece⟩ := List.mem_flatten.mp hmem
  exact ⟨piece, (hspec piece).mpr ⟨_, ⟨r, hr, rfl⟩, hslice⟩, hpiece, hslice⟩

/-- A ring whose hosts are all given pieces that look like all tokens has one owner. -/
theorem HostGroups.one_owner (hspec : HostGroups tm config.splitsPerNode step pieces) (hstep : 0 < step)
    (hall : ∀ piece ∈ pieces, DictTable.looksWhole piece = true) :
    ∀ r ∈ discreteTokenRanges tm.ring, tm.owner r.1 = tm.owner minToken := by
  intro r hr
  obtain ⟨p, hp⟩ := List.exists_mem_of_ne_nil _ (cut_ne hstep r)
  obtain ⟨piece, hpiece, -, hslice⟩ := hspec.exists_piece hr hp
  obtain ⟨q, hq, hmin⟩ := looksWhole_first (hall piece hpiece)
  exact tm.owner_min hstep (slices_subset (groupSize_pos _ _) hslice hq) hmin

theorem lone_piece (hring : tm.ring = [minToken]) (hlong : maxToken - minToken ≤ step) {k : Host} {p : Int × Int}
    (hp : p ∈ tm.hostPieces step k) : p = (minToken, maxToken) := by
  obtain ⟨r, hr, -, hcut⟩ := tm.mem_hostPieces.mp hp
  have hranges : discreteTokenRanges tm.ring = [(minToken, maxToken)] := by
    rw [hring]
    decide
  rw [hranges, List.mem_singleton] at hr
  subst hr
  have hnot : ¬ minToken < maxToken - step := by omega
  simpa [cut, splitRange, hnot] using hcut

/-- Where they are refused, every piece has to look like all tokens. -/
theorem refused_iff (hsplits : 1 ≤ config.splitsPerNode) (hstep : 0 < step)
    (hspec : HostGroups tm config.splitsPerNode step pieces) (hrows : ∀ v ∈ t.rows, IsToken v ∧ v ≠ maxToken) :
    (∀ piece ∈ pieces, DictTable.looksWhole piece = true ∧ t.rowsIn piece = t.rows.length) ↔
      (config.splitsPerNode = 1 ∧ ∀ r ∈ discreteTokenRanges tm.ring, tm.owner r.1 = tm.owner minToken) ∨
        (tm.ring = [minToken] ∧ maxToken - minToken ≤ step) := by
  constructor
  · intro hall
    have howner := hspec.one_owner hstep fun piece hpiece => (hall piece hpiece).1
    by_cases hone : config.splitsPerNode = 1
    · exact .inl ⟨hone, howner⟩
    · refine .inr (lone_range hstep fun r hr p hp => ?_)
      obtain ⟨piece, hpiece, hp, hslice⟩ := hspec.exists_piece hr hp
      rcases mem_hostGroups hsplits hstep hslice (hall piece hpiece).1 with ⟨honly, -⟩ | ⟨-, rfl⟩
      · exact absurd honly hone
      · exact List.mem_singleton.mp hp
  · rintro (⟨hone, howner⟩ | ⟨hring, hlong⟩) piece hpiece
    · obtain ⟨k, ⟨r, hr, rfl⟩, hslice⟩ := (hspec piece).mp hpiece
      rw [howner r hr] at hslice
      obtain ⟨p, hp, -⟩ := tm.hostPieces_first hstep
      have hne := List.ne_nil_of_mem hp
      rw [hone, groupSize_one, max_eq_left (List.length_pos_of_ne_nil hne), slices_length hne,
        List.mem_singleton] at hslice
      subst hslice
      obtain ⟨last, hlast, hmax⟩ := tm.tiles.exists_last (List.ne_nil_of_mem hr)
      refine ⟨(tm.looksWhole_iff hstep).mpr ⟨rfl, last, hlast, hmax, howner last hlast⟩, ?_⟩
      refine (rowsIn_hostPieces hstep hrows).mpr fun v hv => ?_
      obtain ⟨⟨hmin, hle⟩, hmax⟩ := hrows v hv
      obtain ⟨q, hq, hrange⟩ := tm.exists_range hmin (lt_of_le_of_ne hle hmax)
      rw [tm.owner_eq hq hrange, howner q hq]
    · obtain ⟨k, ⟨r, hr, rfl⟩, hslice⟩ := (hspec piece).mp hpiece
      have hne := slices_ne (groupSize_pos _ _) hslice
      have hall : ∀ p ∈ piece, p = (minToken, maxToken) :=
        fun p hp => lone_piece hring hlong (slices_subset (groupSize_pos _ _) hslice hp)
      obtain ⟨p, hp⟩ := List.exists_mem_of_ne_nil _ hne
      exact ⟨looksWhole_of_all hne hall, rowsIn_whole hrows (hall p hp ▸ hp)⟩

theorem piece_lengths_iff (hsplits : 1 ≤ config.splitsPerNode)
    (hsize : stepSize config one (tokensPerNode tm.owner (discreteTokenRanges tm.ring)).length = some step)
    (hstep : 0 < step) (hpieces : Yields tm config one (discreteTokenRanges tm.ring) pieces)
    (hrows : ∀ v ∈ t.rows, IsToken v ∧ v ≠ maxToken) :
    PieceLengths t (discreteTokenRanges tm.ring) pieces ↔ LengthsHold tm config.splitsPerNode step t := by
  obtain ⟨hsplit, hspec⟩ := hpieces.spec hsize hstep
  rw [pieceLengths_iff hsplit hrows, LengthsHold]
  by_cases hkeys : t.allKeys = [t.partitionKey.1]
  · rw [if_pos (DictTable.allKeys_eq_iff.mp hkeys), ← counted_iff hsplits hstep hspec hrows]
    simp [hkeys]
  · rw [if_neg (mt DictTable.allKeys_eq_iff.mpr hkeys), ← refused_iff hsplits hstep hspec hrows]
    simp [hkeys]

def dictOfTwo : DictTable := ⟨("id", "int"), [], [0, 20]⟩

theorem piece_lengths_two : PieceLengths dictOfTwo (discreteTokenRanges twoHosts.ring)
    [[(minToken, -10)], [(10, maxToken)], [(-10, 10)]] := by
  have hsize : stepSize ⟨2, some (2 ^ 63), none⟩ none
      (tokensPerNode twoHosts.owner (discreteTokenRanges twoHosts.ring)).length = some (2 ^ 63) := by decide
  have hpieces : Yields twoHosts ⟨2, some (2 ^ 63), none⟩ none (discreteTokenRanges twoHosts.ring)
      [[(minToken, -10)], [(10, maxToken)], [(-10, 10)]] := yields_of_eq 1 (by decide)
  exact (piece_lengths_iff (by decide) hsize (by decide) hpieces (by decide)).mpr (by simp [LengthsHold, dictOfTwo])

/-- With one split for each node, the piece of the first host counts the row of the other one too. -/
theorem piece_counts_all : Yields twoHosts ⟨1, none, some (64 * 1024)⟩ none (discreteTokenRanges twoHosts.ring)
      [[(minToken, -2 ^ 62 - 1), (-2 ^ 62 - 1, -10), (10, 2 ^ 62 + 9), (2 ^ 62 + 9, maxToken)], [(-10, 10)]] ∧
    (∀ v ∈ dictOfTwo.rows, IsToken v ∧ v ≠ maxToken) ∧
    ¬ PieceLengths dictOfTwo (discreteTokenRanges twoHosts.ring)
      [[(minToken, -2 ^ 62 - 1), (-2 ^ 62 - 1, -10), (10, 2 ^ 62 + 9), (2 ^ 62 + 9, maxToken)], [(-10, 10)]] := by
  refine ⟨yields_of_eq 3 (by decide), by decide, fun h => ?_⟩
  have hfirst := h.each _ List.mem_cons_self
  exact absurd hfirst (by decide)

end pieces

end Hecuba
