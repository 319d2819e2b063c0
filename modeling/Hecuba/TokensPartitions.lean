import Hecuba.TokenRanges
import Mathlib.Algebra.Order.BigOperators.Group.List
import Mathlib.Data.Int.Log
import Mathlib.Data.List.Induction
import Mathlib.Data.Rat.Floor

/-! `tokens_partitions`: the ranges of an object are shared out by the host that owns them,
cut to the size of a step and handed over in groups. -/

namespace Hecuba

/-- The ring of the cluster and the replicas of its tokens in one keyspace. -/
structure TokenMap (Host : Type*) where
  ring : List Int
  tokensToHosts : Int → List Host
  ring_ne : ring ≠ []
  ring_sorted : ring.Pairwise (· < ·)
  ring_isToken : ∀ t ∈ ring, IsToken t
  hosts_ne : ∀ t ∈ ring, tokensToHosts t ≠ []

structure SplitConfig where
  splitsPerNode : Int
  tokenRangeSize : Option Int
  targetTokenRangeSize : Option Int

def bisectRight (ring : List Int) (t : Int) : Nat := (ring.takeWhile (· ≤ t)).length

theorem bisectRight_le (ring : List Int) (t : Int) : bisectRight ring t ≤ ring.length :=
  (List.takeWhile_prefix _).length_le

section numbers

/-- `//` on integers; dividing by zero is an error. -/
def floorDiv (a b : Int) : Option Int := if b = 0 then none else some (a.fdiv b)

def roundHalfEven (q : ℚ) : Int :=
  if q - ⌊q⌋ < 1 / 2 ∨ q - ⌊q⌋ = 1 / 2 ∧ ⌊q⌋ % 2 = 0 then ⌊q⌋ else ⌊q⌋ + 1

/-- `/` on integers: the double nearest to the quotient. -/
def trueDiv (a b : Int) : ℚ :=
  let ulp : ℚ := 2 ^ (Int.log 2 |(a / b : ℚ)| - 52)
  roundHalfEven ((a / b : ℚ) / ulp) * ulp

/-- `int` of a float. -/
def truncate (q : ℚ) : Int := q.num.tdiv q.den

/-- The size of a step; `one` is the row of the estimates of the table, if there is one. -/
def stepSize (config : SplitConfig) (one : Option (Int × Int)) (nNodes : Nat) : Option Int := do
  let stepSize ← floorDiv maxToken (config.splitsPerNode * nNodes)
  match config.tokenRangeSize.filter (· ≠ 0), config.targetTokenRangeSize.filter (· ≠ 0), one with
  | some tokenRangeSize, _, _ => some tokenRangeSize
  | none, some targetTokenRangeSize, some (meanPSize, pCount) =>
    let estimatedSize := meanPSize * pCount
    if 0 < estimatedSize then
      floorDiv maxToken
        (truncate (max (trueDiv estimatedSize targetTokenRangeSize) ((config.splitsPerNode * nNodes : Int) : ℚ)))
    else some stepSize
  | none, _, _ => some stepSize

end numbers

section nodes

variable {Host : Type*}

/-- The host that a range beginning at `t` is given to. -/
def TokenMap.owner (tm : TokenMap Host) (t : Int) : Host :=
  let point := bisectRight tm.ring t
  if h : point = tm.ring.length then
    (tm.tokensToHosts (tm.ring.head tm.ring_ne)).head (tm.hosts_ne _ (List.head_mem _))
  else
    have hlt : point < tm.ring.length := lt_of_le_of_ne (bisectRight_le tm.ring t) h
    (tm.tokensToHosts tm.ring[point]).head (tm.hosts_ne _ (List.getElem_mem hlt))

variable [DecidableEq Host]

/-- `tokens_per_node[host].append(r)` on a dictionary in the order of insertion. -/
def appendToNode (host : Host) (r : Int × Int) : List (Host × List (Int × Int)) → List (Host × List (Int × Int))
  | [] => [(host, [r])]
  | (node, tokens) :: nodes =>
    if node = host then (node, tokens ++ [r]) :: nodes else (node, tokens) :: appendToNode host r nodes

def tokensPerNode (owner : Int → Host) (tokensRanges : List (Int × Int)) : List (Host × List (Int × Int)) :=
  tokensRanges.foldl (fun nodes r => appendToNode (owner r.1) r nodes) []

/-- The `while` loop over one range and the append after it; `none` if it has not ended yet. -/
def splitRange (stepSize : Int) : Nat → Int → Int → Option (List (Int × Int))
  | 0, _, _ => none
  | fuel + 1, fraction, tTo =>
    if fraction < tTo - stepSize then
      (splitRange stepSize fuel (fraction + stepSize) tTo).map ((fraction, fraction + stepSize) :: ·)
    else some [(fraction, tTo)]

/-- `l[i:i + size]` for `i` in `range(0, len(l), size)`. -/
def slices {α : Type*} (size : Nat) (l : List α) : List (List α) :=
  (List.range ((l.length + size - 1) / size)).map fun i => (l.drop (i * size)).take size

def groupSize (splitsPerNode : Int) (n : Nat) : Nat := (max ((n : Int).fdiv splitsPerNode) 1).toNat

def tokensPartitions (fuel : Nat) (tm : TokenMap Host) (config : SplitConfig) (one : Option (Int × Int))
    (tokensRanges : List (Int × Int)) : Option (List (List (Int × Int))) := do
  let nodes := tokensPerNode tm.owner tokensRanges
  let step ← stepSize config one nodes.length
  let groups ← nodes.mapM fun (_, tokensInNode) => do
    let pieces ← tokensInNode.mapM fun (fraction, tTo) => splitRange step fuel fraction tTo
    let partition := pieces.flatten
    some (slices (groupSize config.splitsPerNode partition.length) partition)
  some groups.flatten

/-- The loops end, and `groups` is what they give. -/
def Yields (tm : TokenMap Host) (config : SplitConfig) (one : Option (Int × Int)) (tokensRanges : List (Int × Int))
    (groups : List (List (Int × Int))) : Prop :=
  ∃ rounds, ∀ fuel, rounds ≤ fuel → tokensPartitions fuel tm config one tokensRanges = some groups

end nodes

section cutting

/-- The pieces of a range, from as many rounds as the loop needs. -/
def cut (stepSize : Int) (r : Int × Int) : List (Int × Int) :=
  (splitRange stepSize ((r.2 - r.1).toNat + 1) r.1 r.2).getD []

theorem splitRange_mono {step a b : Int} {fuel more : Nat} {l : List (Int × Int)} (hle : fuel ≤ more)
    (h : splitRange step fuel a b = some l) : splitRange step more a b = some l := by
  induction fuel generalizing a l more with
  | zero => cases h
  | succ fuel ih =>
    obtain ⟨more, rfl⟩ : ∃ n, more = n + 1 := ⟨more - 1, by omega⟩
    simp only [splitRange] at h ⊢
    by_cases hlt : a < b - step
    · simp only [hlt, if_true, Option.map_eq_some_iff] at h ⊢
      obtain ⟨rest, hrest, rfl⟩ := h
      exact ⟨rest, ih (by omega) hrest, rfl⟩
    · simpa [hlt] using h

theorem splitRange_ends {step a b : Int} {fuel : Nat} (hstep : 0 < step) (hfuel : (b - a).toNat < fuel) :
    ∃ l, splitRange step fuel a b = some l := by
  induction fuel generalizing a with
  | zero => omega
  | succ fuel ih =>
    by_cases hlt : a < b - step
    · obtain ⟨l, hl⟩ := ih (a := a + step) (by omega)
      exact ⟨(a, a + step) :: l, by simp [splitRange, hlt, hl]⟩
    · exact ⟨[(a, b)], by simp [splitRange, hlt]⟩

theorem splitRange_eq_cut {step : Int} {fuel : Nat} {r : Int × Int} (hstep : 0 < step)
    (hfuel : (r.2 - r.1).toNat < fuel) : splitRange step fuel r.1 r.2 = some (cut step r) := by
  obtain ⟨l, hl⟩ := splitRange_ends hstep (Nat.lt_succ_self (r.2 - r.1).toNat)
  rw [cut, hl]
  exact splitRange_mono hfuel hl

theorem cut_ends {step : Int} (hstep : 0 < step) (r : Int × Int) :
    splitRange step ((r.2 - r.1).toNat + 1) r.1 r.2 = some (cut step r) :=
  splitRange_eq_cut hstep (Nat.lt_succ_self _)

/-- Induction along the rounds of the loop. -/
theorem splitRange_rule {step b : Int} {P : Int → List (Int × Int) → Prop}
    (hlast : ∀ a, ¬ a < b - step → P a [(a, b)])
    (hround : ∀ a rest, a < b - step → P (a + step) rest → P a ((a, a + step) :: rest))
    {fuel : Nat} {a : Int} {l : List (Int × Int)} (h : splitRange step fuel a b = some l) : P a l := by
  induction fuel generalizing a l with
  | zero => cases h
  | succ fuel ih =>
    simp only [splitRange] at h
    by_cases hlt : a < b - step
    · simp only [hlt, if_true, Option.map_eq_some_iff] at h
      obtain ⟨rest, hrest, rfl⟩ := h
      exact hround a rest hlt (ih hrest)
    · simp only [hlt, if_false, Option.some.injEq] at h
      exact h ▸ hlast a hlt

theorem cut_tiles {step : Int} {r : Int × Int} (hstep : 0 < step) (hr : r.1 ≤ r.2) :
    Tiles r.1 (cut step r) r.2 := by
  refine splitRange_rule (P := fun a l => a ≤ r.2 → Tiles a l r.2) (fun a _ ha => .cons ha (.nil r.2))
    (fun a rest hlt ih _ => .cons ?_ (ih ?_)) (cut_ends hstep r) hr <;> omega

theorem cut_le_step {step : Int} (hstep : 0 < step) (r : Int × Int) :
    ∀ piece ∈ cut step r, piece.2 - piece.1 ≤ step := by
  refine splitRange_rule (P := fun _ l => ∀ piece ∈ l, piece.2 - piece.1 ≤ step) (fun a hlt => ?_)
    (fun a rest _ ih => ?_) (cut_ends hstep r)
  · rw [List.forall_mem_singleton]
    omega
  · exact List.forall_mem_cons.mpr ⟨(add_sub_cancel_left a step).le, ih⟩

theorem cut_ne {step : Int} (hstep : 0 < step) (r : Int × Int) : cut step r ≠ [] := by
  have h := cut_ends hstep r
  intro hnil
  rw [hnil, splitRange] at h
  by_cases hlt : r.1 < r.2 - step <;> simp [hlt] at h

/-- No piece but one at the start of the range begins at the end of it. -/
theorem cut_start {step : Int} (hstep : 0 < step) (r : Int × Int) :
    ∀ piece ∈ cut step r, piece.1 < r.2 ∨ piece.1 = r.1 := by
  refine splitRange_rule (P := fun a l => ∀ piece ∈ l, piece.1 < r.2 ∨ piece.1 = a)
    (fun a _ => List.forall_mem_singleton.mpr (.inr rfl)) (fun a rest hlt ih => ?_) (cut_ends hstep r)
  refine List.forall_mem_cons.mpr ⟨.inr rfl, fun piece hpiece => .inl ?_⟩
  rcases ih piece hpiece with hend | hend <;> omega

theorem cut_spaced {step : Int} {r : Int × Int} (hstep : 0 < step) (hr : r.1 ≤ r.2) : Spaced (cut step r) := by
  refine (cut_tiles hstep hr).spaced ?_
  have hstarts : (∀ t ∈ (cut step r).map Prod.fst, r.1 ≤ t) ∧ ((cut step r).map Prod.fst).Pairwise (· < ·) := by
    refine splitRange_rule (P := fun a l => (∀ t ∈ l.map Prod.fst, a ≤ t) ∧ (l.map Prod.fst).Pairwise (· < ·))
      (fun a _ => by simp) (fun a rest hlt ih => ?_) (cut_ends hstep r)
    have hafter : ∀ t ∈ rest.map Prod.fst, a < t := fun t ht => (lt_add_of_pos_right a hstep).trans_le (ih.1 t ht)
    exact ⟨List.forall_mem_cons.mpr ⟨le_refl a, fun t ht => (hafter t ht).le⟩, List.pairwise_cons.mpr ⟨hafter, ih.2⟩⟩
  exact hstarts.2

theorem cut_countP {step : Int} {r : Int × Int} (hstep : 0 < step) (hr : r.1 ≤ r.2) (v : Int) :
    (cut step r).countP (inRange v) = if inRange v r = true then 1 else 0 := by
  rw [(cut_tiles hstep hr).countP]
  simp [inRange]

end cutting

section slicing

variable {α : Type*}

theorem slices_flatten {size : Nat} (hsize : 0 < size) (l : List α) : (slices size l).flatten = l := by
  have htake : ∀ n, ((List.range n).map fun i => (l.drop (i * size)).take size).flatten = l.take (n * size) := by
    intro n
    induction n with
    | zero => simp
    | succ n ih =>
      rw [List.range_succ, List.map_append, List.flatten_append, ih, Nat.succ_mul, List.take_add]
      simp
  rw [slices, htake]
  apply List.take_of_length_le
  have hdiv := Nat.lt_div_mul_add hsize (a := l.length + size - 1)
  omega

theorem slices_ne {size : Nat} (hsize : 0 < size) {l g : List α} (hg : g ∈ slices size l) : g ≠ [] := by
  obtain ⟨i, hi, rfl⟩ := List.mem_map.mp hg
  have hlt := (Nat.lt_div_iff_mul_lt hsize).mp (List.mem_range.mp hi)
  have hlen : 0 < ((l.drop (i * size)).take size).length := by
    rw [List.length_take, List.length_drop]
    omega
  exact List.ne_nil_of_length_pos hlen

theorem slices_subset {size : Nat} (hsize : 0 < size) {l g : List α} (hg : g ∈ slices size l) : g ⊆ l := by
  rw [← slices_flatten hsize l]
  exact fun x hx => List.mem_flatten.mpr ⟨g, hg, hx⟩

theorem groupSize_pos (splitsPerNode : Int) (n : Nat) : 0 < groupSize splitsPerNode n := by
  rw [groupSize]
  omega

end slicing

section sharing

variable {Host : Type*} [DecidableEq Host]

theorem appendToNode_map {keys : List Host} {host : Host} {r : Int × Int} {tokens : Host → List (Int × Int)}
    (hnodup : keys.Nodup) (hnew : host ∉ keys → tokens host = []) :
    appendToNode host r (keys.map fun k => (k, tokens k)) =
      (if host ∈ keys then keys else keys ++ [host]).map fun k => (k, tokens k ++ if k = host then [r] else []) := by
  induction keys with
  | nil => simp [appendToNode, hnew List.not_mem_nil]
  | cons k keys ih =>
    obtain ⟨hk, hkeys⟩ := List.nodup_cons.mp hnodup
    rw [List.map_cons, appendToNode]
    by_cases heq : k = host
    · subst heq
      have hrest : ∀ k' ∈ keys, (k', tokens k') = (k', tokens k' ++ if k' = k then [r] else []) := by
        intro k' hk'
        have hne : k' ≠ k := fun h => hk (h ▸ hk')
        simp [hne]
      simpa using hrest
    · have hmem : host ∈ k :: keys ↔ host ∈ keys := by simp [Ne.symm heq]
      rw [if_neg heq, ih hkeys fun h => hnew (mt hmem.mp h)]
      by_cases hin : host ∈ keys <;> simp [hin, heq, Ne.symm heq]

/-- Every host is given the ranges that it owns, in their order. -/
theorem tokensPerNode_eq (owner : Int → Host) (ranges : List (Int × Int)) :
    ∃ keys : List Host, keys.Nodup ∧ (∀ host, host ∈ keys ↔ ∃ r ∈ ranges, owner r.1 = host) ∧
      tokensPerNode owner ranges = keys.map fun k => (k, ranges.filter fun r => owner r.1 = k) := by
  induction ranges using List.reverseRecOn with
  | nil => exact ⟨[], List.nodup_nil, by simp, rfl⟩
  | append_singleton ranges r ih =>
    obtain ⟨keys, hnodup, hkeys, heq⟩ := ih
    have hnew : owner r.1 ∉ keys → (ranges.filter fun q => owner q.1 = owner r.1) = [] := by
      intro hnot
      simpa [List.filter_eq_nil_iff] using fun a b hab h => hnot ((hkeys _).mpr ⟨(a, b), hab, h⟩)
    refine ⟨if owner r.1 ∈ keys then keys else keys ++ [owner r.1], ?_, fun host => ?_, ?_⟩
    · by_cases hin : owner r.1 ∈ keys
      · simpa [hin] using hnodup
      · have hne : ∀ k ∈ keys, k ≠ owner r.1 := fun k hk h => hin (h ▸ hk)
        simpa [hin, List.nodup_append, hnodup] using hne
    · have hadded : host ∈ (if owner r.1 ∈ keys then keys else keys ++ [owner r.1]) ↔
          host ∈ keys ∨ owner r.1 = host := by
        by_cases hin : owner r.1 ∈ keys
        · simpa [hin] using fun h : owner r.1 = host => h ▸ hin
        · simp [hin, eq_comm]
      rw [hadded, hkeys]
      simp only [List.mem_append, List.mem_singleton, or_and_right, exists_or, exists_eq_left]
    · rw [tokensPerNode, List.foldl_append, ← tokensPerNode, heq, List.foldl_cons, List.foldl_nil,
        appendToNode_map hnodup hnew]
      refine List.map_congr_left fun k _ => ?_
      by_cases hk : k = owner r.1
      · simp [hk]
      · simp [hk, Ne.symm hk]

theorem filters_perm {α : Type*} {keys : List Host} (f : α → Host) {l : List α} (hnodup : keys.Nodup)
    (hmem : ∀ x ∈ l, f x ∈ keys) : (keys.flatMap fun k => l.filter fun x => f x = k).Perm l := by
  induction keys generalizing l with
  | nil =>
    cases l with
    | nil => exact List.Perm.refl _
    | cons x l => exact absurd (hmem x List.mem_cons_self) List.not_mem_nil
  | cons k keys ih =>
    obtain ⟨hk, hkeys⟩ := List.nodup_cons.mp hnodup
    have hrest : ((keys.flatMap fun k' => (l.filter fun x => !decide (f x = k)).filter fun x => f x = k')).Perm
        (l.filter fun x => !decide (f x = k)) := by
      refine ih hkeys fun x hx => ?_
      obtain ⟨hx, hne⟩ := List.mem_filter.mp hx
      exact (List.mem_cons.mp (hmem x hx)).resolve_left (by simpa using hne)
    have hsame : (keys.flatMap fun k' => (l.filter fun x => !decide (f x = k)).filter fun x => f x = k') =
        keys.flatMap fun k' => l.filter fun x => f x = k' := by
      refine List.flatMap_congr fun k' hk' => ?_
      rw [List.filter_filter]
      refine List.filter_congr fun x _ => ?_
      have hne : f x = k' → f x ≠ k := fun h h' => hk (h' ▸ h ▸ hk')
      simpa using hne
    rw [hsame] at hrest
    rw [List.flatMap_cons]
    exact (hrest.append_left _).trans (List.filter_append_perm _ l)

end sharing

section groups

theorem mapM_some {α β : Type*} {f : α → Option β} {g : α → β} {l : List α} (h : ∀ x ∈ l, f x = some (g x)) :
    l.mapM f = some (l.map g) := by
  induction l with
  | nil => rfl
  | cons x l ih =>
    obtain ⟨hx, hl⟩ := List.forall_mem_cons.mp h
    simp [List.mapM_cons, hx, ih hl]

theorem truncate_pos {q : ℚ} (h : 1 ≤ q) : 0 < truncate q := by
  have hden : (q.den : Int) ≤ q.num := by simpa using (Rat.le_iff 1 q).mp h
  have hpos : (0 : Int) < q.den := by exact_mod_cast q.den_pos
  rw [truncate, Int.tdiv_eq_ediv_of_nonneg (hpos.le.trans hden)]
  exact (Int.le_ediv_iff_mul_le hpos).mpr (by simpa using hden)

theorem stepSize_ends (config : SplitConfig) (one : Option (Int × Int)) {nNodes : Nat}
    (hsplits : 1 ≤ config.splitsPerNode) (hnodes : 0 < nNodes) : ∃ step, stepSize config one nNodes = some step := by
  have hmul : 1 ≤ config.splitsPerNode * nNodes := by
    have hnat : (1 : Int) ≤ nNodes := by exact_mod_cast hnodes
    exact one_le_mul_of_one_le_of_one_le hsplits hnat
  have hfloor : ∀ b, 0 < b → floorDiv maxToken b = some (maxToken.fdiv b) := fun b hb => if_neg hb.ne'
  rw [stepSize, hfloor _ (by omega), Option.bind_eq_bind, Option.bind_some]
  split
  · exact ⟨_, rfl⟩
  · rename_i target meanPSize pCount _ _
    have hmax : 0 < truncate (max (trueDiv (meanPSize * pCount) target)
        ((config.splitsPerNode * nNodes : Int) : ℚ)) :=
      truncate_pos (le_max_of_le_right (by exact_mod_cast hmul))
    by_cases hest : 0 < meanPSize * pCount
    · rw [if_pos hest, hfloor _ hmax]
      exact ⟨_, rfl⟩
    · simp [hest]
  · exact ⟨_, rfl⟩

def partitionOf (step : Int) (tokensInNode : List (Int × Int)) : List (Int × Int) := tokensInNode.flatMap (cut step)

def nodeGroups (splitsPerNode step : Int) (tokensInNode : List (Int × Int)) : List (List (Int × Int)) :=
  slices (groupSize splitsPerNode (partitionOf step tokensInNode).length) (partitionOf step tokensInNode)

theorem nodeGroups_flatten (splitsPerNode step : Int) (tokensInNode : List (Int × Int)) :
    (nodeGroups splitsPerNode step tokensInNode).flatten = partitionOf step tokensInNode :=
  slices_flatten (groupSize_pos _ _) _

variable {Host : Type*} [DecidableEq Host]

theorem tokensPartitions_eq {tm : TokenMap Host} {config : SplitConfig} {one : Option (Int × Int)}
    {ranges : List (Int × Int)} {keys : List Host} {step : Int} {fuel : Nat}
    (hkeys : tokensPerNode tm.owner ranges = keys.map fun k => (k, ranges.filter fun r => tm.owner r.1 = k))
    (hsize : stepSize config one keys.length = some step) (hstep : 0 < step)
    (hfuel : ∀ r ∈ ranges, (r.2 - r.1).toNat < fuel) : tokensPartitions fuel tm config one ranges =
      some (keys.flatMap fun k => nodeGroups config.splitsPerNode step (ranges.filter fun r => tm.owner r.1 = k)) := by
  have hnode : ∀ node ∈ tokensPerNode tm.owner ranges,
      (node.2.mapM fun (fraction, tTo) => splitRange step fuel fraction tTo) = some (node.2.map (cut step)) := by
    intro node hnode
    rw [hkeys] at hnode
    obtain ⟨k, -, rfl⟩ := List.mem_map.mp hnode
    exact mapM_some fun r hr => splitRange_eq_cut hstep (hfuel r (List.mem_of_mem_filter hr))
  have hgroups : ((tokensPerNode tm.owner ranges).mapM fun (_, tokensInNode) => do
      let pieces ← tokensInNode.mapM fun (fraction, tTo) => splitRange step fuel fraction tTo
      let partition := pieces.flatten
      some (slices (groupSize config.splitsPerNode partition.length) partition)) =
        some ((tokensPerNode tm.owner ranges).map fun node => nodeGroups config.splitsPerNode step node.2) := by
    refine mapM_some fun node hmem => ?_
    simp only [hnode node hmem, Option.bind_eq_bind, Option.bind_some, nodeGroups, partitionOf, List.flatMap_def]
  have hlen : (tokensPerNode tm.owner ranges).length = keys.length := by rw [hkeys, List.length_map]
  simp only [tokensPartitions, hlen, hsize, Option.bind_eq_bind, Option.bind_some] at hgroups ⊢
  rw [hgroups, hkeys, Option.bind_some, List.map_map]
  rfl

theorem yields_of_keys {tm : TokenMap Host} {config : SplitConfig} {one : Option (Int × Int)}
    {ranges : List (Int × Int)} {keys : List Host} {step : Int}
    (hkeys : tokensPerNode tm.owner ranges = keys.map fun k => (k, ranges.filter fun r => tm.owner r.1 = k))
    (hsize : stepSize config one keys.length = some step) (hstep : 0 < step) : Yields tm config one ranges
      (keys.flatMap fun k => nodeGroups config.splitsPerNode step (ranges.filter fun r => tm.owner r.1 = k)) := by
  refine ⟨(ranges.map fun r => (r.2 - r.1).toNat).sum + 1, fun fuel hfuel =>
    tokensPartitions_eq hkeys hsize hstep fun r hr => ?_⟩
  have hsum := List.le_sum_of_mem (List.mem_map_of_mem (f := fun r : Int × Int => (r.2 - r.1).toNat) hr)
  omega

theorem mapM_mono {α β : Type*} {f g : α → Option β} {l : List α} {r : List β}
    (hfg : ∀ x ∈ l, ∀ y, f x = some y → g x = some y) (h : l.mapM f = some r) : l.mapM g = some r := by
  induction l generalizing r with
  | nil => exact h
  | cons x l ih =>
    obtain ⟨hx, hl⟩ := List.forall_mem_cons.mp hfg
    simp only [List.mapM_cons, Option.bind_eq_bind, Option.bind_eq_some_iff] at h ⊢
    obtain ⟨y, hy, ys, hys, hr⟩ := h
    exact ⟨y, hx y hy, ys, ih hl hys, hr⟩

theorem tokensPartitions_mono {tm : TokenMap Host} {config : SplitConfig} {one : Option (Int × Int)}
    {ranges : List (Int × Int)} {groups : List (List (Int × Int))} {fuel more : Nat} (hle : fuel ≤ more)
    (h : tokensPartitions fuel tm config one ranges = some groups) :
    tokensPartitions more tm config one ranges = some groups := by
  simp only [tokensPartitions, Option.bind_eq_bind, Option.bind_eq_some_iff] at h ⊢
  obtain ⟨step, hstep, all, hall, hflat⟩ := h
  refine ⟨step, hstep, all, mapM_mono (fun node _ partition hpartition => ?_) hall, hflat⟩
  simp only [Option.bind_eq_some_iff] at hpartition ⊢
  obtain ⟨pieces, hpieces, hslices⟩ := hpartition
  exact ⟨pieces, mapM_mono (fun r _ l hl => splitRange_mono hle hl) hpieces, hslices⟩

theorem yields_of_eq {tm : TokenMap Host} {config : SplitConfig} {one : Option (Int × Int)}
    {ranges : List (Int × Int)} {groups : List (List (Int × Int))} (fuel : Nat)
    (h : tokensPartitions fuel tm config one ranges = some groups) : Yields tm config one ranges groups :=
  ⟨fuel, fun _ hle => tokensPartitions_mono hle h⟩

theorem Yields.unique {tm : TokenMap Host} {config : SplitConfig} {one : Option (Int × Int)}
    {ranges : List (Int × Int)} {groups groups' : List (List (Int × Int))} (h : Yields tm config one ranges groups)
    (h' : Yields tm config one ranges groups') : groups = groups' := by
  obtain ⟨rounds, hrounds⟩ := h
  obtain ⟨rounds', hrounds'⟩ := h'
  have heq := hrounds (max rounds rounds') (le_max_left _ _)
  rw [hrounds' _ (le_max_right _ _)] at heq
  exact (Option.some.inj heq).symm

/-- What a split of the ranges is: groups of pieces of the ranges. -/
structure SplitOf (owner : Int → Host) (step : Int) (ranges : List (Int × Int)) (groups : List (List (Int × Int))) :
    Prop where
  ne : ∀ group ∈ groups, group ≠ []
  countP : ∀ v, groups.flatten.countP (inRange v) = ranges.countP (inRange v)
  le_step : ∀ group ∈ groups, ∀ piece ∈ group, piece.2 - piece.1 ≤ step
  one_host : ∀ group ∈ groups, ∃ host, ∀ piece ∈ group, ∃ r ∈ ranges, owner r.1 = host ∧ piece ∈ cut step r

theorem partitionOf_countP {step : Int} {ranges : List (Int × Int)} (hstep : 0 < step)
    (hle : ∀ r ∈ ranges, r.1 ≤ r.2) (v : Int) :
    (partitionOf step ranges).countP (inRange v) = ranges.countP (inRange v) := by
  induction ranges with
  | nil => rfl
  | cons r ranges ih =>
    obtain ⟨hr, hranges⟩ := List.forall_mem_cons.mp hle
    rw [partitionOf, List.flatMap_cons, ← partitionOf, List.countP_append, cut_countP hstep hr, ih hranges,
      List.countP_cons, add_comm]

theorem nodeGroups_splitOf {owner : Int → Host} {ranges : List (Int × Int)} {keys : List Host} {step : Int}
    (splitsPerNode : Int) (hnodup : keys.Nodup) (hkeys : ∀ r ∈ ranges, owner r.1 ∈ keys) (hstep : 0 < step)
    (hle : ∀ r ∈ ranges, r.1 ≤ r.2) : SplitOf owner step ranges
      (keys.flatMap fun k => nodeGroups splitsPerNode step (ranges.filter fun r => owner r.1 = k)) := by
  have hone : ∀ group ∈ keys.flatMap fun k => nodeGroups splitsPerNode step (ranges.filter fun r => owner r.1 = k),
      group ≠ [] ∧ ∃ host, ∀ piece ∈ group, ∃ r ∈ ranges, owner r.1 = host ∧ piece ∈ cut step r := by
    intro group hgroup
    obtain ⟨k, -, hslice⟩ := List.mem_flatMap.mp hgroup
    refine ⟨slices_ne (groupSize_pos _ _) hslice, k, fun piece hpiece => ?_⟩
    obtain ⟨r, hr, hcut⟩ := List.mem_flatMap.mp (slices_subset (groupSize_pos _ _) hslice hpiece)
    obtain ⟨hr, howner⟩ := List.mem_filter.mp hr
    exact ⟨r, hr, by simpa using howner, hcut⟩
  refine ⟨fun group hgroup => (hone group hgroup).1, fun v => ?_, fun group hgroup piece hpiece => ?_,
    fun group hgroup => (hone group hgroup).2⟩
  · have hflat : (keys.flatMap fun k =>
        nodeGroups splitsPerNode step (ranges.filter fun r => owner r.1 = k)).flatten =
        partitionOf step (keys.flatMap fun k => ranges.filter fun r => owner r.1 = k) := by
      rw [List.flatten_eq_flatMap, List.flatMap_assoc]
      simp only [List.flatMap_id, nodeGroups_flatten, partitionOf, List.flatMap_assoc]
    have hperm := filters_perm (fun r : Int × Int => owner r.1) hnodup hkeys
    rw [hflat, partitionOf_countP hstep fun r hr => hle r (hperm.subset hr)]
    exact hperm.countP_eq _
  · obtain ⟨host, hhost⟩ := (hone group hgroup).2
    obtain ⟨r, -, -, hcut⟩ := hhost piece hpiece
    exact cut_le_step hstep r piece hcut

/-- A split ends, and hands every token of the ranges over once for each range that holds it. -/
theorem tokensPartitions_splitOf (tm : TokenMap Host) (config : SplitConfig) (one : Option (Int × Int))
    {ranges : List (Int × Int)} (hne : ranges ≠ []) (hle : ∀ r ∈ ranges, r.1 ≤ r.2)
    (hsplits : 1 ≤ config.splitsPerNode) :
    ∃ step, stepSize config one (tokensPerNode tm.owner ranges).length = some step ∧ (0 < step →
      ∃ groups, Yields tm config one ranges groups ∧ SplitOf tm.owner step ranges groups) := by
  obtain ⟨keys, hnodup, hkeys, heq⟩ := tokensPerNode_eq tm.owner ranges
  have hlen : (tokensPerNode tm.owner ranges).length = keys.length := by rw [heq, List.length_map]
  have hnodes : 0 < keys.length := by
    obtain ⟨r, hr⟩ := List.exists_mem_of_ne_nil ranges hne
    exact List.length_pos_of_mem ((hkeys _).mpr ⟨r, hr, rfl⟩)
  obtain ⟨step, hsize⟩ := stepSize_ends config one hsplits hnodes
  rw [hlen]
  exact ⟨step, hsize, fun hstep => ⟨_, yields_of_keys heq hsize hstep, nodeGroups_splitOf config.splitsPerNode hnodup
    (fun r hr => (hkeys _).mpr ⟨r, hr, rfl⟩) hstep hle⟩⟩

def twoHosts : TokenMap Nat where
  ring := [-10, 10]
  tokensToHosts t := if t = 10 then [2, 1] else [1, 2]
  ring_ne := List.cons_ne_nil _ _
  ring_sorted := by simp
  ring_isToken := by simp [IsToken, minToken, maxToken]
  hosts_ne := by simp

theorem tokensPartitions_splitOf_two :
    ∃ groups, Yields twoHosts ⟨3, some 8, none⟩ none [(-20, -10), (-10, 9), (10, 12)] groups ∧
      SplitOf twoHosts.owner 8 [(-20, -10), (-10, 9), (10, 12)] groups := by
  have hstep : stepSize ⟨3, some 8, none⟩ none
      (tokensPerNode twoHosts.owner [(-20, -10), (-10, 9), (10, 12)]).length = some 8 := by decide
  have hle : ∀ r ∈ [((-20 : Int), (-10 : Int)), (-10, 9), (10, 12)], r.1 ≤ r.2 := by decide
  obtain ⟨step, hsome, hyields⟩ :=
    tokensPartitions_splitOf twoHosts ⟨3, some 8, none⟩ none (List.cons_ne_nil _ _) hle (by decide)
  obtain rfl : step = 8 := Option.some.inj (hsome.symm.trans hstep)
  exact hyields (by decide)

example : tokensPartitions 5 twoHosts ⟨3, some 8, none⟩ none [(-20, -10), (-10, 9), (10, 12)] =
    some [[(-20, -12)], [(-12, -10)], [(10, 12)], [(-10, -2)], [(-2, 6)], [(6, 9)]] := by decide

end groups

end Hecuba
