import Hecuba.HalfOpenRanges
import Mathlib.Data.List.Sort

/-! The ranges of tokens between those of the ring, as the Python and the C++ code build
them, and the rows that a scan of them visits. -/

namespace Hecuba

def minToken : Int := -2 ^ 63

def maxToken : Int := 2 ^ 63 - 1

/-- A 64-bit signed number. -/
def IsToken (t : Int) : Prop := minToken ≤ t ∧ t ≤ maxToken

instance (t : Int) : Decidable (IsToken t) := inferInstanceAs (Decidable (_ ∧ _))

def discreteTokenRanges (tokens : List Int) : List (Int × Int) :=
  match tokens.insertionSort (· ≤ ·) with
  | [] => []
  | token :: tokens =>
    (if minToken < token then [(minToken, token)] else []) ++ consecutive (token :: tokens) ++
      [(tokens.getLastD token, maxToken)]

/-- The loop of `query_tokens` that puts a token before the first greater one. -/
def insertToken (x : Int) : List Int → List Int
  | [] => [x]
  | y :: tokensInCluster => if x < y then x :: y :: tokensInCluster else y :: insertToken x tokensInCluster

def queryTokens (tokens : List Int) : List Int :=
  tokens.foldl (fun tokensInCluster x => insertToken x tokensInCluster) []

/-- `generate_token_ranges` of the C++ code. `token2` is not initialized: `garbage` is what it
holds if its loop assigns nothing to it. -/
def generateTokenRanges (garbage : Int) : List Int → List (Int × Int)
  | [] => []
  | token1 :: tokens =>
    let first := if minToken < token1 then [(minToken, token1)] else []
    let (ranges, _, token2) := tokens.dropLast.foldl
      (fun (ranges, token1, _) token2 => (ranges ++ [(token1, token2)], token2, token2)) (first, token1, garbage)
    if token2 < maxToken then ranges ++ [(token2, maxToken)] else ranges

section tiling

theorem discreteTokenRanges_cons {tokens rest : List Int} {token : Int}
    (h : tokens.insertionSort (· ≤ ·) = token :: rest) : discreteTokenRanges tokens =
      (if minToken < token then [(minToken, token)] else []) ++ consecutive (token :: rest) ++
        [(rest.getLastD token, maxToken)] := by
  rw [discreteTokenRanges, h]

theorem insertionSort_isToken {tokens : List Int} (h : ∀ t ∈ tokens, IsToken t) :
    ∀ t ∈ tokens.insertionSort (· ≤ ·), IsToken t :=
  fun t ht => h t ((List.perm_insertionSort _ _).subset ht)

theorem insertionSort_pairwise_lt {tokens : List Int} (h : tokens.Nodup) :
    (tokens.insertionSort (· ≤ ·)).Pairwise (· < ·) := by
  have hle := List.pairwise_insertionSort (· ≤ ·) tokens
  have hne : (tokens.insertionSort (· ≤ ·)).Nodup := (List.perm_insertionSort _ tokens).nodup_iff.mpr h
  exact hle.imp₂ (fun _ _ h h' => lt_of_le_of_ne h h') hne

theorem getLastD_mem_cons {α : Type*} (a : α) (l : List α) : l.getLastD a ∈ a :: l := by
  rw [List.getLastD_eq_getLast?]
  cases hl : l.getLast? with
  | none => simp
  | some b => simpa using .inr (List.mem_of_getLast? hl)

theorem first_tiles {token : Int} (h : minToken ≤ token) :
    Tiles minToken (if minToken < token then [(minToken, token)] else []) token := by
  by_cases hlt : minToken < token
  · rw [if_pos hlt]
    exact .cons h (.nil token)
  · obtain rfl : minToken = token := by omega
    rw [if_neg hlt]
    exact .nil _

/-- The ranges of a ring tile all tokens but the greatest. -/
theorem discreteTokenRanges_tiles {tokens : List Int} (hne : tokens ≠ []) (h : ∀ t ∈ tokens, IsToken t) :
    Tiles minToken (discreteTokenRanges tokens) maxToken := by
  have hsorted := List.pairwise_insertionSort (· ≤ ·) tokens
  have hbounds := insertionSort_isToken h
  cases hs : tokens.insertionSort (· ≤ ·) with
  | nil =>
    have hlen := List.length_insertionSort (· ≤ ·) tokens
    rw [hs] at hlen
    exact absurd (List.length_eq_zero_iff.mp hlen.symm) hne
  | cons token rest =>
    rw [hs] at hsorted hbounds
    rw [discreteTokenRanges_cons hs]
    have hlast : rest.getLastD token ≤ maxToken := (hbounds _ (getLastD_mem_cons token rest)).2
    exact ((first_tiles (hbounds token List.mem_cons_self).1).append (consecutive_tiles hsorted)).append
      (.cons hlast (.nil _))

/-- A full scan visits the rows of each token once, but for those of the greatest one. -/
theorem visited_once_iff {tokens : List Int} {v : Int} (hne : tokens ≠ []) (h : ∀ t ∈ tokens, IsToken t)
    (hv : IsToken v) : (discreteTokenRanges tokens).countP (inRange v) = 1 ↔ v ≠ maxToken := by
  rw [(discreteTokenRanges_tiles hne h).countP]
  obtain ⟨hmin, hmax⟩ := hv
  by_cases hlt : v < maxToken
  · simp [hmin, hlt, hlt.ne]
  · simp [le_antisymm hmax (not_lt.mp hlt)]

theorem visited_once_zero : (discreteTokenRanges [5, -5]).countP (inRange 0) = 1 :=
  (visited_once_iff (by decide) (by decide) (by decide)).mpr (by decide)

/-- The rows of the greatest token are in no range. -/
theorem greatest_token_missed : ((0 : Int) ∈ [0] ∧ IsToken 0 ∧ IsToken maxToken) ∧
    (discreteTokenRanges [0]).countP (inRange maxToken) ≠ 1 := by decide

end tiling

section agreement

theorem insertToken_perm (x : Int) (l : List Int) : (insertToken x l).Perm (x :: l) := by
  induction l with
  | nil => exact List.Perm.refl _
  | cons y l ih =>
    by_cases h : x < y
    · rw [insertToken, if_pos h]
    · rw [insertToken, if_neg h]
      exact (ih.cons y).trans (List.Perm.swap x y l)

theorem insertToken_pairwise (x : Int) {l : List Int} (h : l.Pairwise (· ≤ ·)) :
    (insertToken x l).Pairwise (· ≤ ·) := by
  induction l with
  | nil => exact List.pairwise_singleton _ _
  | cons y l ih =>
    obtain ⟨hy, hl⟩ := List.pairwise_cons.mp h
    by_cases hlt : x < y
    · rw [insertToken, if_pos hlt]
      refine List.pairwise_cons.mpr ⟨fun z hz => ?_, h⟩
      rcases List.mem_cons.mp hz with rfl | hz
      · exact hlt.le
      · exact hlt.le.trans (hy z hz)
    · rw [insertToken, if_neg hlt]
      refine List.pairwise_cons.mpr ⟨fun z hz => ?_, ih hl⟩
      rcases List.mem_cons.mp ((insertToken_perm x l).subset hz) with rfl | hz
      · exact not_lt.mp hlt
      · exact hy z hz

theorem queryTokens_eq (tokens : List Int) : queryTokens tokens = tokens.insertionSort (· ≤ ·) := by
  have hgather : ∀ l : List Int, l.Pairwise (· ≤ ·) →
      (tokens.foldl (fun cluster x => insertToken x cluster) l).Pairwise (· ≤ ·) ∧
        (tokens.foldl (fun cluster x => insertToken x cluster) l).Perm (tokens ++ l) := by
    induction tokens with
    | nil => exact fun l hl => ⟨hl, List.Perm.refl _⟩
    | cons x tokens ih =>
      intro l hl
      obtain ⟨hpair, hperm⟩ := ih (insertToken x l) (insertToken_pairwise x hl)
      exact ⟨hpair, hperm.trans (((insertToken_perm x l).append_left tokens).trans List.perm_middle)⟩
  obtain ⟨hpair, hperm⟩ := hgather [] List.Pairwise.nil
  rw [List.append_nil] at hperm
  exact List.Perm.eq_of_pairwise' hpair (List.pairwise_insertionSort _ _)
    (hperm.trans (List.perm_insertionSort _ _).symm)

def nonEmpty (ranges : List (Int × Int)) : List (Int × Int) := ranges.filter fun r => decide (r.1 < r.2)

theorem nonEmpty_append (l l' : List (Int × Int)) : nonEmpty (l ++ l') = nonEmpty l ++ nonEmpty l' :=
  List.filter_append ..

/-- The C++ and the Python code build the same ranges, but for empty ones. -/
def RangesAgree (tokens : List Int) : Prop :=
  ∀ garbage, IsToken garbage →
    nonEmpty (generateTokenRanges garbage (queryTokens tokens)) = nonEmpty (discreteTokenRanges tokens)

/-- The loop of the C++ code over the tokens after the first one but for the last one. -/
theorem generate_loop (ranges : List (Int × Int)) (token1 old : Int) (l : List Int) (token2 : Int) :
    (l ++ [token2]).foldl (fun (ranges, token1, _) token2 => (ranges ++ [(token1, token2)], token2, token2))
        (ranges, token1, old) =
      (ranges ++ consecutive (token1 :: (l ++ [token2])), token2, token2) := by
  induction l generalizing ranges token1 old with
  | nil => rfl
  | cons t l ih =>
    rw [List.cons_append, List.foldl_cons, ih, consecutive_cons_cons, List.append_assoc, List.singleton_append]

theorem generate_three (garbage token1 : Int) (l : List Int) (a b : Int) (ha : a < maxToken) :
    generateTokenRanges garbage (token1 :: (l ++ [a, b])) =
      (if minToken < token1 then [(minToken, token1)] else []) ++ consecutive ((token1 :: l) ++ [a]) ++
        [(a, maxToken)] := by
  have hdrop : (l ++ [a, b]).dropLast = l ++ [a] := by simp
  simp only [generateTokenRanges, hdrop, generate_loop, ha, if_true, List.cons_append]

theorem discrete_three {tokens : List Int} {token1 : Int} {l : List Int} {a b : Int}
    (h : tokens.insertionSort (· ≤ ·) = token1 :: (l ++ [a, b])) : discreteTokenRanges tokens =
      (if minToken < token1 then [(minToken, token1)] else []) ++ consecutive ((token1 :: l) ++ [a]) ++
        [(a, b), (b, maxToken)] := by
  have hlast : (l ++ [a, b]).getLastD token1 = b := by
    rw [List.append_cons, List.getLastD_concat]
  rw [discreteTokenRanges_cons h, hlast, ← List.cons_append, consecutive_append, List.append_assoc,
    List.append_assoc, List.append_assoc]
  rfl

theorem below_last {tokens : List Int} (hnodup : tokens.Nodup) {token1 : Int} {l : List Int} {a b : Int}
    (hs : tokens.insertionSort (· ≤ ·) = token1 :: (l ++ [a, b])) :
    (token1 :: (l ++ [a])).Pairwise (· ≤ ·) ∧ ∀ t ∈ token1 :: (l ++ [a]), t < b := by
  have hlt := insertionSort_pairwise_lt hnodup
  rw [hs, List.append_cons, ← List.cons_append, List.pairwise_append] at hlt
  exact ⟨hlt.1.imp le_of_lt, fun t ht => hlt.2.2 t ht b (by simp)⟩

theorem insertionSort_three {tokens : List Int} (h : 3 ≤ tokens.length) :
    ∃ token1 l a b, tokens.insertionSort (· ≤ ·) = token1 :: (l ++ [a, b]) := by
  rw [← List.length_insertionSort (· ≤ ·) tokens] at h
  generalize tokens.insertionSort (· ≤ ·) = sorted at h
  rcases sorted with _ | ⟨token1, rest⟩
  · simp at h
  rcases List.eq_nil_or_concat rest with rfl | ⟨front, b, rfl⟩
  · simp at h
  rcases List.eq_nil_or_concat front with rfl | ⟨l, a, rfl⟩
  · simp at h
  exact ⟨token1, l, a, b, by simp⟩

/-- The C++ ranges of three tokens or more leave no row out: the last two are joined to one. -/
theorem generate_tiles {tokens : List Int} (hnodup : tokens.Nodup) (h : ∀ t ∈ tokens, IsToken t)
    (hlen : 3 ≤ tokens.length) (garbage : Int) :
    Tiles minToken (generateTokenRanges garbage (queryTokens tokens)) maxToken := by
  obtain ⟨token1, l, a, b, hs⟩ := insertionSort_three hlen
  have hbounds := insertionSort_isToken h
  rw [hs] at hbounds
  obtain ⟨hle, hb⟩ := below_last hnodup hs
  have ha : a < maxToken := (hb a (by simp)).trans_le (hbounds b (by simp)).2
  have hfront : Tiles token1 (consecutive (token1 :: (l ++ [a]))) a := by
    simpa using consecutive_tiles hle
  rw [queryTokens_eq, hs, generate_three garbage token1 l a b ha]
  exact ((first_tiles (hbounds token1 List.mem_cons_self).1).append hfront).append (.cons ha.le (.nil _))

/-- From three tokens on the last token is passed over, which is right if it is the greatest. -/
theorem agree_three {tokens : List Int} {token1 : Int} {l : List Int} {a b : Int}
    (h : tokens.insertionSort (· ≤ ·) = token1 :: (l ++ [a, b])) (hab : a < b) (hb : b ≤ maxToken) :
    RangesAgree tokens ↔ b = maxToken := by
  have ha : a < maxToken := hab.trans_le hb
  have hiff : ∀ garbage, (nonEmpty (generateTokenRanges garbage (queryTokens tokens)) =
      nonEmpty (discreteTokenRanges tokens)) ↔ b = maxToken := by
    intro garbage
    rw [queryTokens_eq, h, generate_three garbage token1 l a b ha, discrete_three h, nonEmpty_append _ [(a, maxToken)],
      nonEmpty_append _ [(a, b), (b, maxToken)], List.append_cancel_left_eq]
    by_cases hlt : b < maxToken
    · simp [nonEmpty, ha, hab, hlt, hlt.ne]
    · obtain rfl : b = maxToken := le_antisymm hb (not_lt.mp hlt)
      simp [nonEmpty, hab]
  exact ⟨fun hall => (hiff 0).mp (hall 0 (by decide)), fun heq garbage _ => (hiff garbage).mpr heq⟩

/-- With one or two tokens the last range begins at a number that was never assigned. -/
theorem not_agree_two {tokens : List Int} {a b : Int} (h : tokens.insertionSort (· ≤ ·) = [a, b]) (hab : a < b) :
    ¬ RangesAgree tokens := by
  intro hall
  have heq := hall maxToken (by decide)
  rw [queryTokens_eq, h, discreteTokenRanges_cons h] at heq
  have hgen : generateTokenRanges maxToken [a, b] = if minToken < a then [(minToken, a)] else [] := by
    simp [generateTokenRanges]
  rw [hgen, List.append_assoc, nonEmpty_append, List.self_eq_append_right] at heq
  simp [nonEmpty, consecutive, hab] at heq

theorem not_agree_one {tokens : List Int} {a : Int} (h : tokens.insertionSort (· ≤ ·) = [a]) :
    ¬ RangesAgree tokens := by
  intro hall
  have hgen : ∀ garbage, generateTokenRanges garbage [a] =
      (if minToken < a then [(minToken, a)] else []) ++ if garbage < maxToken then [(garbage, maxToken)] else [] := by
    intro garbage
    by_cases hg : garbage < maxToken <;> simp [generateTokenRanges, hg]
  have hdiscrete : discreteTokenRanges tokens =
      (if minToken < a then [(minToken, a)] else []) ++ [(a, maxToken)] := by
    rw [discreteTokenRanges_cons h]
    simp [consecutive]
  have hrest : ∀ garbage, IsToken garbage →
      nonEmpty (if garbage < maxToken then [(garbage, maxToken)] else []) = nonEmpty [(a, maxToken)] := by
    intro garbage hg
    have heq := hall garbage hg
    rwa [queryTokens_eq, h, hgen, hdiscrete, nonEmpty_append, nonEmpty_append, List.append_cancel_left_eq] at heq
  have hmin := hrest minToken (by decide)
  have hmax := hrest maxToken (by decide)
  rw [← hmax] at hmin
  exact absurd hmin (by decide)

/-- The two lists of ranges agree if the last token, which the C++ code passes over, is the
greatest one, and its loop assigns `token2`. -/
theorem ranges_agree_iff {tokens : List Int} (hne : tokens ≠ []) (hnodup : tokens.Nodup)
    (h : ∀ t ∈ tokens, IsToken t) : RangesAgree tokens ↔ 3 ≤ tokens.length ∧ maxToken ∈ tokens := by
  by_cases hlen : 3 ≤ tokens.length
  · obtain ⟨token1, l, a, b, hs⟩ := insertionSort_three hlen
    obtain ⟨-, hlast⟩ := below_last hnodup hs
    have hmem : ∀ t, t ∈ tokens ↔ t ∈ (token1 :: (l ++ [a])) ++ [b] := by
      intro t
      rw [← List.mem_insertionSort (· ≤ ·), hs]
      simp
    have hb : b ≤ maxToken := (h b ((hmem b).mpr (by simp))).2
    rw [agree_three hs (hlast a (by simp)) hb, hmem, List.mem_append, List.mem_singleton]
    have hnot : maxToken ∉ token1 :: (l ++ [a]) := fun hmax => absurd (hlast _ hmax) (not_lt.mpr hb)
    simp [hlen, hnot, eq_comm]
  · have hcount := List.length_insertionSort (· ≤ ·) tokens
    have hlt := insertionSort_pairwise_lt hnodup
    have hagree : ¬ RangesAgree tokens := by
      rcases hs : tokens.insertionSort (· ≤ ·) with _ | ⟨a, _ | ⟨b, _ | ⟨c, rest⟩⟩⟩
      · rw [hs] at hcount
        exact absurd (List.length_eq_zero_iff.mp hcount.symm) hne
      · exact not_agree_one hs
      · rw [hs] at hlt
        exact not_agree_two hs (by simpa using hlt)
      · rw [hs] at hcount
        simp only [List.length_cons] at hcount
        omega
    simp [hagree, hlen]

theorem ranges_agree_max : RangesAgree [7, maxToken, -7] :=
  (ranges_agree_iff (by decide) (by decide) (by decide)).mpr (by decide)

/-- On the tokens of the comment above the C++ function its ranges skip the token 10. -/
theorem ranges_differ : ([-1, 0, 10].Nodup ∧ ∀ t ∈ [-1, 0, 10], IsToken t) ∧ IsToken 0 ∧
    generateTokenRanges 0 (queryTokens [-1, 0, 10]) = [(minToken, -1), (-1, 0), (0, maxToken)] ∧
    discreteTokenRanges [-1, 0, 10] = [(minToken, -1), (-1, 0), (0, 10), (10, maxToken)] ∧
    ¬ RangesAgree [-1, 0, 10] := by
  have hcpp : generateTokenRanges 0 (queryTokens [-1, 0, 10]) = [(minToken, -1), (-1, 0), (0, maxToken)] := by decide
  have hpython : discreteTokenRanges [-1, 0, 10] = [(minToken, -1), (-1, 0), (0, 10), (10, maxToken)] := by decide
  refine ⟨by decide, by decide, hcpp, hpython, fun hall => ?_⟩
  have heq := hall 0 (by decide)
  rw [hcpp, hpython] at heq
  exact absurd heq (by decide)

end agreement

end Hecuba
