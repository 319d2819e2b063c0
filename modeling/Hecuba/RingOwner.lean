import Hecuba.TokenRanges
import Mathlib.Data.List.Induction

/-! The host that `get_host_per_token` names for a token, and the host that owns it. -/

namespace Hecuba

structure TokenHost where
  token : Int
  host : String
  deriving DecidableEq, Repr

/-- The loop of `query_tokens` on the pairs that the vector holds. -/
def insertTokenHost (x : TokenHost) : List TokenHost → List TokenHost
  | [] => [x]
  | y :: tokensInCluster =>
    if x.token < y.token then x :: y :: tokensInCluster else y :: insertTokenHost x tokensInCluster

def queryTokenHosts (ring : List TokenHost) : List TokenHost :=
  ring.foldl (fun tokensInCluster x => insertTokenHost x tokensInCluster) []

/-- The loop stops before the last pair, which is the answer when none is found. -/
def getHostPerToken (tokensInCluster : List TokenHost) (token : Int) : Option String :=
  match tokensInCluster.dropLast.find? (fun th => token ≤ th.token) with
  | some th => some th.host
  | none => tokensInCluster.getLast?.map TokenHost.host

/-- `th` comes first at or after `t`, the ring being walked from `t` on and then from its start. -/
def Owns (ring : List TokenHost) (t : Int) (th : TokenHost) : Prop :=
  th ∈ ring ∧ ((t ≤ th.token ∧ ∀ x ∈ ring, t ≤ x.token → th.token ≤ x.token) ∨
    (∀ x ∈ ring, x.token < t) ∧ ∀ x ∈ ring, th.token ≤ x.token)

/-- The lookup answers with the host of the pair that owns `t`. -/
def AgreesWithRing (ring : List TokenHost) (t : Int) : Prop :=
  ∃ th, Owns ring t th ∧ getHostPerToken (queryTokenHosts ring) t = some th.host

/-- Of the pairs with the greatest token, the one that was inserted last. -/
def LatestGreatest (ring : List TokenHost) (last : TokenHost) : Prop :=
  ∃ before after, ring = before ++ last :: after ∧ (∀ x ∈ before, x.token ≤ last.token) ∧
    ∀ x ∈ after, x.token < last.token

section gathering

theorem map_insertTokenHost (x : TokenHost) (l : List TokenHost) :
    (insertTokenHost x l).map TokenHost.token = insertToken x.token (l.map TokenHost.token) := by
  induction l with
  | nil => rfl
  | cons y l ih =>
    by_cases h : x.token < y.token
    · simp [insertTokenHost, insertToken, h]
    · simp [insertTokenHost, insertToken, h, ih]

theorem mem_insertTokenHost {x z : TokenHost} {l : List TokenHost} :
    z ∈ insertTokenHost x l ↔ z = x ∨ z ∈ l := by
  induction l with
  | nil => simp [insertTokenHost]
  | cons y l ih =>
    by_cases h : x.token < y.token
    · simp [insertTokenHost, h]
    · simp [insertTokenHost, h, ih]
      tauto

theorem queryTokenHosts_append (ring : List TokenHost) (x : TokenHost) :
    queryTokenHosts (ring ++ [x]) = insertTokenHost x (queryTokenHosts ring) := by
  simp [queryTokenHosts, List.foldl_append]

theorem queryTokenHosts_spec (ring : List TokenHost) :
    ((queryTokenHosts ring).map TokenHost.token).Pairwise (· ≤ ·) ∧
      ∀ z, z ∈ queryTokenHosts ring ↔ z ∈ ring := by
  induction ring using List.reverseRecOn with
  | nil => simp [queryTokenHosts]
  | append_singleton ring x ih =>
    obtain ⟨hsorted, hmem⟩ := ih
    rw [queryTokenHosts_append]
    refine ⟨?_, fun z => ?_⟩
    · rw [map_insertTokenHost]
      exact insertToken_pairwise x.token hsorted
    · rw [mem_insertTokenHost, hmem]
      simp [or_comm]

theorem insertTokenHost_of_le {x : TokenHost} {l : List TokenHost} (h : ∀ y ∈ l, y.token ≤ x.token) :
    insertTokenHost x l = l ++ [x] := by
  induction l with
  | nil => rfl
  | cons y l ih =>
    have hy : ¬ x.token < y.token := not_lt.mpr (h y (by simp))
    simp [insertTokenHost, hy, ih fun z hz => h z (by simp [hz])]

theorem insertTokenHost_of_lt {x last : TokenHost} {l : List TokenHost} (hlast : l.getLast? = some last)
    (h : x.token < last.token) : (insertTokenHost x l).getLast? = some last := by
  induction l with
  | nil => simp at hlast
  | cons y l ih =>
    by_cases hlt : x.token < y.token
    · simpa [insertTokenHost, hlt] using hlast
    · cases l with
      | nil =>
        obtain rfl : y = last := by simpa using hlast
        exact absurd h hlt
      | cons z l =>
        have hrest := ih (by simpa using hlast)
        simp only [insertTokenHost, hlt, if_false] at hrest ⊢
        rw [List.getLast?_cons, hrest]
        simp

theorem LatestGreatest.le {ring : List TokenHost} {last : TokenHost} (h : LatestGreatest ring last) :
    last ∈ ring ∧ ∀ x ∈ ring, x.token ≤ last.token := by
  obtain ⟨before, after, rfl, hbefore, hafter⟩ := h
  refine ⟨by simp, fun x hx => ?_⟩
  rcases List.mem_append.mp hx with hx | hx
  · exact hbefore x hx
  · rcases List.mem_cons.mp hx with rfl | hx
    · exact le_refl _
    · exact (hafter x hx).le

/-- The vector ends with the pair of the greatest token that was inserted last. -/
theorem LatestGreatest.getLast? {ring : List TokenHost} {last : TokenHost} (h : LatestGreatest ring last) :
    (queryTokenHosts ring).getLast? = some last := by
  obtain ⟨before, after, rfl, hbefore, hafter⟩ := h
  induction after using List.reverseRecOn with
  | nil =>
    have hle : ∀ y ∈ queryTokenHosts before, y.token ≤ last.token :=
      fun y hy => hbefore y (((queryTokenHosts_spec before).2 y).mp hy)
    rw [queryTokenHosts_append, insertTokenHost_of_le hle]
    simp
  | append_singleton after x ih =>
    rw [← List.cons_append, ← List.append_assoc, queryTokenHosts_append]
    exact insertTokenHost_of_lt (ih fun y hy => hafter y (by simp [hy])) (hafter x (by simp))

theorem exists_latestGreatest {ring : List TokenHost} (h : ring ≠ []) : ∃ last, LatestGreatest ring last := by
  induction ring using List.reverseRecOn with
  | nil => exact absurd rfl h
  | append_singleton ring x ih =>
    by_cases hnil : ring = []
    · exact ⟨x, [], [], by simp [hnil], by simp, by simp⟩
    · obtain ⟨last, hlast⟩ := ih hnil
      by_cases hlt : x.token < last.token
      · obtain ⟨before, after, rfl, hbefore, hafter⟩ := hlast
        refine ⟨last, before, after ++ [x], by simp, hbefore, fun y hy => ?_⟩
        rcases List.mem_append.mp hy with hy | hy
        · exact hafter y hy
        · obtain rfl : y = x := by simpa using hy
          exact hlt
      · exact ⟨x, ring, [], rfl, fun y hy => (hlast.le.2 y hy).trans (not_lt.mp hlt), by simp⟩

end gathering

section lookup

/-- A token up to the greatest one: the lookup finds the pair that owns it. -/
theorem getHostPerToken_of_le {ring : List TokenHost} {t : Int} (h : ∃ x ∈ ring, t ≤ x.token) :
    AgreesWithRing ring t := by
  obtain ⟨hsorted, hmem⟩ := queryTokenHosts_spec ring
  obtain ⟨x, hx, htx⟩ := h
  obtain ⟨last, hlast⟩ := exists_latestGreatest (List.ne_nil_of_mem hx)
  obtain ⟨front, hfront⟩ := List.getLast?_eq_some_iff.mp hlast.getLast?
  rw [hfront, List.map_append, List.pairwise_append] at hsorted
  cases hfind : front.find? (fun th => t ≤ th.token) with
  | none =>
    -- no pair but the last one reaches `t`
    refine ⟨last, ⟨hlast.le.1, .inl ⟨htx.trans (hlast.le.2 x hx), fun y hy hty => ?_⟩⟩, ?_⟩
    · have hy' := (hmem y).mpr hy
      rw [hfront] at hy'
      rcases List.mem_append.mp hy' with hy' | hy'
      · exact absurd hty (by simpa using List.find?_eq_none.mp hfind y hy')
      · obtain rfl : y = last := by simpa using hy'
        exact le_refl _
    · simp [getHostPerToken, hfront, hfind]
  | some th =>
    have hth : t ≤ th.token := by simpa using List.find?_some hfind
    have hin : th ∈ ring := (hmem th).mp (by simp [hfront, List.mem_of_find?_eq_some hfind])
    refine ⟨th, ⟨hin, .inl ⟨hth, fun y hy hty => ?_⟩⟩, by simp [getHostPerToken, hfront, hfind]⟩
    obtain ⟨-, before, after, hsplit, hbefore⟩ := List.find?_eq_some_iff_append.mp hfind
    have hy' := (hmem y).mpr hy
    rw [hfront] at hy'
    rcases List.mem_append.mp hy' with hy' | hy'
    · rw [hsplit] at hy'
      rcases List.mem_append.mp hy' with hy' | hy'
      · exact absurd hty (by simpa using hbefore y hy')
      · rcases List.mem_cons.mp hy' with rfl | hy'
        · exact le_refl _
        · have hpair := hsorted.1
          rw [hsplit, List.map_append, List.pairwise_append, List.map_cons, List.pairwise_cons] at hpair
          exact hpair.2.1.1 _ (List.mem_map_of_mem hy')
    · exact hsorted.2.2 _ (List.mem_map_of_mem (List.mem_of_find?_eq_some hfind)) _ (List.mem_map_of_mem hy')

/-- A token beyond the greatest one: the lookup answers with the last pair. -/
theorem getHostPerToken_of_lt {ring : List TokenHost} {t : Int} (h : ∀ x ∈ ring, x.token < t)
    {last : TokenHost} (hlast : LatestGreatest ring last) :
    getHostPerToken (queryTokenHosts ring) t = some last.host := by
  have hfind : (queryTokenHosts ring).dropLast.find? (fun th => t ≤ th.token) = none := by
    rw [List.find?_eq_none]
    intro x hx
    simpa using h x (((queryTokenHosts_spec ring).2 x).mp ((List.dropLast_sublist _).mem hx))
  simp [getHostPerToken, hfind, hlast.getLast?]

/-- The lookup agrees with the ring for the tokens up to the greatest one. Beyond it the last
pair must name the host of a first one. -/
theorem agreesWithRing_iff {ring : List TokenHost} (h : ring ≠ []) (t : Int) : AgreesWithRing ring t ↔
    (∃ x ∈ ring, t ≤ x.token) ∨ ∃ first ∈ ring, ∃ last, (∀ x ∈ ring, first.token ≤ x.token) ∧
      LatestGreatest ring last ∧ first.host = last.host := by
  by_cases hle : ∃ x ∈ ring, t ≤ x.token
  · exact iff_of_true (getHostPerToken_of_le hle) (.inl hle)
  · have hlt : ∀ x ∈ ring, x.token < t := by simpa using hle
    constructor
    · rintro ⟨th, ⟨hin, hown⟩, hget⟩
      obtain ⟨last, hlast⟩ := exists_latestGreatest h
      rw [getHostPerToken_of_lt hlt hlast] at hget
      rcases hown with ⟨hth, -⟩ | ⟨-, hfirst⟩
      · exact absurd ⟨th, hin, hth⟩ hle
      · exact .inr ⟨th, hin, last, hfirst, hlast, (Option.some.inj hget).symm⟩
    · intro hcond
      obtain ⟨first, hin, last, hfirst, hlast, hhost⟩ := hcond.resolve_left hle
      exact ⟨first, ⟨hin, .inr ⟨hlt, hfirst⟩⟩, by rw [getHostPerToken_of_lt hlt hlast, hhost]⟩

theorem agreesWithRing_between : AgreesWithRing [⟨5, "b"⟩, ⟨-5, "a"⟩] 0 :=
  (agreesWithRing_iff (by simp) 0).mpr (.inl ⟨⟨5, "b"⟩, by simp, by decide⟩)

/-- A token beyond the ring belongs to the first host, and the lookup names the last one. -/
theorem beyond_ring_disagrees : ¬ AgreesWithRing [⟨5, "b"⟩, ⟨-5, "a"⟩] 6 := by
  have hget : getHostPerToken (queryTokenHosts [⟨5, "b"⟩, ⟨-5, "a"⟩]) 6 = some "b" := by decide
  rintro ⟨th, ⟨hin, hown⟩, hth⟩
  rw [hget] at hth
  rcases List.mem_pair.mp hin with rfl | rfl
  · rcases hown with ⟨hle, -⟩ | ⟨-, hfirst⟩
    · exact absurd hle (by decide)
    · exact absurd (hfirst ⟨-5, "a"⟩ (by simp)) (by decide)
  · exact absurd hth (by decide)

end lookup

end Hecuba
