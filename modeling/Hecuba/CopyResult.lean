import Hecuba.BoxCopy

/-! What can be said of a box copy from its result alone: it has not left the array, and
it has written nothing between the rows of the block. -/

namespace Hecuba

theorem foldlM_range_step {ε α : Type} {f : α → Nat → Except ε α} {b : Nat} {x y : α}
    (h : (List.range b).foldlM f x = .ok y) {s : Nat} (hs : s < b) : ∃ mid mid', f mid s = .ok mid' := by
  induction b generalizing y with
  | zero => cases hs
  | succ b ih =>
    rw [List.range_succ, List.foldlM_append] at h
    cases hm : (List.range b).foldlM f x with
    | error e =>
      rw [hm] at h
      cases h
    | ok mid =>
      rw [hm] at h
      by_cases hsb : s = b
      · subst hsb
        cases hlast : f mid s with
        | error e =>
          have hh : (f mid s >>= pure) = .ok y := h
          rw [hlast] at hh
          cases hh
        | ok mid' => exact ⟨mid, mid', hlast⟩
      · exact ih hm (by omega)

theorem foldlM_invariant {ε α β : Type} {f : α → β → Except ε α} {P : α → Prop} {l : List β} {x y : α}
    (h : l.foldlM f x = .ok y) (hx : P x)
    (hstep : ∀ b ∈ l, ∀ mid mid', f mid b = .ok mid' → P mid → P mid') : P y := by
  induction l generalizing x with
  | nil =>
    cases h
    exact hx
  | cons b l ih =>
    rw [List.foldlM_cons] at h
    cases hm : f x b with
    | error e =>
      rw [hm] at h
      cases h
    | ok mid =>
      rw [hm] at h
      exact ih h (hstep b List.mem_cons_self _ _ hm hx) fun c hc => hstep c (List.mem_cons_of_mem _ hc)

variable {msg : String} {e blkEnd : Nat} {src : Bytes}

theorem copyRow_spec {arr blk n : Nat} {dst dst' : Bytes}
    (h : copyRow .toBlock msg src blkEnd arr blk n dst = .ok dst') :
    arr + n ≤ src.length ∧ blk + n ≤ dst.length ∧ dst' = overwrite dst blk src arr n := by
  unfold copyRow memcpy at h
  split at h
  · cases h
  · dsimp only at h
    split at h
    · rename_i hle
      cases h
      exact ⟨hle.2, hle.1, rfl⟩
    · cases h

/-- A copy that has succeeded has read no further than the array. -/
theorem copyBox_fits {dims : List Nat} (block : List Nat) (arr blk : Nat) (dst dst' : Bytes)
    (hne : dims ≠ []) (hbox : BoxIn dims block) (hmem : e * dims.prod < 2 ^ 64)
    (hrow : block.getLastD 0 * e < 2 ^ 32)
    (hok : copyBox .toBlock msg e src blkEnd dims block arr blk dst = .ok dst') {x : List Nat}
    (hx : InGrid block x) : arr + e * rowMajor dims x + e ≤ src.length := by
  induction dims generalizing block arr blk dst dst' x with
  | nil => exact absurd rfl hne
  | cons d dims ih =>
    obtain ⟨b, block, rfl⟩ : ∃ b rest, block = b :: rest := by
      cases hbox with
      | cons => exact ⟨_, _, rfl⟩
    obtain ⟨hb, hbox⟩ := List.forall₂_cons.mp hbox
    obtain ⟨c, x, rfl⟩ : ∃ c rest, x = c :: rest := by
      cases hx with
      | cons => exact ⟨_, _, rfl⟩
    obtain ⟨hc, hx⟩ := inGrid_cons.mp hx
    cases dims with
    | nil =>
      obtain rfl : block = [] := by cases hbox; rfl
      have hle := (copyRow_spec hok).1
      rw [List.getLastD_cons, List.getLastD_nil] at hle hrow
      rw [u32_of_lt hrow] at hle
      have hbyte : e * c + e ≤ b * e := by
        rw [Nat.mul_comm b, ← Nat.mul_succ]
        exact Nat.mul_le_mul_left _ hc
      rw [rowMajor, List.prod_nil, Nat.mul_one]
      cases x with
      | nil =>
        have hzero : rowMajor [] [] = 0 := rfl
        rw [hzero, Nat.add_zero]
        omega
      | cons => cases hx
    | cons d' dims =>
      have hB : block ≠ [] := by
        rintro rfl
        cases hbox
      have hlast : (b :: block).getLastD 0 = block.getLastD 0 := by
        obtain ⟨b', rest, rfl⟩ := List.exists_cons_of_ne_nil hB
        rw [List.getLastD_cons, List.getLastD_cons, List.getLastD_cons]
      obtain ⟨hP, -⟩ := copyBox_strides hB hb hbox hmem
      obtain ⟨mid, mid', hround⟩ := foldlM_range_step hok hc
      have hh := ih block _ _ mid mid' (List.cons_ne_nil _ _) hbox (copyBox_mem_tail hb hmem)
        (by rwa [hlast] at hrow) hround hx
      rw [hP c hc] at hh
      rw [rowMajor, Nat.mul_add, Nat.mul_left_comm e c]
      omega

/-- A copy writes at the start of each row of its block, and as much of it as the bytes of
a row count modulo `2 ^ 32`. -/
theorem copyBox_frame {dims : List Nat} (block : List Nat) (arr blk : Nat) (dst dst' : Bytes)
    (hne : dims ≠ []) (hbox : BoxIn dims block) (hmem : e * dims.prod < 2 ^ 64)
    (hok : copyBox .toBlock msg e src blkEnd dims block arr blk dst = .ok dst') {a : Nat}
    (ha : a < blk ∨ u32 (block.getLastD 0 * e) ≤ (a - blk) % (e * block.getLastD 0)) :
    dst'[a]? = dst[a]? := by
  induction dims generalizing block arr blk dst dst' with
  | nil => exact absurd rfl hne
  | cons d dims ih =>
    obtain ⟨b, block, rfl⟩ : ∃ b rest, block = b :: rest := by
      cases hbox with
      | cons => exact ⟨_, _, rfl⟩
    obtain ⟨hb, hbox⟩ := List.forall₂_cons.mp hbox
    cases dims with
    | nil =>
      obtain rfl : block = [] := by cases hbox; rfl
      obtain ⟨hs, hd, rfl⟩ := copyRow_spec hok
      rw [overwrite_getElem? hd hs, if_neg]
      rintro ⟨h1, h2⟩
      rcases ha with ha | ha
      · omega
      · have hle := Nat.mod_le (a - blk) (e * [b].getLastD 0)
        omega
    | cons d' dims =>
      have hB : block ≠ [] := by
        rintro rfl
        cases hbox
      have hlast : (b :: block).getLastD 0 = block.getLastD 0 := by
        obtain ⟨b', rest, rfl⟩ := List.exists_cons_of_ne_nil hB
        rw [List.getLastD_cons, List.getLastD_cons, List.getLastD_cons]
      rw [hlast] at ha
      obtain ⟨-, hQ⟩ := copyBox_strides hB hb hbox hmem
      refine foldlM_invariant (P := fun mid => mid[a]? = dst[a]?) hok rfl fun s hs mid mid' hround hmid => ?_
      rw [← hmid]
      refine ih block _ _ mid mid' (List.cons_ne_nil _ _) hbox (copyBox_mem_tail hb hmem) hround ?_
      rw [hQ s (List.mem_range.mp hs)]
      by_cases hlt : a < blk + s * (e * block.prod)
      · exact .inl hlt
      · rcases ha with ha | ha
        · omega
        · refine .inr ?_
          obtain ⟨m, hm⟩ := getLastD_dvd_prod hB
          have hsub : a - blk = a - (blk + s * (e * block.prod)) + e * block.getLastD 0 * (s * m) := by
            have hprod : e * block.getLastD 0 * (s * m) = s * (e * block.prod) := by
              rw [hm]
              ring
            rw [hprod]
            omega
          rwa [hsub, Nat.add_mul_mod_self_left] at ha

end Hecuba
