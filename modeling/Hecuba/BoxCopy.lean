import Hecuba.ZorderCurve
import Mathlib.Algebra.BigOperators.Group.List.Lemmas

/-! What the recursive box copy moves: cell `x` of the block, byte by byte,
between row-major position `x` of the block and of the box inside the array. -/

namespace Hecuba

/-- The side a box copy writes, and the side it reads. -/
def Direction.dst (dir : Direction) (arr blk : Nat) : Nat :=
  match dir with
  | .toBlock => blk
  | .toArray => arr

def Direction.src (dir : Direction) (arr blk : Nat) : Nat :=
  match dir with
  | .toBlock => arr
  | .toArray => blk

theorem Direction.dst_add (dir : Direction) (a b n : Nat) :
    dir.dst (a + n) (b + n) = dir.dst a b + n := by cases dir <;> rfl

theorem Direction.src_add (dir : Direction) (a b n : Nat) :
    dir.src (a + n) (b + n) = dir.src a b + n := by cases dir <;> rfl

theorem copyRow_transferred (dir : Direction) (msg : String) {src dst : Bytes} {blkEnd arr blk n : Nat}
    (hend : blk + n ≤ blkEnd) (hd : dir.dst arr blk + n ≤ dst.length)
    (hs : dir.src arr blk + n ≤ src.length) :
    ∃ dst', copyRow dir msg src blkEnd arr blk n dst = .ok dst' ∧
      Transferred src dst dst' (· < n) (dir.dst arr blk + ·) (dir.src arr blk + ·) := by
  refine ⟨overwrite dst (dir.dst arr blk) src (dir.src arr blk) n, ?_, overwrite_transferred hd hs⟩
  cases dir with
  | toBlock =>
    have hb : blk + n ≤ dst.length ∧ arr + n ≤ src.length := ⟨hd, hs⟩
    simp only [copyRow, show ¬ blk + n > blkEnd by omega, if_false, memcpy, hb, and_self, if_true]
    rfl
  | toArray =>
    have hb : arr + n ≤ dst.length ∧ blk + n ≤ src.length := ⟨hd, hs⟩
    simp only [copyRow, show ¬ blk + n > blkEnd by omega, if_false, memcpy, hb, and_self, if_true]
    rfl

def BoxIn (dims block : List Nat) : Prop := List.Forall₂ (fun b d => 0 < b ∧ b ≤ d) block dims

theorem BoxIn.inGrid {dims block x : List Nat} (h : BoxIn dims block) (hx : InGrid block x) :
    InGrid dims x := by
  induction h generalizing x with
  | nil => exact hx
  | cons hb _ ih =>
    cases hx with
    | cons hc hx => exact inGrid_cons.mpr ⟨by omega, ih hx⟩

theorem BoxIn.prod_le {dims block : List Nat} (h : BoxIn dims block) : block.prod ≤ dims.prod := by
  induction h with
  | nil => exact le_refl _
  | cons hb _ ih => rw [List.prod_cons, List.prod_cons]; exact Nat.mul_le_mul hb.2 ih

theorem BoxIn.prod_pos {dims block : List Nat} (h : BoxIn dims block) : 0 < block.prod := by
  induction h with
  | nil => simp
  | cons hb _ ih => rw [List.prod_cons]; exact Nat.mul_pos hb.1 ih

theorem getLastD_dvd_prod {block : List Nat} (hne : block ≠ []) : block.getLastD 0 ∣ block.prod := by
  obtain ⟨b, rest, rfl⟩ := List.exists_cons_of_ne_nil hne
  rw [List.getLastD_cons]
  exact List.dvd_prod List.getLastD_mem_cons

theorem stride_injective {s s' P u u' : Nat} (hu : u < P) (hu' : u' < P)
    (h : s * P + u = s' * P + u') : s = s' := by
  have hP : 0 < P := by omega
  have h1 : (s * P + u) / P = s := by
    rw [Nat.add_comm, Nat.add_mul_div_right _ _ hP, Nat.div_eq_of_lt hu, Nat.zero_add]
  have h2 : (s' * P + u') / P = s' := by
    rw [Nat.add_comm, Nat.add_mul_div_right _ _ hP, Nat.div_eq_of_lt hu', Nat.zero_add]
  rw [← h1, h, h2]

theorem byte_lt {e m x t : Nat} (hx : x < m) (ht : t < e) : e * x + t < e * m := by
  calc e * x + t < e * x + e := by omega
    _ = e * (x + 1) := by ring
    _ ≤ e * m := Nat.mul_le_mul_left _ hx

theorem cell_byte_le {e : Nat} {shape x : List Nat} (hx : InGrid shape x) :
    e * rowMajor shape x + e ≤ e * shape.prod := by
  calc e * rowMajor shape x + e = e * (rowMajor shape x + 1) := by ring
    _ ≤ e * shape.prod := Nat.mul_le_mul_left _ (rowMajor_lt hx)

section copyBox

variable (dir : Direction) (msg : String) {e blkEnd : Nat} {src : Bytes}

theorem copyBox_last (b d arr blk : Nat) (dst : Bytes) (he : 0 < e) (hrow : b * e < 2 ^ 32)
    (hend : blk + e * b ≤ blkEnd) (hd : dir.dst arr blk + e * b ≤ dst.length)
    (hs : dir.src arr blk + e * b ≤ src.length) :
    ∃ dst', copyBox dir msg e src blkEnd [d] [b] arr blk dst = .ok dst' ∧
      Transferred src dst dst' (fun k : List Nat × Nat => InGrid [b] k.1 ∧ k.2 < e)
        (fun k => dir.dst (arr + (e * rowMajor [d] k.1 + k.2)) (blk + (e * rowMajor [b] k.1 + k.2)))
        (fun k => dir.src (arr + (e * rowMajor [d] k.1 + k.2)) (blk + (e * rowMajor [b] k.1 + k.2))) := by
  have hn : u32 (b * e) = e * b := by rw [u32_of_lt hrow, Nat.mul_comm]
  obtain ⟨dst', hok, ht⟩ := copyRow_transferred dir msg hend hd hs
  refine ⟨dst', by simpa only [copyBox, List.getLastD_cons, List.getLastD_nil, hn] using hok, ?_⟩
  apply ht.reindex (fun k => e * rowMajor [b] k.1 + k.2)
  · rintro ⟨x, t⟩ ⟨hx, hlt⟩
    have hr : rowMajor [d] x = rowMajor [b] x := by cases x <;> rfl
    have hb : rowMajor [b] x < b := by simpa using rowMajor_lt hx
    refine ⟨byte_lt hb hlt, ?_, ?_⟩
    · rw [hr, Direction.dst_add]
    · rw [hr, Direction.src_add]
  · intro i hi
    refine ⟨([i / e], i % e), ⟨?_, Nat.mod_lt _ he⟩, ?_⟩
    · exact inGrid_cons.mpr ⟨Nat.div_lt_of_lt_mul hi, List.Forall₂.nil⟩
    · simp only [rowMajor, List.prod_nil, Nat.mul_one, Nat.add_zero]
      exact Nat.div_add_mod i e

theorem copyBox_mem_tail {b d : Nat} {dims : List Nat} (hb : 0 < b ∧ b ≤ d)
    (hmem : e * (d :: dims).prod < 2 ^ 64) : e * dims.prod < 2 ^ 64 := by
  rw [List.prod_cons] at hmem
  refine lt_of_le_of_lt (Nat.mul_le_mul_left _ ?_) hmem
  exact Nat.le_mul_of_pos_left _ (by omega)

/-- The strides of the source are the byte sizes of one slice of the array and
of the block, free of overflow while the array fits in memory. -/
theorem copyBox_strides {b d : Nat} {dims block : List Nat} (hB : block ≠ [])
    (hb : 0 < b ∧ b ≤ d) (hbox : BoxIn dims block) (hmem : e * (d :: dims).prod < 2 ^ 64) :
    (∀ s < b, u64 (s * dims.foldl (fun acc d => u64 (acc * d)) e) = s * (e * dims.prod)) ∧
    (∀ s < b, u64 (s * u64 (block.foldl (fun acc d => u64 (acc * d)) e / block.getLastD 0 *
      block.getLastD 0)) = s * (e * block.prod)) := by
  have htail := copyBox_mem_tail hb hmem
  have hle : e * block.prod ≤ e * dims.prod := Nat.mul_le_mul_left _ hbox.prod_le
  have hpos : e ≤ e * block.prod := Nat.le_mul_of_pos_right _ hbox.prod_pos
  have hP : dims.foldl (fun acc d => u64 (acc * d)) e = e * dims.prod := by
    rw [foldl_mul_u64 _ (by omega), u64_of_lt htail]
  have hQ : block.foldl (fun acc d => u64 (acc * d)) e = e * block.prod := by
    rw [foldl_mul_u64 _ (by omega), u64_of_lt (by omega)]
  have hdiv : e * block.prod / block.getLastD 0 * block.getLastD 0 = e * block.prod :=
    Nat.div_mul_cancel (Dvd.dvd.mul_left (getLastD_dvd_prod hB) e)
  have hslice : ∀ s < b, s * (e * dims.prod) < 2 ^ 64 := by
    intro s hs
    calc s * (e * dims.prod) ≤ d * (e * dims.prod) := Nat.mul_le_mul_right _ (by omega)
      _ = e * (d :: dims).prod := by rw [List.prod_cons]; ring
      _ < 2 ^ 64 := hmem
  constructor
  · intro s hs
    rw [hP, u64_of_lt (hslice s hs)]
  · intro s hs
    have hs' : s * (e * block.prod) ≤ s * (e * dims.prod) := Nat.mul_le_mul_left _ hle
    rw [hQ, hdiv, u64_of_lt (show e * block.prod < 2 ^ 64 by omega), u64_of_lt (by have := hslice s hs; omega)]

theorem round_le_end {b s blk : Nat} {block : List Nat} (hs : s < b)
    (hend : blk + e * (b :: block).prod ≤ blkEnd) :
    blk + s * (e * block.prod) + e * block.prod ≤ blkEnd := by
  have h1 : (s + 1) * (e * block.prod) ≤ b * (e * block.prod) := Nat.mul_le_mul_right _ hs
  have h2 : b * (e * block.prod) = e * (b :: block).prod := by rw [List.prod_cons]; ring
  have h3 : (s + 1) * (e * block.prod) = s * (e * block.prod) + e * block.prod := by ring
  omega

theorem rounds_apart {dims block : List Nat} (hbox : BoxIn dims block) {k k' : List Nat × Nat}
    (hk : InGrid block k.1 ∧ k.2 < e) (hk' : InGrid block k'.1 ∧ k'.2 < e) {arr blk s s' : Nat}
    (h : dir.dst (arr + s * (e * dims.prod) + (e * rowMajor dims k.1 + k.2))
        (blk + s * (e * block.prod) + (e * rowMajor block k.1 + k.2)) =
      dir.dst (arr + s' * (e * dims.prod) + (e * rowMajor dims k'.1 + k'.2))
        (blk + s' * (e * block.prod) + (e * rowMajor block k'.1 + k'.2))) : s = s' := by
  have h1 := byte_lt (rowMajor_lt (BoxIn.inGrid hbox hk.1)) hk.2
  have h2 := byte_lt (rowMajor_lt (BoxIn.inGrid hbox hk'.1)) hk'.2
  have h3 := byte_lt (rowMajor_lt hk.1) hk.2
  have h4 := byte_lt (rowMajor_lt hk'.1) hk'.2
  cases dir with
  | toBlock =>
    simp only [Direction.dst, Nat.add_assoc] at h
    exact stride_injective h3 h4 (Nat.add_left_cancel h)
  | toArray =>
    simp only [Direction.dst, Nat.add_assoc] at h
    exact stride_injective h1 h2 (Nat.add_left_cancel h)

theorem copyBox_transferred (he : 0 < e) {dims : List Nat} (block : List Nat) (arr blk : Nat) (dst : Bytes)
    (hne : dims ≠ []) (hbox : BoxIn dims block) (hmem : e * dims.prod < 2 ^ 64)
    (hrow : block.getLastD 0 * e < 2 ^ 32) (hend : blk + e * block.prod ≤ blkEnd)
    (hfit : ∀ x, InGrid block x →
      dir.dst (arr + e * rowMajor dims x) (blk + e * rowMajor block x) + e ≤ dst.length ∧
      dir.src (arr + e * rowMajor dims x) (blk + e * rowMajor block x) + e ≤ src.length) :
    ∃ dst', copyBox dir msg e src blkEnd dims block arr blk dst = .ok dst' ∧
      Transferred src dst dst' (fun k : List Nat × Nat => InGrid block k.1 ∧ k.2 < e)
        (fun k => dir.dst (arr + (e * rowMajor dims k.1 + k.2)) (blk + (e * rowMajor block k.1 + k.2)))
        (fun k => dir.src (arr + (e * rowMajor dims k.1 + k.2)) (blk + (e * rowMajor block k.1 + k.2))) := by
  induction dims generalizing block arr blk dst with
  | nil => exact absurd rfl hne
  | cons d dims ih =>
    obtain ⟨b, block, rfl⟩ : ∃ b rest, block = b :: rest := by
      cases hbox with
      | cons => exact ⟨_, _, rfl⟩
    obtain ⟨hb, hbox⟩ := List.forall₂_cons.mp hbox
    cases dims with
    | nil =>
      obtain rfl : block = [] := by cases hbox; rfl
      have hlast := hfit [b - 1] (inGrid_cons.mpr ⟨by omega, List.Forall₂.nil⟩)
      have hoff : e * (b - 1) + e = e * b := by
        rw [← Nat.mul_succ]; congr 1; omega
      simp only [rowMajor, List.prod_nil, Nat.mul_one, Nat.add_zero, Direction.dst_add,
        Direction.src_add] at hlast
      exact copyBox_last dir msg b d arr blk dst he (by simpa using hrow) (by simpa using hend) (by omega) (by omega)
    | cons d' dims =>
      have hB : block ≠ [] := by
        rintro rfl
        cases hbox
      have hlast : (b :: block).getLastD 0 = block.getLastD 0 := by
        obtain ⟨b', rest, rfl⟩ := List.exists_cons_of_ne_nil hB
        rw [List.getLastD_cons, List.getLastD_cons, List.getLastD_cons]
      obtain ⟨hP, hQ⟩ := copyBox_strides hB hb hbox hmem
      have hround : ∀ s < b, ∀ mid : Bytes, mid.length = dst.length →
          ∃ dst', copyBox dir msg e src blkEnd (d' :: dims) block
              (arr + u64 (s * (d' :: dims).foldl (fun acc d => u64 (acc * d)) e))
              (blk + u64 (s * u64 (block.foldl (fun acc d => u64 (acc * d)) e / block.getLastD 0 *
                block.getLastD 0))) mid = .ok dst' ∧
            Transferred src mid dst' (fun k : List Nat × Nat => InGrid block k.1 ∧ k.2 < e)
              (fun k => dir.dst (arr + s * (e * (d' :: dims).prod) + (e * rowMajor (d' :: dims) k.1 + k.2))
                (blk + s * (e * block.prod) + (e * rowMajor block k.1 + k.2)))
              (fun k => dir.src (arr + s * (e * (d' :: dims).prod) + (e * rowMajor (d' :: dims) k.1 + k.2))
                (blk + s * (e * block.prod) + (e * rowMajor block k.1 + k.2))) := by
        intro s hs mid hmid
        rw [(hP s hs), (hQ s hs)]
        apply ih block _ _ mid (List.cons_ne_nil _ _) hbox (copyBox_mem_tail hb hmem)
          (by rwa [hlast] at hrow) (round_le_end hs hend)
        intro x hx
        have hf := hfit (s :: x) (inGrid_cons.mpr ⟨hs, hx⟩)
        rw [hmid]
        simpa only [rowMajor, Nat.mul_add, Nat.add_assoc, Nat.mul_left_comm e s] using hf
      obtain ⟨dst', hok, ht⟩ := Transferred.loop dst.length b hround
        (fun s _ s' _ k k' hk hk' => rounds_apart dir hbox hk hk') dst rfl
      refine ⟨dst', hok, ht.reindex (fun k => (k.1.headD 0, (k.1.tail, k.2))) ?_ ?_⟩
      · rintro ⟨x, t⟩ ⟨hx, hlt⟩
        obtain ⟨c, x, rfl⟩ : ∃ c rest, x = c :: rest := by
          cases hx with
          | cons => exact ⟨_, _, rfl⟩
        obtain ⟨hc, hx⟩ := inGrid_cons.mp hx
        refine ⟨⟨hc, hx, hlt⟩, ?_, ?_⟩ <;>
          simp only [rowMajor, List.headD_cons, List.tail_cons, Nat.mul_add, Nat.add_assoc,
            Nat.mul_left_comm e c]
      · rintro ⟨s, x, t⟩ ⟨hs, hx, hlt⟩
        exact ⟨(s :: x, t), ⟨inGrid_cons.mpr ⟨hs, hx⟩, hlt⟩, rfl⟩

end copyBox

end Hecuba
