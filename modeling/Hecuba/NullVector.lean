import Hecuba.TupleRowFactory

/-! The null vector through encode and decode. A word travels as its low byte, and comes
back with the top bit of that byte in all of its upper bits. -/

namespace Hecuba

/-- The null vector that `decode` rebuilds. -/
def recoveredNulls (words : List (BitVec 32)) (n : Nat) (junk : Nat → UInt8) : List (BitVec 32) :=
  (nullHeader words n junk).map fun b => b.toBitVec.signExtend 32

@[simp] theorem nullHeader_length (words : List (BitVec 32)) (n : Nat) (junk : Nat → UInt8) :
    (nullHeader words n junk).length = 4 * wordsFor n := by
  simp [nullHeader]

theorem decodeNulls_append (words : List (BitVec 32)) (n : Nat) (junk : Nat → UInt8)
    (rest : List Cell) :
    decodeNulls n (byteCells (nullHeader words n junk) ++ rest) = .ok (recoveredNulls words n junk) := by
  have hlen : (byteCells (nullHeader words n junk)).length = 4 * wordsFor n := by simp
  simp only [decodeNulls, loadBytes, load_zero_append hlen]
  simp only [bind, Except.bind, toBytes_byteCells]
  rfl

theorem getLsbD_signExtend_byte (word : BitVec 32) {k : Nat} (hk : k < 32) :
    ((word.setWidth 8).signExtend 32).getLsbD k = word.getLsbD (if k < 8 then k else 7) := by
  rw [BitVec.getLsbD_signExtend]
  split
  · rename_i h8
    simp [hk, h8]
  · simp [hk, BitVec.msb_eq_getLsbD_last]

theorem div_lt_wordsFor {i n : Nat} (h : i < n) : i / 32 < wordsFor n := by
  unfold wordsFor
  omega

/-- Bits 8 and above of a word come back as bit 7. -/
theorem nullAt_recovered {words : List (BitVec 32)} {n i : Nat} (hw : words.length = wordsFor n)
    (junk : Nat → UInt8) (hi : i < n) :
    nullAt (recoveredNulls words n junk) i =
      nullAt words (if i % 32 < 8 then i else 32 * (i / 32) + 7) := by
  have hword := div_lt_wordsFor hi
  have hlt : i / 32 < words.length := by omega
  have hget : (recoveredNulls words n junk).getD (i / 32) 0 =
      ((words[i / 32].setWidth 8).signExtend 32) := by
    rw [List.getD_eq_getElem _ _ (by simp [recoveredNulls]; omega)]
    simp [recoveredNulls, nullHeader, List.getElem?_eq_getElem hlt]
  rw [nullAt, hget, getLsbD_signExtend_byte _ (Nat.mod_lt _ (by decide)), nullAt]
  split
  · rw [List.getD_eq_getElem _ _ hlt]
  · rw [show (32 * (i / 32) + 7) / 32 = i / 32 by omega,
      show (32 * (i / 32) + 7) % 32 = 7 by omega, List.getD_eq_getElem _ _ hlt]

theorem nullAt_modify {words : List (BitVec 32)} {i j : Nat} (hj : j / 32 < words.length) :
    nullAt (words.modify (i / 32) (· ||| 1#32 <<< (i % 32))) j = (nullAt words j || decide (i = j)) := by
  have hbit : (1#32 <<< (i % 32)).getLsbD (j % 32) = decide (i % 32 = j % 32) := by
    have hlt : j % 32 < 32 := Nat.mod_lt _ (by decide)
    rw [BitVec.getLsbD_shiftLeft, BitVec.getLsbD_one]
    by_cases h : i % 32 = j % 32
    · simp [h, hlt]
    · simp only [hlt, h, decide_true, Bool.true_and, decide_false, Bool.and_eq_false_iff]
      by_cases h' : j % 32 < i % 32
      · simp [h']
      · simp
        omega
  simp only [nullAt, List.getD_eq_getElem?_getD, List.getElem?_modify, List.getElem?_eq_getElem hj,
    Option.map_eq_map, Option.map_some, Option.getD_some]
  by_cases h : i / 32 = j / 32
  · rw [if_pos h, BitVec.getLsbD_or, hbit]
    congr 2
    exact propext ⟨fun hm => by omega, fun he => by rw [he]⟩
  · rw [if_neg h]
    have hne : i ≠ j := fun he => h (by rw [he])
    simp [hne]

theorem isNull_eq_nullAt {row : TupleRowData} (h : 0 < row.nullValues.length) (j : Nat) :
    row.isNull j = nullAt row.nullValues j := by
  cases hw : row.nullValues with
  | nil =>
    rw [hw] at h
    exact absurd h (Nat.lt_irrefl 0)
  | cons => simp [TupleRowData.isNull, hw]

theorem setNull_eq {row : TupleRowData} (h : 0 < row.nullValues.length) (i : Nat) :
    row.setNull i =
      { row with nullValues := row.nullValues.modify (i / 32) (· ||| 1#32 <<< (i % 32)) } := by
  cases hw : row.nullValues with
  | nil =>
    rw [hw] at h
    exact absurd h (Nat.lt_irrefl 0)
  | cons => simp [TupleRowData.setNull, hw]

theorem setNull_shape (row : TupleRowData) (i : Nat) :
    (row.setNull i).nullValues.length = row.nullValues.length ∧
      (row.setNull i).metadatas = row.metadatas := by
  unfold TupleRowData.setNull
  split
  · exact ⟨rfl, rfl⟩
  · exact ⟨List.length_modify .., rfl⟩

theorem foldl_setNull_shape (l : List Nat) (row : TupleRowData) :
    (l.foldl TupleRowData.setNull row).nullValues.length = row.nullValues.length ∧
      (l.foldl TupleRowData.setNull row).metadatas = row.metadatas := by
  induction l generalizing row with
  | nil => exact ⟨rfl, rfl⟩
  | cons i l ih =>
    obtain ⟨hl, hm⟩ := ih (row.setNull i)
    exact ⟨hl.trans (setNull_shape row i).1, hm.trans (setNull_shape row i).2⟩

theorem isNull_foldl_setNull {l : List Nat} {row : TupleRowData} {j : Nat}
    (hj : j / 32 < row.nullValues.length) :
    (l.foldl TupleRowData.setNull row).isNull j = (row.isNull j || decide (j ∈ l)) := by
  induction l generalizing row with
  | nil => simp
  | cons i l ih =>
    have hpos : 0 < row.nullValues.length := Nat.lt_of_le_of_lt (Nat.zero_le _) hj
    have hlen := (setNull_shape row i).1
    have hone : (row.setNull i).isNull j = (row.isNull j || decide (i = j)) := by
      rw [isNull_eq_nullAt (by rw [hlen]; exact hpos), isNull_eq_nullAt hpos, setNull_eq hpos i]
      exact nullAt_modify hj
    rw [List.foldl_cons, ih (by rw [hlen]; exact hj), hone, Bool.or_assoc]
    congr 1
    simp [List.mem_cons, eq_comm]

theorem isNull_makeTuple {metadata : List ColumnMeta} (data : List Cell) {i : Nat} (hi : i < metadata.length) :
    (makeTuple metadata data).isNull i = false := by
  have hword : i / 32 < (makeTuple metadata data).nullValues.length := by
    rw [makeTuple, List.length_replicate]
    exact div_lt_wordsFor hi
  rw [isNull_eq_nullAt (Nat.lt_of_le_of_lt (Nat.zero_le _) hword), nullAt, List.getD_eq_getElem _ _ hword]
  simp [makeTuple]

/-- A row of a table with the columns of a set made null. -/
def nullRow (s : Schema) (data : List Cell) (nulls : Nat → Bool) : TupleRowData :=
  ((List.range s.columns.length).filter nulls).foldl TupleRowData.setNull (makeTuple s.columns data)

section

variable (s : Schema) (data : List Cell) (nulls : Nat → Bool)

theorem nullRow_words : (nullRow s data nulls).nullValues.length = wordsFor s.columns.length :=
  (foldl_setNull_shape _ _).1.trans List.length_replicate

theorem nullRow_nElem : (nullRow s data nulls).nElem = s.columns.length := by
  rw [TupleRowData.nElem, nullRow, (foldl_setNull_shape _ _).2]
  exact Nat.mod_eq_of_lt s.bounded

theorem isNull_nullRow {i : Nat} (hi : i < s.columns.length) :
    (nullRow s data nulls).isNull i = nulls i := by
  have hword : i / 32 < (makeTuple s.columns data).nullValues.length := by
    rw [makeTuple, List.length_replicate]
    exact div_lt_wordsFor hi
  rw [nullRow, isNull_foldl_setNull hword, isNull_makeTuple data hi, Bool.false_or]
  simp [hi]

theorem nullAt_recovered_nullRow (junk : Nat → UInt8) {i : Nat} (hi : i < s.columns.length) :
    nullAt (recoveredNulls (nullRow s data nulls).nullValues s.columns.length junk) i =
      nulls (if i % 32 < 8 then i else 32 * (i / 32) + 7) := by
  have hle : (if i % 32 < 8 then i else 32 * (i / 32) + 7) < s.columns.length := by
    split <;> omega
  have hpos : 0 < (nullRow s data nulls).nullValues.length := by
    rw [nullRow_words]
    exact Nat.lt_of_le_of_lt (Nat.zero_le _) (div_lt_wordsFor hi)
  rw [nullAt_recovered (nullRow_words s data nulls) junk hi, ← isNull_eq_nullAt hpos,
    isNull_nullRow s data nulls hle]

theorem decodeNulls_nullRow (junk : Nat → UInt8) (rest : List Cell) :
    decodeNulls (u16 s.columns.length) (byteCells (nullHeader (nullRow s data nulls).nullValues
        (nullRow s data nulls).nElem junk) ++ rest) =
      .ok (recoveredNulls (nullRow s data nulls).nullValues s.columns.length junk) := by
  rw [nullRow_nElem, show u16 s.columns.length = s.columns.length from Nat.mod_eq_of_lt s.bounded]
  exact decodeNulls_append _ _ junk rest

/-- The null vector survives exactly when every column whose bit is one of the upper 24 of
its word is null together with the column of bit 7. -/
theorem null_vector_kept_iff (junk : Nat → UInt8) (rest : List Cell) :
    (∃ words, decodeNulls (u16 s.columns.length) (byteCells (nullHeader
        (nullRow s data nulls).nullValues (nullRow s data nulls).nElem junk) ++ rest) = .ok words ∧
      ∀ i < s.columns.length, nullAt words i = (nullRow s data nulls).isNull i) ↔
      ∀ i < s.columns.length, 8 ≤ i % 32 → nulls i = nulls (32 * (i / 32) + 7) := by
  rw [decodeNulls_nullRow]
  constructor
  · rintro ⟨words, hw, hall⟩ i hi h8
    cases hw
    have hh := hall i hi
    rw [nullAt_recovered_nullRow s data nulls junk hi, if_neg (by omega),
      isNull_nullRow s data nulls hi] at hh
    exact hh.symm
  · intro h
    refine ⟨_, rfl, fun i hi => ?_⟩
    rw [nullAt_recovered_nullRow s data nulls junk hi, isNull_nullRow s data nulls hi]
    split
    · rfl
    · exact (h i hi (by omega)).symm

end

def nineFlags : Schema where
  columns := (List.range 9).map fun i => ⟨i, 1, .boolean, []⟩
  laidOut := by simp [List.range, List.range.loop, LaidOut, computeSizeOf, u16]
  bounded := by decide

/-- A null in the ninth column alone is lost. -/
theorem ninth_null_lost :
    ¬ ∀ (s : Schema) (data : List Cell) (nulls : Nat → Bool) (junk : Nat → UInt8) (rest : List Cell),
      ∃ words, decodeNulls (u16 s.columns.length) (byteCells (nullHeader
          (nullRow s data nulls).nullValues (nullRow s data nulls).nElem junk) ++ rest) = .ok words ∧
        ∀ i < s.columns.length, nullAt words i = (nullRow s data nulls).isNull i := by
  intro h
  obtain ⟨words, hw, hall⟩ := h nineFlags [] (fun i => i == 8) (fun _ => 0) []
  have hlt : 8 < nineFlags.columns.length := by decide
  rw [decodeNulls_nullRow] at hw
  cases hw
  have hh := hall 8 hlt
  rw [nullAt_recovered_nullRow _ _ _ _ hlt, isNull_nullRow _ _ _ hlt] at hh
  exact absurd hh (by decide)

end Hecuba
