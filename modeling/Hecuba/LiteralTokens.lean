import Hecuba.LambdaReading

/-! The tokens of the literals of a filter. -/

namespace Hecuba

namespace LambdaFilter

variable {F : Type} {py : FilterPython F}

/-- What the text of a number is made of, its signs aside. -/
def IsDotted (py : FilterPython F) (s : Str) : Prop := ∀ c ∈ s, py.isWord c = true ∨ c = '.'

/-- A text that goes on with no word: it ends, or a symbol comes next. -/
def Stops (py : FilterPython F) (t : Str) : Prop :=
  ∀ c ∈ t.head?, py.isWord c = false ∧ isDecimal py c = false ∧ c ≠ '.' ∧ c ≠ '"' ∧ c ≠ '\''

/-- A text that no word before it goes on with; it may start with a quote that closes nothing. -/
structure EndsWord (py : FilterPython F) (t : Str) : Prop where
  head : ∀ c ∈ t.head?, (py.isWord c = false ∧ isDecimal py c = false) ∧ c ≠ '.'
  roundLength_eq : roundLength py t = 0

/-- It is at a point that a round of digits or of words ends. -/
def PointNext (s : Str) : Prop := ∀ c ∈ s.head?, c = '.'

section rounds

variable {s t : Str} {c : Char}

theorem findallFrom_eq_drop (skip : Nat) (s : Str) : findallFrom py skip s = findall py (s.drop skip) := by
  induction s generalizing skip with
  | nil => cases skip <;> simp [findall, findallFrom]
  | cons c rest ih =>
    cases skip with
    | zero => rfl
    | succ skip => simpa [findallFrom] using ih skip

theorem findall_cons {n : Nat} (h : matchLength py (c :: s) = n + 1) :
    findall py (c :: s) = (c :: s.take n) :: findall py (s.drop n) := by
  rw [findall, findallFrom, h, ← findallFrom_eq_drop]

theorem takeWhile_append_stops {p : Char → Bool} (ht : ∀ c ∈ t.head?, p c = false) :
    (s ++ t).takeWhile p = s.takeWhile p := by
  induction s with
  | nil =>
    cases t with
    | nil => rfl
    | cons c t => simp [ht c rfl]
  | cons c s ih =>
    by_cases hc : p c = true
    · simp [hc, ih]
    · simp [hc]

/-- A round that starts with a word stays in the text, and does not end with a point. -/
theorem roundLength_word (ht : EndsWord py t) (hc : py.isWord c = true) :
    ∃ k, roundLength py (c :: s ++ t) = k + 1 ∧ k ≤ s.length ∧ (c :: s.take k).getLast? ≠ some '.' := by
  have hpoint : c ≠ '.' := fun h => by simp [h, (isWord_symbols py).1] at hc
  have hstop : ∀ d ∈ t.head?, isDecimal py d = false := fun d hd => (ht.head d hd).1.2
  have hdigit {l : Str} (hl : l ≠ []) (hall : ∀ d ∈ l, isDecimal py d = true) : l.getLast? ≠ some '.' := fun h => by
    have hdecimal : isDecimal py '.' = false := rfl
    exact absurd (hall _ (List.mem_of_getLast? h)) (by simp [hdecimal])
  by_cases hdecimal : isDecimal py c = true
  · obtain ⟨digits, hdigits⟩ : ∃ digits, s.takeWhile (isDecimal py) = digits := ⟨_, rfl⟩
    obtain ⟨after, hs⟩ : ∃ after, s = digits ++ after := ⟨_, hdigits ▸ (List.takeWhile_append_dropWhile).symm⟩
    have hall : ∀ d ∈ c :: digits, isDecimal py d = true := by
      simpa [hdecimal, ← hdigits] using fun d => List.mem_takeWhile_imp
    have htake : ((c :: s ++ t).takeWhile (isDecimal py)).length = digits.length + 1 := by
      rw [takeWhile_append_stops hstop]
      simp [hdecimal, hdigits]
    have hdrop : (c :: s ++ t).drop (digits.length + 1) = after ++ t := by simp [hs]
    have hwhole : ∃ k, digits.length + 1 = k + 1 ∧ k ≤ s.length ∧ (c :: s.take k).getLast? ≠ some '.' :=
      ⟨digits.length, rfl, by simp [hs], by simpa [hs] using hdigit (List.cons_ne_nil c digits) hall⟩
    simp only [roundLength, List.cons_append, hdecimal, if_true] at htake hdrop ⊢
    rw [htake, hdrop]
    split
    · rename_i hpart
      obtain ⟨hnext, hlen⟩ := hpart
      cases after with
      | nil => exact absurd rfl (ht.head '.' (by simpa using hnext)).2
      | cons d after =>
        obtain rfl : d = '.' := by simpa using hnext
        have hrest : (c :: (s ++ t)).drop (digits.length + 1 + 1) = after ++ t := by simp [hs]
        rw [hrest, takeWhile_append_stops hstop] at hlen ⊢
        obtain ⟨fraction, hf⟩ : ∃ fraction, after.takeWhile (isDecimal py) = fraction := ⟨_, rfl⟩
        have hfraction : ∀ d ∈ fraction, isDecimal py d = true := fun d hd => List.mem_takeWhile_imp (by rwa [hf])
        obtain ⟨rest, rfl⟩ : ∃ rest, after = fraction ++ rest := ⟨_, hf ▸ (List.takeWhile_append_dropWhile).symm⟩
        rw [hf] at hlen ⊢
        have hne : fraction ≠ [] := fun h => hlen (by simp [h])
        have hpart : s = (digits ++ '.' :: fraction) ++ rest := by simp [hs]
        have hlength : (digits ++ '.' :: fraction).length = digits.length + 1 + fraction.length := by
          simp only [List.length_append, List.length_cons]
          omega
        refine ⟨digits.length + 1 + fraction.length, by omega, ?_, ?_⟩
        · rw [hpart, List.length_append, hlength]
          omega
        · have hsplit : c :: (digits ++ '.' :: fraction) = (c :: digits ++ ['.']) ++ fraction := by simp
          rw [hpart, List.take_left' hlength, hsplit, List.getLast?_append_of_ne_nil _ hne]
          exact hdigit hne hfraction
    · exact hwhole
  · refine ⟨0, ?_, by simp, by simpa using hpoint⟩
    simp [roundLength, hdecimal, hc]

theorem roundLength_point (s : Str) : roundLength py ('.' :: s) = 0 := by
  have hdecimal : isDecimal py '.' = false := rfl
  simp [roundLength, hdecimal, (isWord_symbols py).1]

theorem roundLength_stops (ht : Stops py t) : roundLength py t = 0 := by
  cases t with
  | nil => rfl
  | cons c t =>
    obtain ⟨hword, hdecimal, -, hdouble, hsingle⟩ := ht c rfl
    simp [roundLength, hword, hdecimal, hdouble, hsingle]

theorem Stops.endsWord (ht : Stops py t) : EndsWord py t where
  head c hc := ⟨⟨(ht c hc).1, (ht c hc).2.1⟩, (ht c hc).2.2.1⟩
  roundLength_eq := roundLength_stops ht

theorem wordLength_zero_stops (ht : EndsWord py t) : wordLength py 0 t = 0 := by
  cases t with
  | nil => rfl
  | cons c t => simp [wordLength, ht.roundLength_eq]

/-- A match in a text of words and points ends at a point or with the text. -/
theorem wordLength_dotted (hs : IsDotted py s) (ht : EndsWord py t) (skip : Nat) (hskip : skip ≤ s.length)
    (hlast : (s.take skip).getLast? ≠ some '.') :
    ∃ n, wordLength py skip (s ++ t) = n ∧ skip ≤ n ∧ n ≤ s.length ∧ (s.take n).getLast? ≠ some '.' ∧
      PointNext (s.drop n) := by
  induction s generalizing skip with
  | nil =>
    obtain rfl : skip = 0 := by simpa using hskip
    exact ⟨0, by simpa using wordLength_zero_stops ht, by simp, by simp, by simp, by simp [PointNext]⟩
  | cons c s ih =>
    have hs' : IsDotted py s := fun d hd => hs d (by simp [hd])
    have hstep {skip : Nat} (hskip : skip ≤ s.length) (hlast : (c :: s.take skip).getLast? ≠ some '.') :
        ∃ n, wordLength py skip (s ++ t) + 1 = n ∧ skip + 1 ≤ n ∧ n ≤ (c :: s).length ∧
          ((c :: s).take n).getLast? ≠ some '.' ∧ PointNext ((c :: s).drop n) := by
      have hlast' : (s.take skip).getLast? ≠ some '.' := fun h => hlast (by simp [List.getLast?_cons, h])
      obtain ⟨n, hn, hle, hlen, hend, hnext⟩ := ih hs' skip hskip hlast'
      refine ⟨n + 1, by rw [hn], by omega, by simpa using hlen, ?_, by simpa using hnext⟩
      intro h
      rw [List.take_succ_cons, List.getLast?_cons] at h
      cases hm : (s.take n).getLast? with
      | none =>
        have hnil := List.getLast?_eq_none_iff.mp hm
        have hskipnil : s.take skip = [] := by
          rw [← min_eq_left hle, ← List.take_take, hnil, List.take_nil]
        exact hlast (by simpa [hskipnil, hm] using h)
      | some d => exact hend (by simpa [hm] using h)
    cases skip with
    | succ skip =>
      have hle : skip ≤ s.length := by simpa using hskip
      exact hstep hle (by simpa using hlast)
    | zero =>
      rcases hs c (by simp) with hc | rfl
      · obtain ⟨k, hk, hle, hend⟩ := roundLength_word (s := s) ht hc
        obtain ⟨n, hn, -, h⟩ := hstep hle hend
        refine ⟨n, ?_, by simp, h⟩
        rw [← hn]
        simp only [List.cons_append] at hk
        simp only [List.cons_append, wordLength, hk]
      · exact ⟨0, by simp [wordLength, roundLength_point], by simp, by simp, by simp, by simp [PointNext]⟩

/-- The first token of a text of words and points that starts with a word. -/
theorem findall_word (hs : IsDotted py (c :: s)) (hc : py.isWord c = true) (ht : EndsWord py t) :
    ∃ token rest, c :: s = token ++ rest ∧ token ≠ [] ∧ token.getLast? ≠ some '.' ∧ PointNext rest ∧
      findall py (c :: s ++ t) = token :: findall py (rest ++ t) := by
  obtain ⟨n, hn, -, hlen, hend, hnext⟩ := wordLength_dotted hs ht 0 (by simp) (by simp)
  cases n with
  | zero =>
    obtain rfl : c = '.' := hnext c (by simp)
    exact absurd hc (by simp [(isWord_symbols py).1])
  | succ n =>
    have hmatch : matchLength py (c :: (s ++ t)) = n + 1 := by
      rw [List.cons_append] at hn
      simp [matchLength, hn]
    have hle : n ≤ s.length := by simpa using hlen
    refine ⟨c :: s.take n, s.drop n, by simp, by simp, by simpa using hend, by simpa using hnext, ?_⟩
    rw [List.cons_append, findall_cons hmatch, List.take_append_of_le_length hle, List.drop_append_of_le_length hle]

/-- A character that starts no round is a token, unless it is a blank. -/
theorem findall_symbol (hround : roundLength py (c :: s) = 0) (hspace : py.isSpace c = false)
    (hword : py.isWord c = false) : findall py (c :: s) = [c] :: findall py s := by
  have hmatch : matchLength py (c :: s) = 0 + 1 := by simp [matchLength, wordLength, hround, hspace, hword]
  rw [findall_cons hmatch]
  simp

theorem findall_point (s : Str) : findall py ('.' :: s) = ['.'] :: findall py s :=
  findall_symbol (roundLength_point s) rfl (isWord_symbols py).1

end rounds

section append

variable {s t : Str}

theorem drop_append_head {n : Nat} (hn : n ≤ s.length) :
    ((s ++ t).drop n).head? = if n < s.length then (s.drop n).head? else t.head? := by
  rw [List.drop_append_of_le_length hn, List.head?_append]
  split
  · rename_i h
    simp [List.head?_drop, h]
  · rename_i h
    simp [List.drop_eq_nil_of_le (by omega : s.length ≤ n)]

theorem roundLength_append (ht : Stops py t) (hs : s ≠ []) : roundLength py (s ++ t) = roundLength py s := by
  obtain ⟨c, rest, rfl⟩ := List.exists_cons_of_ne_nil hs
  have hdecimal : ∀ d ∈ t.head?, isDecimal py d = false := fun d hd => (ht d hd).2.1
  have hword : ∀ d ∈ t.head?, py.isWord d = false := fun d hd => (ht d hd).1
  have hpoint : t.head? ≠ some '.' := fun h => (ht '.' h).2.2.1 rfl
  have hquote (q : Char) (hq : q = '"' ∨ q = '\'') : t.head? ≠ some q := fun h => by
    obtain ⟨-, -, -, hd, hs⟩ := ht q h
    exact hq.elim hd hs
  have hhead {l : Str} {n : Nat} (hn : n ≤ l.length) {d : Char} (hd : t.head? ≠ some d) :
      ((l ++ t).drop n).head? = some d ↔ (l.drop n).head? = some d := by
    rw [drop_append_head hn]
    split
    · rfl
    · rename_i h
      simp [hd, List.drop_eq_nil_of_le (by omega : l.length ≤ n)]
  by_cases hc : isDecimal py c = true
  · have hdigits : (c :: (rest ++ t)).takeWhile (isDecimal py) = (c :: rest).takeWhile (isDecimal py) :=
      takeWhile_append_stops (s := c :: rest) hdecimal
    obtain ⟨digits, hdef⟩ : ∃ digits, ((c :: rest).takeWhile (isDecimal py)).length = digits := ⟨_, rfl⟩
    have hle : digits ≤ (c :: rest).length := hdef ▸ (List.takeWhile_prefix _).length_le
    simp only [List.cons_append, roundLength, hc, if_true, hdigits, hdef]
    have hnext := hhead hle hpoint
    by_cases hdot : ((c :: rest).drop digits).head? = some '.'
    · have hlt : digits < (c :: rest).length := by
        by_contra hnot
        simp [List.drop_eq_nil_of_le (by omega : (c :: rest).length ≤ digits)] at hdot
      have hfraction : ((c :: (rest ++ t)).drop (digits + 1)).takeWhile (isDecimal py) =
          ((c :: rest).drop (digits + 1)).takeWhile (isDecimal py) := by
        rw [← List.cons_append, List.drop_append_of_le_length (by omega), takeWhile_append_stops hdecimal]
      rw [hfraction]
      simp only [← List.cons_append, hnext.mpr hdot, hdot]
    · simp only [← List.cons_append, mt hnext.mp hdot, hdot, false_and, if_false]
  · by_cases hw : py.isWord c = true
    · simp [roundLength, hc, hw]
    · by_cases hq : c = '"' ∨ c = '\''
      · have hwords : (rest ++ t).takeWhile py.isWord = rest.takeWhile py.isWord := takeWhile_append_stops hword
        have hnext := hhead (List.takeWhile_prefix py.isWord : _ <+: rest).length_le (hquote c hq)
        simp only [List.cons_append, roundLength, hc, hw, hq, hwords, if_true, if_false, Bool.false_eq_true, hnext]
      · simp [roundLength, hc, hw, hq]

theorem roundLength_le (s : Str) : roundLength py s ≤ s.length := by
  have htake (p : Char → Bool) (l : Str) : (l.takeWhile p).length ≤ l.length := (List.takeWhile_prefix p).length_le
  cases s with
  | nil => rfl
  | cons c rest =>
    simp only [roundLength]
    split
    · split
      · rename_i h
        have hfraction := htake (isDecimal py) ((c :: rest).drop (((c :: rest).takeWhile (isDecimal py)).length + 1))
        rw [List.length_drop] at hfraction
        omega
      · exact htake _ _
    · split
      · simp
      · split
        · split
          · rename_i h
            have hlt : (rest.takeWhile py.isWord).length < rest.length := by
              by_contra hnot
              rw [List.drop_eq_nil_of_le (by omega)] at h
              simp at h
            simp only [List.length_cons]
            omega
          · simp
        · simp

theorem wordLength_append (ht : Stops py t) {skip : Nat} (hskip : skip ≤ s.length) :
    wordLength py skip (s ++ t) = wordLength py skip s := by
  induction s generalizing skip with
  | nil =>
    obtain rfl : skip = 0 := by simpa using hskip
    exact wordLength_zero_stops ht.endsWord
  | cons c s ih =>
    cases skip with
    | succ skip => simpa [wordLength] using ih (by simpa using hskip)
    | zero =>
      have hround : roundLength py (c :: (s ++ t)) = roundLength py (c :: s) := roundLength_append (s := c :: s) ht (by simp)
      have hle : roundLength py (c :: s) ≤ s.length + 1 := roundLength_le (c :: s)
      simp only [List.cons_append, wordLength, hround]
      cases hn : roundLength py (c :: s) with
      | zero => rfl
      | succ n => simpa using ih (by omega)

theorem matchLength_le (s : Str) : matchLength py s ≤ s.length := by
  have hword (skip : Nat) (l : Str) : wordLength py skip l ≤ l.length := by
    induction l generalizing skip with
    | nil => cases skip <;> rfl
    | cons c l ih =>
      cases skip with
      | succ skip => simpa [wordLength] using ih skip
      | zero =>
        simp only [wordLength]
        split
        · simp
        · rename_i n _
          simpa using ih n
  cases s with
  | nil => rfl
  | cons c rest =>
    have hle := hword 0 (c :: rest)
    simp only [matchLength]
    split
    · split <;> simp
    · exact hle

theorem findall_append (ht : Stops py t) (s : Str) : findall py (s ++ t) = findall py s ++ findall py t := by
  induction hn : s.length using Nat.strong_induction_on generalizing s with
  | _ n ih =>
    cases s with
    | nil => rfl
    | cons c s =>
      have hword : wordLength py 0 (c :: (s ++ t)) = wordLength py 0 (c :: s) :=
        wordLength_append (s := c :: s) ht (by simp)
      have hmatch : matchLength py (c :: (s ++ t)) = matchLength py (c :: s) := by
        simp only [matchLength, hword]
        cases wordLength py 0 (c :: s) <;> rfl
      have hle : matchLength py (c :: s) ≤ s.length + 1 := matchLength_le (c :: s)
      simp only [List.length_cons] at hn
      cases hm : matchLength py (c :: s) with
      | zero =>
        have hstep (l : Str) (h : matchLength py (c :: l) = 0) : findall py (c :: l) = findall py l := by
          simp [findall, findallFrom, h]
        rw [List.cons_append, hstep _ (hmatch.trans hm), hstep _ hm]
        exact ih s.length (by omega) s rfl
      | succ k =>
        have hk : k ≤ s.length := by omega
        have htail := ih (s.drop k).length (by simp; omega) (s.drop k) rfl
        rw [List.cons_append, findall_cons (hmatch.trans hm), findall_cons hm, List.take_append_of_le_length hk,
          List.drop_append_of_le_length hk, htail, List.cons_append]

end append

section contexts

variable {s t : Str}

/-- Characters of the tokens that are longer than one character. -/
def IsTokenChar (py : FilterPython F) (c : Char) : Prop :=
  (py.isWord c = true ∨ isDecimal py c = true) ∨ c = '.' ∨ c = '"' ∨ c = '\''

theorem roundLength_eq_zero {c : Char} (h : roundLength py (c :: s) = 0) : py.isWord c = false ∧ isDecimal py c = false := by
  by_cases hdecimal : isDecimal py c = true
  · have hpos : ((c :: s).takeWhile (isDecimal py)).length ≠ 0 := by simp [hdecimal]
    simp only [roundLength, hdecimal, if_true] at h
    split_ifs at h
    · omega
    · exact absurd h hpos
  · by_cases hword : py.isWord c = true
    · simp [roundLength, hdecimal, hword] at h
    · exact ⟨by simpa using hword, by simpa using hdecimal⟩

theorem roundLength_chars (s : Str) : ∀ c ∈ s.take (roundLength py s), IsTokenChar py c := by
  have hdigits (l : Str) : ∀ c ∈ l.takeWhile (isDecimal py), IsTokenChar py c :=
    fun c hc => .inl (.inr (List.mem_takeWhile_imp hc))
  have htake (p : Char → Bool) (l : Str) : l.take (l.takeWhile p).length = l.takeWhile p :=
    (List.prefix_iff_eq_take.mp (List.takeWhile_prefix p)).symm
  have hadd (l : Str) (n m : Nat) (c : Char) : c ∈ l.take (n + m) ↔ c ∈ l.take n ∨ c ∈ (l.drop n).take m := by
    rw [List.take_add, List.mem_append]
  cases s with
  | nil => simp
  | cons a rest =>
    simp only [roundLength]
    split_ifs with hdecimal hpart hword hquote hclosed
    · rintro c hc
      rcases (hadd _ _ _ c).mp hc with hc | hc
      · rcases (hadd _ _ _ c).mp hc with hc | hc
        · exact hdigits _ c (htake _ _ ▸ hc)
        · rw [List.take_one, hpart.1] at hc
          obtain rfl : c = '.' := by simpa using hc
          exact .inr (.inl rfl)
      · exact hdigits _ c (htake _ _ ▸ hc)
    · rw [htake]
      exact hdigits _
    · have hchar : IsTokenChar py a := .inl (.inl hword)
      simpa using hchar
    · have hmark : IsTokenChar py a := .inr (.inr hquote)
      rintro c hc
      rcases List.mem_cons.mp hc with rfl | hc
      · exact hmark
      · rcases (hadd _ _ _ c).mp hc with hc | hc
        · exact .inl (.inl (List.mem_takeWhile_imp (htake _ _ ▸ hc)))
        · rw [List.take_one, hclosed.2] at hc
          obtain rfl : c = a := by simpa using hc
          exact hmark
    · simp
    · simp

theorem wordLength_chars {skip : Nat} (hskip : ∀ c ∈ s.take skip, IsTokenChar py c) :
    ∀ c ∈ s.take (wordLength py skip s), IsTokenChar py c := by
  induction s generalizing skip with
  | nil => simp
  | cons a s ih =>
    have hstep {skip : Nat} (h : ∀ c ∈ (a :: s).take (skip + 1), IsTokenChar py c) :
        ∀ c ∈ (a :: s).take (wordLength py skip s + 1), IsTokenChar py c := by
      obtain ⟨ha, hrest⟩ := List.forall_mem_cons.mp h
      exact List.forall_mem_cons.mpr ⟨ha, ih hrest⟩
    cases skip with
    | succ skip => exact hstep hskip
    | zero =>
      have hround := @roundLength_chars F py (a :: s)
      simp only [wordLength]
      cases hn : roundLength py (a :: s) with
      | zero => simp
      | succ n => exact hstep (hn ▸ hround)

/-- The rounds of a match end where no other one starts. -/
theorem roundLength_drop {skip : Nat} (hskip : skip ≤ s.length) :
    roundLength py (s.drop (wordLength py skip s)) = 0 := by
  induction s generalizing skip with
  | nil => simp [roundLength]
  | cons a s ih =>
    cases skip with
    | succ skip => exact ih (by simpa using hskip)
    | zero =>
      have hle : roundLength py (a :: s) ≤ s.length + 1 := roundLength_le (a :: s)
      simp only [wordLength]
      cases hn : roundLength py (a :: s) with
      | zero => exact hn
      | succ n => exact ih (by omega)

theorem matchLength_eq (s : Str) :
    matchLength py s = wordLength py 0 s ∨ wordLength py 0 s = 0 ∧ matchLength py s ≤ 1 := by
  simp only [matchLength]
  split
  · rename_i hzero
    exact .inr ⟨hzero, by split <;> simp⟩
  · exact .inl rfl

theorem isWord_of_wordLength {c : Char} (h : wordLength py 0 (c :: s) = 0) : py.isWord c = false := by
  have hround := @roundLength_drop F py (c :: s) 0 (Nat.zero_le _)
  rw [h] at hround
  exact (roundLength_eq_zero hround).1

/-- Behind a match of words comes no other word. -/
theorem isWord_drop {skip : Nat} (hskip : skip ≤ s.length) :
    ∀ c ∈ (s.drop (wordLength py skip s)).head?, py.isWord c = false := by
  have hround := @roundLength_drop F py s skip hskip
  cases hdrop : s.drop (wordLength py skip s) with
  | nil => simp
  | cons c rest =>
    rw [hdrop] at hround
    simpa using (roundLength_eq_zero hround).1

/-- Where the tokens of a text come from; before a word there is none. -/
theorem exists_of_mem_findall (h : t ∈ findall py s) : ∃ before rest, s = before ++ rest ∧
    t = rest.take (matchLength py rest) ∧ t ≠ [] ∧
      ((∀ c ∈ before.getLast?, py.isWord c = false) ∨ ∀ c ∈ rest.head?, py.isWord c = false) := by
  suffices hfind : ∀ (n : Nat) (before rest : Str), rest.length = n →
      ((∀ c ∈ before.getLast?, py.isWord c = false) ∨ ∀ c ∈ rest.head?, py.isWord c = false) → t ∈ findall py rest →
      ∃ before' rest', before ++ rest = before' ++ rest' ∧ t = rest'.take (matchLength py rest') ∧ t ≠ [] ∧
        ((∀ c ∈ before'.getLast?, py.isWord c = false) ∨ ∀ c ∈ rest'.head?, py.isWord c = false) from
    hfind _ [] s rfl (.inl (by simp)) h
  intro n
  induction n using Nat.strong_induction_on with
  | _ n ih =>
    intro before rest hn hstart hmem
    cases rest with
    | nil => simp [findall, findallFrom] at hmem
    | cons c rest =>
      simp only [List.length_cons] at hn
      have hend := @matchLength_eq F py (c :: rest)
      have hlast : (before ++ [c]).getLast? = some c := List.getLast?_concat
      have hsplit : before ++ c :: rest = before ++ [c] ++ rest := by simp
      cases hm : matchLength py (c :: rest) with
      | zero =>
        have hfind : findall py (c :: rest) = findall py rest := by simp [findall, findallFrom, hm]
        have hzero : wordLength py 0 (c :: rest) = 0 := by omega
        rw [hfind] at hmem
        rw [hsplit]
        refine ih rest.length (by omega) (before ++ [c]) rest rfl (.inl ?_) hmem
        simpa [hlast] using isWord_of_wordLength hzero
      | succ k =>
        rw [findall_cons hm] at hmem
        rcases List.mem_cons.mp hmem with rfl | hmem
        · exact ⟨before, c :: rest, rfl, by simp [hm], by simp, hstart⟩
        · have hle : k ≤ rest.length := by
            have := @matchLength_le F py (c :: rest)
            simp only [List.length_cons] at this
            omega
          have htoken : before ++ c :: rest = (before ++ c :: rest.take k) ++ rest.drop k := by simp
          rw [htoken]
          refine ih (rest.drop k).length (by simp; omega) _ (rest.drop k) rfl ?_ hmem
          rcases hend with hword | ⟨hzero, hone⟩
          · refine .inr ?_
            have hnext := @isWord_drop F py (c :: rest) 0 (Nat.zero_le _)
            rwa [← hword, hm, List.drop_succ_cons] at hnext
          · obtain rfl : k = 0 := by omega
            refine .inl ?_
            simpa [hlast] using isWord_of_wordLength hzero

theorem infix_of_mem_findall (h : t ∈ findall py s) : t <:+: s := by
  obtain ⟨before, rest, rfl, rfl, -⟩ := exists_of_mem_findall h
  exact (List.take_prefix _ _).isInfix.trans (List.suffix_append _ _).isInfix

theorem chars_of_mem_findall (h : t ∈ findall py s) : (∃ c, t = [c]) ∨ ∀ c ∈ t, IsTokenChar py c := by
  obtain ⟨before, rest, -, rfl, hne, -⟩ := exists_of_mem_findall h
  cases rest with
  | nil => simp at hne
  | cons c rest =>
    simp only [matchLength] at hne ⊢
    split
    · split
      · simp_all
      · exact .inl ⟨c, by simp⟩
    · exact .inr (wordLength_chars (by simp))

/-- A token that is a word stands in the text as one. -/
theorem word_of_mem_findall (h : t ∈ findall py s) (ht : ∀ c ∈ t, py.isWord c = true) :
    ∃ before after, s = before ++ t ++ after ∧ (∀ c ∈ before.getLast?, py.isWord c = false) ∧
      ∀ c ∈ after.head?, py.isWord c = false := by
  obtain ⟨before, rest, rfl, htoken, hne, hstart⟩ := exists_of_mem_findall h
  obtain ⟨c, rest, rfl⟩ : ∃ c more, rest = c :: more := by cases rest <;> simp_all
  have hc : py.isWord c = true := by
    cases hm : matchLength py (c :: rest) with
    | zero => simp [htoken, hm] at hne
    | succ n => exact ht c (by simp [htoken, hm])
  have hmatch := (@matchLength_eq F py (c :: rest)).resolve_right fun h => by simp [isWord_of_wordLength h.1] at hc
  refine ⟨before, (c :: rest).drop (matchLength py (c :: rest)), by simp [htoken], hstart.resolve_right ?_, ?_⟩
  · simp [hc]
  · rw [hmatch]
    exact isWord_drop (Nat.zero_le _)

end contexts

section merge

variable {s t : Str} {c : Char}

theorem word_ne {token : Str} (h : IsDotted py token) (hc : py.isWord c = false) (hpoint : c ≠ '.') : token ≠ [c] := by
  rintro rfl
  rcases h c (by simp) with h | h
  · simp [h] at hc
  · exact hpoint h

theorem IsDotted.left {s t : Str} (h : IsDotted py (s ++ t)) : IsDotted py s := fun c hc => h c (by simp [hc])

theorem IsDotted.right {s t : Str} (h : IsDotted py (s ++ t)) : IsDotted py t := fun c hc => h c (by simp [hc])

/-- Words and points go on with the last token, if that ends with a point or they start with one. -/
theorem mergeTokens_append (hs : IsDotted py s) (ht : EndsWord py t) {last : Str} {done : List Str}
    (h : last.getLast? = some '.' ∨ PointNext s) :
    (findall py (s ++ t)).foldl mergeToken (last :: done) =
      (findall py t).foldl mergeToken ((last ++ s) :: done) := by
  induction hn : s.length using Nat.strong_induction_on generalizing s last with
  | _ n ih =>
    cases s with
    | nil => simp
    | cons c s =>
      have hs' : IsDotted py s := fun d hd => hs d (by simp [hd])
      rcases hs c (by simp) with hc | rfl
      · have hlast : last.getLast? = some '.' := by
          refine h.resolve_right fun hnext => ?_
          obtain rfl : c = '.' := hnext c rfl
          exact absurd hc (by simp [(isWord_symbols py).1])
        obtain ⟨token, rest, hsplit, hne, hend, hnext, hfind⟩ := findall_word hs hc ht
        rw [hsplit] at hs
        have hlen := congrArg List.length hsplit
        have hpos := List.length_pos_of_ne_nil hne
        have heq : token ≠ ['='] := word_ne hs.left (isWord_symbols py).2.1 (by decide)
        have hstep : mergeToken (last :: done) token = (last ++ token) :: done := by
          simp [mergeToken, heq, hlast]
        rw [hfind, List.foldl_cons, hstep, hsplit, ← List.append_assoc]
        refine ih rest.length ?_ hs.right (.inr hnext) rfl
        simp only [List.length_cons, List.length_append] at hlen hn
        omega
      · have hstep : mergeToken (last :: done) ['.'] = (last ++ ['.']) :: done := by
          simp [mergeToken]
        have hend : (last ++ ['.']).getLast? = some '.' := by simp
        have hlen : s.length < n := by
          simp only [List.length_cons] at hn
          omega
        rw [List.cons_append, findall_point, List.foldl_cons, hstep, ih s.length hlen hs' (.inl hend) rfl]
        simp

theorem mergeTokens_word (hs : IsDotted py (c :: s)) (hc : py.isWord c = true) (ht : EndsWord py t) {acc : List Str}
    (hacc : Undotted acc) :
    (findall py (c :: s ++ t)).foldl mergeToken acc = (findall py t).foldl mergeToken ((c :: s) :: acc) := by
  obtain ⟨token, rest, hsplit, hne, hend, hnext, hfind⟩ := findall_word hs hc ht
  rw [hsplit] at hs
  have heq : token ≠ ['='] := word_ne hs.left (isWord_symbols py).2.1 (by decide)
  have hpoint : token ≠ ['.'] := fun h => hend (by simp [h])
  rw [hfind, List.foldl_cons, mergeToken_push hacc heq hpoint, hsplit]
  exact mergeTokens_append hs.right ht (.inr hnext)

theorem mergeTokens_before {l : List Str} (hl : l ≠ []) (acc : List Str) (ts : List Str) :
    ts.foldl mergeToken (l ++ acc) = ts.foldl mergeToken l ++ acc := by
  induction ts generalizing l with
  | nil => rfl
  | cons t ts ih =>
    obtain ⟨last, done, rfl⟩ := List.exists_cons_of_ne_nil hl
    have hstep : mergeToken (last :: done ++ acc) t = mergeToken (last :: done) t ++ acc := by
      simp only [mergeToken, List.cons_append]
      split_ifs <;> rfl
    have hne : mergeToken (last :: done) t ≠ [] := by
      simp only [mergeToken]
      split_ifs <;> simp
    rw [List.foldl_cons, List.foldl_cons, hstep, ih hne]

/-- The first element keeps its start; it goes on with a point, unless it is of those that go on anyway. -/
theorem mergeTokens_first (x : Str) (ts : List Str) : ∃ acc u, ts.foldl mergeToken [x] = acc ++ [x ++ u] ∧
    (Complete [x] → PointNext u) ∧ ∀ c ∈ u, ∃ t ∈ ts, c ∈ t := by
  induction ts generalizing x with
  | nil => exact ⟨[], [], by simp, by simp [PointNext], by simp⟩
  | cons t ts ih =>
    have hlonger (hx : Complete [x] → t = ['.']) (hstep : mergeToken [x] t = [x ++ t]) :
        ∃ acc u, (t :: ts).foldl mergeToken [x] = acc ++ [x ++ u] ∧ (Complete [x] → PointNext u) ∧
          ∀ c ∈ u, ∃ t' ∈ t :: ts, c ∈ t' := by
      obtain ⟨acc, u, hfold, -, hchars⟩ := ih (x ++ t)
      refine ⟨acc, t ++ u, by rw [List.foldl_cons, hstep, hfold, List.append_assoc], fun h => ?_, fun c hc => ?_⟩
      · simp [hx h, PointNext]
      · rcases List.mem_append.mp hc with hc | hc
        · exact ⟨t, by simp, hc⟩
        · obtain ⟨t', ht', hct⟩ := hchars c hc
          exact ⟨t', by simp [ht'], hct⟩
    by_cases heq : t = ['='] ∧ x = ['=']
    · obtain ⟨acc, u, hfold, hnext, hchars⟩ := ih x
      refine ⟨acc, u, by rw [List.foldl_cons, mergeToken, if_pos heq, hfold], hnext, fun c hc => ?_⟩
      obtain ⟨t', ht', hct⟩ := hchars c hc
      exact ⟨t', by simp [ht'], hct⟩
    · by_cases hangle : t = ['='] ∧ (x = ['<'] ∨ x = ['>'])
      · refine hlonger (fun h => ?_) ?_
        · rcases hangle.2 with rfl | rfl <;> simp [complete_cons] at h
        · rw [mergeToken, if_neg heq, if_pos hangle, hangle.1]
      · by_cases hdot : x.getLast? = some '.'
        · refine hlonger (fun h => absurd hdot (complete_cons.mp h).1) ?_
          rw [mergeToken, if_neg heq, if_neg hangle, if_pos hdot]
        · by_cases hpoint : t = ['.']
          · refine hlonger (fun _ => hpoint) ?_
            rw [mergeToken, if_neg heq, if_neg hangle, if_neg hdot, if_pos hpoint]
          · refine ⟨ts.foldl mergeToken [t], [], ?_, by simp [PointNext], by simp⟩
            rw [List.foldl_cons, mergeToken, if_neg heq, if_neg hangle, if_neg hdot, if_neg hpoint]
            simpa using mergeTokens_before (List.cons_ne_nil t []) [x] ts

end merge

section texts

theorem findall_words {s : Str} (hs : ∀ c ∈ s, py.isWord c = true) (hne : s ≠ []) : findall py s = [s] := by
  obtain ⟨c, s, rfl⟩ := List.exists_cons_of_ne_nil hne
  have hends : EndsWord py [] := ⟨by simp, rfl⟩
  obtain ⟨token, rest, hsplit, -, -, hnext, hfind⟩ :=
    findall_word (fun d hd => .inl (hs d hd)) (hs c (by simp)) hends
  cases rest with
  | nil =>
    obtain rfl : c :: s = token := by simpa using hsplit
    rw [List.append_nil] at hfind
    exact hfind
  | cons d rest =>
    obtain rfl : d = '.' := hnext d rfl
    have hword : py.isWord '.' = true := hs '.' (by simp [hsplit])
    simp [(isWord_symbols py).1] at hword

theorem quote_chars (py : FilterPython F) {q : Char} (hq : q = '"' ∨ q = '\'') :
    (py.isWord q = false ∧ py.isSpace q = false) ∧ isDecimal py q = false := by
  rcases hq with rfl | rfl <;> exact ⟨⟨rfl, rfl⟩, rfl⟩

theorem findall_quoted {q : Char} (hq : q = '"' ∨ q = '\'') {w : Str} (hw : ∀ c ∈ w, py.isWord c = true)
    (hne : w ≠ []) : findall py (q :: w ++ [q]) = [q :: w ++ [q]] := by
  obtain ⟨⟨hword, -⟩, hdecimal⟩ := quote_chars py hq
  have htake : (w ++ [q]).takeWhile py.isWord = w := by
    rw [List.takeWhile_append_of_pos hw]
    simp [hword]
  have hround : roundLength py (q :: (w ++ [q])) = w.length + 2 := by
    simp [roundLength, hdecimal, hword, hq, htake, hne]
  have hskip (l : Str) : wordLength py l.length l = l.length := by
    induction l with
    | nil => rfl
    | cons c l ih => simp [wordLength, ih]
  have hmatch : matchLength py (q :: (w ++ [q])) = (w ++ [q]).length + 1 := by
    have hlen : wordLength py 0 (q :: (w ++ [q])) = (w ++ [q]).length + 1 := by
      simp only [wordLength, hround]
      rw [show w.length + 1 = (w ++ [q]).length by simp, hskip]
    simp [matchLength, hlen]
  rw [List.cons_append, findall_cons hmatch, List.take_length, List.drop_length]
  rfl

/-- A quote that no other one follows after nothing but a word is a token. -/
theorem findall_quote {q : Char} (hq : q = '"' ∨ q = '\'') {s : Str}
    (h : ∀ w more, s = w ++ q :: more → w ≠ [] → (∀ c ∈ w, py.isWord c = true) → False) :
    findall py (q :: s) = [q] :: findall py s := by
  obtain ⟨⟨hword, hspace⟩, hdecimal⟩ := quote_chars py hq
  refine findall_symbol ?_ hspace hword
  have hclosed : ¬((s.takeWhile py.isWord).length ≠ 0 ∧ (s.drop (s.takeWhile py.isWord).length).head? = some q) := by
    rintro ⟨hne, hnext⟩
    obtain ⟨more, hmore⟩ : ∃ more, s.drop (s.takeWhile py.isWord).length = q :: more := by
      cases hd : s.drop (s.takeWhile py.isWord).length with
      | nil => simp [hd] at hnext
      | cons c more => exact ⟨more, by simpa [hd] using hnext⟩
    refine h (s.takeWhile py.isWord) more ?_ (fun hnil => hne (by simp [hnil])) fun c => List.mem_takeWhile_imp
    rw [← hmore]
    exact (List.prefix_iff_eq_append.mp (List.takeWhile_prefix _)).symm
  simp only [roundLength, hdecimal, hword, hq, Bool.false_eq_true, if_false, if_true, if_neg hclosed]

end texts

end LambdaFilter

end Hecuba
