import Hecuba.MachineWord

/-! Fields of bits packed into a word, the last field in the lowest bits. -/

namespace Hecuba

/-- Shift the word left by the width of each field and add its value. -/
def packFields (bound word : Nat) (fields : List (Nat × Nat)) : Nat :=
  fields.foldl (fun word (width, value) => (word <<< width + value) % bound) word

/-- The number whose digits are the fields. -/
def fieldsValue : List (Nat × Nat) → Nat
  | [] => 0
  | (_, value) :: fields => value * 2 ^ (fields.map Prod.fst).sum + fieldsValue fields

/-- Read the fields, the first one from the highest bits. -/
def unpackFields : List Nat → Nat → List Nat
  | [], _ => []
  | width :: widths, word => (word >>> widths.sum) % 2 ^ width :: unpackFields widths word

@[simp] theorem unpackFields_length (widths : List Nat) (word : Nat) :
    (unpackFields widths word).length = widths.length := by
  induction widths with
  | nil => rfl
  | cons width widths ih => simp [unpackFields, ih]

theorem packFields_mod (bound word : Nat) (fields : List (Nat × Nat)) :
    packFields bound word fields % bound =
      (word * 2 ^ (fields.map Prod.fst).sum + fieldsValue fields) % bound := by
  induction fields generalizing word with
  | nil => simp [packFields, fieldsValue]
  | cons field fields ih =>
    obtain ⟨width, value⟩ := field
    have hstep := ih ((word <<< width + value) % bound)
    rw [packFields, List.foldl_cons]
    refine hstep.trans ?_
    rw [Nat.add_mod, Nat.mod_mul_mod, ← Nat.add_mod, List.map_cons, List.sum_cons, fieldsValue,
      Nat.shiftLeft_eq, Nat.pow_add, Nat.add_mul, Nat.mul_assoc, Nat.add_assoc]

/-- Packing from zero is the value of the fields, cut at the size of the word. -/
theorem packFields_zero {bound : Nat} (hb : 0 < bound) (fields : List (Nat × Nat)) :
    packFields bound 0 fields = fieldsValue fields % bound := by
  have hlt : packFields bound 0 fields < bound := by
    rcases List.eq_nil_or_concat' fields with rfl | ⟨init, field, rfl⟩
    · exact hb
    · rw [packFields, List.foldl_append]
      exact Nat.mod_lt _ hb
  have hmod := packFields_mod bound 0 fields
  rwa [Nat.mod_eq_of_lt hlt, Nat.zero_mul, Nat.zero_add] at hmod

theorem fieldsValue_lt {fields : List (Nat × Nat)} (h : ∀ f ∈ fields, f.2 < 2 ^ f.1) :
    fieldsValue fields < 2 ^ (fields.map Prod.fst).sum := by
  induction fields with
  | nil => simp [fieldsValue]
  | cons field fields ih =>
    obtain ⟨width, value⟩ := field
    have hhead : value + 1 ≤ 2 ^ width := h _ List.mem_cons_self
    have htail := ih fun f hf => h f (List.mem_cons_of_mem _ hf)
    rw [fieldsValue, List.map_cons, List.sum_cons, Nat.pow_add]
    calc value * 2 ^ (fields.map Prod.fst).sum + fieldsValue fields
        < value * 2 ^ (fields.map Prod.fst).sum + 2 ^ (fields.map Prod.fst).sum := by omega
      _ = (value + 1) * 2 ^ (fields.map Prod.fst).sum := by rw [Nat.add_mul, Nat.one_mul]
      _ ≤ 2 ^ width * 2 ^ (fields.map Prod.fst).sum := Nat.mul_le_mul_right _ hhead

theorem mod_two_pow_shiftRight (n w s : Nat) : (n % 2 ^ w) >>> s = (n >>> s) % 2 ^ (w - s) := by
  rw [Nat.shiftRight_eq_div_pow, Nat.shiftRight_eq_div_pow]
  by_cases hs : s ≤ w
  · have hsplit : 2 ^ w = 2 ^ s * 2 ^ (w - s) := by rw [← Nat.pow_add, Nat.add_sub_cancel' hs]
    rw [hsplit, Nat.mod_mul_right_div_self]
  · have hpow : 2 ^ w ≤ 2 ^ s := Nat.pow_le_pow_right (by decide) (by omega)
    have hlt : n % 2 ^ w < 2 ^ s := Nat.lt_of_lt_of_le (Nat.mod_lt _ (Nat.two_pow_pos w)) hpow
    rw [Nat.div_eq_of_lt hlt, show w - s = 0 by omega, Nat.pow_zero, Nat.mod_one]

theorem mod_two_pow_comm (n a b : Nat) : n % 2 ^ a % 2 ^ b = n % 2 ^ b % 2 ^ a := by
  rcases Nat.le_total a b with h | h
  · have hdvd : 2 ^ a ∣ 2 ^ b := Nat.pow_dvd_pow 2 h
    rw [Nat.mod_mod_of_dvd _ hdvd, Nat.mod_eq_of_lt]
    exact Nat.lt_of_lt_of_le (Nat.mod_lt _ (Nat.two_pow_pos a)) (Nat.le_of_dvd (Nat.two_pow_pos b) hdvd)
  · have hdvd : 2 ^ b ∣ 2 ^ a := Nat.pow_dvd_pow 2 h
    rw [Nat.mod_mod_of_dvd _ hdvd, Nat.mod_eq_of_lt (a := n % 2 ^ b)]
    exact Nat.lt_of_lt_of_le (Nat.mod_lt _ (Nat.two_pow_pos b)) (Nat.le_of_dvd (Nat.two_pow_pos a) hdvd)

/-- What is left of the fields in a word of `w` bits. -/
def cutFields (w : Nat) : List (Nat × Nat) → List Nat
  | [] => []
  | (_, value) :: fields => value % 2 ^ (w - (fields.map Prod.fst).sum) :: cutFields w fields

theorem unpackFields_mod (w high : Nat) (fields : List (Nat × Nat)) (h : ∀ f ∈ fields, f.2 < 2 ^ f.1) :
    unpackFields (fields.map Prod.fst)
        ((high * 2 ^ (fields.map Prod.fst).sum + fieldsValue fields) % 2 ^ w) = cutFields w fields := by
  induction fields generalizing high with
  | nil => rfl
  | cons field fields ih =>
    obtain ⟨width, value⟩ := field
    have hhead : value < 2 ^ width := h _ List.mem_cons_self
    have htail : ∀ f ∈ fields, f.2 < 2 ^ f.1 := fun f hf => h f (List.mem_cons_of_mem _ hf)
    have hword : high * 2 ^ (((width, value) :: fields).map Prod.fst).sum + fieldsValue ((width, value) :: fields) =
        (2 ^ width * high + value) * 2 ^ (fields.map Prod.fst).sum + fieldsValue fields := by
      rw [List.map_cons, List.sum_cons, fieldsValue, Nat.pow_add, Nat.add_mul, Nat.mul_comm (2 ^ width) high,
        Nat.mul_assoc, Nat.add_assoc]
    have hdiv : ((2 ^ width * high + value) * 2 ^ (fields.map Prod.fst).sum + fieldsValue fields) >>>
        (fields.map Prod.fst).sum = 2 ^ width * high + value := by
      rw [Nat.shiftRight_eq_div_pow, Nat.mul_comm, Nat.mul_add_div (Nat.two_pow_pos _),
        Nat.div_eq_of_lt (fieldsValue_lt htail), Nat.add_zero]
    rw [hword, List.map_cons, unpackFields, cutFields, ih _ htail, mod_two_pow_shiftRight, hdiv,
      mod_two_pow_comm, Nat.mul_add_mod, Nat.mod_eq_of_lt hhead]

/-- Unpacking a packed word cuts each field where the word ends. -/
theorem unpackFields_packFields (w : Nat) {fields : List (Nat × Nat)} (h : ∀ f ∈ fields, f.2 < 2 ^ f.1) :
    unpackFields (fields.map Prod.fst) (packFields (2 ^ w) 0 fields) = cutFields w fields := by
  have hmod := unpackFields_mod w 0 fields h
  rwa [Nat.zero_mul, Nat.zero_add, ← packFields_zero (Nat.two_pow_pos w)] at hmod

end Hecuba
