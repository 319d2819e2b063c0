import Hecuba.ArrayReaders

/-! The metadata that the C++ StorageNumpy makes of a vector of dimensions, in 32-bit words,
and the copies of the array that take their size from it. -/

namespace Hecuba

/-- `ArrayMetadata` with all its fields, in the words of the source. -/
structure NumpyMetas where
  flags : UInt32 := 0
  elemSize : UInt32 := 0
  partitionType : UInt8 := 0
  typekind : UInt8 := ' '.toUInt8
  byteorder : UInt8 := ' '.toUInt8
  dims : List UInt32 := []
  strides : List UInt32 := []
  deriving DecidableEq

def NumpyMetas.array (metas : NumpyMetas) : ArrayMetadata where
  elemSize := metas.elemSize.toNat
  dims := metas.dims.map UInt32.toNat
  elemSize_lt := metas.elemSize.toNat_lt
  dims_lt d hd := by
    obtain ⟨x, -, rfl⟩ := List.mem_map.mp hd
    exact x.toNat_lt

/-- An instance of the C++ class; `data` is `none` for a null pointer. -/
structure CppStorageNumpy where
  metas : List UInt32 := []
  numpyMetas : NumpyMetas := {}
  data : Option Bytes := none

namespace CppStorageNumpy

def getDtypeSize (dtype : UInt8) : Except Thrown UInt32 :=
  if dtype = 'f'.toUInt8 then .ok 8
  else if dtype = 'i'.toUInt8 ∨ dtype = 'u'.toUInt8 ∨ dtype = 'b'.toUInt8 then .ok 1
  else .error (.moduleException
    ("StorageNumpy::getDtypeSize: Unsupported type [" ++ String.singleton (Char.ofNat dtype.toNat) ++ "] "))

/-- The loop that divides the number of elements by one dimension after the other. A
division by zero is undefined. -/
def extractStrides (elemSize : UInt32) : UInt32 → List UInt32 → Except Thrown (List UInt32)
  | _, [] => .ok []
  | acum, d :: dims =>
    if d = 0 then .error .undefined
    else do
      let acum := acum / d
      return acum * elemSize :: (← extractStrides elemSize acum dims)

def npyArrayCContiguous : UInt32 := 0x0001
def npyArrayAligned : UInt32 := 0x0100
def npyArrayWriteable : UInt32 := 0x0400

/-- The size in bytes and the metadata, of which no field is kept. -/
def extractNumpyMetaData (rawNumpyMeta : List UInt32) (dtype : UInt8) (arrMetas : NumpyMetas) :
    Except Thrown (UInt32 × NumpyMetas) := do
  let elemSize ← getDtypeSize dtype
  let numpySize := rawNumpyMeta.foldl (fun acum d => acum * d) 1
  let strides ← extractStrides elemSize numpySize rawNumpyMeta
  return (numpySize * elemSize, { arrMetas with
    elemSize := elemSize, dims := rawNumpyMeta, strides := strides
    flags := npyArrayCContiguous ||| npyArrayWriteable ||| npyArrayAligned
    partitionType := 0, typekind := dtype, byteorder := '='.toUInt8 })

/-- `malloc` of `size` bytes and `memcpy` from the source array. -/
def duplicate (datasrc : Option Bytes) (size : Nat) : Except Thrown Bytes :=
  match datasrc with
  | none => .error .undefined
  | some bytes => if size ≤ bytes.length then .ok (bytes.take size) else .error .undefined

def setNumpy (obj : CppStorageNumpy) (datasrc : Option Bytes) (metas : List UInt32) (dtype : UInt8) :
    Except Thrown CppStorageNumpy := do
  let (numpySize, numpyMetas) ← extractNumpyMetaData metas dtype obj.numpyMetas
  return ⟨metas, numpyMetas, some (← duplicate datasrc numpySize.toNat)⟩

def copy (src : CppStorageNumpy) : Except Thrown CppStorageNumpy := do
  let (numpySize, numpyMetas) ← extractNumpyMetaData src.metas src.numpyMetas.typekind {}
  return ⟨src.metas, numpyMetas, some (← duplicate src.data numpySize.toNat)⟩

/-- `operator =`, which takes the metadata of the other object before it extracts them again. -/
def assign (w : CppStorageNumpy) : Except Thrown CppStorageNumpy := do
  let (numpySize, numpyMetas) ← extractNumpyMetaData w.metas w.numpyMetas.typekind w.numpyMetas
  return ⟨w.metas, numpyMetas, some (← duplicate w.data numpySize.toNat)⟩

end CppStorageNumpy

def byteStrides (e : Nat) : List Nat → List Nat
  | [] => []
  | _ :: dims => e * dims.prod :: byteStrides e dims

/-- The metadata tell the size and the strides, so that an array of that size is copied whole. -/
structure ExactMetadata (raw : List UInt32) (dtype : UInt8) (obj : CppStorageNumpy) (size : UInt32)
    (metas : NumpyMetas) : Prop where
  extracted : CppStorageNumpy.extractNumpyMetaData raw dtype obj.numpyMetas = .ok (size, metas)
  size_eq : size.toNat = metas.array.getArraySize
  strides_eq : metas.strides.map UInt32.toNat = byteStrides metas.elemSize.toNat (raw.map UInt32.toNat)
  whole : ∀ datasrc : Bytes, datasrc.length = metas.array.getArraySize →
    obj.setNumpy (some datasrc) raw dtype = .ok ⟨raw, metas, some datasrc⟩
  copied : ∀ datasrc : Bytes, datasrc.length = metas.array.getArraySize →
    CppStorageNumpy.copy ⟨raw, metas, some datasrc⟩ = .ok ⟨raw, metas, some datasrc⟩
  assigned : ∀ datasrc : Bytes, datasrc.length = metas.array.getArraySize →
    CppStorageNumpy.assign ⟨raw, metas, some datasrc⟩ = .ok ⟨raw, metas, some datasrc⟩

/-- All the bytes of the array can be counted in 32 bits, and there is at least one element. -/
def CountedInWord (raw : List UInt32) (elemSize : UInt32) : Prop :=
  (∀ d ∈ raw, d ≠ 0) ∧ elemSize.toNat * (raw.map UInt32.toNat).prod < 2 ^ 32

namespace CppStorageNumpy

theorem getDtypeSize_bounds {dtype : UInt8} {elemSize : UInt32} (h : getDtypeSize dtype = .ok elemSize) :
    0 < elemSize.toNat ∧ elemSize.toNat ≤ 8 := by
  unfold getDtypeSize at h
  split at h
  · obtain rfl := Except.ok.inj h
    decide
  · split at h
    · obtain rfl := Except.ok.inj h
      decide
    · exact absurd h (by simp)

theorem foldl_mul_toNat (raw : List UInt32) (acum : UInt32) :
    (raw.foldl (fun acum d => acum * d) acum).toNat = acum.toNat * (raw.map UInt32.toNat).prod % 2 ^ 32 := by
  induction raw generalizing acum with
  | nil => simp [Nat.mod_eq_of_lt acum.toNat_lt]
  | cons d raw ih =>
    rw [List.foldl_cons, ih, UInt32.toNat_mul, Nat.mod_mul_mod, List.map_cons, List.prod_cons, Nat.mul_assoc]

variable {elemSize acum : UInt32} {raw : List UInt32}

theorem extractStrides_cons {d : UInt32} (hd : d ≠ 0) : extractStrides elemSize acum (d :: raw) =
    (extractStrides elemSize (acum / d) raw).map fun strides => acum / d * elemSize :: strides := by
  rw [extractStrides, if_neg hd]
  rfl

theorem extractStrides_exact (hpos : ∀ d ∈ raw, d ≠ 0) (hacum : acum.toNat = (raw.map UInt32.toNat).prod)
    (hlt : elemSize.toNat * acum.toNat < 2 ^ 32) :
    ∃ strides, extractStrides elemSize acum raw = .ok strides ∧
      strides.map UInt32.toNat = byteStrides elemSize.toNat (raw.map UInt32.toNat) := by
  induction raw generalizing acum with
  | nil => exact ⟨[], rfl, rfl⟩
  | cons d raw ih =>
    rw [List.forall_mem_cons] at hpos
    rw [List.map_cons, List.prod_cons] at hacum
    have hd : 0 < d.toNat := by
      apply Nat.pos_of_ne_zero
      exact fun h => hpos.1 (UInt32.toNat_inj.mp h)
    have hdiv : (acum / d).toNat = (raw.map UInt32.toNat).prod := by
      rw [UInt32.toNat_div, hacum, Nat.mul_div_cancel_left _ hd]
    have hle : elemSize.toNat * (acum / d).toNat ≤ elemSize.toNat * acum.toNat := by
      rw [UInt32.toNat_div]
      exact Nat.mul_le_mul_left _ (Nat.div_le_self _ _)
    obtain ⟨strides, hs, hmap⟩ := ih hpos.2 hdiv (by omega)
    refine ⟨acum / d * elemSize :: strides, ?_, ?_⟩
    · rw [extractStrides_cons hpos.1, hs]
      rfl
    · rw [List.map_cons, List.map_cons, byteStrides, hmap, UInt32.toNat_mul, Nat.mul_comm, hdiv,
        Nat.mod_eq_of_lt (by rw [← hdiv]; omega)]

theorem extractStrides_cons_ok {d : UInt32} {strides : List UInt32}
    (h : extractStrides elemSize acum (d :: raw) = .ok strides) :
    d ≠ 0 ∧ ∃ rest, extractStrides elemSize (acum / d) raw = .ok rest ∧ strides = acum / d * elemSize :: rest := by
  by_cases hd : d = 0
  · rw [extractStrides, if_pos hd] at h
    exact absurd h (by simp)
  · rw [extractStrides_cons hd] at h
    cases hrest : extractStrides elemSize (acum / d) raw with
    | error e =>
      rw [hrest] at h
      exact absurd h (by simp [Except.map])
    | ok rest =>
      rw [hrest] at h
      exact ⟨hd, rest, rfl, (Except.ok.inj h).symm⟩

theorem extractStrides_ok {strides : List UInt32} (h : extractStrides elemSize acum raw = .ok strides) :
    ∀ d ∈ raw, d ≠ 0 := by
  induction raw generalizing acum strides with
  | nil => simp
  | cons d raw ih =>
    obtain ⟨hd, rest, hrest, -⟩ := extractStrides_cons_ok h
    rw [List.forall_mem_cons]
    exact ⟨hd, ih hrest⟩

theorem acum_eq_prod {strides : List UInt32} (hes : 0 < elemSize.toNat)
    (hle : acum.toNat ≤ (raw.map UInt32.toNat).prod) (h : extractStrides elemSize acum raw = .ok strides)
    (hexact : strides.map UInt32.toNat = byteStrides elemSize.toNat (raw.map UInt32.toNat)) (hne : raw ≠ []) :
    acum.toNat = (raw.map UInt32.toNat).prod := by
  induction raw generalizing acum strides with
  | nil => exact absurd rfl hne
  | cons d raw ih =>
    obtain ⟨-, rest, hrest, rfl⟩ := extractStrides_cons_ok h
    rw [List.map_cons, List.map_cons, byteStrides, List.cons.injEq] at hexact
    rw [List.map_cons, List.prod_cons] at hle ⊢
    have hdiv : (acum / d).toNat ≤ (raw.map UInt32.toNat).prod := by
      rw [UInt32.toNat_div]
      exact Nat.div_le_of_le_mul hle
    have heq : (acum / d).toNat = (raw.map UInt32.toNat).prod := by
      by_cases hnil : raw = []
      · subst hnil
        have hfirst := hexact.1
        rw [UInt32.toNat_mul, List.map_nil, List.prod_nil] at hfirst
        rw [List.map_nil, List.prod_nil] at hdiv ⊢
        by_contra hn
        rw [show (acum / d).toNat = 0 by omega, Nat.zero_mul] at hfirst
        omega
      · exact ih hdiv hrest hexact.2 hnil
    rw [UInt32.toNat_div] at heq
    have hback : d.toNat * (raw.map UInt32.toNat).prod ≤ acum.toNat := by
      rw [← heq]
      exact Nat.mul_div_le _ _
    omega

theorem array_size {metas : NumpyMetas} :
    metas.array.getArraySize = metas.elemSize.toNat * (metas.dims.map UInt32.toNat).prod % 2 ^ 64 := by
  rw [ArrayMetadata.getArraySize, foldl_mul_u64 _ (by decide), Nat.one_mul, Nat.mul_comm]
  exact Nat.mul_mod_mod _ _ _

theorem extractNumpyMetaData_eq {dtype : UInt8} (arr : NumpyMetas) (h : getDtypeSize dtype = .ok elemSize) :
    extractNumpyMetaData raw dtype arr =
      (extractStrides elemSize (raw.foldl (fun acum d => acum * d) 1) raw).map fun strides =>
        (raw.foldl (fun acum d => acum * d) 1 * elemSize,
          ⟨0x0501, elemSize, 0, dtype, '='.toUInt8, raw, strides⟩) := by
  rw [extractNumpyMetaData, h]
  simp only [bind, Except.bind]
  cases extractStrides elemSize (raw.foldl (fun acum d => acum * d) 1) raw with
  | error e => rfl
  | ok strides => rfl

/-- The metadata of before do not matter. -/
theorem extractNumpyMetaData_again {dtype : UInt8} {arr : NumpyMetas} {size : UInt32} {metas : NumpyMetas}
    (h : extractNumpyMetaData raw dtype arr = .ok (size, metas)) (arr' : NumpyMetas) :
    extractNumpyMetaData raw metas.typekind arr' = .ok (size, metas) := by
  cases hd : getDtypeSize dtype with
  | error e =>
    rw [extractNumpyMetaData, hd] at h
    exact absurd h (by simp [bind, Except.bind])
  | ok elemSize =>
    rw [extractNumpyMetaData_eq arr hd] at h
    cases hs : extractStrides elemSize (raw.foldl (fun acum d => acum * d) 1) raw with
    | error e =>
      rw [hs] at h
      exact absurd h (by simp [Except.map])
    | ok strides =>
      rw [hs] at h
      obtain ⟨rfl, rfl⟩ := Prod.mk.inj (Except.ok.inj h)
      rw [extractNumpyMetaData_eq arr' hd, hs]
      rfl

theorem duplicate_whole {datasrc : Bytes} {size : Nat} (h : datasrc.length = size) :
    duplicate (some datasrc) size = .ok datasrc := by
  rw [duplicate, if_pos h.ge, List.take_of_length_le h.le]

section whole

variable {dtype : UInt8} {arr metas : NumpyMetas} {size : UInt32} {datasrc : Bytes}

theorem setNumpy_whole {obj : CppStorageNumpy} (h : extractNumpyMetaData raw dtype obj.numpyMetas = .ok (size, metas))
    (hlen : datasrc.length = size.toNat) : obj.setNumpy (some datasrc) raw dtype = .ok ⟨raw, metas, some datasrc⟩ := by
  rw [setNumpy, h]
  simp only [bind, Except.bind, duplicate_whole hlen]
  rfl

theorem copy_whole (h : extractNumpyMetaData raw dtype arr = .ok (size, metas))
    (hlen : datasrc.length = size.toNat) :
    copy ⟨raw, metas, some datasrc⟩ = .ok ⟨raw, metas, some datasrc⟩ := by
  rw [copy, extractNumpyMetaData_again h]
  simp only [bind, Except.bind, duplicate_whole hlen]
  rfl

theorem assign_whole (h : extractNumpyMetaData raw dtype arr = .ok (size, metas))
    (hlen : datasrc.length = size.toNat) :
    assign ⟨raw, metas, some datasrc⟩ = .ok ⟨raw, metas, some datasrc⟩ := by
  rw [assign, extractNumpyMetaData_again h]
  simp only [bind, Except.bind, duplicate_whole hlen]
  rfl

end whole

variable {dtype : UInt8} {obj : CppStorageNumpy}

theorem exact_of_counted (hdtype : getDtypeSize dtype = .ok elemSize) (h : CountedInWord raw elemSize) :
    ∃ size metas, ExactMetadata raw dtype obj size metas := by
  obtain ⟨hpos, hlt⟩ := h
  have hle : (raw.map UInt32.toNat).prod ≤ elemSize.toNat * (raw.map UInt32.toNat).prod :=
    Nat.le_mul_of_pos_left _ (getDtypeSize_bounds hdtype).1
  have hacum := foldl_mul_toNat raw 1
  rw [UInt32.toNat_one, Nat.one_mul, Nat.mod_eq_of_lt (by omega)] at hacum
  have hlt' : elemSize.toNat * (raw.foldl (fun acum d => acum * d) 1).toNat < 2 ^ 32 := by rwa [hacum]
  obtain ⟨strides, hs, hmap⟩ := extractStrides_exact hpos hacum hlt'
  have hextract := @extractNumpyMetaData_eq elemSize raw dtype obj.numpyMetas hdtype
  rw [hs] at hextract
  have hsize : (raw.foldl (fun acum d => acum * d) 1 * elemSize).toNat =
      (NumpyMetas.mk 0x0501 elemSize 0 dtype '='.toUInt8 raw strides).array.getArraySize := by
    rw [array_size, UInt32.toNat_mul, hacum, Nat.mul_comm, Nat.mod_eq_of_lt hlt,
      Nat.mod_eq_of_lt (hlt.trans (by decide))]
  exact ⟨_, _, hextract, hsize, hmap, fun _ hlen => setNumpy_whole hextract (hlen.trans hsize.symm),
    fun _ hlen => copy_whole hextract (hlen.trans hsize.symm),
    fun _ hlen => assign_whole hextract (hlen.trans hsize.symm)⟩

theorem counted_of_exact {size : UInt32} {metas : NumpyMetas} (hdtype : getDtypeSize dtype = .ok elemSize)
    (h : ExactMetadata raw dtype obj size metas) : CountedInWord raw elemSize := by
  obtain ⟨hes, hes8⟩ := getDtypeSize_bounds hdtype
  have hex := h.extracted
  rw [extractNumpyMetaData_eq obj.numpyMetas hdtype] at hex
  cases hs : extractStrides elemSize (raw.foldl (fun acum d => acum * d) 1) raw with
  | error e =>
    rw [hs] at hex
    exact absurd hex (by simp [Except.map])
  | ok strides =>
    rw [hs] at hex
    obtain ⟨rfl, rfl⟩ := Prod.mk.inj (Except.ok.inj hex)
    have hle : (raw.foldl (fun acum d => acum * d) 1).toNat ≤ (raw.map UInt32.toNat).prod := by
      rw [foldl_mul_toNat, UInt32.toNat_one, Nat.one_mul]
      exact Nat.mod_le _ _
    have hprod : (raw.foldl (fun acum d => acum * d) 1).toNat = (raw.map UInt32.toNat).prod := by
      by_cases hne : raw = []
      · rw [hne]
        rfl
      · exact acum_eq_prod hes hle hs h.strides_eq hne
    have hlt := (raw.foldl (fun acum d => acum * d) 1).toNat_lt
    have hmul := Nat.mul_le_mul_right (raw.map UInt32.toNat).prod hes8
    have hsize := h.size_eq
    rw [array_size, UInt32.toNat_mul, hprod, Nat.mul_comm] at hsize
    change elemSize.toNat * (raw.map UInt32.toNat).prod % 2 ^ 32 =
      elemSize.toNat * (raw.map UInt32.toNat).prod % 2 ^ 64 at hsize
    exact ⟨extractStrides_ok hs, by omega⟩

end CppStorageNumpy

/-- The metadata are exact where the bytes of the array can be counted in a word, and nowhere else. -/
theorem metadata_exact_iff (raw : List UInt32) (dtype : UInt8) (obj : CppStorageNumpy) {elemSize : UInt32}
    (hdtype : CppStorageNumpy.getDtypeSize dtype = .ok elemSize) :
    (∃ size metas, ExactMetadata raw dtype obj size metas) ↔ CountedInWord raw elemSize := by
  constructor
  · rintro ⟨size, metas, h⟩
    exact CppStorageNumpy.counted_of_exact hdtype h
  · intro h
    exact CppStorageNumpy.exact_of_counted hdtype h

theorem metadata_exact_matrix : ∃ size metas, ExactMetadata [3, 2] 'f'.toUInt8 {} size metas := by
  have hdtype : CppStorageNumpy.getDtypeSize 'f'.toUInt8 = .ok 8 := by decide
  exact (metadata_exact_iff [3, 2] 'f'.toUInt8 {} hdtype).mpr ⟨by simp, by decide⟩

theorem metadata_wrapped : ¬ ∃ size metas, ExactMetadata [65536, 65536] 'u'.toUInt8 {} size metas := by
  rintro ⟨size, metas, h⟩
  have hex : CppStorageNumpy.extractNumpyMetaData [65536, 65536] 'u'.toUInt8 {} =
      .ok (0, ⟨0x0501, 1, 0, 'u'.toUInt8, '='.toUInt8, [65536, 65536], [0, 0]⟩) := by decide
  obtain ⟨rfl, rfl⟩ := Prod.mk.inj (Except.ok.inj (hex.symm.trans h.extracted))
  exact absurd h.size_eq (by decide)

end Hecuba
