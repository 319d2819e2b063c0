import Hecuba.Fallible
import Hecuba.IntCursor
import Hecuba.NumpyMetadata

/-! The metadata of an array on their way to the database and back: the byte array of
registerNumpy, the user type that TupleRowFactory binds, and the fields that it reads again. -/

namespace Hecuba

def orUndefined {α : Type} : Option α → Except Thrown α
  | none => .error .undefined
  | some a => .ok a

def wordBytes (w : UInt32) : Bytes := toLittleEndian 4 w.toNat

def bytesWord (bytes : Bytes) : UInt32 := UInt32.ofNat (ofLittleEndian bytes)

/-- What registerNumpy copies one after the other behind the number of bytes, but for the strides. -/
def recordParts (size : Nat) (metas : NumpyMetas) : List Bytes :=
  [toLittleEndian 8 size, wordBytes metas.flags, wordBytes metas.elemSize, [metas.partitionType],
    [metas.typekind], [metas.byteorder], metas.dims.flatMap wordBytes]

/-- The byte array, in the memory that `malloc` returns. -/
def registerNumpy (metas : NumpyMetas) (junk : Nat → UInt8) : Except Thrown Bytes :=
  let size := 4 * metas.dims.length + (4 + 1 + 4 + 4 * metas.strides.length + 1 + 1)
  let byteArray := (List.range (size + 8)).map junk
  let parts := recordParts size metas ++ [metas.strides.flatMap wordBytes]
  (orUndefined (putAll (byteArray, 0) parts)).map Prod.fst

/-- The value of a field of the user type, and the calls of the driver that set and get it. -/
inductive CassField where
  | int32 (v : Int32)
  | int8 (v : Int8)
  | string (bytes : Bytes)
  | list (values : List Int32)
  deriving DecidableEq

/-- The fields of fixed size, and the offset behind them. -/
def unpackFixed (byteArray : Bytes) : Option (NumpyMetas × Int) :=
  (getAt byteArray 0 4).bind fun flags =>
  (getAt byteArray flags.2 4).bind fun elemSize =>
  (getAt byteArray elemSize.2 1).bind fun partitionType =>
  (getAt byteArray partitionType.2 1).bind fun typekind =>
  (getAt byteArray typekind.2 1).map fun byteorder =>
    ({ flags := bytesWord flags.1, elemSize := bytesWord elemSize.1, partitionType := partitionType.1.headD 0,
       typekind := typekind.1.headD 0, byteorder := byteorder.1.headD 0 }, byteorder.2)

/-- The dimensions and the strides share the remaining words evenly. -/
def unpackVectors (byteArray : Bytes) (fixed : NumpyMetas × Int) (remain : Nat) : Except Thrown NumpyMetas :=
  if remain = 0 ∨ remain % 2 ≠ 0 then
    .error (.moduleException "Corrupted data. Data does not fit ArrayMetaData or even number of dims/strides")
  else do
    let nelems := remain / 2
    let dims ← orUndefined (getMany 4 bytesWord byteArray nelems fixed.2)
    let strides ← orUndefined (getMany 4 bytesWord byteArray nelems dims.2)
    return { fixed.1 with dims := dims.1, strides := strides.1 }

/-- The element is the number of bytes, and the bytes behind it. -/
def unpackNumpy (element : Bytes) : Except Thrown NumpyMetas := do
  let header ← orUndefined (getAt element 0 8)
  let size := int64 (ofLittleEndian header.1)
  let byteArray := element.drop 8
  if size < 11 then .error (.moduleException "Corrupted data. Data does not fit ArrayMetaData")
  else do
    let fixed ← orUndefined (unpackFixed byteArray)
    unpackVectors byteArray fixed (u32 (((size - fixed.2) % 2 ^ 64).toNat / 4))

/-- The fields that are set by name, the words as signed ones. -/
def udtFields (metas : NumpyMetas) : List (String × CassField) :=
  [("flags", .int32 metas.flags.toInt32), ("elem_size", .int32 metas.elemSize.toInt32),
    ("partition_type", .int8 metas.partitionType.toInt8), ("typekind", .string [metas.typekind]),
    ("byteorder", .string [metas.byteorder]), ("dims", .list (metas.dims.map UInt32.toInt32)),
    ("strides", .list (metas.strides.map UInt32.toInt32))]

/-- `TupleRowFactory::bind` of a user type. -/
def bindUdt (element : Bytes) : Except Thrown (List (String × CassField)) := (unpackNumpy element).map udtFields

inductive StringValue where
  | evFlags | evElemSize | evPartitionType | evTypeKind | evByteOrder | evDims | evStrides
  deriving DecidableEq

def mapStringValues : List (String × StringValue) :=
  [("flags", .evFlags), ("elem_size", .evElemSize), ("partition_type", .evPartitionType),
    ("typekind", .evTypeKind), ("byteorder", .evByteOrder), ("dims", .evDims), ("strides", .evStrides)]

/-- The only byte of a text. The length is added to the pointer to the message. -/
def singleByte (msg : String) (bytes : Bytes) : Except Thrown UInt8 :=
  if 1 < bytes.length then
    if bytes.length ≤ msg.length then .error (.moduleException (String.ofList (msg.toList.drop bytes.length)))
    else .error .undefined
  else orUndefined bytes.head?

/-- A value of another type than the field has leaves the variable of the source as it was. -/
def setArrayMetadataField (npMetas : NumpyMetas) (field : String) (value : CassField) : Except Thrown NumpyMetas :=
  match mapStringValues.lookup field, value with
  | none, _ => .error (.moduleException
      ("TupleRowFactory::setArrayMetadataField Found unknown field named " ++ field ++ ". Exitting."))
  | some .evFlags, .int32 v => .ok { npMetas with flags := v.toUInt32 }
  | some .evElemSize, .int32 v => .ok { npMetas with elemSize := v.toUInt32 }
  | some .evPartitionType, .int8 v => .ok { npMetas with partitionType := v.toUInt8 }
  | some .evTypeKind, .string bytes => do
    return { npMetas with typekind :=
      (← singleByte "TupleRowFactory::cass_to_c Unexpected TypeKind. Length should be 1 but received " bytes) }
  | some .evByteOrder, .string bytes => do
    return { npMetas with byteorder :=
      (← singleByte "TupleRowFactory::cass_to_c Unexpected ByteOrder. Length should be 1 but received " bytes) }
  | some .evDims, .list values => .ok { npMetas with dims := npMetas.dims ++ values.map Int32.toUInt32 }
  | some .evStrides, .list values => .ok { npMetas with strides := npMetas.strides ++ values.map Int32.toUInt32 }
  | some _, _ => .error .undefined

/-- `TupleRowFactory::cass_to_c` of a user type, whose fields come one after the other. -/
def cassToC (value : Option (List (String × CassField))) : Except Thrown (Option NumpyMetas) :=
  match value with
  | none => .ok none
  | some fields =>
    (fields.foldlM (fun npMetas field => setArrayMetadataField npMetas field.1 field.2) {}).map some

/-- Written, bound and read again, the metadata are the same, in whatever order the fields come. -/
def MetadataRoundTrips (metas : NumpyMetas) (junk : Nat → UInt8) : Prop :=
  ∃ element fields, registerNumpy metas junk = .ok element ∧ bindUdt element = .ok fields ∧
    ∀ delivered, delivered.Perm fields → cassToC (some delivered) = .ok (some metas)

section words

theorem wordBytes_length (w : UInt32) : (wordBytes w).length = 4 := toLittleEndian_length 4 w.toNat

theorem bytesWord_wordBytes (w : UInt32) : bytesWord (wordBytes w) = w := by
  rw [bytesWord, wordBytes, ofLittleEndian_toLittleEndian w.toNat_lt, UInt32.ofNat_toNat]

theorem words_length (l : List UInt32) : (l.flatMap wordBytes).length = 4 * l.length := by
  rw [List.length_flatMap]
  simp [wordBytes_length, Nat.mul_comm]

theorem map_toUInt32_toInt32 (l : List UInt32) : l.map (Int32.toUInt32 ∘ UInt32.toInt32) = l := List.map_id l

end words

section write

variable {metas : NumpyMetas} {size : Nat}

/-- What follows the header. -/
def recordBody (metas : NumpyMetas) : Bytes :=
  wordBytes metas.flags ++ wordBytes metas.elemSize ++ [metas.partitionType, metas.typekind, metas.byteorder] ++
    metas.dims.flatMap wordBytes ++ metas.strides.flatMap wordBytes

theorem recordParts_flatten : (recordParts size metas).flatten ++ metas.strides.flatMap wordBytes =
    toLittleEndian 8 size ++ recordBody metas := by
  simp [recordParts, recordBody]

theorem recordParts_length : (recordParts size metas).flatten.length = 19 + 4 * metas.dims.length := by
  simp only [recordParts, List.flatten_cons, List.flatten_nil, List.length_append, toLittleEndian_length,
    wordBytes_length, words_length, List.length_cons, List.length_nil]
  omega

theorem registerNumpy_eq (junk : Nat → UInt8) (hlt : 19 + 4 * metas.dims.length < 2 ^ 31) :
    registerNumpy metas junk = .ok
      (toLittleEndian 8 (11 + 4 * metas.dims.length + 4 * metas.strides.length) ++ recordBody metas) := by
  have hsize : 4 * metas.dims.length + (4 + 1 + 4 + 4 * metas.strides.length + 1 + 1) =
      11 + 4 * metas.dims.length + 4 * metas.strides.length := by omega
  rw [registerNumpy, hsize]
  have hput := @putAll_whole UInt8 (recordParts (11 + 4 * metas.dims.length + 4 * metas.strides.length) metas)
    (metas.strides.flatMap wordBytes)
    ((List.range (11 + 4 * metas.dims.length + 4 * metas.strides.length + 8)).map junk)
    (by rw [recordParts_length]; exact hlt)
    (by rw [recordParts_length, words_length, List.length_map, List.length_range]; omega)
  rw [recordParts_flatten] at hput
  change Except.map Prod.fst (orUndefined (putAll (_, intOffset 0) _)) = _
  rw [hput]
  rfl

end write

section read

variable {metas : NumpyMetas}

theorem orUndefined_ok_iff {α : Type} {o : Option α} {a : α} : orUndefined o = .ok a ↔ o = some a := by
  cases o with
  | none => simp [orUndefined]
  | some b => simp [orUndefined]

theorem unpackVectors_ok_iff {byteArray : Bytes} {fixed : NumpyMetas × Int} {remain : Nat} :
    unpackVectors byteArray fixed remain = .ok metas ↔ (remain ≠ 0 ∧ remain % 2 = 0) ∧ ∃ dims strides,
      getMany 4 bytesWord byteArray (remain / 2) fixed.2 = some dims ∧
      getMany 4 bytesWord byteArray (remain / 2) dims.2 = some strides ∧
      { fixed.1 with dims := dims.1, strides := strides.1 } = metas := by
  rw [unpackVectors]
  by_cases hc : remain = 0 ∨ remain % 2 ≠ 0
  · rw [if_pos hc]
    exact iff_of_false (by simp) (by omega)
  · rw [if_neg hc]
    simp only [bind_ok_iff, orUndefined_ok_iff, pure_eq_ok_iff, exists_and_left]
    exact (and_iff_right (by omega)).symm

theorem unpackNumpy_ok_iff {element : Bytes} : unpackNumpy element = .ok metas ↔ ∃ header fixed,
    getAt element (intOffset 0) 8 = some header ∧ 11 ≤ int64 (ofLittleEndian header.1) ∧
    unpackFixed (element.drop 8) = some fixed ∧
    unpackVectors (element.drop 8) fixed
      (u32 (((int64 (ofLittleEndian header.1) - fixed.2) % 2 ^ 64).toNat / 4)) = .ok metas := by
  change (orUndefined (getAt element (intOffset 0) 8) >>= _) = _ ↔ _
  simp only [bind_ok_iff, orUndefined_ok_iff]
  refine exists_congr fun header => ?_
  by_cases hc : int64 (ofLittleEndian header.1) < 11
  · simp only [if_pos hc]
    exact iff_of_false (by simp) (by simp; omega)
  · simp only [if_neg hc, bind_ok_iff, orUndefined_ok_iff]
    have hle : 11 ≤ int64 (ofLittleEndian header.1) := by omega
    simp only [hle, true_and, exists_and_left]

theorem unpackFixed_body : unpackFixed (recordBody metas) =
    some ({ flags := metas.flags, elemSize := metas.elemSize, partitionType := metas.partitionType,
            typekind := metas.typekind, byteorder := metas.byteorder }, intOffset 11) := by
  have hw := wordBytes_length
  have hflags := @getAt_at UInt8 (recordBody metas) [] (wordBytes metas.flags)
    (wordBytes metas.elemSize ++ [metas.partitionType, metas.typekind, metas.byteorder] ++
      metas.dims.flatMap wordBytes ++ metas.strides.flatMap wordBytes)
    0 4 (by simp [recordBody]) rfl (hw _) (by decide)
  have helem := @getAt_at UInt8 (recordBody metas) (wordBytes metas.flags) (wordBytes metas.elemSize)
    ([metas.partitionType, metas.typekind, metas.byteorder] ++
      metas.dims.flatMap wordBytes ++ metas.strides.flatMap wordBytes)
    4 4 (by simp [recordBody]) (hw _) (hw _) (by decide)
  have htype := @getAt_at UInt8 (recordBody metas) (wordBytes metas.flags ++ wordBytes metas.elemSize)
    [metas.partitionType] ([metas.typekind, metas.byteorder] ++
      metas.dims.flatMap wordBytes ++ metas.strides.flatMap wordBytes)
    8 1 (by simp [recordBody]) (by simp [hw]) rfl (by decide)
  have hkind := @getAt_at UInt8 (recordBody metas)
    (wordBytes metas.flags ++ wordBytes metas.elemSize ++ [metas.partitionType])
    [metas.typekind] ([metas.byteorder] ++ metas.dims.flatMap wordBytes ++ metas.strides.flatMap wordBytes)
    9 1 (by simp [recordBody]) (by simp [hw]) rfl (by decide)
  have horder := @getAt_at UInt8 (recordBody metas)
    (wordBytes metas.flags ++ wordBytes metas.elemSize ++ [metas.partitionType, metas.typekind])
    [metas.byteorder] (metas.dims.flatMap wordBytes ++ metas.strides.flatMap wordBytes)
    10 1 (by simp [recordBody]) (by simp [hw]) rfl (by decide)
  change (getAt (recordBody metas) (intOffset 0) 4).bind _ = _
  rw [hflags, Option.bind_some, helem, Option.bind_some, htype, Option.bind_some, hkind, Option.bind_some, horder,
    Option.map_some]
  simp only [bytesWord_wordBytes, List.headD_cons]

theorem unpackFixed_offset {byteArray : Bytes} {r : NumpyMetas × Int} (h : unpackFixed byteArray = some r) :
    r.2 = intOffset 11 := by
  change (getAt byteArray (intOffset 0) 4).bind _ = some r at h
  rw [Option.bind_eq_some_iff] at h
  obtain ⟨flags, hflags, h⟩ := h
  rw [(getAt_nonneg hflags).2, Option.bind_eq_some_iff] at h
  obtain ⟨elemSize, helem, h⟩ := h
  rw [(getAt_nonneg helem).2, Option.bind_eq_some_iff] at h
  obtain ⟨partitionType, htype, h⟩ := h
  rw [(getAt_nonneg htype).2, Option.bind_eq_some_iff] at h
  obtain ⟨typekind, hkind, h⟩ := h
  rw [(getAt_nonneg hkind).2, Option.map_eq_some_iff] at h
  obtain ⟨byteorder, horder, rfl⟩ := h
  rw [(getAt_nonneg horder).2]

theorem dims_read (hrank : 11 + 4 * metas.dims.length ≤ 2 ^ 31) :
    getMany 4 bytesWord (recordBody metas) metas.dims.length (intOffset 11) =
      some (metas.dims, intOffset (11 + 4 * metas.dims.length)) := by
  have hpre : (wordBytes metas.flags ++ wordBytes metas.elemSize ++
      [metas.partitionType, metas.typekind, metas.byteorder]).length = 11 := by simp [wordBytes_length]
  have hmany := @getMany_encode UInt8 UInt32 4 bytesWord wordBytes wordBytes_length bytesWord_wordBytes metas.dims
    (wordBytes metas.flags ++ wordBytes metas.elemSize ++ [metas.partitionType, metas.typekind, metas.byteorder])
    (metas.strides.flatMap wordBytes) (by rw [hpre]; omega)
  rwa [hpre] at hmany

theorem strides_read (hrank : 11 + 4 * metas.dims.length + 4 * metas.strides.length ≤ 2 ^ 31 + 3) :
    getMany 4 bytesWord (recordBody metas) metas.strides.length (intOffset (11 + 4 * metas.dims.length)) =
      some (metas.strides, intOffset (11 + 4 * metas.dims.length + 4 * metas.strides.length)) := by
  have hpre : (wordBytes metas.flags ++ wordBytes metas.elemSize ++
      [metas.partitionType, metas.typekind, metas.byteorder] ++ metas.dims.flatMap wordBytes).length =
        11 + 4 * metas.dims.length := by
    rw [List.length_append, words_length]
    simp [wordBytes_length]
  have hmany := @getMany_encode UInt8 UInt32 4 bytesWord wordBytes wordBytes_length bytesWord_wordBytes metas.strides
    (wordBytes metas.flags ++ wordBytes metas.elemSize ++
      [metas.partitionType, metas.typekind, metas.byteorder] ++ metas.dims.flatMap wordBytes)
    [] (by rw [hpre]; omega)
  rwa [hpre, List.append_nil] at hmany

theorem remain_eq {n : Nat} (hrank : n < 2 ^ 28) :
    u32 ((((11 + 4 * n + 4 * n : Nat) - intOffset 11 : Int) % 2 ^ 64).toNat / 4) = 2 * n := by
  rw [intOffset_of_lt (by decide), u32]
  omega

/-- The record of the metadata whose offsets an `int` can hold. -/
theorem unpackNumpy_record (hlen : metas.dims.length = metas.strides.length) (hne : 1 ≤ metas.dims.length)
    (hrank : metas.dims.length < 2 ^ 28) :
    unpackNumpy (toLittleEndian 8 (11 + 4 * metas.dims.length + 4 * metas.strides.length) ++ recordBody metas) =
      .ok metas := by
  have hheader := @getAt_at UInt8
    (toLittleEndian 8 (11 + 4 * metas.dims.length + 4 * metas.strides.length) ++ recordBody metas) []
    (toLittleEndian 8 (11 + 4 * metas.dims.length + 4 * metas.strides.length)) (recordBody metas)
    0 8 rfl rfl (toLittleEndian_length _ _) (by decide)
  have hsize : int64 (ofLittleEndian (toLittleEndian 8 (11 + 4 * metas.dims.length + 4 * metas.strides.length))) =
      (11 + 4 * metas.dims.length + 4 * metas.dims.length : Nat) := by
    rw [ofLittleEndian_toLittleEndian (by omega), ← hlen, int64_of_lt (by omega)]
  have hbody : (toLittleEndian 8 (11 + 4 * metas.dims.length + 4 * metas.strides.length) ++
      recordBody metas).drop 8 = recordBody metas := List.drop_left' (toLittleEndian_length _ _)
  have hdims := @dims_read metas (by omega)
  have hstrides := @strides_read metas (by omega)
  rw [← hlen] at hstrides
  refine unpackNumpy_ok_iff.mpr ⟨_, _, hheader, by rw [hsize]; omega, by rw [hbody]; exact unpackFixed_body, ?_⟩
  rw [hbody, hsize, remain_eq hrank, unpackVectors_ok_iff, Nat.mul_div_cancel_left _ Nat.two_pos]
  refine ⟨by omega, _, (metas.strides, intOffset (11 + 4 * metas.dims.length + 4 * metas.dims.length)), hdims, ?_, rfl⟩
  dsimp only
  exact hstrides

theorem unpackNumpy_rank {element : Bytes} (h : unpackNumpy element = .ok metas) : metas.dims.length < 2 ^ 28 := by
  obtain ⟨header, fixed, -, -, hfixed, h⟩ := unpackNumpy_ok_iff.mp h
  obtain ⟨-, dims, strides, hdims, hstrides, rfl⟩ := unpackVectors_ok_iff.mp h
  generalize hk : u32 (((int64 (ofLittleEndian header.1) - fixed.2) % 2 ^ 64).toNat / 4) / 2 = k at hdims hstrides
  rw [unpackFixed_offset hfixed] at hdims
  obtain ⟨hlen, hoffset, hstart⟩ := getMany_starts hdims
  rw [hoffset] at hstrides
  obtain ⟨-, -, hstart'⟩ := getMany_starts hstrides
  have hk' : k < 2 ^ 31 := by
    unfold u32 at hk
    omega
  change dims.1.length < 2 ^ 28
  by_contra hn
  -- the word that starts 3 bytes beyond 2 GiB
  by_cases hword : 2 ^ 29 - 2 < k
  · have hneg := @intOffset_neg (11 + 4 * (2 ^ 29 - 2)) (by omega) (by omega)
    have hpos := hstart _ hword
    omega
  · have hneg := @intOffset_neg (11 + 4 * k + 4 * (2 ^ 29 - 2 - k)) (by omega) (by omega)
    have hpos := hstart' (2 ^ 29 - 2 - k) (by omega)
    omega

end read

section decode

variable {metas : NumpyMetas}

/-- The field of the user type that stands for `v`. -/
def fieldOf (metas : NumpyMetas) : StringValue → String × CassField
  | .evFlags => ("flags", .int32 metas.flags.toInt32)
  | .evElemSize => ("elem_size", .int32 metas.elemSize.toInt32)
  | .evPartitionType => ("partition_type", .int8 metas.partitionType.toInt8)
  | .evTypeKind => ("typekind", .string [metas.typekind])
  | .evByteOrder => ("byteorder", .string [metas.byteorder])
  | .evDims => ("dims", .list (metas.dims.map UInt32.toInt32))
  | .evStrides => ("strides", .list (metas.strides.map UInt32.toInt32))

/-- What the field does to the metadata that have been read so far. -/
def withField (metas npMetas : NumpyMetas) : StringValue → NumpyMetas
  | .evFlags => { npMetas with flags := metas.flags }
  | .evElemSize => { npMetas with elemSize := metas.elemSize }
  | .evPartitionType => { npMetas with partitionType := metas.partitionType }
  | .evTypeKind => { npMetas with typekind := metas.typekind }
  | .evByteOrder => { npMetas with byteorder := metas.byteorder }
  | .evDims => { npMetas with dims := npMetas.dims ++ metas.dims }
  | .evStrides => { npMetas with strides := npMetas.strides ++ metas.strides }

def setField (npMetas : NumpyMetas) (field : String × CassField) : NumpyMetas :=
  (setArrayMetadataField npMetas field.1 field.2).toOption.getD npMetas

theorem lookup_fieldOf (v : StringValue) : mapStringValues.lookup (fieldOf metas v).1 = some v := by
  cases v <;> simp [mapStringValues, fieldOf, List.lookup_cons]

theorem set_fieldOf (npMetas : NumpyMetas) (v : StringValue) :
    setArrayMetadataField npMetas (fieldOf metas v).1 (fieldOf metas v).2 = .ok (withField metas npMetas v) := by
  unfold setArrayMetadataField
  rw [lookup_fieldOf]
  cases v with
  | evDims =>
    change Except.ok { npMetas with dims := npMetas.dims ++ (metas.dims.map UInt32.toInt32).map Int32.toUInt32 } = _
    rw [List.map_map, map_toUInt32_toInt32]
    rfl
  | evStrides =>
    change Except.ok
      { npMetas with strides := npMetas.strides ++ (metas.strides.map UInt32.toInt32).map Int32.toUInt32 } = _
    rw [List.map_map, map_toUInt32_toInt32]
    rfl
  | evFlags | evElemSize | evPartitionType | evTypeKind | evByteOrder => rfl

theorem setField_fieldOf (npMetas : NumpyMetas) (v : StringValue) :
    setField npMetas (fieldOf metas v) = withField metas npMetas v := by
  rw [setField, set_fieldOf]
  rfl

theorem withField_comm (npMetas : NumpyMetas) (v w : StringValue) :
    withField metas (withField metas npMetas v) w = withField metas (withField metas npMetas w) v := by
  cases v <;> cases w <;> rfl

theorem udtFields_eq : udtFields metas = [StringValue.evFlags, .evElemSize, .evPartitionType, .evTypeKind,
    .evByteOrder, .evDims, .evStrides].map (fieldOf metas) := rfl

theorem mem_udtFields {field : String × CassField} (h : field ∈ udtFields metas) : ∃ v, field = fieldOf metas v := by
  rw [udtFields_eq, List.mem_map] at h
  obtain ⟨v, -, rfl⟩ := h
  exact ⟨v, rfl⟩

theorem foldl_udtFields : (udtFields metas).foldl setField {} = metas := by
  rw [udtFields_eq, List.foldl_map]
  simp only [setField_fieldOf, List.foldl_cons, List.foldl_nil, withField, List.nil_append]

theorem cassToC_delivered {delivered : List (String × CassField)} (h : delivered.Perm (udtFields metas)) :
    cassToC (some delivered) = .ok (some metas) := by
  have hfield : ∀ field ∈ delivered, ∃ v, field = fieldOf metas v := fun field hf => mem_udtFields (h.subset hf)
  have hset : ∀ field ∈ delivered, ∀ npMetas,
      setArrayMetadataField npMetas field.1 field.2 = .ok (setField npMetas field) := by
    intro field hf npMetas
    obtain ⟨v, rfl⟩ := hfield field hf
    rw [set_fieldOf, setField_fieldOf]
  have hcomm : ∀ x ∈ delivered, ∀ y ∈ delivered, ∀ z, setField (setField z x) y = setField (setField z y) x := by
    intro x hx y hy z
    obtain ⟨v, rfl⟩ := hfield x hx
    obtain ⟨w, rfl⟩ := hfield y hy
    simp only [setField_fieldOf]
    exact withField_comm z v w
  rw [cassToC, foldlM_eq_ok hset, h.foldl_eq' hcomm, foldl_udtFields]
  rfl

end decode

theorem MetadataRoundTrips.rank_lt {metas : NumpyMetas} {junk : Nat → UInt8} (h : MetadataRoundTrips metas junk) :
    metas.dims.length < 2 ^ 28 := by
  obtain ⟨element, fields, -, hbind, hread⟩ := h
  cases hunpack : unpackNumpy element with
  | error e =>
    rw [bindUdt, hunpack] at hbind
    exact absurd hbind (by simp [Except.map])
  | ok bound =>
    rw [bindUdt, hunpack] at hbind
    obtain rfl := Except.ok.inj hbind
    have hbound := (cassToC_delivered (List.Perm.refl _)).symm.trans (hread _ (List.Perm.refl _))
    obtain rfl := Option.some.inj (Except.ok.inj hbound)
    exact unpackNumpy_rank hunpack

/-- The round trip ends well exactly where the offsets of the record fit an `int`. -/
theorem metadata_round_trip_iff (metas : NumpyMetas) (junk : Nat → UInt8)
    (hlen : metas.dims.length = metas.strides.length) (hne : 1 ≤ metas.dims.length) :
    MetadataRoundTrips metas junk ↔ metas.dims.length < 2 ^ 28 := by
  constructor
  · exact MetadataRoundTrips.rank_lt
  · intro hrank
    refine ⟨_, _, registerNumpy_eq junk (by omega), ?_, fun _ hdelivered => cassToC_delivered hdelivered⟩
    rw [bindUdt, unpackNumpy_record hlen hne hrank]
    rfl

/-- A matrix of doubles. -/
def matrixMetas : NumpyMetas := ⟨0x0501, 8, 0, 'f'.toUInt8, '='.toUInt8, [3, 2], [16, 8]⟩

theorem metadata_round_trip_matrix : MetadataRoundTrips matrixMetas (fun _ => 0) :=
  (metadata_round_trip_iff matrixMetas (fun _ => 0) (by decide) (by decide)).mpr (by decide)

/-- One element in `2 ^ 28` dimensions. -/
def hugeRank : NumpyMetas :=
  ⟨0x0501, 8, 0, 'f'.toUInt8, '='.toUInt8, List.replicate (2 ^ 28) 1, List.replicate (2 ^ 28) 8⟩

theorem huge_rank_fails : ¬ (hugeRank.dims.length = hugeRank.strides.length → 1 ≤ hugeRank.dims.length →
    MetadataRoundTrips hugeRank (fun _ => 0)) := by
  intro h
  have hdims : hugeRank.dims.length = 2 ^ 28 := List.length_replicate
  have hstrides : hugeRank.strides.length = 2 ^ 28 := List.length_replicate
  have hrank := (h (hdims.trans hstrides.symm) (by omega)).rank_lt
  omega

end Hecuba
