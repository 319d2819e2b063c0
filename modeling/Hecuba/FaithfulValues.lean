import Hecuba.Fallible
import Hecuba.NullVector
import Hecuba.UnitParser

/-! Which Python values come back from a column as they went in, which are rejected, and
which are stored as something else. -/

namespace Hecuba

@[simp] theorem ParserFault.ok_bind {α β : Type} (a : α) (f : α → Except ParserFault β) : (.ok a >>= f) = f a := rfl

@[simp] theorem ParserFault.error_bind {α β : Type} (e : ParserFault) (f : α → Except ParserFault β) :
    (.error e >>= f) = .error e := rfl

@[simp] theorem ParserFault.pure_eq {α : Type} (a : α) : (pure a : Except ParserFault α) = .ok a := rfl

@[simp] theorem access_ok {α : Type} (a : α) : access (.ok a) = .ok a := rfl

@[simp] theorem access_error {α : Type} (f : Fault) : access (.error f : Except Fault α) = .error (.fault f) := rfl

theorem access_eq_ok {α : Type} {x : Except Fault α} {a : α} (h : access x = .ok a) : x = .ok a := by
  cases x with
  | error f => cases h
  | ok b => exact congrArg Except.ok (Except.ok.inj h)

section text

theorem utf8EncodeChar_ne_zero {c : Char} (hc : c ≠ '\x00') : 0 ∉ String.utf8EncodeChar c := by
  have hpos : c.val.toNat ≠ 0 := by
    intro h
    apply hc
    apply Char.ext
    apply UInt32.toNat_inj.mp
    exact h
  have hmax : c.val.toNat < 0x110000 := by
    have hvalid := c.valid
    simp only [UInt32.isValidChar, Nat.isValidChar] at hvalid
    omega
  have hne {n : Nat} (hn : 0 < n) (hn' : n < 256) : (0 : UInt8) ≠ UInt8.ofNat n := by
    intro h
    have hh := congrArg UInt8.toNat h
    rw [UInt8.toNat_ofNat', Nat.mod_eq_of_lt hn'] at hh
    simp at hh
    omega
  unfold String.utf8EncodeChar
  intro h
  dsimp only at h
  split at h
  · rw [List.mem_singleton] at h
    exact hne (by omega) (by omega) h
  · split at h
    · simp only [List.mem_cons, List.not_mem_nil, or_false] at h
      rcases h with h | h <;> exact hne (by omega) (by omega) h
    · split at h
      · simp only [List.mem_cons, List.not_mem_nil, or_false] at h
        rcases h with h | h | h <;> exact hne (by omega) (by omega) h
      · simp only [List.mem_cons, List.not_mem_nil, or_false] at h
        rcases h with h | h | h | h <;> exact hne (by omega) (by omega) h

/-- A zero byte is the NUL character and no part of another. -/
theorem zero_mem_utf8 {chars : List Char} : 0 ∈ chars.flatMap String.utf8EncodeChar ↔ '\x00' ∈ chars := by
  rw [List.mem_flatMap]
  constructor
  · rintro ⟨c, hc, hzero⟩
    by_cases h : c = '\x00'
    · exact h ▸ hc
    · exact absurd hzero (utf8EncodeChar_ne_zero h)
  · exact fun h => ⟨_, h, by decide⟩

theorem mapM_scalar (chars : List Char) : (chars.map CodePoint.scalar).mapM CodePoint.toChar? = some chars := by
  induction chars with
  | nil => rfl
  | cons c chars ih =>
    rw [List.map_cons, List.mapM_cons, ih]
    rfl

theorem asUTF8_scalar (chars : List Char) :
    asUTF8 (chars.map CodePoint.scalar) = some (chars.flatMap String.utf8EncodeChar) := by
  rw [asUTF8, mapM_scalar]
  rfl

theorem asUTF8_surrogate {text : List CodePoint} {n : Fin 0x800} (h : .surrogate n ∈ text) : asUTF8 text = none := by
  have hnone : text.mapM CodePoint.toChar? = none := mapM_eq_none_iff.mpr ⟨_, h, rfl⟩
  rw [asUTF8, hnone]
  rfl

theorem exists_scalar {text : List CodePoint} (h : ∀ n, .surrogate n ∉ text) :
    ∃ chars : List Char, text = chars.map CodePoint.scalar := by
  induction text with
  | nil => exact ⟨[], rfl⟩
  | cons c text ih =>
    obtain ⟨chars, rfl⟩ := ih fun n hn => h n (List.mem_cons_of_mem _ hn)
    cases c with
    | scalar c => exact ⟨c :: chars, rfl⟩
    | surrogate n => exact absurd List.mem_cons_self (h n)

theorem fromUTF8_utf8 (chars : List Char) :
    fromUTF8 (chars.flatMap String.utf8EncodeChar) = some (chars.map CodePoint.scalar) := by
  have hdecode : (chars.flatMap String.utf8EncodeChar).toByteArray.utf8Decode? = some chars.toArray :=
    List.utf8Decode?_utf8Encode
  rw [fromUTF8, hdecode]
  rfl

theorem fromUTF8_eq_some {bytes : Bytes} {text : List CodePoint} (h : fromUTF8 bytes = some text) :
    ∃ chars : List Char, text = chars.map CodePoint.scalar ∧ bytes = chars.flatMap String.utf8EncodeChar := by
  cases hdecode : bytes.toByteArray.utf8Decode? with
  | none =>
    rw [fromUTF8, hdecode] at h
    cases h
  | some chars =>
    rw [fromUTF8, hdecode] at h
    have hsome : bytes.toByteArray.utf8Decode?.isSome = true := by rw [hdecode]; rfl
    have hencode := @ByteArray.utf8Encode_get_utf8Decode? bytes.toByteArray hsome
    simp only [hdecode, Option.get_some] at hencode
    refine ⟨chars.toList, (Option.some.inj h).symm, ?_⟩
    have hbytes : (chars.toList.flatMap String.utf8EncodeChar).toByteArray = bytes.toByteArray := hencode
    simpa using (congrArg (fun b => b.data.toList) hbytes).symm

end text

namespace ScalarType

/-- The parser of the type raises an exception. -/
def Rejects : ScalarType → PyValue → Prop
  | .tinyInt, v | .smallInt, v => ∀ n, v.asLong? = some n → ¬ FitsSigned 2 n
  | .int, v => ∀ n, v.asLong? = some n → ¬ FitsSigned 4 n
  | .bigint, v => v.asLong? = none
  | .boolean, v => ∀ b, v ≠ .bool b
  | .text, v => ∀ text exact, v = .str text exact → ∃ n, .surrogate n ∈ text
  | .blob, v => ∀ bytes exact, v ≠ .bytearray bytes exact
  | .time, v => ∀ t, v ≠ .time t true

/-- The parser writes a short over a variable of one byte. -/
def Overruns (type : ScalarType) (v : PyValue) : Prop := type = .tinyInt ∧ ∃ n, v.asLong? = some n ∧ FitsSigned 2 n

/-- The value is read back as it is. -/
def Keeps : ScalarType → PyValue → Prop
  | .tinyInt, _ | .blob, _ => False
  | .smallInt, v => ∃ n, v = .int n true ∧ FitsSigned 2 n
  | .int, v => ∃ n, v = .int n true ∧ FitsSigned 4 n
  | .bigint, v => ∃ n, v = .int n true ∧ FitsSigned 8 n
  | .boolean, v => ∃ b, v = .bool b
  | .text, v => ∃ chars : List Char, v = .str (chars.map .scalar) true ∧ '\x00' ∉ chars
  | .time, v => ∃ t, v = .time t true ∧ t.utcoffset = none

/-- How the parser of a type ends. -/
inductive Ends (type : ScalarType) (heap : Heap) (v : PyValue) : Except ParserFault Parsed → Prop
  | rejected {e : ParserFault} (h : type.Rejects v) (he : e ≠ .fault .outOfBounds) : Ends type heap v (.error e)
  | overrun (h : type.Overruns v) : Ends type heap v (.error (.fault .outOfBounds))
  | stored {new : Heap} {payload : List Cell} (hrejects : ¬ type.Rejects v) (hoverruns : ¬ type.Overruns v)
      (hlen : payload.length = type.size)
      (hread : type.Keeps v → ∀ H, heap ++ new <+: H → type.cToPy H payload = .ok v) :
      Ends type heap v (.ok ⟨0, heap ++ new, payload⟩)

end ScalarType

theorem errorParsing_exception (obj : PyValue) :
    ∃ e, e ≠ .fault .outOfBounds ∧ ∀ {α : Type}, (errorParsing obj : Except ParserFault α) = .error e := by
  unfold errorParsing
  extract_lets repr
  by_cases h : repr.isSome = true
  · simp only [if_pos h]
    exact ⟨_, by simp, rfl⟩
  · simp only [if_neg h]
    exact ⟨_, by simp, rfl⟩

theorem ScalarType.Ends.of_errorParsing {type : ScalarType} {heap : Heap} {v : PyValue} (h : type.Rejects v) :
    type.Ends heap v (errorParsing v) := by
  obtain ⟨e, he, hraise⟩ := errorParsing_exception v
  rw [hraise]
  exact .rejected h he

theorem store_whole_cells {payload cells : List Cell} (h : cells.length = payload.length) :
    store payload 0 cells = .ok cells := by
  rw [store_front h.le, h, List.drop_length, List.append_nil]

theorem loadBytes_byteCells {bytes : Bytes} {n : Nat} (h : bytes.length = n) : loadBytes (byteCells bytes) 0 n = .ok bytes := by
  rw [loadBytes, load_self (by simpa using h), ok_bind, toBytes_byteCells]

theorem uninitialised_length (junk : Nat → Nat → UInt8) (heap : Heap) (n : Nat) : (uninitialised junk heap n).length = n := by
  simp [uninitialised]

theorem pyArgParse_fits {format : IntFormat} {n : Int} {dst : List Cell} (h : FitsSigned format.size n)
    (hdst : dst.length = format.size) :
    pyArgParse format n dst = .ok (true, byteCells (twosComplement format.size n)) := by
  rw [pyArgParse, if_pos h, store_whole_cells (by simp [hdst])]
  rfl

theorem pyArgParse_refuses {format : IntFormat} {n : Int} {dst : List Cell} (h : ¬ FitsSigned format.size n) :
    pyArgParse format n dst = .ok (false, dst) :=
  if_neg h

theorem intToPy_twosComplement {size : Nat} {n : Int} (hsize : 0 < size) (h : FitsSigned size n) :
    intToPy size (byteCells (twosComplement size n)) = .ok (.int n true) := by
  rw [intToPy, loadBytes_byteCells (twosComplement_length size n), access_ok, ParserFault.ok_bind,
    ofTwosComplement_twosComplement hsize h]
  rfl

theorem intToPy_eq_ok {size : Nat} {payload : List Cell} {v : PyValue} (hsize : 0 < size)
    (h : intToPy size payload = .ok v) : ∃ n, v = .int n true ∧ FitsSigned size n := by
  obtain ⟨bytes, hbytes, hv⟩ := bind_ok_iff.mp h
  obtain ⟨cells, hload, hcells⟩ := bind_eq_ok (access_eq_ok hbytes)
  have hlen : bytes.length = size := by
    rw [← (load_spec hload).2.2, eq_byteCells hcells, byteCells_length]
  have hfits := fitsSigned_ofTwosComplement (by omega : 0 < bytes.length)
  rw [hlen] at hfits
  exact ⟨_, (Except.ok.inj hv).symm, hfits⟩

section parsers

variable (junk : Nat → Nat → UInt8) (heap : Heap) {v : PyValue} {payload : List Cell}

theorem ScalarType.Ends.of_int {type : ScalarType} {n : Int} (hn : v.asLong? = some n) (hrejects : ¬ type.Rejects v)
    (hoverruns : ¬ type.Overruns v) {cells : List Cell} (hlen : cells.length = type.size)
    (hkeeps : type.Keeps v → v = .int n true → ∀ H, type.cToPy H cells = .ok (.int n true))
    (hexact : type.Keeps v → ∃ n', v = .int n' true) : type.Ends heap v (.ok ⟨0, heap, cells⟩) := by
  have hstored : type.Ends heap v (.ok ⟨0, heap ++ [], cells⟩) := by
    refine .stored hrejects hoverruns hlen fun hkeep H _ => ?_
    obtain ⟨n', rfl⟩ := hexact hkeep
    obtain rfl : n' = n := Option.some.inj hn
    exact hkeeps hkeep rfl H
  simpa only [List.append_nil] using hstored

theorem rejected_of_none {size : Nat} (h : v.asLong? = none) (n : Int) (hn : v.asLong? = some n) :
    ¬ FitsSigned size n := by
  rw [h] at hn
  cases hn

theorem rejected_of_some {size : Nat} {m : Int} (hm : v.asLong? = some m) (h : ¬ FitsSigned size m) (n : Int)
    (hn : v.asLong? = some n) : ¬ FitsSigned size n := by
  obtain rfl : m = n := Option.some.inj (hm.symm.trans hn)
  exact h

theorem Int8Parser.ends (hv : v ≠ .none) : ScalarType.Ends .tinyInt heap v (Int8Parser.pyToC junk heap v payload) := by
  rw [Int8Parser.pyToC, shortToC]
  · cases hn : v.asLong? with
    | none => exact .of_errorParsing (rejected_of_none hn)
    | some n =>
      by_cases h : FitsSigned 2 n
      · have hpast : pyArgParse .shortInt n (uninitialised junk heap 1) = .error .outOfBounds := by
          rw [pyArgParse, IntFormat.size, if_pos h, store, if_neg]
          · rfl
          · simp [uninitialised_length]
        dsimp only
        rw [hpast]
        exact .overrun ⟨rfl, n, hn, h⟩
      · dsimp only
        rw [@pyArgParse_refuses .shortInt _ _ h]
        exact .of_errorParsing (rejected_of_some hn h)
  · exact hv

theorem Int16Parser.ends (hv : v ≠ .none) (hlen : payload.length = 2) :
    ScalarType.Ends .smallInt heap v (Int16Parser.pyToC junk heap v payload) := by
  rw [Int16Parser.pyToC, shortToC]
  · cases hn : v.asLong? with
    | none => exact .of_errorParsing (rejected_of_none hn)
    | some n =>
      by_cases h : FitsSigned 2 n
      · have hwrite : (load (byteCells (twosComplement 2 n)) 0 2 >>= store payload 0) =
            .ok (byteCells (twosComplement 2 n)) := by
          rw [load_self (by simp), ok_bind, store_whole_cells (by simp [hlen])]
        have hparse : pyArgParse .shortInt n (uninitialised junk heap 2) = .ok (true, byteCells (twosComplement 2 n)) :=
          pyArgParse_fits h (uninitialised_length ..)
        have hrejects : ¬ ScalarType.Rejects .smallInt v := fun hr => hr n hn h
        dsimp only
        rw [hparse, access_ok, ParserFault.ok_bind]
        dsimp only
        rw [if_pos rfl, hwrite]
        exact .of_int heap hn hrejects (fun ho => by cases ho.1) (by simp [ScalarType.size])
          (fun _ _ _ => intToPy_twosComplement (by decide) h) fun ⟨n', hn', _⟩ => ⟨n', hn'⟩
      · dsimp only
        rw [@pyArgParse_refuses .shortInt _ _ h]
        exact .of_errorParsing (rejected_of_some hn h)
  · exact hv

theorem Int32Parser.ends (hv : v ≠ .none) (hlen : payload.length = 4) :
    ScalarType.Ends .int heap v (Int32Parser.pyToC heap v payload) := by
  rw [Int32Parser.pyToC]
  · cases hn : v.asLong? with
    | none => exact .of_errorParsing (rejected_of_none hn)
    | some n =>
      by_cases h : FitsSigned 4 n
      · have hrejects : ¬ ScalarType.Rejects .int v := fun hr => hr n hn h
        dsimp only
        rw [@pyArgParse_fits .int n payload h hlen]
        exact .of_int heap hn hrejects (fun ho => by cases ho.1) (by simp [ScalarType.size, IntFormat.size])
          (fun _ _ _ => intToPy_twosComplement (by decide) h) fun ⟨n', hn', _⟩ => ⟨n', hn'⟩
      · dsimp only
        rw [@pyArgParse_refuses .int _ _ h]
        exact .of_errorParsing (rejected_of_some hn h)
  · exact hv

/-- Whether `PyArg_Parse` has written the variable or not, the source goes on to store it. -/
theorem Int64Parser.ends (hv : v ≠ .none) (hlen : payload.length = 8) :
    ScalarType.Ends .bigint heap v (Int64Parser.pyToC junk heap v payload) := by
  rw [Int64Parser.pyToC]
  · cases hn : v.asLong? with
    | none =>
      have hrejects : ScalarType.Rejects .bigint v := hn
      exact .of_errorParsing hrejects
    | some n =>
      have hnever (parsed : Bool) : ¬ (if parsed then 1 else 0 : Int) < 0 := by
        cases parsed
        · decide
        · decide
      have hrejects : ¬ ScalarType.Rejects .bigint v := fun hr => by
        have hnone : v.asLong? = none := hr
        rw [hn] at hnone
        cases hnone
      obtain ⟨parsed, t, hparse, ht, hfit⟩ : ∃ parsed t, pyArgParse .longLong n (uninitialised junk heap 8) = .ok (parsed, t) ∧
          t.length = 8 ∧ (FitsSigned 8 n → t = byteCells (twosComplement 8 n)) := by
        by_cases h : FitsSigned 8 n
        · exact ⟨_, _, pyArgParse_fits h (uninitialised_length ..), by simp [IntFormat.size], fun _ => rfl⟩
        · exact ⟨false, _, pyArgParse_refuses h, uninitialised_length .., fun h' => absurd h' h⟩
      dsimp only
      rw [hparse, access_ok, ParserFault.ok_bind]
      dsimp only
      rw [if_neg (hnever parsed), store_whole_cells (ht.trans hlen.symm)]
      refine .of_int heap hn hrejects (fun ho => by cases ho.1) ht ?_ fun ⟨n', hn', _⟩ => ⟨n', hn'⟩
      rintro ⟨n', rfl, hfits⟩ hv' H
      obtain rfl : n' = n := Option.some.inj hn
      rw [hfit hfits]
      exact intToPy_twosComplement (by decide) hfits
  · exact hv

/-- A value that is written to the payload or to a block of its own. -/
theorem ScalarType.Ends.of_stored {type : ScalarType} {new : Heap} (hrejects : ¬ type.Rejects v)
    (hoverruns : type ≠ .tinyInt) {cells : List Cell} (hlen : cells.length = type.size)
    (hread : type.Keeps v → ∀ H, heap ++ new <+: H → type.cToPy H cells = .ok v) :
    type.Ends heap v (.ok ⟨0, heap ++ new, cells⟩) :=
  .stored hrejects (fun ho => hoverruns ho.1) hlen hread

theorem BoolParser.ends (hv : v ≠ .none) (hlen : payload.length = 1) :
    ScalarType.Ends .boolean heap v (BoolParser.pyToC heap v payload) := by
  cases v with
  | bool b =>
    have hrejects : ¬ ScalarType.Rejects .boolean (.bool b) := fun hr => hr b rfl
    rw [BoolParser.pyToC, store_whole_cells (by simp [hlen]), access_ok, ParserFault.ok_bind]
    have hstored : ScalarType.Ends .boolean heap (.bool b) (.ok ⟨0, heap ++ [], byteCells [if b then 1 else 0]⟩) := by
      refine .of_stored heap hrejects (by decide) rfl fun _ H _ => ?_
      cases b
      · rfl
      · rfl
    simpa only [List.append_nil, ParserFault.pure_eq] using hstored
  | none => exact absurd rfl hv
  | _ =>
    refine .of_errorParsing ?_
    intro b h
    cases h

theorem blockPointer {cells : List Cell} {H : Heap} (h : heap ++ [.block cells] <+: H) :
    (loadPointer (pointerCells heap.length) 0 >>= derefBlock H) = .ok cells := by
  have hload : loadPointer (pointerCells heap.length) 0 = .ok heap.length := by
    rw [loadPointer, load_self (pointerCells_length _), ok_bind, addressOf_pointerCells]
  rw [hload, ok_bind]
  exact derefBlock_of (getElem?_extends h (by simp))

theorem stringToPy_block {bytes : Bytes} {rest : List Cell} (hzero : 0 ∉ bytes) {H : Heap}
    (h : heap ++ [.block (byteCells (cString bytes) ++ rest)] <+: H) {text : List CodePoint}
    (htext : fromUTF8 bytes = some text) :
    stringToPy H (pointerCells heap.length) = .ok (.str text true) := by
  have hload : loadBytes (byteCells (cString bytes) ++ rest) 0 bytes.length = .ok bytes := by
    have hcells : byteCells (cString bytes) ++ rest = byteCells bytes ++ (.byte 0 :: rest) := by
      simp [cString, byteCells]
    rw [loadBytes, hcells, load_zero_append (byteCells_length bytes), ok_bind, toBytes_byteCells]
  have hstrlen := strlen_cString (fun b hb => fun hz => hzero (hz ▸ hb)) rest
  rw [stringToPy, blockPointer heap h, access_ok, ParserFault.ok_bind, hstrlen, ok_bind, hload, access_ok,
    ParserFault.ok_bind, htext]
  rfl

theorem TextParser.ends (hv : v ≠ .none) (hlen : payload.length = 8) :
    ScalarType.Ends .text heap v (TextParser.pyToC junk heap v payload) := by
  cases v with
  | str text exact =>
    cases hbytes : asUTF8 text with
    | none =>
      rw [TextParser.pyToC, hbytes]
      refine .of_errorParsing ?_
      rintro text' exact' ⟨⟩
      by_contra hnone
      obtain ⟨chars, rfl⟩ := exists_scalar fun n hn => hnone ⟨n, hn⟩
      rw [asUTF8_scalar] at hbytes
      cases hbytes
    | some bytes =>
      have hrejects : ¬ ScalarType.Rejects .text (.str text exact) := fun hr => by
        obtain ⟨n, hn⟩ := hr text exact rfl
        rw [asUTF8_surrogate hn] at hbytes
        cases hbytes
      have hcopy : store (uninitialised junk heap (bytes.length + 1)) 0 (byteCells bytes) =
          .ok (byteCells bytes ++ (uninitialised junk heap (bytes.length + 1)).drop bytes.length) := by
        rw [store_front (by simp [uninitialised_length]), byteCells_length]
      have hend : store (byteCells bytes ++ (uninitialised junk heap (bytes.length + 1)).drop bytes.length)
          bytes.length [.byte 0] = .ok (byteCells (cString bytes)) := by
        have hsuffix := @store_suffix (byteCells bytes) ((uninitialised junk heap (bytes.length + 1)).drop bytes.length)
          [.byte 0] (by simp [uninitialised_length])
        rw [byteCells_length] at hsuffix
        rw [hsuffix]
        simp [cString, byteCells]
      rw [TextParser.pyToC, hbytes]
      dsimp only
      rw [hcopy, access_ok, ParserFault.ok_bind, hend, access_ok, ParserFault.ok_bind,
        store_whole_cells (by simp [hlen]), access_ok, ParserFault.ok_bind]
      refine .of_stored heap hrejects (by decide) rfl ?_
      rintro ⟨chars, hchars, hnul⟩ H hH
      cases hchars
      obtain rfl : chars.flatMap String.utf8EncodeChar = bytes := Option.some.inj ((asUTF8_scalar chars).symm.trans hbytes)
      refine @stringToPy_block heap _ [] (fun hz => hnul (zero_mem_utf8.mp hz)) H ?_ _ (fromUTF8_utf8 chars)
      rwa [List.append_nil]
  | none => exact absurd rfl hv
  | _ =>
    refine .of_errorParsing ?_
    intro text exact h
    cases h

theorem BytesParser.ends (hv : v ≠ .none) (hlen : payload.length = 8) :
    ScalarType.Ends .blob heap v (BytesParser.pyToC junk heap v payload) := by
  cases v with
  | bytearray bytes exact =>
    have hrejects : ¬ ScalarType.Rejects .blob (.bytearray bytes exact) := fun hr => hr bytes exact rfl
    have hsize : store (uninitialised junk heap (bytes.length + 8)) 0 (byteCells (toLittleEndian 8 (u64 bytes.length))) =
        .ok (byteCells (toLittleEndian 8 (u64 bytes.length)) ++ (uninitialised junk heap (bytes.length + 8)).drop 8) := by
      rw [store_front (by simp [uninitialised_length, toLittleEndian_length]), byteCells_length, toLittleEndian_length]
    obtain ⟨permanent, hcopy⟩ : ∃ permanent, store (byteCells (toLittleEndian 8 (u64 bytes.length)) ++
        (uninitialised junk heap (bytes.length + 8)).drop 8) 8 (byteCells (bytes.take (u64 bytes.length))) = .ok permanent := by
      refine ⟨_, if_pos ?_⟩
      simp only [List.length_append, byteCells_length, toLittleEndian_length, List.length_drop, uninitialised_length,
        List.length_take]
      omega
    rw [BytesParser.pyToC, hsize, access_ok, ParserFault.ok_bind, hcopy, access_ok, ParserFault.ok_bind,
      store_whole_cells (by simp [hlen]), access_ok, ParserFault.ok_bind]
    exact .of_stored heap hrejects (by decide) rfl False.elim
  | none => exact absurd rfl hv
  | _ =>
    refine .of_errorParsing ?_
    intro bytes exact h
    cases h

theorem timeField_coe {bound : Nat} (hbound : bound < 2 ^ 31) (n : Fin bound) : timeField bound n = some n := by
  have hn := n.isLt
  have hbmod : (n : Int).bmod 4294967296 = n := by
    apply Int.bmod_eq_of_le_mul_two
    · omega
    · omega
  have hinside : 0 ≤ (n : Int) ∧ (n : Int) < bound := by omega
  have hsome (m : Int) (hm : m = n) :
      (if h : 0 ≤ m ∧ m < bound then some (⟨m.toNat, by omega⟩ : Fin bound) else none) = some n := by
    subst hm
    rw [dif_pos hinside]
    rfl
  exact hsome _ hbmod

/-- The fields of a time, taken apart from its microseconds as in the source. -/
theorem timeFields {hour minute second microsecond : Int} (hhour : 0 ≤ hour) (hminute : 0 ≤ minute ∧ minute < 60)
    (hsecond : 0 ≤ second ∧ second < 60) (hmicro : 0 ≤ microsecond ∧ microsecond < 1000000) :
    let msec := (hour * 3600000000000 + minute * 60000000000 + second * 1000000000 + microsecond * 1000).tdiv 1000
    let msec' := msec - 3600000000 * msec.tdiv 3600000000
    let msec'' := msec' - 60000000 * msec'.tdiv 60000000
    msec.tdiv 3600000000 = hour ∧ msec'.tdiv 60000000 = minute ∧ msec''.tdiv 1000000 = second ∧
      msec'' - 1000000 * msec''.tdiv 1000000 = microsecond := by
  intro msec msec' msec''
  have hmsec : msec = hour * 3600000000 + minute * 60000000 + second * 1000000 + microsecond := by
    simp only [msec]
    rw [Int.tdiv_eq_ediv_of_nonneg (by omega)]
    omega
  have hh : msec.tdiv 3600000000 = hour := by
    rw [Int.tdiv_eq_ediv_of_nonneg (by omega)]
    omega
  have hmsec' : msec' = minute * 60000000 + second * 1000000 + microsecond := by
    simp only [msec', hh]
    omega
  have hm : msec'.tdiv 60000000 = minute := by
    rw [Int.tdiv_eq_ediv_of_nonneg (by omega)]
    omega
  have hmsec'' : msec'' = second * 1000000 + microsecond := by
    simp only [msec'', hm]
    omega
  have hs : msec''.tdiv 1000000 = second := by
    rw [Int.tdiv_eq_ediv_of_nonneg (by omega)]
    omega
  refine ⟨hh, hm, hs, ?_⟩
  rw [hs]
  omega

theorem TimeParser.ends (hv : v ≠ .none) (hlen : payload.length = 8) :
    ScalarType.Ends .time heap v (TimeParser.pyToC heap v payload) := by
  cases v with
  | time t exact =>
    cases exact with
    | false =>
      refine .of_errorParsing ?_
      intro t' h
      cases h
    | true =>
      obtain ⟨hour, minute, second, microsecond, utcoffset⟩ := t
      have hrejects : ¬ ScalarType.Rejects .time (.time ⟨hour, minute, second, microsecond, utcoffset⟩ true) :=
        fun hr => hr _ rfl
      have hhour := hour.isLt
      have hminute := minute.isLt
      have hsecond := second.isLt
      have hmicro := microsecond.isLt
      rw [TimeParser.pyToC]
      dsimp only
      generalize hdate : (hour : Int) * 3600000000000 + (minute : Int) * 60000000000 + (second : Int) * 1000000000 +
        (microsecond : Int) * 1000 = date
      have hfits : FitsSigned 8 date := ⟨by omega, by omega⟩
      rw [store_whole_cells (by simp [hlen]), access_ok, ParserFault.ok_bind]
      have hstored : ScalarType.Ends .time heap (.time ⟨hour, minute, second, microsecond, utcoffset⟩ true)
          (.ok ⟨0, heap ++ [], byteCells (twosComplement 8 date)⟩) := by
        refine .of_stored heap hrejects (by decide) (by simp [ScalarType.size]) ?_
        rintro ⟨t, ht, hoffset⟩ H -
        cases ht
        obtain rfl : utcoffset = none := hoffset
        obtain ⟨hh, hm, hs, hu⟩ := @timeFields hour minute second microsecond (by omega) ⟨by omega, by omega⟩
          ⟨by omega, by omega⟩ ⟨by omega, by omega⟩
        rw [hdate] at hh hm hs hu
        rw [ScalarType.cToPy, TimeParser.cToPy, loadBytes_byteCells (twosComplement_length 8 date), access_ok,
          ParserFault.ok_bind, ofTwosComplement_twosComplement (by decide) hfits]
        dsimp only
        rw [hh] at hm hs hu ⊢
        rw [hm] at hs hu ⊢
        rw [hs] at hu ⊢
        rw [hu, pyTimeFromTime, timeField_coe (by decide), timeField_coe (by decide), timeField_coe (by decide),
          timeField_coe (by decide)]
        rfl
      simpa only [List.append_nil, ParserFault.pure_eq] using hstored
  | none => exact absurd rfl hv
  | _ =>
    refine .of_errorParsing ?_
    intro t h
    cases h

end parsers

namespace ScalarType

theorem pyToC_ends (junk : Nat → Nat → UInt8) (heap : Heap) (type : ScalarType) {v : PyValue} {payload : List Cell}
    (hv : v ≠ .none) (hlen : payload.length = type.size) : type.Ends heap v (type.pyToC junk heap v payload) := by
  cases type with
  | tinyInt => exact Int8Parser.ends junk heap hv
  | smallInt => exact Int16Parser.ends junk heap hv hlen
  | int => exact Int32Parser.ends heap hv hlen
  | bigint => exact Int64Parser.ends junk heap hv hlen
  | boolean => exact BoolParser.ends heap hv hlen
  | text => exact TextParser.ends junk heap hv hlen
  | blob => exact BytesParser.ends junk heap hv hlen
  | time => exact TimeParser.ends heap hv hlen

theorem pyToC_none (junk : Nat → Nat → UInt8) (heap : Heap) (type : ScalarType) (payload : List Cell) :
    type.pyToC junk heap .none payload = .ok ⟨-1, heap, payload⟩ := by
  cases type <;> rfl

end ScalarType

theorem stringToPy_eq_ok {heap : Heap} {payload : List Cell} {v : PyValue} (h : stringToPy heap payload = .ok v) :
    ∃ chars : List Char, v = .str (chars.map .scalar) true ∧ '\x00' ∉ chars := by
  obtain ⟨d, -, hd⟩ := bind_ok_iff.mp h
  obtain ⟨bytes, hbytes, hv⟩ := bind_ok_iff.mp hd
  obtain ⟨n, hstrlen, hload⟩ := bind_eq_ok (access_eq_ok hbytes)
  obtain ⟨text, rest, rfl, hzero, rfl⟩ := strlen_spec hstrlen
  have hcells : byteCells (cString text) ++ rest = byteCells text ++ (.byte 0 :: rest) := by
    simp [cString, byteCells]
  rw [loadBytes, hcells, load_zero_append (byteCells_length text), ok_bind, toBytes_byteCells] at hload
  obtain rfl := Except.ok.inj hload
  cases htext : fromUTF8 text with
  | none =>
    rw [htext] at hv
    cases hv
  | some points =>
    rw [htext] at hv
    obtain ⟨chars, rfl, rfl⟩ := fromUTF8_eq_some htext
    refine ⟨chars, (Except.ok.inj hv).symm, fun hnul => ?_⟩
    exact hzero 0 (zero_mem_utf8.mpr hnul) rfl

/-- A value that a parser has stored and that is read back is one that the type keeps. -/
theorem ScalarType.keeps_of_read {type : ScalarType} {heap : Heap} {payload : List Cell} {v : PyValue}
    (h : type.cToPy heap payload = .ok v) (hrejects : ¬ type.Rejects v) (hoverruns : ¬ type.Overruns v) :
    type.Keeps v := by
  cases type with
  | tinyInt =>
    obtain ⟨n, rfl, hlow, hhigh⟩ := intToPy_eq_ok (by decide) h
    exact absurd ⟨rfl, n, rfl, by omega, by omega⟩ hoverruns
  | smallInt => exact intToPy_eq_ok (by decide) h
  | int => exact intToPy_eq_ok (by decide) h
  | bigint => exact intToPy_eq_ok (by decide) h
  | boolean =>
    obtain ⟨bytes, -, hv⟩ := bind_ok_iff.mp h
    exact ⟨_, (Except.ok.inj hv).symm⟩
  | text => exact stringToPy_eq_ok h
  | blob =>
    obtain ⟨chars, rfl, -⟩ := stringToPy_eq_ok h
    exact absurd (fun bytes exact he => by cases he) hrejects
  | time =>
    obtain ⟨bytes, -, h⟩ := bind_ok_iff.mp h
    dsimp only at h
    split at h
    · rename_i t ht
      refine ⟨t, (Except.ok.inj h).symm, ?_⟩
      obtain ⟨hour, -, ht⟩ := Option.bind_eq_some_iff.mp ht
      obtain ⟨minute, -, ht⟩ := Option.bind_eq_some_iff.mp ht
      obtain ⟨second, -, ht⟩ := Option.bind_eq_some_iff.mp ht
      obtain ⟨microsecond, -, ht⟩ := Option.bind_eq_some_iff.mp ht
      exact Option.some.inj ht ▸ rfl
    · cases h

end Hecuba
