/-
**The checks of the validity and of the device key** (`mdoc_zk/circuits/src/hash/circuit.rs`,
`memcmp/src/circuit.rs`).

The circuit shifts the preimage of the issuer's hash to the offsets of `validFrom`, `validUntil` and
`deviceKeyInfo`, compares the keys, and reads two times and the coordinates of a point behind them.
Times are compared as one number each, whose highest byte stands first.

* `mso_checks_exact` — **what both checks accept**, for every assignment.
-/

import Longfellow.Lib.ByteOrder
import Longfellow.Mdoc.DocType
import Longfellow.Mdoc.Inputs

set_option linter.unusedSectionVars false

namespace Longfellow.Mdoc

open Lib Gadget

variable {E : Type} [CompileField E] [DecidableEq E]

/-! ### The circuits -/

namespace Memcmp

/-- The bits of some bytes, those of the last byte first. -/
def arrange (bytes : List (V8 E)) : List (Bitw E) := bytes.reverse.flatMap fun b => b.bits

def leq (a b : List (V8 E)) : Exec String (Bitw E) := Arithmetic.leq (arrange a) (arrange b)

end Memcmp

def kValidFromLen : ℕ := 12

/-- The key `validFrom`, and the head of a time. -/
def kValidFromCheckCbor : Bytes :=
  [0x69, 0x76, 0x61, 0x6c, 0x69, 0x64, 0x46, 0x72, 0x6f, 0x6d, 0xc0, 0x74]

def kValidUntilLen : ℕ := 13

/-- The key `validUntil`, and the head of a time. -/
def kValidUntilCheckCbor : Bytes :=
  [0x6a, 0x76, 0x61, 0x6c, 0x69, 0x64, 0x55, 0x6e, 0x74, 0x69, 0x6c, 0xc0, 0x74]

/-- The keys `deviceKeyInfo` and `deviceKey`, and a point up to its first coordinate. -/
def kDeviceKeyInfoCheckCbor : Bytes :=
  [0x6d, 0x64, 0x65, 0x76, 0x69, 0x63, 0x65, 0x4b, 0x65, 0x79, 0x49, 0x6e, 0x66, 0x6f, 0xa1, 0x69,
    0x64, 0x65, 0x76, 0x69, 0x63, 0x65, 0x4b, 0x65, 0x79, 0xa4, 0x01, 0x02, 0x20, 0x01, 0x21, 0x58,
    0x20]

/-- What stands between the coordinates. -/
def dpkyCheck : Bytes := [0x22, 0x58, 0x20]

/-- The inputs of the circuit that the checks read. -/
structure MsoGiven (E : Type) [CompileField E] where
  now : Vector (V8 E) kTimestampLen
  preimage : HashBytes E kMsoPreimageLen
  devicePk : Bitvec E 256 × Bitvec E 256
  validFromOffsetInPreimage : HashIndex E
  validUntilOffsetInPreimage : HashIndex E
  devKeyInfoOffsetInPreimage : HashIndex E

def assertBytesAt (len : ℕ) (buf : List (V8 E)) (want : Bytes) : Exec String Assertions := do
  let held ← (List.range len).mapM fun i => do
    Bitvec.assertEq "bytes_at" (← getAt buf i) (← Bitvec.ofU8 (← getAt want i))
  return Logic.assertNumbered "assert_bytes_at" held

def assertKey (key : Bitvec E 256) (bufBe : List (V8 E)) : Exec String Assertions := do
  let mBits ← (List.range 256).mapM fun i => do
    let byteIdx := 31 - i / 8
    let bitIdx := i % 8
    getAt (← getAt bufBe byteIdx).bits bitIdx
  Bitvec.assertEq "key_eq" (← Bitvec.new 256 mBits) key

def assertMsoValidity (given : MsoGiven E) (preimage : List (V8 E)) : Exec String Assertions := do
  let zz := Bitvec.zero 8
  let (validFromShifted, fromAssertions) ← shiftPreimage given.validFromOffsetInPreimage
    given.preimage.len 3 (kValidFromLen + kTimestampLen) preimage zz
  let cmpFrom ← Memcmp.leq
    (← slice validFromShifted kValidFromLen (kValidFromLen + kTimestampLen)) given.now.toList
  let (validUntilShifted, untilAssertions) ← shiftPreimage given.validUntilOffsetInPreimage
    given.preimage.len 3 (kValidUntilLen + kTimestampLen) preimage zz
  let cmpUntil ← Memcmp.leq given.now.toList
    (← slice validUntilShifted kValidUntilLen (kValidUntilLen + kTimestampLen))
  let fromHeader ← assertBytesAt kValidFromLen (← slice validFromShifted 0 kValidFromLen)
    kValidFromCheckCbor
  let fromAssertion := Logic.assertAll "valid_from"
    [fromAssertions, fromHeader, Boolean.assertTrue "cmp_from" cmpFrom]
  let untilHeader ← assertBytesAt kValidUntilLen (← slice validUntilShifted 0 kValidUntilLen)
    kValidUntilCheckCbor
  let untilAssertion := Logic.assertAll "valid_until"
    [untilAssertions, untilHeader, Boolean.assertTrue "cmp_until" cmpUntil]
  return Logic.assertAll "assert_mso_validity" [fromAssertion, untilAssertion]

def assertMsoDeviceKey (given : MsoGiven E) (preimage : List (V8 E)) : Exec String Assertions := do
  let zz := Bitvec.zero 8
  let len := kDeviceKeyInfoCheckCbor.length
  let (devKeyInfoShifted, shiftAssertions) ← shiftPreimage given.devKeyInfoOffsetInPreimage
    given.preimage.len 4 (len + 32 + 3 + 32) preimage zz
  let header ← assertBytesAt len (← slice devKeyInfoShifted 0 len) kDeviceKeyInfoCheckCbor
  let dpkx ← assertKey given.devicePk.1 (← slice devKeyInfoShifted len (len + 32))
  let between ← assertBytesAt 3 (← slice devKeyInfoShifted (len + 32) (len + 32 + 3)) dpkyCheck
  let dpky ← assertKey given.devicePk.2
    (← slice devKeyInfoShifted (len + 32 + 3) (len + 32 + 3 + 32))
  return Logic.assertAll "assert_mso_device_key" [shiftAssertions, header, dpkx, between, dpky]

/-! ### What the circuits check -/

/-- The values of the inputs. -/
structure MsoValues where
  now : Vector UInt8 kTimestampLen
  preimage : Vector UInt8 kMsoPreimageLen
  preimageLen : BitVec kHashIndexBits
  devicePk : BitVec 256 × BitVec 256
  validFrom : BitVec kHashIndexBits
  validUntil : BitVec kHashIndexBits
  devKeyInfo : BitVec kHashIndexBits

/-- An assignment of zeros and ones to the inputs. -/
structure MsoGiven.Encodes (given : MsoGiven E) (v : MsoValues) : Prop where
  now : List.Forall₂ ByteHolds given.now.toList v.now.toList
  preimage : List.Forall₂ ByteHolds given.preimage.value.toList v.preimage.toList
  preimageLen : given.preimage.len.Holds v.preimageLen
  devicePkx : given.devicePk.1.Holds v.devicePk.1
  devicePky : given.devicePk.2.Holds v.devicePk.2
  validFrom : given.validFromOffsetInPreimage.Holds v.validFrom
  validUntil : given.validUntilOffsetInPreimage.Holds v.validUntil
  devKeyInfo : given.devKeyInfoOffsetInPreimage.Holds v.devKeyInfo

/-- Some bytes at a position, with zeros behind the end. -/
def bytesAt (bytes : Bytes) (start count : ℕ) : Bytes :=
  (List.range count).map fun i => bytes.getD (start + i) 0

namespace MsoValues

/-- The bounds of an offset. -/
def Inside (v : MsoValues) (offset : BitVec kHashIndexBits) : Prop :=
  5 ≤ offset.toNat ∧ offset.toNat < v.preimageLen.toNat

/-- **The validity**: the keys stand at their offsets, and the present is between the times. -/
structure IsValid (v : MsoValues) : Prop where
  fromInside : v.Inside v.validFrom
  untilInside : v.Inside v.validUntil
  fromKey : bytesAt v.preimage.toList v.validFrom.toNat 12 = kValidFromCheckCbor
  untilKey : bytesAt v.preimage.toList v.validUntil.toNat 13 = kValidUntilCheckCbor
  started : bytesAt v.preimage.toList (v.validFrom.toNat + 12) 20 ≤ v.now.toList
  lasts : v.now.toList ≤ bytesAt v.preimage.toList (v.validUntil.toNat + 13) 20

/-- The bytes of the key of the device. -/
def keyBytes (v : MsoValues) : Bytes :=
  kDeviceKeyInfoCheckCbor ++ beBytes 32 v.devicePk.1.toNat ++ dpkyCheck ++
    beBytes 32 v.devicePk.2.toNat

/-- The bytes at the offset are those of the key of the device. -/
def HasKey (v : MsoValues) : Prop :=
  bytesAt v.preimage.toList v.devKeyInfo.toNat 100 = v.keyBytes

end MsoValues

/-! ### Bytes at positions -/

theorem length_bytesAt (bytes : Bytes) (start count : ℕ) :
    (bytesAt bytes start count).length = count := by
  rw [bytesAt, List.length_map, List.length_range]

theorem bytesAt_add (bytes : Bytes) (start m n : ℕ) :
    bytesAt bytes start (m + n) = bytesAt bytes start m ++ bytesAt bytes (start + m) n := by
  rw [bytesAt, List.range_add, List.map_append, List.map_map]
  congr 1
  exact List.map_congr_left fun i _ => by rw [Function.comp_apply, Nat.add_assoc]

theorem slice_returns (lo width rest : ℕ) {shifted : List (V8 E)} {bytes : Bytes} {start : ℕ}
    (holds : List.Forall₂ ByteHolds shifted (bytesAt bytes start (lo + width + rest))) :
    ∃ window, (slice shifted lo (lo + width) : Exec String _) = .ok window ∧
      List.Forall₂ ByteHolds window (bytesAt bytes (start + lo) width) := by
  have long : shifted.length = lo + width + rest := by rw [holds.length_eq, length_bytesAt]
  refine ⟨_, slice_of_le (by omega) (by omega), ?_⟩
  have part := List.forall₂_take width (List.forall₂_drop lo holds)
  rw [Nat.add_sub_cancel_left]
  rwa [Nat.add_assoc, bytesAt_add, List.drop_left' (length_bytesAt ..), bytesAt_add,
    List.take_left' (length_bytesAt ..)] at part

/-! ### Comparisons -/

section

variable {as bs : List (V8 E)} {xs ys : Bytes}

theorem arrange_encodes (each : List.Forall₂ ByteHolds as xs) :
    List.Forall₂ Bitw.Encodes (Memcmp.arrange as)
      (xs.reverse.flatMap fun x => bitsOf x.toBitVec) :=
  List.rel_flatMap (List.rel_reverse each) fun _ _ holds => holds

theorem natBits_arrange (xs : Bytes) :
    natBits (xs.reverse.flatMap fun x => bitsOf x.toBitVec) = beValue xs :=
  natBits_flatMap (fun _ => length_bitsOf _) (fun x => Bitvec.natBits_bitsOf x.toBitVec) _

/-- **The comparison decides the lexicographic order** of words of one length. -/
theorem Memcmp.leq_returns (left : List.Forall₂ ByteHolds as xs)
    (right : List.Forall₂ ByteHolds bs ys) (size : xs.length = ys.length) :
    ∃ c, Memcmp.leq as bs = .ok c ∧ c.Encodes (decide (xs ≤ ys)) := by
  obtain ⟨c, ran, holds⟩ := Arithmetic.leq_returns (arrange_encodes left) (arrange_encodes right)
    (by simp [size])
  refine ⟨c, ran, ?_⟩
  simpa only [natBits_arrange, beValue_le_iff size] using holds

theorem assertBytesAt_returns (want : Bytes) (holds : List.Forall₂ ByteHolds as xs)
    (size : xs.length = want.length) :
    ∃ held, assertBytesAt want.length as want = .ok held ∧ (held = true ↔ xs = want) := by
  have entry : ∀ i ∈ List.range want.length, ∃ held,
      (do Bitvec.assertEq "bytes_at" (← getAt as i) (← Bitvec.ofU8 (← getAt want i)) :
        Exec String Assertions) = .ok held ∧ (held = true ↔ xs.getD i 0 = want.getD i 0) := by
    intro i member
    have below := List.mem_range.mp member
    obtain ⟨byte, ranByte, isByte⟩ := getAt_byte holds (i := i) (by omega)
    obtain ⟨constant, made, isConstant⟩ := Bitvec.ofU8_holds (E := E) (want.getD i 0)
    obtain ⟨held, ran, equal⟩ := Bitvec.assertEq_returns isByte isConstant "bytes_at"
    refine ⟨held, ?_, equal.trans UInt8.toBitVec_inj⟩
    have read : (getAt want i : Exec String _) = .ok (want.getD i 0) := by
      rw [getAt_of_lt below, List.getD_eq_getElem _ _ below]
    rw [ranByte, ok_bind, read, ok_bind, made, ok_bind, ran]
  obtain ⟨held, ran, related⟩ := mapM_related entry
  refine ⟨Logic.assertNumbered "assert_bytes_at" held, ?_, ?_⟩
  · rw [assertBytesAt, ran, ok_bind, pure_eq_ok]
  · rw [assertNumbered_of_related related]
    constructor
    · intro same
      refine List.ext_getElem size fun i left right => ?_
      rw [← List.getD_eq_getElem _ 0, ← List.getD_eq_getElem _ 0]
      exact same i (List.mem_range.mpr right)
    · rintro rfl i -
      rfl

/-- **A key is compared with its bytes**, the highest one first. -/
theorem assertKey_returns {key : Bitvec E 256} {k : BitVec 256} (isKey : key.Holds k)
    (holds : List.Forall₂ ByteHolds as xs) (size : xs.length = 32) :
    ∃ held, assertKey key as = .ok held ∧ (held = true ↔ xs = beBytes 32 k.toNat) := by
  have entry : ∀ i ∈ List.range 256, ∃ bit : Bitw E,
      (do getAt (← getAt as (31 - i / 8)).bits (i % 8) : Exec String _) = .ok bit ∧
        bit.Encodes ((BitVec.ofNat 256 (beValue xs)).getLsbD i) := by
    intro i member
    have below := List.mem_range.mp member
    obtain ⟨byte, ranByte, isByte⟩ := getAt_byte holds (i := 31 - i / 8) (by omega)
    obtain ⟨bit, ranBit, isBit⟩ := getAt_encodes isByte (i := i % 8) (by
      rw [length_bitsOf]
      exact Nat.mod_lt i (by decide))
    refine ⟨bit, by rw [ranByte, ok_bind, ranBit], ?_⟩
    have place : xs.reverse.getD (i / 8) 0 = xs.getD (31 - i / 8) 0 := by
      rw [List.getD_eq_getElem _ _ (by rw [List.length_reverse]; omega), List.getElem_reverse,
        List.getD_eq_getElem _ _ (by omega)]
      congr 1
      omega
    rw [BitVec.getLsbD_ofNat, decide_eq_true below, Bool.true_and, beValue, testBit_leValue, place,
      ← bitsOf_getD]
    exact isBit
  obtain ⟨bits, ran, related⟩ := mapM_related entry
  have long : bits.length = 256 := by rw [related.length_eq, List.length_map, List.length_range]
  have isBits : Bitvec.Holds (⟨bits, long⟩ : Bitvec E 256) (BitVec.ofNat 256 (beValue xs)) := related
  obtain ⟨held, compared, equal⟩ := Bitvec.assertEq_returns isBits isKey "key_eq"
  refine ⟨held, ?_, equal.trans ?_⟩
  · rw [assertKey]
    dsimp only
    rw [ran, ok_bind, Bitvec.new_eq_ok long, ok_bind, compared]
  · have fits : beValue xs < 2 ^ 256 := (Cbor.beValue_lt xs).trans_eq (by rw [size]; norm_num)
    constructor
    · rintro rfl
      rw [BitVec.toNat_ofNat, Nat.mod_eq_of_lt fits, ← size, Cbor.beBytes_beValue]
    · intro same
      rw [same, Cbor.beValue_beBytes (k.isLt.trans_eq (by norm_num)), BitVec.ofNat_toNat,
        BitVec.setWidth_eq]

end

/-! ### Both checks -/

section

variable {given : MsoGiven E} {v : MsoValues}

section

variable {offset : HashIndex E} {o : BitVec kHashIndexBits} (encodes : given.Encodes v)
  (isOffset : offset.Holds o)
include encodes isOffset

theorem shifted_returns (unroll lenBytes : ℕ)
    (fits : Routing.Fits kMsoPreimageLen lenBytes kHashIndexBits unroll) :
    ∃ shifted held,
      shiftPreimage offset given.preimage.len unroll lenBytes given.preimage.value.toList
        (Bitvec.zero 8) = .ok (shifted, held) ∧
      (held = true ↔ v.Inside o) ∧
      List.Forall₂ ByteHolds shifted (bytesAt v.preimage.toList o.toNat lenBytes) := by
  have fits' : Routing.Fits v.preimage.toList.length lenBytes kHashIndexBits unroll := by
    rwa [Vector.length_toList]
  obtain ⟨shifted, held, ran, bounds, holds⟩ :=
    shiftPreimage_returns isOffset encodes.preimageLen encodes.preimage fits'
  simp only [Nat.add_comm _ o.toNat] at holds
  exact ⟨shifted, held, ran, bounds, holds⟩

theorem dated_returns (key : Bytes)
    (fits : Routing.Fits kMsoPreimageLen (key.length + 20) kHashIndexBits 3) :
    ∃ shifted bounds time window held,
      shiftPreimage offset given.preimage.len 3 (key.length + 20) given.preimage.value.toList
        (Bitvec.zero 8) = .ok (shifted, bounds) ∧
      (bounds = true ↔ v.Inside o) ∧
      (slice shifted key.length (key.length + 20) : Exec String _) = .ok time ∧
      List.Forall₂ ByteHolds time (bytesAt v.preimage.toList (o.toNat + key.length) 20) ∧
      (slice shifted 0 key.length : Exec String _) = .ok window ∧
      assertBytesAt key.length window key = .ok held ∧
      (held = true ↔ bytesAt v.preimage.toList o.toNat key.length = key) := by
  obtain ⟨shifted, bounds, ran, inside, holds⟩ := shifted_returns encodes isOffset 3 _ fits
  obtain ⟨time, sliced, isTime⟩ := slice_returns _ _ 0 holds
  obtain ⟨window, keyed, isKey⟩ := slice_returns 0 key.length 20
    (show List.Forall₂ ByteHolds shifted (bytesAt _ o.toNat _) by rwa [Nat.zero_add])
  obtain ⟨held, headed, equal⟩ := assertBytesAt_returns key isKey (length_bytesAt ..)
  rw [Nat.zero_add] at keyed
  exact ⟨shifted, bounds, time, window, held, ran, inside, sliced, isTime, keyed, headed, equal⟩

end

theorem assertMsoValidity_returns (encodes : given.Encodes v) :
    ∃ held, assertMsoValidity given given.preimage.value.toList = .ok held ∧
      (held = true ↔ v.IsValid) := by
  obtain ⟨fromBytes, fromBounds, fromTime, fromKey, fromHeld, ranFrom, fromInside, slicedFrom,
    isFrom, keyedFrom, headedFrom, fromEqual⟩ :=
    dated_returns encodes encodes.validFrom kValidFromCheckCbor
      ⟨by decide, by decide, by decide, by decide, by decide⟩
  obtain ⟨untilBytes, untilBounds, untilTime, untilKey, untilHeld, ranUntil, untilInside,
    slicedUntil, isUntil, keyedUntil, headedUntil, untilEqual⟩ :=
    dated_returns encodes encodes.validUntil kValidUntilCheckCbor
      ⟨by decide, by decide, by decide, by decide, by decide⟩
  have sized (start : ℕ) : (bytesAt v.preimage.toList start 20).length = v.now.toList.length := by
    rw [length_bytesAt, Vector.length_toList]
    rfl
  obtain ⟨cmpFrom, comparedFrom, started⟩ := Memcmp.leq_returns isFrom encodes.now (sized _)
  obtain ⟨cmpUntil, comparedUntil, lasts⟩ := Memcmp.leq_returns encodes.now isUntil (sized _).symm
  refine ⟨Logic.assertAll "assert_mso_validity"
    [Logic.assertAll "valid_from" [fromBounds, fromHeld, Boolean.assertTrue "cmp_from" cmpFrom],
      Logic.assertAll "valid_until"
        [untilBounds, untilHeld, Boolean.assertTrue "cmp_until" cmpUntil]], ?_, ?_⟩
  · rw [assertMsoValidity]
    dsimp only
    rw [show kValidFromLen + kTimestampLen = kValidFromCheckCbor.length + 20 from rfl,
      show kValidUntilLen + kTimestampLen = kValidUntilCheckCbor.length + 20 from rfl,
      show kValidFromLen = kValidFromCheckCbor.length from rfl,
      show kValidUntilLen = kValidUntilCheckCbor.length from rfl, ranFrom, ok_bind]
    dsimp only
    rw [slicedFrom, ok_bind, comparedFrom, ok_bind, ranUntil, ok_bind]
    dsimp only
    rw [slicedUntil, ok_bind, comparedUntil, ok_bind, keyedFrom, ok_bind, headedFrom, ok_bind,
      keyedUntil, ok_bind, headedUntil, ok_bind, pure_eq_ok]
  · rw [assertAll_two, assertAll_iff, assertAll_iff]
    simp only [List.mem_cons, List.not_mem_nil, or_false, forall_eq_or_imp, forall_eq]
    rw [fromInside, untilInside, fromEqual, untilEqual, Boolean.assertTrue_iff started,
      Boolean.assertTrue_iff lasts, decide_eq_true_eq, decide_eq_true_eq]
    constructor
    · rintro ⟨⟨fromInside, fromKey, started⟩, untilInside, untilKey, lasts⟩
      exact ⟨fromInside, untilInside, fromKey, untilKey, started, lasts⟩
    · rintro ⟨fromInside, untilInside, fromKey, untilKey, started, lasts⟩
      exact ⟨⟨fromInside, fromKey, started⟩, untilInside, untilKey, lasts⟩

theorem append_eq_iff {a b c d : Bytes} (size : b.length = d.length) :
    a ++ b = c ++ d ↔ a = c ∧ b = d :=
  ⟨fun same => List.append_inj' same size, fun ⟨first, second⟩ => first ▸ second ▸ rfl⟩

theorem hasKey_iff : v.HasKey ↔
    bytesAt v.preimage.toList v.devKeyInfo.toNat 33 = kDeviceKeyInfoCheckCbor ∧
    bytesAt v.preimage.toList (v.devKeyInfo.toNat + 33) 32 = beBytes 32 v.devicePk.1.toNat ∧
    bytesAt v.preimage.toList (v.devKeyInfo.toNat + 65) 3 = dpkyCheck ∧
    bytesAt v.preimage.toList (v.devKeyInfo.toNat + 68) 32 = beBytes 32 v.devicePk.2.toNat := by
  have parts : bytesAt v.preimage.toList v.devKeyInfo.toNat 100 =
      bytesAt v.preimage.toList v.devKeyInfo.toNat 33 ++
        bytesAt v.preimage.toList (v.devKeyInfo.toNat + 33) 32 ++
        bytesAt v.preimage.toList (v.devKeyInfo.toNat + 65) 3 ++
        bytesAt v.preimage.toList (v.devKeyInfo.toNat + 68) 32 := by
    rw [← bytesAt_add, ← bytesAt_add, ← bytesAt_add]
  have sizes (start count value : ℕ) :
      (bytesAt v.preimage.toList start count).length = (beBytes count value).length := by
    rw [length_bytesAt, length_beBytes]
  have check : (bytesAt v.preimage.toList (v.devKeyInfo.toNat + 65) 3).length = dpkyCheck.length :=
    length_bytesAt ..
  rw [MsoValues.HasKey, MsoValues.keyBytes, parts, append_eq_iff (sizes ..), append_eq_iff check,
    append_eq_iff (sizes ..), and_assoc, and_assoc]

theorem assertMsoDeviceKey_returns (encodes : given.Encodes v) :
    ∃ held, assertMsoDeviceKey given given.preimage.value.toList = .ok held ∧
      (held = true ↔ v.Inside v.devKeyInfo ∧ v.HasKey) := by
  obtain ⟨shifted, bounds, ran, inside, holds⟩ := shifted_returns encodes encodes.devKeyInfo 4 100
    ⟨by decide, by decide, by decide, by decide, by decide⟩
  obtain ⟨info, slicedInfo, isInfo⟩ := slice_returns 0 33 67 holds
  obtain ⟨pkx, slicedPkx, isPkx⟩ := slice_returns 33 32 35 holds
  obtain ⟨check, slicedCheck, isCheck⟩ := slice_returns 65 3 32 holds
  obtain ⟨pky, slicedPky, isPky⟩ := slice_returns 68 32 0 holds
  obtain ⟨header, ranHeader, infoEqual⟩ :=
    assertBytesAt_returns kDeviceKeyInfoCheckCbor isInfo (length_bytesAt ..)
  obtain ⟨dpkx, ranPkx, pkxEqual⟩ := assertKey_returns encodes.devicePkx isPkx (length_bytesAt ..)
  obtain ⟨between, ranBetween, checkEqual⟩ :=
    assertBytesAt_returns dpkyCheck isCheck (length_bytesAt ..)
  obtain ⟨dpky, ranPky, pkyEqual⟩ := assertKey_returns encodes.devicePky isPky (length_bytesAt ..)
  refine ⟨Logic.assertAll "assert_mso_device_key" [bounds, header, dpkx, between, dpky], ?_, ?_⟩
  · rw [assertMsoDeviceKey]
    dsimp only
    rw [show kDeviceKeyInfoCheckCbor.length = 33 from rfl] at ranHeader ⊢
    rw [show dpkyCheck.length = 3 from rfl] at ranBetween
    rw [ran, ok_bind]
    dsimp only
    rw [slicedInfo, ok_bind, ranHeader, ok_bind, slicedPkx, ok_bind, ranPkx, ok_bind, slicedCheck,
      ok_bind, ranBetween, ok_bind, slicedPky, ok_bind, ranPky, ok_bind, pure_eq_ok]
  · rw [assertAll_iff, hasKey_iff]
    simp only [List.mem_cons, List.not_mem_nil, or_false, forall_eq_or_imp, forall_eq]
    rw [inside, infoEqual, pkxEqual, checkEqual, pkyEqual, Nat.add_zero]

end

/-- **Both checks are exact**: the validity, and the key of the device at an offset that is inside,
behind the first five bytes. -/
theorem mso_checks_exact {given : MsoGiven E} {v : MsoValues} (encodes : given.Encodes v) :
    (∃ held, assertMsoValidity given given.preimage.value.toList = .ok held ∧
      (held = true ↔ v.IsValid)) ∧
    (∃ held, assertMsoDeviceKey given given.preimage.value.toList = .ok held ∧
      (held = true ↔ v.Inside v.devKeyInfo ∧ v.HasKey)) :=
  ⟨assertMsoValidity_returns encodes, assertMsoDeviceKey_returns encodes⟩

/-- The inputs as constants. -/
def MsoValues.evaluateGiven (E : Type) [CompileField E] (v : MsoValues) : MsoGiven E where
  now := v.now.map fun b => Bitvec.konst b.toBitVec
  preimage := ⟨v.preimage.map fun b => Bitvec.konst b.toBitVec, Bitvec.konst v.preimageLen⟩
  devicePk := (Bitvec.konst v.devicePk.1, Bitvec.konst v.devicePk.2)
  validFromOffsetInPreimage := Bitvec.konst v.validFrom
  validUntilOffsetInPreimage := Bitvec.konst v.validUntil
  devKeyInfoOffsetInPreimage := Bitvec.konst v.devKeyInfo

theorem MsoValues.evaluateGiven_encodes (v : MsoValues) : (v.evaluateGiven E).Encodes v :=
  ⟨konst_bytes _, konst_bytes _, Bitvec.konst_holds _, Bitvec.konst_holds _, Bitvec.konst_holds _,
    Bitvec.konst_holds _, Bitvec.konst_holds _, Bitvec.konst_holds _⟩

/-- The key of the device at the start of a preimage. -/
def keyAtStart : MsoValues where
  now := paddedBytes _ []
  preimage := paddedBytes _ (kDeviceKeyInfoCheckCbor ++ beBytes 32 0 ++ dpkyCheck)
  preimageLen := 100
  devicePk := (0, 0)
  validFrom := 5
  validUntil := 5
  devKeyInfo := 0

theorem mso_checks_exact_start :
    (∃ held, assertMsoValidity (keyAtStart.evaluateGiven Gf2128Elt)
      (keyAtStart.evaluateGiven Gf2128Elt).preimage.value.toList = .ok held ∧
        (held = true ↔ keyAtStart.IsValid)) ∧
    (∃ held, assertMsoDeviceKey (keyAtStart.evaluateGiven Gf2128Elt)
      (keyAtStart.evaluateGiven Gf2128Elt).preimage.value.toList = .ok held ∧
        (held = true ↔ keyAtStart.Inside keyAtStart.devKeyInfo ∧ keyAtStart.HasKey)) :=
  mso_checks_exact keyAtStart.evaluateGiven_encodes

/-- **A key at the start of the preimage** is not accepted. -/
theorem key_at_start_refused :
    ¬∀ {given : MsoGiven Gf2128Elt} {v : MsoValues}, given.Encodes v →
      (assertMsoDeviceKey given given.preimage.value.toList = .ok true ↔ v.HasKey) := by
  intro always
  have hasKey : keyAtStart.HasKey := by
    unfold MsoValues.HasKey
    decide +kernel
  have accepted := (always keyAtStart.evaluateGiven_encodes).mpr hasKey
  obtain ⟨held, ran, holds⟩ :=
    assertMsoDeviceKey_returns (E := Gf2128Elt) keyAtStart.evaluateGiven_encodes
  obtain rfl := Except.ok.inj (ran.symm.trans accepted)
  exact absurd (holds.mp rfl).1.1 (by decide)

end Longfellow.Mdoc
