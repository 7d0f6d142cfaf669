/-
**The check of the document type** (`mdoc_zk/circuits/src/hash/circuit.rs`).

The circuit shifts the preimage of the issuer's hash to the offset of the key `docType`, compares
the key, and compares the bytes behind the header of its value with the type that the verifier
expects. The header has one byte, or two when the first one is `0x78`.

* `assertMsoDocType_returns` — **what the circuit checks** of the bytes, for every assignment.
-/

import Longfellow.Gadget.Routing
import Longfellow.Mdoc.Parse

set_option linter.unusedSectionVars false

namespace Longfellow.Mdoc

open Lib Gadget

variable {E : Type} [CompileField E] [DecidableEq E] {i : ℕ} {v : DocTypeValues}

/-! ### The circuit -/

abbrev V8 (E : Type) [CompileField E] := Bitvec E 8

def kHashIndexBits : ℕ := 16

abbrev HashIndex (E : Type) [CompileField E] := Bitvec E kHashIndexBits

def kAttrIndexBits : ℕ := 10

/-- A text item with the key `docType`. -/
def kDoctypeHeaderCheckCbor : List UInt8 := [0x67, 0x64, 0x6f, 0x63, 0x54, 0x79, 0x70, 0x65]

/-- Bytes, of which a number counts. -/
structure AttrSlice (E : Type) [CompileField E] (n : ℕ) where
  data : Vector (V8 E) n
  len : Bitvec E kAttrIndexBits

structure HashBytes (E : Type) [CompileField E] (n : ℕ) where
  value : Vector (V8 E) n
  len : HashIndex E

/-- The inputs of the circuit that the check reads. -/
structure DocTypeGiven (E : Type) [CompileField E] where
  suppressDocTypeCheck : Bitw E
  expectedDocType : AttrSlice E 32
  preimage : HashBytes E kMsoPreimageLen
  docTypeOffsetInPreimage : HashIndex E

/-- The preimage from an offset on, with the check that the offset is inside. -/
def shiftPreimage (offset preimageLengthBytes : HashIndex E) (shiftBaseBits lenBytes : ℕ)
    (preimage : List (V8 E)) (zz : V8 E) : Exec String (List (V8 E) × Assertions) := do
  let five ← Bitvec.ofU64 kHashIndexBits 5
  let geFive ← Bitvec.leq five offset
  let lt ← Bitvec.lt offset preimageLengthBytes
  let assertions := Logic.assertAll "shift_preimage_bounds"
    [Boolean.assertTrue "ge_five" geFive, Boolean.assertTrue "lt" lt]
  let shifted ← Routing.shiftBitvec shiftBaseBits offset lenBytes preimage zz
  return (shifted, assertions)

/-- The check of a byte of the key. -/
def headerByte (given : DocTypeGiven E) (docTypeShifted : List (V8 E)) (i : ℕ) :
    Exec String Assertions := do
  let eqBit ← Bitvec.eqb (← getAt docTypeShifted i)
    (← Bitvec.ofU8 (← getAt kDoctypeHeaderCheckCbor i))
  let condEq := Boolean.orb given.suppressDocTypeCheck eqBit
  return Boolean.assertTrue "header_byte" condEq

/-- The check of a byte of the type. -/
def docTypeByte (given : DocTypeGiven E) (docTypeShifted : List (V8 E)) (isTwoByteHeader : Bitw E)
    (i : ℕ) : Exec String Assertions := do
  let iWire ← Bitvec.ofU64 kAttrIndexBits i
  let inBounds ← Bitvec.lt iWire given.expectedDocType.len
  let active := Boolean.andb (Boolean.notb given.suppressDocTypeCheck) inBounds
  let byteIf1 ← getAt docTypeShifted (kDoctypeHeaderCheckCbor.length + 1 + i)
  let byteIf2 ← getAt docTypeShifted (kDoctypeHeaderCheckCbor.length + 2 + i)
  let got := Bitvec.select isTwoByteHeader byteIf2 byteIf1
  let want ← getAt given.expectedDocType.data.toList i
  let eqBit ← Bitvec.eqb got want
  let condEq := Boolean.impliesb active eqBit
  return Boolean.assertTrue "doc_type_byte" condEq

def assertMsoDocType (given : DocTypeGiven E) (preimage : List (V8 E)) :
    Exec String Assertions := do
  let zz := Bitvec.zero 8
  let (docTypeShifted, shiftAssertions) ← shiftPreimage given.docTypeOffsetInPreimage
    given.preimage.len 7 (kDoctypeHeaderCheckCbor.length + 35) preimage zz
  let headerCheck ← (List.range kDoctypeHeaderCheckCbor.length).mapM
    (headerByte given docTypeShifted)
  let headByte ← getAt docTypeShifted kDoctypeHeaderCheckCbor.length
  let isTwoByteHeader ← Bitvec.eqb headByte (← Bitvec.ofU8 0x78)
  let valueCheck ← (List.range 32).mapM (docTypeByte given docTypeShifted isTwoByteHeader)
  return Logic.assertAll "assert_mso_doc_type" [shiftAssertions,
    Logic.assertNumbered "cbor_header" headerCheck, Logic.assertNumbered "value_bytes" valueCheck]

/-! ### What the circuit checks -/

/-- The values of the inputs. -/
structure DocTypeValues where
  suppress : Bool
  expected : Vector UInt8 32
  expectedLen : BitVec kAttrIndexBits
  preimage : Vector UInt8 kMsoPreimageLen
  preimageLen : BitVec kHashIndexBits
  offset : BitVec kHashIndexBits

/-- A byte of bits. -/
def ByteHolds (v : V8 E) (b : UInt8) : Prop := v.Holds b.toBitVec

/-- An assignment of zeros and ones to the inputs. -/
structure DocTypeGiven.Encodes (given : DocTypeGiven E) (v : DocTypeValues) : Prop where
  suppress : given.suppressDocTypeCheck.Encodes v.suppress
  expected : List.Forall₂ ByteHolds given.expectedDocType.data.toList v.expected.toList
  expectedLen : given.expectedDocType.len.Holds v.expectedLen
  preimage : List.Forall₂ ByteHolds given.preimage.value.toList v.preimage.toList
  preimageLen : given.preimage.len.Holds v.preimageLen
  offset : given.docTypeOffsetInPreimage.Holds v.offset

namespace DocTypeValues

/-- The byte of the preimage at a distance from the offset. -/
def byteAt (v : DocTypeValues) (i : ℕ) : UInt8 := v.preimage.toList.getD (i + v.offset.toNat) 0

/-- The byte that the circuit takes for a byte of the type. -/
def got (v : DocTypeValues) (i : ℕ) : UInt8 :=
  if v.byteAt 8 = 0x78 then v.byteAt (10 + i) else v.byteAt (9 + i)

/-- What the circuit checks. -/
structure Accepted (v : DocTypeValues) : Prop where
  geFive : 5 ≤ v.offset.toNat
  lt : v.offset.toNat < v.preimageLen.toNat
  key : ∀ i ∈ List.range 8, v.suppress = true ∨ v.byteAt i = kDoctypeHeaderCheckCbor.getD i 0
  type : ∀ i ∈ List.range 32, v.suppress = false → i < v.expectedLen.toNat →
    v.got i = v.expected.toList.getD i 0

end DocTypeValues

theorem selects_bytes : Routing.Selects (Bitvec.oneHotMux (E := E)) (ByteHolds (E := E)) :=
  fun hot inside _ _ holds => Bitvec.oneHotMux_holds hot inside holds

theorem shiftPreimage_returns {offset len : HashIndex E} {o l : BitVec kHashIndexBits}
    (isOffset : offset.Holds o) (isLen : len.Holds l) {preimage : List (V8 E)} {bytes : List UInt8}
    (each : List.Forall₂ ByteHolds preimage bytes) {shiftBaseBits lenBytes : ℕ}
    (fits : Routing.Fits bytes.length lenBytes kHashIndexBits shiftBaseBits) :
    ∃ shifted held,
      shiftPreimage offset len shiftBaseBits lenBytes preimage (Bitvec.zero 8) =
        .ok (shifted, held) ∧
      (held = true ↔ 5 ≤ o.toNat ∧ o.toNat < l.toNat) ∧
      List.Forall₂ ByteHolds shifted
        ((List.range lenBytes).map fun i => bytes.getD (i + o.toNat) 0) := by
  obtain ⟨five, made, isFive⟩ := Bitvec.ofU64_holds (E := E) (show 5 < 2 ^ kHashIndexBits by decide)
  obtain ⟨geFive, ranGe, holdsGe⟩ := Bitvec.leq_returns isFive isOffset
  obtain ⟨lt, ranLt, holdsLt⟩ := Bitvec.lt_returns isOffset isLen
  obtain ⟨shifted, ran, holds⟩ := Routing.genericShift_returns selects_bytes
    (show ByteHolds (Bitvec.zero 8 : V8 E) 0 from Bitvec.zero_holds) isOffset each
    (by rwa [length_bitsOf])
  rw [Bitvec.natBits_bitsOf] at holds
  refine ⟨shifted, Logic.assertAll "shift_preimage_bounds"
    [Boolean.assertTrue "ge_five" geFive, Boolean.assertTrue "lt" lt], ?_, ?_, holds⟩
  · rw [shiftPreimage, made, ok_bind, ranGe, ok_bind, ranLt, ok_bind]
    dsimp only
    rw [Routing.shiftBitvec, ran, ok_bind, pure_eq_ok]
  · rw [assertAll_two, Boolean.assertTrue_iff holdsGe, Boolean.assertTrue_iff holdsLt,
      decide_eq_true_eq, decide_eq_true_eq]
    rfl

theorem assertNumbered_of_related {name : String} {held : List Assertions} {l : List ℕ}
    {cond : ℕ → Prop} (related : List.Forall₂ (fun h p => h = true ↔ p) held (l.map cond)) :
    Logic.assertNumbered name held = true ↔ ∀ i ∈ l, cond i := by
  rw [assertNumbered_iff]
  induction l generalizing held with
  | nil =>
    obtain rfl := List.forall₂_nil_right_iff.mp related
    simp
  | cons i l ih =>
    obtain ⟨h, rest, head, tail, rfl⟩ := List.forall₂_cons_right_iff.mp related
    rw [List.forall_mem_cons, List.forall_mem_cons, head, ih tail]

theorem getAt_byte {vs : List (V8 E)} {bytes : List UInt8}
    (each : List.Forall₂ ByteHolds vs bytes) (inside : i < bytes.length) :
    ∃ v : V8 E, (getAt vs i : Exec String _) = .ok v ∧ ByteHolds v (bytes.getD i 0) := by
  have inside' : i < vs.length := by rwa [each.length_eq]
  refine ⟨vs[i], getAt_of_lt inside', ?_⟩
  rw [List.getD_eq_getElem _ _ inside]
  exact List.Forall₂.get each inside' inside

theorem eqb_bytes {u v : V8 E} {b c : UInt8} (left : ByteHolds u b) (right : ByteHolds v c) :
    ∃ x, Bitvec.eqb u v = .ok x ∧ x.Encodes (decide (b = c)) := by
  obtain ⟨x, ran, holds⟩ := Bitvec.eqb_returns left right
  refine ⟨x, ran, ?_⟩
  simpa only [UInt8.toBitVec_inj] using holds

section

variable {given : DocTypeGiven E} {shifted : List (V8 E)}

theorem getAt_shifted (holds : List.Forall₂ ByteHolds shifted ((List.range 43).map v.byteAt))
    (inside : i < 43) :
    ∃ u : V8 E, (getAt shifted i : Exec String _) = .ok u ∧ ByteHolds u (v.byteAt i) := by
  obtain ⟨u, ran, isByte⟩ := getAt_byte holds (i := i) (by simpa using inside)
  refine ⟨u, ran, ?_⟩
  rwa [List.getD_eq_getElem _ _ (by simpa using inside), List.getElem_map,
    List.getElem_range] at isByte

variable (encodes : given.Encodes v)
  (holds : List.Forall₂ ByteHolds shifted ((List.range 43).map v.byteAt)) {item : Bytes}
include encodes holds

theorem headerByte_returns (inside : i ∈ List.range 8) :
    ∃ held, headerByte given shifted i = .ok held ∧
      (held = true ↔ v.suppress = true ∨ v.byteAt i = kDoctypeHeaderCheckCbor.getD i 0) := by
  have below : i < 8 := List.mem_range.mp inside
  have constant : (getAt kDoctypeHeaderCheckCbor i : Exec String _) =
      .ok (kDoctypeHeaderCheckCbor.getD i 0) := by
    rw [getAt_of_lt (show i < kDoctypeHeaderCheckCbor.length from below),
      List.getD_eq_getElem _ _ (show i < kDoctypeHeaderCheckCbor.length from below)]
  obtain ⟨byte, ranByte, isByte⟩ := getAt_shifted holds (i := i) (by omega)
  obtain ⟨want, ranWant, isWant⟩ := Bitvec.ofU8_holds (E := E) (kDoctypeHeaderCheckCbor.getD i 0)
  obtain ⟨eqBit, ranEq, isEq⟩ := eqb_bytes isByte isWant
  refine ⟨Boolean.assertTrue "header_byte" (Boolean.orb given.suppressDocTypeCheck eqBit), ?_,
    (Boolean.assertTrue_iff (Boolean.orb_encodes encodes.suppress isEq)).trans ?_⟩
  · rw [headerByte, ranByte, ok_bind, constant, ok_bind, ranWant, ok_bind, ranEq, ok_bind]
    rfl
  · rw [Bool.or_eq_true, decide_eq_true_eq]

theorem docTypeByte_returns {isTwoByteHeader : Bitw E}
    (isTwo : isTwoByteHeader.Encodes (decide (v.byteAt 8 = 0x78)))
    (inside : i ∈ List.range 32) :
    ∃ held, docTypeByte given shifted isTwoByteHeader i = .ok held ∧
      (held = true ↔ (v.suppress = false → i < v.expectedLen.toNat →
        v.got i = v.expected.toList.getD i 0)) := by
  have below : i < 32 := List.mem_range.mp inside
  obtain ⟨iWire, ranI, isI⟩ := Bitvec.ofU64_holds (E := E)
    (show i < 2 ^ kAttrIndexBits from below.trans (by decide))
  obtain ⟨inBounds, ranBounds, isBounds⟩ := Bitvec.lt_returns isI encodes.expectedLen
  obtain ⟨byte1, ran1, is1⟩ := getAt_shifted holds (i := 9 + i) (by omega)
  obtain ⟨byte2, ran2, is2⟩ := getAt_shifted holds (i := 10 + i) (by omega)
  obtain ⟨want, ranWant, isWant⟩ := getAt_byte encodes.expected (i := i) (by simpa using below)
  have isGot : ByteHolds (Bitvec.select isTwoByteHeader byte2 byte1) (v.got i) := by
    have chosen := Bitvec.select_holds isTwo is2 is1
    simp only [decide_eq_true_eq, ← apply_ite UInt8.toBitVec] at chosen
    exact chosen
  obtain ⟨eqBit, ranEq, isEq⟩ := eqb_bytes isGot isWant
  have active := Boolean.andb_encodes (Boolean.notb_encodes encodes.suppress) isBounds
  refine ⟨Boolean.assertTrue "doc_type_byte" (Boolean.impliesb
    (Boolean.andb (Boolean.notb given.suppressDocTypeCheck) inBounds) eqBit), ?_,
    (Boolean.assertTrue_iff (Boolean.impliesb_encodes active isEq)).trans ?_⟩
  · change getAt shifted (kDoctypeHeaderCheckCbor.length + 1 + i) = _ at ran1
    change getAt shifted (kDoctypeHeaderCheckCbor.length + 2 + i) = _ at ran2
    rw [docTypeByte, ranI, ok_bind, ranBounds, ok_bind]
    dsimp only
    rw [ran1, ok_bind, ran2, ok_bind, ranWant, ok_bind, ranEq, ok_bind]
    rfl
  · rw [BitVec.toNat_ofNat, Nat.mod_eq_of_lt (below.trans (by decide))]
    cases v.suppress <;> by_cases i < v.expectedLen.toNat <;> simp [*]

end

/-- **What the circuit checks**, for every assignment. -/
theorem assertMsoDocType_returns {given : DocTypeGiven E}
    (encodes : given.Encodes v) :
    ∃ held, assertMsoDocType given given.preimage.value.toList = .ok held ∧
      (held = true ↔ v.Accepted) := by
  obtain ⟨shifted, bounds, ranShift, isBounds, holds⟩ := shiftPreimage_returns encodes.offset
    encodes.preimageLen encodes.preimage (show Routing.Fits _ 43 _ 7 from
      ⟨by decide, by rw [Vector.length_toList]; decide, by decide, by decide, by decide⟩)
  obtain ⟨header, ranHeader, isHeader⟩ := mapM_related (l := List.range 8)
    fun i member => headerByte_returns encodes holds member
  obtain ⟨headByte, ranHead, isHead⟩ := getAt_shifted holds (i := 8) (by decide)
  obtain ⟨mark, ranMark, isMark⟩ := Bitvec.ofU8_holds (E := E) 0x78
  obtain ⟨isTwoByteHeader, ranTwo, isTwo⟩ := eqb_bytes isHead isMark
  obtain ⟨value, ranValue, isValue⟩ := mapM_related (l := List.range 32)
    fun i member => docTypeByte_returns encodes holds isTwo member
  refine ⟨Logic.assertAll "assert_mso_doc_type" [bounds,
    Logic.assertNumbered "cbor_header" header, Logic.assertNumbered "value_bytes" value], ?_, ?_⟩
  · change getAt shifted kDoctypeHeaderCheckCbor.length = _ at ranHead
    rw [assertMsoDocType]
    dsimp only
    rw [show kDoctypeHeaderCheckCbor.length + 35 = 43 from rfl, ranShift, ok_bind]
    dsimp only
    rw [show List.range kDoctypeHeaderCheckCbor.length = List.range 8 from rfl, ranHeader, ok_bind,
      ranHead, ok_bind, ranMark, ok_bind, ranTwo, ok_bind, ranValue, ok_bind, pure_eq_ok]
  · rw [assertAll_iff, List.forall_mem_cons, List.forall_mem_cons, List.forall_mem_singleton,
      isBounds, assertNumbered_of_related isHeader, assertNumbered_of_related isValue]
    constructor
    · rintro ⟨⟨geFive, lt⟩, key, type⟩
      exact ⟨geFive, lt, key, type⟩
    · rintro ⟨geFive, lt, key, type⟩
      exact ⟨⟨geFive, lt⟩, key, type⟩

/-! ### Text items -/

/-- The header of a text of some bytes, the shortest one or not. -/
inductive TextHead : ℕ → Bytes → Prop
  | short {n : ℕ} (small : n < 24) : TextHead n [UInt8.ofNat (0x60 + n)]
  | wide {n : ℕ} (k : ℕ) (width : k < 4) (fits : n < 256 ^ 2 ^ k) :
      TextHead n (UInt8.ofNat (0x78 + k) :: beBytes (2 ^ k) n)

/-- A well-formed text item and its text: in one piece, or in chunks up to a break. -/
inductive TextItem : Bytes → Bytes → Prop
  | definite {head text : Bytes} (isHead : TextHead text.length head) : TextItem (head ++ text) text
  | indefinite (chunks : List (Bytes × Bytes)) (each : ∀ c ∈ chunks, TextHead c.2.length c.1) :
      TextItem (0x7f :: (chunks.flatMap fun c => c.1 ++ c.2) ++ [0xff]) (chunks.flatMap Prod.snd)

/-- The header that the circuit takes an item to have. -/
def headerLength (item : Bytes) : ℕ := if item.getD 0 0 = 0x78 then 2 else 1

theorem TextHead.headerLength_le {n : ℕ} {head : Bytes} (isHead : TextHead n head) (rest : Bytes) :
    headerLength (head ++ rest) ≤ head.length := by
  cases isHead with
  | short small =>
    have other : UInt8.ofNat (0x60 + n) ≠ 0x78 := by
      intro same
      have := congrArg UInt8.toNat same
      rw [UInt8.toNat_ofNat', Nat.mod_eq_of_lt (by omega)] at this
      exact absurd this (by simp; omega)
    rw [headerLength, List.singleton_append, List.getD_cons_zero, if_neg other]
    rfl
  | wide k width fits =>
    have positive : 0 < 2 ^ k := Nat.two_pow_pos k
    rw [List.length_cons, length_beBytes, headerLength]
    split <;> omega

theorem TextItem.length_le {text : Bytes} (isItem : TextItem item text) :
    headerLength item + text.length ≤ item.length := by
  cases isItem with
  | definite isHead =>
    rw [List.length_append]
    exact Nat.add_le_add_right (isHead.headerLength_le text) _
  | indefinite chunks each =>
    have shorter : (chunks.flatMap Prod.snd).length ≤
        (chunks.flatMap fun c => c.1 ++ c.2).length := by
      rw [List.length_flatMap, List.length_flatMap]
      exact List.sum_le_sum fun c _ => by simp
    have one : headerLength (0x7f :: (chunks.flatMap fun c => c.1 ++ c.2) ++ [0xff]) = 1 := rfl
    rw [one, List.length_append, List.length_cons]
    omega

/-! ### The type of an accepted document -/

namespace DocTypeValues

/-- The bytes of the preimage behind the offset are a key and an item. -/
def KeyThen (v : DocTypeValues) (item : Bytes) : Prop :=
  kDoctypeHeaderCheckCbor ++ item <+: v.preimage.toList.drop v.offset.toNat

/-- The type that the verifier expects. -/
def expectedText (v : DocTypeValues) : Bytes := v.expected.toList.take v.expectedLen.toNat

variable {text : Bytes}

theorem length_expectedText : v.expectedText.length = min v.expectedLen.toNat 32 := by
  rw [expectedText, List.length_take, Vector.length_toList]

theorem KeyThen.byteAt_eq (follows : v.KeyThen item) (inside : i < 8 + item.length) :
    v.byteAt i = (kDoctypeHeaderCheckCbor ++ item).getD i 0 := by
  obtain ⟨rest, split⟩ := follows
  have moved : v.byteAt i = (v.preimage.toList.drop v.offset.toNat).getD i 0 := by
    rw [DocTypeValues.byteAt, List.getD_eq_getElem?_getD, List.getD_eq_getElem?_getD,
      List.getElem?_drop, Nat.add_comm]
  rw [moved, ← split]
  exact List.getD_append _ _ _ _ (by rwa [List.length_append])

theorem KeyThen.byteAt (follows : v.KeyThen item) (inside : i < item.length) :
    v.byteAt (8 + i) = item.getD i 0 := by
  rw [follows.byteAt_eq (Nat.add_lt_add_left inside 8),
    List.getD_append_right _ _ _ _ (Nat.le_add_right 8 i)]
  exact congrArg (item.getD · 0) (Nat.add_sub_cancel_left (n := 8) i)

theorem KeyThen.got (follows : v.KeyThen item)
    (inside : headerLength item + i < item.length) :
    v.got i = (item.drop (headerLength item)).getD i 0 := by
  have first := follows.byteAt (i := 0) (by omega)
  have here := follows.byteAt inside
  rw [List.getD_eq_getElem?_getD, List.getElem?_drop, ← List.getD_eq_getElem?_getD, ← here,
    DocTypeValues.got, headerLength, show v.byteAt 8 = item.getD 0 0 from first]
  split
  · rw [← Nat.add_assoc]
  · rw [← Nat.add_assoc]

end DocTypeValues

/-- **An accepted document has the expected type if and only if** the length of its text, which the
circuit does not compare, is the one compared, and the text is what the circuit takes it to be. -/
theorem docType_equal_iff {given : DocTypeGiven E} {v : DocTypeValues} (encodes : given.Encodes v)
    (checked : v.suppress = false)
    (accepted : assertMsoDocType given given.preimage.value.toList = .ok true)
    {item text : Bytes} (isItem : TextItem item text) (follows : v.KeyThen item) :
    text = v.expectedText ↔ text.length = min v.expectedLen.toNat 32 ∧
      text = (item.drop (headerLength item)).take text.length := by
  obtain ⟨held, ran, holds⟩ := assertMsoDocType_returns encodes
  obtain rfl : held = true := Except.ok.inj (ran.symm.trans accepted)
  have facts := holds.mp rfl
  have fits := isItem.length_le
  -- the circuit compares the bytes behind the header, up to the length that the verifier gives
  have compared (size : text.length = min v.expectedLen.toNat 32) :
      (item.drop (headerLength item)).take text.length = v.expectedText := by
    refine List.ext_getElem ?_ fun i left right => ?_
    · rw [DocTypeValues.length_expectedText, List.length_take, List.length_drop]
      omega
    · have below : i < text.length := (List.length_take_le _ _).trans_lt' left
      have byte := facts.type i (List.mem_range.mpr (by omega)) checked (by omega)
      rw [follows.got (by omega)] at byte
      rw [List.getElem_take]
      unfold DocTypeValues.expectedText at right ⊢
      rw [List.getElem_take, ← List.getD_eq_getElem _ 0, ← List.getD_eq_getElem _ 0]
      exact byte
  constructor
  · rintro same
    have size : text.length = min v.expectedLen.toNat 32 := by
      rw [same, DocTypeValues.length_expectedText]
    exact ⟨size, same.trans (compared size).symm⟩
  · rintro ⟨size, same⟩
    exact same.trans (compared size)

/-! ### Two types of which one starts the other -/

/-- Bytes with zeros behind them. -/
def paddedBytes (n : ℕ) (bytes : Bytes) : Vector UInt8 n :=
  ⟨((bytes ++ List.replicate n 0).take n).toArray, by simp⟩

theorem startsWith_paddedBytes {n : ℕ} {bytes : Bytes} (fits : bytes.length ≤ n) :
    bytes <+: (paddedBytes n bytes).toList :=
  List.prefix_take_iff.mpr ⟨List.prefix_append _ _, fits⟩

/-- The inputs as constants. -/
def DocTypeValues.evaluateGiven (E : Type) [CompileField E] (v : DocTypeValues) :
    DocTypeGiven E where
  suppressDocTypeCheck := Boolean.konst v.suppress
  expectedDocType := ⟨v.expected.map fun b => Bitvec.konst b.toBitVec, Bitvec.konst v.expectedLen⟩
  preimage := ⟨v.preimage.map fun b => Bitvec.konst b.toBitVec, Bitvec.konst v.preimageLen⟩
  docTypeOffsetInPreimage := Bitvec.konst v.offset

theorem konst_bytes {n : ℕ} (w : Vector UInt8 n) : List.Forall₂ (ByteHolds (E := E))
    (w.map fun b => Bitvec.konst b.toBitVec).toList w.toList := by
  rw [Vector.toList_map, List.forall₂_map_left_iff, List.forall₂_same]
  exact fun b _ => Bitvec.konst_holds b.toBitVec

theorem DocTypeValues.evaluateGiven_encodes (v : DocTypeValues) :
    (v.evaluateGiven E).Encodes v :=
  ⟨Boolean.konst_encodes _, konst_bytes _, Bitvec.konst_holds _, konst_bytes _,
    Bitvec.konst_holds _, Bitvec.konst_holds _⟩

/-- A preimage with a key and a text at offset five, and a type that the verifier expects. -/
def smallDocument (item expected : Bytes) : DocTypeValues where
  suppress := false
  expected := paddedBytes 32 expected
  expectedLen := BitVec.ofNat _ expected.length
  preimage := paddedBytes _ (List.replicate 5 0 ++ kDoctypeHeaderCheckCbor ++ item)
  preimageLen := BitVec.ofNat _ (13 + item.length)
  offset := 5

/-- The text `mDL2`. -/
def longerItem : Bytes := [0x64, 0x6d, 0x44, 0x4c, 0x32]

/-- The text `mDL`. -/
def equalItem : Bytes := [0x63, 0x6d, 0x44, 0x4c]

/-- The type `mDL`. -/
def expectedMdl : Bytes := [0x6d, 0x44, 0x4c]

section

theorem smallDocument_follows (fits : item.length ≤ 32) :
    (smallDocument item expectedMdl).KeyThen item := by
  have inside : (List.replicate 5 0 ++ kDoctypeHeaderCheckCbor ++ item).length ≤
      kMsoPreimageLen := by
    rw [List.length_append, show kMsoPreimageLen = 2560 from rfl,
      show (List.replicate 5 (0 : UInt8) ++ kDoctypeHeaderCheckCbor).length = 13 from rfl]
    omega
  exact (startsWith_paddedBytes inside).drop 5

variable (starts : (item.drop 1).take 3 = expectedMdl) (fits : item.length ≤ 32)
  (short : headerLength item = 1)
include starts fits short

theorem smallDocument_accepted :
    (smallDocument item expectedMdl).Accepted where
  geFive := le_refl 5
  lt := by
    rw [show (smallDocument item expectedMdl).preimageLen = BitVec.ofNat _ (13 + item.length) from
      rfl, BitVec.toNat_ofNat, Nat.mod_eq_of_lt (by simp [kHashIndexBits]; omega)]
    exact (show 5 < 13 by decide).trans_le (Nat.le_add_right _ _)
  key i member := by
    have below : i < 8 := List.mem_range.mp member
    right
    rw [(smallDocument_follows fits).byteAt_eq (by omega), List.getD_append _ _ _ _ below]
  type i _ _ inside := by
    have below : i < 3 := inside
    have long : 4 ≤ item.length := by
      have size := congrArg List.length starts
      rw [List.length_take, List.length_drop, show expectedMdl.length = 3 from rfl] at size
      omega
    have want : ∀ j < 3, (paddedBytes 32 expectedMdl).toList.getD j 0 = expectedMdl.getD j 0 := by
      decide
    rw [(smallDocument_follows fits).got (by omega), short]
    refine Eq.trans ?_ (want i below).symm
    rw [← starts, List.getD_eq_getElem?_getD, List.getD_eq_getElem?_getD,
      List.getElem?_take_of_lt below]

theorem smallDocument_runs :
    assertMsoDocType ((smallDocument item expectedMdl).evaluateGiven E)
      ((smallDocument item expectedMdl).evaluateGiven E).preimage.value.toList = .ok true := by
  obtain ⟨held, ran, holds⟩ :=
    assertMsoDocType_returns (smallDocument item expectedMdl).evaluateGiven_encodes (E := E)
  rwa [holds.mpr (smallDocument_accepted starts fits short)] at ran

end

/-- A document of the type `mDL` is accepted for the type `mDL`, and its text is the one expected. -/
theorem docType_equal_mdl :
    equalItem.drop 1 = (smallDocument equalItem expectedMdl).expectedText ↔
      (equalItem.drop 1).length = min 3 32 ∧
        equalItem.drop 1 = (equalItem.drop (headerLength equalItem)).take 3 :=
  docType_equal_iff (E := ZMod 3) (smallDocument equalItem expectedMdl).evaluateGiven_encodes rfl
    (smallDocument_runs (by decide) (by decide) (by decide))
    (show TextItem ([0x63] ++ expectedMdl) expectedMdl from .definite (.short (by decide)))
    (smallDocument_follows (by decide))

/-- **A document of the type `mDL2` is accepted for the type `mDL`.** -/
theorem longer_docType_is_accepted :
    ¬ ∀ (given : DocTypeGiven (ZMod 3)) (v : DocTypeValues), given.Encodes v →
      v.suppress = false → assertMsoDocType given given.preimage.value.toList = .ok true →
      ∀ item text : Bytes, TextItem item text → v.KeyThen item → text = v.expectedText := by
  intro sound
  have same := sound _ _ (smallDocument longerItem expectedMdl).evaluateGiven_encodes rfl
    (smallDocument_runs (by decide) (by decide) (by decide)) longerItem (longerItem.drop 1)
    (show TextItem ([0x64] ++ longerItem.drop 1) (longerItem.drop 1) from
      .definite (.short (by decide)))
    (smallDocument_follows (by decide))
  exact absurd same (by decide)

end Longfellow.Mdoc
