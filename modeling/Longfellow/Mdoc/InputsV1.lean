/-
**The inputs of the first circuits** (`mdoc_zk/runtime/src/v1/inputs/public.rs`,
`mdoc_zk/runtime/src/v1/inputs/private.rs`, `mdoc_zk/runtime/src/v1/inputs/builder.rs`,
`core/algebra/src/proto.rs`).

The builders pad what they push to fixed sizes, and take the difference of two lengths for the
padding. A length that is too large is a panic, not an error.

* `inputBuilders_total_iff` — **when none of the builders panics**.
-/

import Longfellow.Mdoc.ItemLayout

namespace Longfellow.Mdoc.V1

open Lib Cbor Gadget

/-! ### Encodings -/

/-- A basis of the subfield of 16 bits. -/
def gf216BasisV1 : List (BitVec 128) := [
  0x00000000000000000000000000000001, 0x5c5971877501d4b8f1871e01b64fda4c,
  0x8bb99658eaf2cae0a6e310fb6e176ea8, 0xb61e08da12f9665c3f8de8a2f9ff7eed,
  0xa76c2e634c6483ae9ba3282087a3f827, 0x54944ff4a5269cedf7af4e93629f689e,
  0x5439ecfd75a950d8d0765f1873309b88, 0x49ecdfbe06777b02e566f9fc3d9b58a2,
  0x97a401b733e66a9319af205497f8e2d0, 0x789fd7793ce7523860e4dbdce9777814,
  0xaa440b2d4b546256c0f157187adbc05b, 0x79f2cadb70b6115d222f207d0d8ad9f9,
  0xae72af7894ce037df6d1f84fb66c52b8, 0xd6f226d783d454db4af94ef056d28a30,
  0x057d918d494925fc0f37a0a4d91b4220, 0x18d4bbb6833c5ae8b683012350e55753]

def pushRawBytes {K : Type} [Zero K] [One K] (bytes : Bytes) : List K :=
  bytes.flatMap fun b => pushBitsLen b.toNat 8

def pushPad {K : Type} (padElt : K) (count : ℕ) : List K := List.replicate count padElt

def pushV32Legacy (val : Sha256.Word) : List Gf2128Elt :=
  (List.range 8).map fun i =>
    let valChunk := val.toNat >>> (4 * i) &&& 0xf
    let plucked := valChunk <<< 1 ^^^ 15
    gf216BasisV1.zipIdx.foldl (fun pt basis =>
      if plucked.testBit basis.2 then pt + ⟨basis.1⟩ else pt) 0

def pushLegacyShaWitness (sha : Sha256.ConcreteDerived) : List Gf2128Elt :=
  sha.legacyElements.flatMap pushV32Legacy

/-! ### Public inputs -/

/-- The lengths of the identifier with its key and of the value with its key. -/
def publicLengths (la : RequestedAttribute) : ℕ × ℕ :=
  (1 + 17 + 1 + la.id.length, la.cborValue.length + 12 + 1)

def pushInputAttr {ε : Type} (version : ℕ) (la : RequestedAttribute) :
    Exec ε (List Gf2128Elt) :=
  if 7 ≤ version then do
    let vbuf := encodeCborString la.id
    let idPad ← checkedSub 32 vbuf.length
    let valPad ← checkedSub 64 la.cborValue.length
    return pushRawBytes vbuf ++ pushPad 0 (idPad * 8) ++
      pushRawBytes la.cborValue ++ pushPad 0 (valPad * 8) ++
      pushBitsLen (publicLengths la).1 8 ++ pushBitsLen (publicLengths la).2 8
  else do
    let vbuf := encodeCborString la.id ++ encodeCborString (utf8 "elementValue") ++ la.cborValue
    let pad ← checkedSub 96 vbuf.length
    return pushRawBytes vbuf ++ pushPad 0 (pad * 8) ++ pushBitsLen vbuf.length 8

def pushInputAttrs {ε : Type} (version : ℕ) (attrs : List RequestedAttribute) :
    Exec ε (List Gf2128Elt) := do
  let pushed ← attrs.mapM (pushInputAttr version)
  return pushed.flatten

def pushInputHash {ε : Type} (version : ℕ) (attrs : List RequestedAttribute) (nowBytes : Bytes)
    (macs : Vector (BitVec 128) 6) (av : BitVec 128) : Exec ε (List Gf2128Elt) := do
  let pushed ← pushInputAttrs version attrs
  let nowPad ← checkedSub 20 nowBytes.length
  return [1] ++ pushed ++ pushRawBytes nowBytes ++ pushPad ⟨2⟩ (nowPad * 8) ++
    macs.toList.flatMap pushU128 ++ pushU128 av

/-! ### The witness of the hashes -/

inductive MdocProverErrorCode where
  | attributeNotFound
  | attributeTooLong
  deriving DecidableEq

def maxShablocks (version : ℕ) : ℕ := if version ≤ 6 then 35 else 40

/-- The length of the head of a value, by its first bytes. -/
def valHeaderLen (cborValue : Bytes) : ℕ :=
  match cborValue with
  | [] => 0
  | first :: _ =>
    if first = 0xd9 then
      let innerHeaderLen :=
        if 3 < cborValue.length ∧ (cborValue.getD 3 0 = 0x78 ∨ cborValue.getD 3 0 = 0x58) then 2
        else 1
      3 + innerHeaderLen
    else if (0x60 ≤ first ∧ first ≤ 0x77) ∨ (0x40 ≤ first ∧ first ≤ 0x57) then 1
    else if first = 0x78 ∨ first = 0x58 then 2
    else if first = 0x79 ∨ first = 0x59 then 3
    else 0

/-- The padded message of a number of blocks, or a panic. -/
def unwrapGiven {ε : Type} (preimage : Bytes) (maxBlocks : ℕ) : Exec ε Sha256.MsgGiven :=
  mapErr (fun e => abort ("called `Result::unwrap()` on an `Err` value: " ++ e))
    (Sha256.msgGiven preimage Sha256.initial maxBlocks)

/-- The positions and the lengths of the identifier and of the value. -/
structure Located where
  eiPos : ℕ
  eiLen : ℕ
  evPos : ℕ
  evLen : ℕ

/-- What is pushed of the places that were found in an item. -/
def located {ε : Type} (version idLen valLen : ℕ) (loc : FieldLocator) : Exec ε Located := do
  let slotEi := loc.permutation >>> 4 &&& 3
  let slotEv := loc.permutation >>> 6 &&& 3
  let eiPos ← getAt loc.slotPosition slotEi
  let evPos ← getAt loc.slotPosition slotEv
  if version < 7 then
    return ⟨eiPos + 18, idLen + valLen + 13, evPos + 1, valLen⟩
  else
    return ⟨eiPos, ← getAt loc.length slotEi, evPos, ← getAt loc.length slotEv⟩

/-- All places, which the later circuits take. -/
def pushSlots {ε : Type} (version : ℕ) (loc : FieldLocator) : Exec ε (List Gf2128Elt) :=
  if 7 ≤ version then do
    let positions ← [1, 2, 3].mapM (getAt loc.slotPosition)
    let lengths ← [0, 1, 2, 3].mapM (getAt loc.length)
    return (positions ++ lengths).flatMap (pushBitsLen · 12) ++ pushBitsLen loc.permutation 8
  else return []

def pushWitnessAttr (version : ℕ) (parsed : ParsedMdoc) (la : RequestedAttribute) :
    Exec MdocProverErrorCode (List Gf2128Elt) := do
  let pa ← okOr (parsed.getAttribute la.id) .attributeNotFound
  check (pa.cborIssuerSignedItem.length < 256) .attributeTooLong
  let attrShaIn ← unwrapGiven pa.cborIssuerSignedItem 2
  let attrShaWitness ← Sha256.msgDerived attrShaIn 2
  let sha0 ← getAt attrShaWitness 0
  let sha1 ← getAt attrShaWitness 1
  let loc := pa.fieldLocator
  let valLen ← checkedSub la.cborValue.length (valHeaderLen la.cborValue)
  let place ← located version la.id.length valLen loc
  let slots ← pushSlots version loc
  return pushRawBytes attrShaIn.paddedPreimage ++ pushLegacyShaWitness sha0 ++
    pushLegacyShaWitness sha1 ++ pushBitsLen pa.msoDigestOffsetInPreimage 12 ++
    pushBitsLen place.eiPos 12 ++ pushBitsLen place.eiLen 12 ++
    pushBitsLen place.evPos 12 ++ pushBitsLen place.evLen 12 ++ slots

def pushWitnessAttrs (version : ℕ) (reqAttrs : List RequestedAttribute) (parsed : ParsedMdoc) :
    Exec MdocProverErrorCode (List Gf2128Elt) := do
  let pushed ← reqAttrs.mapM (pushWitnessAttr version parsed)
  return pushed.flatten

def pushWitnessHash (version : ℕ) (reqAttrs : List RequestedAttribute) (parsed : ParsedMdoc)
    (macAp : MacAp) : Exec MdocProverErrorCode (List Gf2128Elt) := do
  let maxMsoBlocks := maxShablocks version
  let msoShaIn ← unwrapGiven parsed.cborMso maxMsoBlocks
  let msoShaWitness ← Sha256.msgDerived msoShaIn maxMsoBlocks
  let signedBytes ← slice msoShaIn.paddedPreimage 18 (maxMsoBlocks * 64)
  let attrs ← pushWitnessAttrs version reqAttrs parsed
  return ([parsed.issuerSigDigest, parsed.devicePk.1, parsed.devicePk.2].flatMap fun nat =>
      pushRawBytes (leBytes 32 nat)) ++
    pushBitsLen msoShaIn.nblocks 8 ++ pushRawBytes signedBytes ++
    msoShaWitness.flatMap pushLegacyShaWitness ++
    pushBitsLen parsed.validFromOffsetInMso 12 ++ pushBitsLen parsed.validUntilOffsetInMso 12 ++
    pushBitsLen parsed.deviceKeyInfoOffsetInMso 12 ++
    pushBitsLen parsed.valueDigestsOffsetInMso 12 ++ attrs ++
    macAp.toList.flatMap fun pair => pushU128 pair.1 ++ pushU128 pair.2

/-! ### Places -/

/-- There is a position and a length for each of the four slots. -/
structure FourSlots (loc : FieldLocator) : Prop where
  positions : loc.slotPosition.length = 4
  lengths : loc.length.length = 4

/-- The places of an identifier and of a value in an item of four slots. -/
def locatedOf (version idLen valLen : ℕ) (loc : FieldLocator) : Located :=
  let slotEi := loc.permutation >>> 4 &&& 3
  let slotEv := loc.permutation >>> 6 &&& 3
  let eiPos := loc.slotPosition.getD slotEi 0
  let evPos := loc.slotPosition.getD slotEv 0
  if version < 7 then ⟨eiPos + 18, idLen + valLen + 13, evPos + 1, valLen⟩
  else ⟨eiPos, loc.length.getD slotEi 0, evPos, loc.length.getD slotEv 0⟩

variable {ε : Type}

theorem getAt_of_four {xs : List ℕ} (four : xs.length = 4) {i : ℕ} (small : i < 4) :
    (getAt xs i : Exec ε ℕ) = .ok (xs.getD i 0) := by
  have bound : i < xs.length := by omega
  rw [getAt_of_lt bound, List.getD_eq_getElem?_getD, List.getElem?_eq_getElem bound,
    Option.getD_some]

theorem and_three_lt (n : ℕ) : n &&& 3 < 4 := Nat.lt_succ_of_le Nat.and_le_right

theorem located_eq {loc : FieldLocator} (four : FourSlots loc) (version idLen valLen : ℕ) :
    (located version idLen valLen loc : Exec ε Located) = .ok (locatedOf version idLen valLen loc) := by
  unfold located locatedOf
  simp only [getAt_of_four four.positions (and_three_lt _),
    getAt_of_four four.lengths (and_three_lt _), ok_bind, pure_eq_ok]
  split_ifs <;> rfl

/-- All places of an item of four slots. -/
def slotsOf (version : ℕ) (loc : FieldLocator) : List Gf2128Elt :=
  if 7 ≤ version then
    (([1, 2, 3].map fun i => loc.slotPosition.getD i 0) ++
      ([0, 1, 2, 3].map fun i => loc.length.getD i 0)).flatMap (pushBitsLen · 12) ++
      pushBitsLen loc.permutation 8
  else []

theorem pushSlots_eq {loc : FieldLocator} (four : FourSlots loc) (version : ℕ) :
    (pushSlots version loc : Exec ε _) = .ok (slotsOf version loc) := by
  have positions : [1, 2, 3].mapM (getAt loc.slotPosition : ℕ → Exec ε ℕ) =
      .ok ([1, 2, 3].map fun i => loc.slotPosition.getD i 0) :=
    mapM_eq_ok_map fun i member => getAt_of_four four.positions (by simp at member; omega)
  have lengths : [0, 1, 2, 3].mapM (getAt loc.length : ℕ → Exec ε ℕ) =
      .ok ([0, 1, 2, 3].map fun i => loc.length.getD i 0) :=
    mapM_eq_ok_map fun i member => getAt_of_four four.lengths (by simp at member; omega)
  unfold pushSlots slotsOf
  rw [positions, lengths]
  split_ifs <;> rfl

theorem fourSlots_of_witness {item valueDigests : CborElement} {ns : Bytes}
    {pairs : List (CborElement × CborElement)} {slots : List ℕ} {attr : ParsedAttr}
    (witness : WitnessOf item valueDigests ns pairs slots attr) : FourSlots attr.fieldLocator := by
  obtain ⟨first, -, positions⟩ := witness.positions
  refine ⟨?_, ?_⟩
  · rw [positions, List.length_map, List.length_range]
  · rw [witness.lengths, List.length_map, witness.four]

variable {sha256 : Bytes → Vector UInt8 32} {mdoc transcript docType : Bytes} {parsed : ParsedMdoc}

theorem itemOf_getAttribute {id : Bytes}
    (accepted : parseMdoc sha256 mdoc transcript docType = .ok parsed) {pa : ParsedAttr}
    (found : parsed.getAttribute id = some pa) :
    pa.name = id ∧ ∃ valueDigests ns el, ItemOf mdoc valueDigests ns el pa := by
  obtain ⟨namespaces, valueDigests, -, items⟩ := parseMdoc_items accepted
  obtain ⟨item, -, isItem⟩ := exists_of_mem_right items (List.mem_of_find?_eq_some found)
  exact ⟨by simpa using List.find?_some found, valueDigests, item.1, item.2, isItem⟩

/-! ### When the builders panic -/

theorem unwrapGiven_asserts (preimage : Bytes) (maxBlocks : ℕ) :
    Asserts (unwrapGiven preimage maxBlocks : Exec ε _)
      (Sha256.blocksFor preimage.length ≤ maxBlocks)
      (Sha256.msgGivenOf preimage Sha256.initial maxBlocks) :=
  (Sha256.msgGiven_decides preimage Sha256.initial maxBlocks).asserts

theorem blocksFor_le_iff {len blocks : ℕ} :
    Sha256.blocksFor len ≤ blocks ↔ len + 9 ≤ blocks * 64 := by
  show (len + 9 + 64 - 1) / 64 ≤ blocks ↔ _
  omega

/-- The item of a request fits two blocks, and the value is not shorter than its head. -/
def Regular (pa : ParsedAttr) (la : RequestedAttribute) : Prop :=
  pa.cborIssuerSignedItem.length ≤ 119 ∧ valHeaderLen la.cborValue ≤ la.cborValue.length

/-- A request is answered or refused: the attribute is not there, or its item is too long, or the
request is regular. -/
def AttrQuiet (parsed : ParsedMdoc) (la : RequestedAttribute) : Prop :=
  ∀ pa, parsed.getAttribute la.id = some pa → pa.cborIssuerSignedItem.length < 256 → Regular pa la

/-- The requests are answered up to the first one that is refused. -/
def AttrsQuiet (parsed : ParsedMdoc) : List RequestedAttribute → Prop
  | [] => True
  | la :: rest => AttrQuiet parsed la ∧
      ((∃ pa, parsed.getAttribute la.id = some pa ∧ Regular pa la) → AttrsQuiet parsed rest)

theorem total_and_returns {α : Type} {x : Exec ε α} {cond : Prop} {a : α}
    (asserts : Asserts x cond a) : (Total x ↔ cond) ∧ ((∃ b, x = .ok b) ↔ cond) :=
  ⟨asserts.total_iff, asserts.returns_iff⟩

variable {version : ℕ}

/-- **The witness of one attribute** is refused, or returned exactly for a regular request. -/
theorem pushWitnessAttr_spec {la : RequestedAttribute}
    (four : ∀ pa, parsed.getAttribute la.id = some pa → FourSlots pa.fieldLocator) :
    (Total (pushWitnessAttr version parsed la) ↔ AttrQuiet parsed la) ∧
      ((∃ pushed, pushWitnessAttr version parsed la = .ok pushed) ↔
        ∃ pa, parsed.getAttribute la.id = some pa ∧ Regular pa la) := by
  unfold pushWitnessAttr AttrQuiet
  cases found : parsed.getAttribute la.id with
  | none =>
    refine ⟨iff_of_true (.inr ⟨_, rfl⟩) nofun, iff_of_false ?_ ?_⟩
    · rintro ⟨pushed, returned⟩
      cases returned
    · rintro ⟨pa, same, -⟩
      cases same
  | some pa =>
    have slots := four pa found
    have quiet : (∀ pa', some pa = some pa' → pa'.cborIssuerSignedItem.length < 256 →
        Regular pa' la) ↔ (pa.cborIssuerSignedItem.length < 256 → Regular pa la) :=
      ⟨fun all => all pa rfl, fun holds pa' same => Option.some.inj same ▸ holds⟩
    have regular : (∃ pa', some pa = some pa' ∧ Regular pa' la) ↔ Regular pa la :=
      ⟨fun ⟨pa', same, holds⟩ => Option.some.inj same ▸ holds, fun holds => ⟨pa, rfl, holds⟩⟩
    have start : (okOr (some pa) .attributeNotFound : Exec MdocProverErrorCode _) = .ok pa := rfl
    rw [quiet, regular, start, ok_bind]
    by_cases fits : pa.cborIssuerSignedItem.length < 256
    · rw [check_of fits, ok_bind, imp_iff_right fits]
      apply total_and_returns
      apply Asserts.congr
      · apply (unwrapGiven_asserts pa.cborIssuerSignedItem 2).bind
        intro blocks
        rw [Sha256.msgDerived_eq _ blocks, ok_bind, getAt_of_lt (by simp), ok_bind,
          getAt_of_lt (by simp), ok_bind]
        apply (asserts_checkedSub la.cborValue.length (valHeaderLen la.cborValue)).bind
        intro ordered
        rw [located_eq slots, ok_bind, pushSlots_eq slots, ok_bind]
        exact asserts_pure _
      · rw [blocksFor_le_iff, Regular, and_true]
        exact and_congr_left fun _ => by omega
    · have long : ¬ Regular pa la := fun holds => fits (by have := holds.1; omega)
      rw [check, if_neg fits]
      refine ⟨iff_of_true (.inr ⟨_, rfl⟩) fun short => absurd short fits, iff_of_false ?_ long⟩
      rintro ⟨pushed, returned⟩
      cases returned

theorem pushWitnessAttrs_total
    (four : ∀ id pa, parsed.getAttribute id = some pa → FourSlots pa.fieldLocator)
    (attrs : List RequestedAttribute) :
    Total (pushWitnessAttrs version attrs parsed) ↔ AttrsQuiet parsed attrs := by
  have flat : Total (pushWitnessAttrs version attrs parsed) ↔
      Total (attrs.mapM (pushWitnessAttr version parsed)) := by
    rw [pushWitnessAttrs, total_bind]
    exact and_iff_left fun _ _ => total_ok _
  rw [flat]
  clear flat
  induction attrs with
  | nil => exact iff_of_true (total_ok _) trivial
  | cons la rest ih =>
    obtain ⟨total, returns⟩ := pushWitnessAttr_spec (four la.id)
    rw [List.mapM_cons, total_bind, total, AttrsQuiet, ← returns]
    refine and_congr_right fun _ => ?_
    have later (pushed : List Gf2128Elt) : Total (do
        let more ← rest.mapM (pushWitnessAttr version parsed)
        return pushed :: more) ↔ AttrsQuiet parsed rest := by
      refine total_bind.trans (Iff.trans ?_ ih)
      exact and_iff_left fun _ _ => total_ok _
    simp only [later]
    exact ⟨fun all ⟨pushed, ran⟩ => all pushed ran, fun all pushed ran => all ⟨pushed, ran⟩⟩

/-- An attribute of a request has room among the public inputs. -/
def AttrFits (version : ℕ) (la : RequestedAttribute) : Prop :=
  if 7 ≤ version then (encodeCborString la.id).length ≤ 32 ∧ la.cborValue.length ≤ 64
  else (encodeCborString la.id).length + 13 + la.cborValue.length ≤ 96

/-- What is pushed for an attribute that has room. -/
def inputAttr (version : ℕ) (la : RequestedAttribute) : List Gf2128Elt :=
  let vbuf := encodeCborString la.id
  if 7 ≤ version then
    pushRawBytes vbuf ++ pushPad 0 ((32 - vbuf.length) * 8) ++
      pushRawBytes la.cborValue ++ pushPad 0 ((64 - la.cborValue.length) * 8) ++
      pushBitsLen (publicLengths la).1 8 ++ pushBitsLen (publicLengths la).2 8
  else
    let vbuf := vbuf ++ encodeCborString (utf8 "elementValue") ++ la.cborValue
    pushRawBytes vbuf ++ pushPad 0 ((96 - vbuf.length) * 8) ++ pushBitsLen vbuf.length 8

theorem pushInputAttr_asserts (version : ℕ) (la : RequestedAttribute) :
    Asserts (pushInputAttr version la : Exec ε _) (AttrFits version la) (inputAttr version la) := by
  unfold pushInputAttr AttrFits inputAttr
  split_ifs
  · exact (asserts_checkedSub _ _).bind fun _ => (asserts_checkedSub _ _).andThen rfl
  · have total : (encodeCborString la.id ++ encodeCborString (utf8 "elementValue") ++
        la.cborValue).length = (encodeCborString la.id).length + 13 + la.cborValue.length := by
      rw [List.length_append, List.length_append]
      rfl
    dsimp only
    rw [← total]
    exact (asserts_checkedSub _ _).andThen rfl

theorem pushInputHash_total (version : ℕ) (attrs : List RequestedAttribute) (nowBytes : Bytes)
    (macs : Vector (BitVec 128) 6) (av : BitVec 128) :
    Total (pushInputHash version attrs nowBytes macs av : Exec ε _) ↔
      (∀ la ∈ attrs, AttrFits version la) ∧ nowBytes.length ≤ 20 := by
  have pushed : Asserts (pushInputAttrs version attrs : Exec ε _)
      (∀ la ∈ attrs, AttrFits version la) (attrs.map (inputAttr version)).flatten :=
    (asserts_mapM (pushInputAttr_asserts version) attrs).andThen rfl
  unfold pushInputHash
  apply Asserts.total_iff
  apply pushed.bind
  intro _
  apply (asserts_checkedSub 20 nowBytes.length).andThen
  rfl

theorem pushWitnessHash_total
    (four : ∀ id pa, parsed.getAttribute id = some pa → FourSlots pa.fieldLocator)
    (attrs : List RequestedAttribute) (macAp : MacAp) :
    Total (pushWitnessHash version attrs parsed macAp) ↔
      Sha256.blocksFor parsed.cborMso.length ≤ maxShablocks version ∧ AttrsQuiet parsed attrs := by
  have given := unwrapGiven_asserts (ε := MdocProverErrorCode) parsed.cborMso (maxShablocks version)
  unfold pushWitnessHash
  rw [total_bind, given.total_iff]
  refine and_congr_right fun blocks => ?_
  have size := Sha256.length_paddedBuffer blocks
  have some := Sha256.blocksFor_pos parsed.cborMso.length
  rw [given.returns blocks]
  simp only [Except.ok.injEq, forall_eq']
  rw [Sha256.msgDerived_eq _ blocks, ok_bind, Sha256.msgGivenOf, slice_of_le (by omega) size.ge,
    ok_bind, total_bind, pushWitnessAttrs_total four]
  exact and_iff_left fun _ _ => total_ok _

theorem length_appendLen_le (buf : Bytes) (majorType : UInt8) {len : ℕ} (short : len ≤ 0xffff) :
    (appendLen buf majorType len).length ≤ buf.length + 3 := by
  unfold appendLen
  split_ifs
  · simp
  · simp
  · simp [length_beBytes]

theorem cborMso_length_le (accepted : parseMdoc sha256 mdoc transcript docType = .ok parsed) :
    parsed.cborMso.length + 9 ≤ kMsoPreimageLen := by
  obtain ⟨parts, found⟩ := (parseMdoc_spec sha256 mdoc transcript docType).of_ok accepted
  have layout := found.layout
  rw [validateMsoLayout, bind_eq_ok] at layout
  obtain ⟨formattedLen, isSum, layout⟩ := layout
  simp only [bind_eq_ok, check_eq_ok] at layout
  obtain ⟨_, small, _, shape, -⟩ := layout
  have total : formattedLen = 20 + parts.wrapped.length := by
    rw [okOr_eq_ok] at isSum
    have fixed : checkedAdd kCose1PrefixLen 2 = some 20 := rfl
    rw [fixed, Option.bind_some, checkedAdd] at isSum
    split_ifs at isSum
    exact (Option.some.inj isSum).symm
  have message := length_appendLen_le kCoseSign1SigningHeader 0x40
    (show parts.wrapped.length ≤ 0xffff by omega)
  have header : kCoseSign1SigningHeader.length = 17 := by decide
  have limit : kMsoPreimageLen = 2560 := rfl
  rw [found.message, formatCoseSign1Message, List.length_append, appendBytesLen]
  omega

theorem fourSlots_of_accepted (accepted : parseMdoc sha256 mdoc transcript docType = .ok parsed)
    (id : Bytes) (pa : ParsedAttr) (found : parsed.getAttribute id = some pa) :
    FourSlots pa.fieldLocator := by
  obtain ⟨-, valueDigests, ns, el, item⟩ := itemOf_getAttribute accepted found
  obtain ⟨payload, inner, pairs, slots, -, witness⟩ := item.witness
  exact fourSlots_of_witness witness

/-- **The builders return exactly when everything fits** the sizes that they pad to: the attributes
and the time of a request, the signed message for the circuits before version 7, and the items of
the requests up to the first one that is refused, with values that are not shorter than their
heads. In all other cases one of them panics. -/
theorem inputBuilders_total_iff {ε : Type} {sha256 : Bytes → Vector UInt8 32}
    {mdoc transcript docType : Bytes} {parsed : ParsedMdoc}
    (accepted : parseMdoc sha256 mdoc transcript docType = .ok parsed) (version : ℕ)
    (attrs : List RequestedAttribute) (nowBytes : Bytes) (macs : Vector (BitVec 128) 6)
    (av : BitVec 128) (macAp : MacAp) :
    (Total (pushInputHash version attrs nowBytes macs av : Exec ε _) ∧
      Total (pushWitnessHash version attrs parsed macAp)) ↔
      ((∀ la ∈ attrs, AttrFits version la) ∧ nowBytes.length ≤ 20) ∧
        (version ≤ 6 → parsed.cborMso.length ≤ 2231) ∧ AttrsQuiet parsed attrs := by
  have short := cborMso_length_le accepted
  have limit : kMsoPreimageLen = 2560 := rfl
  have blocks : Sha256.blocksFor parsed.cborMso.length ≤ maxShablocks version ↔
      (version ≤ 6 → parsed.cborMso.length ≤ 2231) := by
    rw [blocksFor_le_iff, maxShablocks]
    split_ifs with old
    · rw [imp_iff_right old]
      omega
    · exact iff_of_true (by omega) fun older => absurd older old
  rw [pushInputHash_total, pushWitnessHash_total (fourSlots_of_accepted accepted), blocks]

/-- A request for nothing, at a time of 20 bytes. -/
theorem inputBuilders_total_empty : ∃ parsed,
    parseMdoc Sha256.digest twoNamespacesMdoc [0xf6] (utf8 "mDL") = .ok parsed ∧
      Total (pushInputHash 7 [] (utf8 "2024-01-01T00:00:00Z") (Vector.replicate 6 0) 0 :
        Exec MdocProverErrorCode _) ∧
      Total (pushWitnessHash 7 [] parsed (Vector.replicate 3 (0, 0))) := by
  have ran := twoNamespaces_parsed
  split at ran
  next parsed accepted =>
    exact ⟨parsed, accepted, (inputBuilders_total_iff accepted 7 []
      (utf8 "2024-01-01T00:00:00Z") (Vector.replicate 6 0) 0 (Vector.replicate 3 (0, 0))).mpr
        ⟨⟨nofun, by decide⟩, nofun, trivial⟩⟩
  next => cases ran

theorem twoNamespaces_item :
    (match parseMdoc Sha256.digest twoNamespacesMdoc [0xf6] (utf8 "mDL") with
      | .ok parsed => (parsed.getAttribute (utf8 "age")).any fun pa =>
        decide (pa.cborIssuerSignedItem.length < 256)
      | .error _ => false) = true := by decide +kernel

/-- A time of 21 bytes, and a value that is only the head of a text. -/
theorem long_time_panics : ∃ parsed,
    parseMdoc Sha256.digest twoNamespacesMdoc [0xf6] (utf8 "mDL") = .ok parsed ∧
      ¬ Total (pushInputHash 7 [] (utf8 "+2024-01-01T00:00:00Z") (Vector.replicate 6 0) 0 :
        Exec MdocProverErrorCode _) ∧
      ¬ Total (pushWitnessHash 7 [⟨utf8 "org", utf8 "age", [0x78]⟩] parsed
        (Vector.replicate 3 (0, 0))) := by
  have ran := twoNamespaces_item
  split at ran
  next parsed accepted =>
    refine ⟨parsed, accepted, ?_, ?_⟩
    · rw [pushInputHash_total]
      exact fun fits => absurd fits.2 (by decide)
    · rw [pushWitnessHash_total (fourSlots_of_accepted accepted)]
      rintro ⟨-, quiet, -⟩
      obtain ⟨pa, found, short⟩ := (Option.any_eq_true _ _).mp ran
      exact absurd (quiet pa found (by simpa using short)).2 (by decide)
  next => cases ran

/-! ### Lengths on both sides -/

/-- In an item, the keys of the identifier and of the value and the identifier itself have heads of
one byte. -/
def ShortHeads (payload : Bytes) (item : CborElement) : Prop :=
  (∀ pair, entryOf item "elementIdentifier" = some pair →
    OneByteHead payload pair.1 ∧ OneByteHead payload pair.2) ∧
  ∀ pair, entryOf item "elementValue" = some pair → OneByteHead payload pair.1

/-- **The lengths on both sides agree** exactly when these heads are one byte long. -/
theorem lengths_agree_iff {sha256 : Bytes → Vector UInt8 32} {mdoc transcript docType : Bytes}
    {parsed : ParsedMdoc} (small : mdoc.length < 2 ^ 64)
    (accepted : parseMdoc sha256 mdoc transcript docType = .ok parsed) {version : ℕ}
    (recent : 7 ≤ version) {la : RequestedAttribute} {pa : ParsedAttr}
    (found : parsed.getAttribute la.id = some pa) (contains : pa.cborValue = la.cborValue)
    (valLen : ℕ) :
    ∃ payload item place, requestedItem mdoc la.id = some (payload, item) ∧
      located version la.id.length valLen pa.fieldLocator =
        (.ok place : Exec MdocProverErrorCode Located) ∧
      (publicLengths la = (place.eiLen, place.evLen) ↔ ShortHeads payload item) := by
  obtain ⟨payload, item, pairs, itemFor⟩ := itemFor_of_accepted small accepted found
  obtain ⟨valueDigests, ns, slots, witness⟩ := itemFor.witness
  obtain ⟨-, -, t, -, -, -, each⟩ := itemFor.layout
  refine ⟨payload, item, _, itemFor.isItem, located_eq (fourSlots_of_witness witness) _ _ _, ?_⟩
  obtain ⟨ident, isIdent, identAt⟩ :=
    witness.slot (show slotKeys[2]? = some "elementIdentifier" from rfl)
  obtain ⟨val, isVal, valAt⟩ := witness.slot (show slotKeys[3]? = some "elementValue" from rfl)
  obtain ⟨_, isIdent', isId⟩ := itemFor.identifier
  obtain rfl := Option.some.inj (isIdent.symm.trans isIdent')
  obtain ⟨_, isVal', range⟩ := itemFor.value
  obtain rfl := Option.some.inj (isVal.symm.trans isVal')
  obtain ⟨-, -, identSpan, -, identKey, identText⟩ := each _ _ identAt
  obtain ⟨-, -, valSpan, valInside, valKey, -⟩ := each _ _ valAt
  obtain ⟨keyWide, keyLength⟩ := text_length identKey (entryOf_key isIdent)
  obtain ⟨idWide, idLength⟩ := text_length identText isId
  obtain ⟨evWide, evLength⟩ := text_length valKey (entryOf_key isVal)
  have idKey : (utf8 "elementIdentifier").length = 17 := by decide
  have evKey : (utf8 "elementValue").length = 12 := by decide
  have value := (getRange_length range).1
  have ei : (pa.fieldLocator.length).getD (pa.fieldLocator.permutation >>> 4 &&& 3) 0 =
      entryLength ident := by
    rw [witness.lengths, List.getD_eq_getElem?_getD, List.getElem?_map, identAt]
    rfl
  have ev : (pa.fieldLocator.length).getD (pa.fieldLocator.permutation >>> 6 &&& 3) 0 =
      entryLength val := by
    rw [witness.lengths, List.getD_eq_getElem?_getD, List.getElem?_map, valAt]
    rfl
  have new : ¬ version < 7 := by omega
  have short : ShortHeads payload item ↔ (argumentWidth (headBits payload ident.1) = 0 ∧
      argumentWidth (headBits payload ident.2) = 0) ∧
      argumentWidth (headBits payload val.1) = 0 := by
    simp only [ShortHeads, isIdent, isVal, Option.some.injEq, forall_eq', OneByteHead,
      argumentWidth_eq_zero keyWide, argumentWidth_eq_zero idWide, argumentWidth_eq_zero evWide]
  rw [short, locatedOf, if_neg new, publicLengths, Prod.mk.injEq, ei, ev, entryLength, entryLength,
    ← contains, value]
  dsimp only
  omega

/-- The lengths of the age, whose heads are short. -/
theorem lengths_agree_age : ∃ parsed pa payload item place,
    parseMdoc Sha256.digest twoNamespacesMdoc [0xf6] (utf8 "mDL") = .ok parsed ∧
      parsed.getAttribute (utf8 "age") = some pa ∧
      requestedItem twoNamespacesMdoc (utf8 "age") = some (payload, item) ∧
      located 7 3 1 pa.fieldLocator = (.ok place : Exec MdocProverErrorCode Located) ∧
      (publicLengths ⟨utf8 "home", utf8 "age", [0x10]⟩ = (place.eiLen, place.evLen) ↔
        ShortHeads payload item) := by
  have ran := twoNamespaces_parsed
  split at ran
  next parsed accepted =>
    obtain ⟨pa, found, contains⟩ := Option.map_eq_some_iff.mp (eq_of_beq ran)
    let la : RequestedAttribute := ⟨utf8 "home", utf8 "age", [0x10]⟩
    obtain ⟨payload, item, place, isItem, isPlace, agree⟩ :=
      lengths_agree_iff (by decide +kernel) accepted (show 7 ≤ 7 from le_rfl)
        (show parsed.getAttribute la.id = some pa from found) contains 1
    exact ⟨parsed, pa, payload, item, place, accepted, found, isItem, isPlace, agree⟩
  next => cases ran

/-- An item with an identifier of 30 bytes. -/
def longIdItem : Bytes := mapItem [
  (textItem "digestID", [0x00]), (textItem "random", bytesItem [0x2a]),
  (textItem "elementIdentifier", textItem "family_name_national_character"),
  (textItem "elementValue", [0x10])]

/-- A document with an identifier of 30 bytes. -/
def longIdMdoc : Bytes := mapItem [(textItem "documents", arrayItem [mapItem [
  (textItem "issuerSigned", mapItem [
    (textItem "nameSpaces", mapItem [(textItem "home", arrayItem [embeddedItem longIdItem])]),
    (textItem "issuerAuth", arrayItem [bytesItem [], mapItem [],
      bytesItem (embeddedItem twoNamespacesMso), bytesItem (scalarBytes 1 ++ scalarBytes 1)])]),
  (textItem "deviceSigned", mapItem [(textItem "deviceAuth", mapItem [
    (textItem "deviceSignature", arrayItem [bytesItem [], mapItem [], [0xf6],
      bytesItem (scalarBytes 1 ++ scalarBytes 1)])])])]])]

theorem longId_located :
    (match parseMdoc Sha256.digest longIdMdoc [0xf6] (utf8 "mDL") with
      | .ok parsed => (parsed.getAttribute (utf8 "family_name_national_character")).any fun pa =>
        match (located 7 30 1 pa.fieldLocator : Exec MdocProverErrorCode Located) with
        | .ok place => pa.cborValue == ([0x10] : Bytes) && place.eiLen == 50 && place.evLen == 14
        | .error _ => false
      | .error _ => false) = true := by decide +kernel

/-- **An identifier of 30 bytes**: 32 with its head, and the lengths differ. -/
theorem long_identifier_differs :
    ¬∀ (mdoc transcript docType : Bytes) (parsed : ParsedMdoc) (la : RequestedAttribute)
      (pa : ParsedAttr) (place : Located),
      parseMdoc Sha256.digest mdoc transcript docType = .ok parsed →
      (encodeCborString la.id).length ≤ 32 → la.cborValue.length ≤ 64 →
      parsed.getAttribute la.id = some pa → pa.cborValue = la.cborValue →
      located 7 la.id.length 1 pa.fieldLocator = (.ok place : Exec MdocProverErrorCode Located) →
      publicLengths la = (place.eiLen, place.evLen) := by
  intro always
  have ran := longId_located
  split at ran
  next parsed accepted =>
    obtain ⟨pa, found, lengths⟩ := (Option.any_eq_true _ _).mp ran
    split at lengths
    next place isPlace =>
      simp only [Bool.and_eq_true, beq_iff_eq] at lengths
      have agree := always longIdMdoc [0xf6] (utf8 "mDL") parsed
        ⟨utf8 "home", utf8 "family_name_national_character", [0x10]⟩ pa place accepted (by decide)
        (by decide) found lengths.1.1 isPlace
      rw [lengths.1.2, lengths.2] at agree
      exact absurd agree (by decide)
    next => cases lengths
  next => cases ran

end Longfellow.Mdoc.V1
