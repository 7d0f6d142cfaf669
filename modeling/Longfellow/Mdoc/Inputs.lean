/-
**The inputs of the circuits** (`mdoc_zk/runtime/src/v2/inputs/public.rs`,
`mdoc_zk/runtime/src/v2/inputs/private.rs`, `mdoc_zk/runtime/src/v2/mac.rs`,
`mdoc_zk/runtime/src/v2/attribute.rs`, `mdoc_zk/runtime/src/v2/error.rs`,
`mdoc_zk/proto/src/mso_attribute/constants.rs`).

Two circuits share a document: one over the binary field for the hashes, one over a prime field for
the signatures, with message authentication codes across. Each has public inputs and a witness.

* `pushWitnessHash_decides` — the witness of the hashes is returned **exactly when the document
  fits**, and is an error otherwise.
-/

import Longfellow.Gadget.Mac
import Longfellow.Mdoc.Builder
import Longfellow.Mdoc.Parse

namespace Longfellow.Mdoc

open Lib Gadget

inductive MdocProverErrorCode where
  | invalidInput
  | circuitParsingFailure
  | generalFailure
  | invalidZkSpecVersion
  | namespacesMissing
  | msoDecodingFailure
  | attributeNotFound
  | attributeTooLong
  | taggedMsoTooBig
  | unsupportedAttribute
  deriving DecidableEq

structure RequestedAttribute where
  namespaceId : Bytes
  id : Bytes
  cborValue : Bytes

def kTimestampLen : ℕ := 20

def kMaxAttrShaBlocks : ℕ := 2

def kAttrPreimageLen : ℕ := kMaxAttrShaBlocks * 64

def kMaxAttrCborLen : ℕ := kMaxAttrShaBlocks * 64 - 9

def attributeIdBytes : ℕ := 32

def attributeValueBytes : ℕ := 64

def docTypeBytes : ℕ := 32

/-- The keys of the message authentication codes. -/
abbrev MacAp := Vector (BitVec 128 × BitVec 128) 3

/-! ### Public inputs -/

/-- Some bytes in a slot of fixed size. -/
def pushSlot {K : Type} [HasLookupPoints K] (size : ℕ) (bytes : Bytes) : List K :=
  (List.range size).flatMap fun i => pushV8 (bytes.getD i 0)

/-- The data of a caller fits the slots of the public inputs. -/
def publicInputsFit (attrs : List RequestedAttribute) (now docType : Bytes) : Bool :=
  now.length == kTimestampLen && decide (docType.length ≤ docTypeBytes) &&
    attrs.all fun a =>
      decide (a.id.length ≤ attributeIdBytes) &&
        decide ((encodeCborString a.id).length ≤ attributeIdBytes) &&
        decide (a.cborValue.length ≤ attributeValueBytes)

def pushInputAttrs (attrs : List RequestedAttribute) : List Gf2128Elt :=
  attrs.flatMap fun la =>
    let cborId := encodeCborString la.id
    pushSlot attributeIdBytes cborId ++ pushBitsLen cborId.length kAttrLenBits ++
      pushSlot attributeValueBytes la.cborValue ++ pushBitsLen la.cborValue.length kAttrLenBits

def pushInputHash (attrs : List RequestedAttribute) (nowBytes : Bytes)
    (macs : Vector (BitVec 128) 6) (av : BitVec 128) (suppressDocTypeCheck : Bool)
    (expectedDocType : Bytes) : List Gf2128Elt :=
  [1] ++ pushSlot kTimestampLen nowBytes ++ pushInputAttrs attrs ++
    macs.toList.flatMap pushU128 ++ pushU128 av ++ [pushBit suppressDocTypeCheck] ++
    pushSlot docTypeBytes expectedDocType ++ pushBitsLen expectedDocType.length kAttrLenBits

def pushInputSig {p : ℕ} (issuerPk : ZMod p × ZMod p) (deviceSigE : ℕ)
    (macs : Vector (BitVec 128) 6) (av : BitVec 128) : List (ZMod p) :=
  [1, issuerPk.1, issuerPk.2] ++ pushNat256Bits deviceSigE ++
    macs.toList.flatMap pushPlucked128 ++ pushPlucked128 av

/-! ### Message authentication codes -/

def natTo32Bytes (val : ℕ) : Vector (BitVec 8) 32 :=
  ⟨((leBytes 32 val).map UInt8.toBitVec).toArray, by
    rw [List.size_toArray, List.length_map, length_leBytes]⟩

def pushMacs (issuerSigE : ℕ) (devicePk : ℕ × ℕ) (av : BitVec 128) (macAp : MacAp) :
    Vector (BitVec 128) 6 :=
  let tag0 := Mac.Concrete.computeTag (natTo32Bytes issuerSigE) av macAp[0]
  let tag1 := Mac.Concrete.computeTag (natTo32Bytes devicePk.1) av macAp[1]
  let tag2 := Mac.Concrete.computeTag (natTo32Bytes devicePk.2) av macAp[2]
  #v[tag0.1, tag0.2, tag1.1, tag1.2, tag2.1, tag2.2]

/-! ### The witness of the hashes -/

/-- The position of the object in the message that its issuer signs. -/
def preimageBaseOffset : ℕ := kCose1PrefixLen + 7

/-- Some bytes as an array of fixed size. -/
def tryIntoArray {ε : Type} (size : ℕ) (bytes : Bytes) : Exec ε Bytes := do
  ensure (bytes.length = size) "called `Result::unwrap()` on an `Err` value: TryFromSliceError(())"
  return bytes

/-- The witness of one attribute. -/
def pushWitnessAttr (parsed : ParsedMdoc) (la : RequestedAttribute) :
    Exec MdocProverErrorCode (List Gf2128Elt) := do
  let pa ← okOr (parsed.getAttribute la.id) .attributeNotFound
  check (pa.cborIssuerSignedItem.length ≤ kMaxAttrCborLen) .attributeTooLong
  let attrShaIn ← mapErr (fun _ => raise .attributeTooLong)
    (Sha256.msgGiven pa.cborIssuerSignedItem Sha256.initial kMaxAttrShaBlocks)
  let attrShaDerived ← Sha256.msgDerived attrShaIn kMaxAttrShaBlocks
  let preimageArr ← tryIntoArray kAttrPreimageLen attrShaIn.paddedPreimage
  let locator := pa.fieldLocator
  return preimageArr.flatMap pushV8 ++ pushBitsLen pa.cborIssuerSignedItem.length kAttrLenBits ++
    pushBitsLen (preimageBaseOffset + pa.msoDigestOffsetInPreimage) 16 ++
    locator.slotPosition.flatMap (pushBitsLen · kAttrLenBits) ++
    locator.length.flatMap (pushBitsLen · kAttrLenBits) ++
    ((List.range 4).flatMap fun i => pushBitsLen (locator.permutation >>> (2 * i) &&& 3) 2) ++
    pushSha256msgDerived attrShaDerived

def pushWitnessHash (reqAttrs : List RequestedAttribute) (parsed : ParsedMdoc) (macAp : MacAp) :
    Exec MdocProverErrorCode (List Gf2128Elt) := do
  let msoShaIn ← mapErr (fun _ => raise .taggedMsoTooBig)
    (Sha256.msgGiven parsed.cborMso Sha256.initial kMaxShaBlocks)
  let msoShaDerived ← Sha256.msgDerived msoShaIn kMaxShaBlocks
  let preimageArr ← tryIntoArray kMsoPreimageLen msoShaIn.paddedPreimage
  let attrs ← reqAttrs.mapM (pushWitnessAttr parsed)
  return pushNat256 parsed.issuerSigDigest ++ preimageArr.flatMap pushV8 ++
    pushBitsLen parsed.cborMso.length 16 ++ pushV8 (UInt8.ofNat msoShaIn.nblocks) ++
    pushNat256 parsed.devicePk.1 ++ pushNat256 parsed.devicePk.2 ++
    pushBitsLen (preimageBaseOffset + parsed.docTypeOffsetInMso) 16 ++
    pushBitsLen (preimageBaseOffset + parsed.validFromOffsetInMso) 16 ++
    pushBitsLen (preimageBaseOffset + parsed.validUntilOffsetInMso) 16 ++
    pushBitsLen (preimageBaseOffset + parsed.deviceKeyInfoOffsetInMso) 16 ++
    pushBitsLen (preimageBaseOffset + parsed.valueDigestsOffsetInMso) 16 ++
    attrs.flatten ++ pushSha256msgDerived msoShaDerived ++
    macAp.toList.flatMap fun pair => pushU128 pair.1 ++ pushU128 pair.2

/-- What is pushed for an attribute that is there. -/
def attrWitness (pa : ParsedAttr) : List Gf2128Elt :=
  let preimage := Sha256.paddedBuffer pa.cborIssuerSignedItem kMaxAttrShaBlocks
  let locator := pa.fieldLocator
  preimage.flatMap pushV8 ++ pushBitsLen pa.cborIssuerSignedItem.length kAttrLenBits ++
    pushBitsLen (preimageBaseOffset + pa.msoDigestOffsetInPreimage) 16 ++
    locator.slotPosition.flatMap (pushBitsLen · kAttrLenBits) ++
    locator.length.flatMap (pushBitsLen · kAttrLenBits) ++
    ((List.range 4).flatMap fun i => pushBitsLen (locator.permutation >>> (2 * i) &&& 3) 2) ++
    pushSha256msgDerived (Sha256.messageValues preimage Sha256.initial kMaxAttrShaBlocks).2

/-- The attribute is there, and its item fits the circuit. -/
def AttributeFits (parsed : ParsedMdoc) (la : RequestedAttribute) : Prop :=
  ∃ pa, parsed.getAttribute la.id = some pa ∧ pa.cborIssuerSignedItem.length ≤ kMaxAttrCborLen

/-- The document fits the circuit of the hashes. -/
def HashWitnessFits (reqAttrs : List RequestedAttribute) (parsed : ParsedMdoc) : Prop :=
  Sha256.blocksFor parsed.cborMso.length ≤ kMaxShaBlocks ∧ ∀ la ∈ reqAttrs, AttributeFits parsed la

/-- What is pushed for a document that fits. -/
def hashWitness (reqAttrs : List RequestedAttribute) (parsed : ParsedMdoc) (macAp : MacAp) :
    List Gf2128Elt :=
  let preimage := Sha256.paddedBuffer parsed.cborMso kMaxShaBlocks
  pushNat256 parsed.issuerSigDigest ++ preimage.flatMap pushV8 ++
    pushBitsLen parsed.cborMso.length 16 ++
    pushV8 (UInt8.ofNat (Sha256.blocksFor parsed.cborMso.length)) ++
    pushNat256 parsed.devicePk.1 ++ pushNat256 parsed.devicePk.2 ++
    pushBitsLen (preimageBaseOffset + parsed.docTypeOffsetInMso) 16 ++
    pushBitsLen (preimageBaseOffset + parsed.validFromOffsetInMso) 16 ++
    pushBitsLen (preimageBaseOffset + parsed.validUntilOffsetInMso) 16 ++
    pushBitsLen (preimageBaseOffset + parsed.deviceKeyInfoOffsetInMso) 16 ++
    pushBitsLen (preimageBaseOffset + parsed.valueDigestsOffsetInMso) 16 ++
    (reqAttrs.map fun la => (parsed.getAttribute la.id).elim [] attrWitness).flatten ++
    pushSha256msgDerived (Sha256.messageValues preimage Sha256.initial kMaxShaBlocks).2 ++
    macAp.toList.flatMap fun pair => pushU128 pair.1 ++ pushU128 pair.2

theorem tryIntoArray_of_length {ε : Type} {size : ℕ} {bytes : Bytes} (same : bytes.length = size) :
    (tryIntoArray size bytes : Exec ε Bytes) = .ok bytes := by
  rw [tryIntoArray, ensure_of same, ok_bind, pure_eq_ok]

theorem blocksFor_of_le {len : ℕ} (fits : len ≤ kMaxAttrCborLen) :
    Sha256.blocksFor len ≤ kMaxAttrShaBlocks := by
  have bound : kMaxAttrCborLen = 119 := rfl
  show (len + 9 + 64 - 1) / 64 ≤ 2
  omega

theorem pushWitnessAttr_decides (parsed : ParsedMdoc) (la : RequestedAttribute) :
    Decides (pushWitnessAttr parsed la) (AttributeFits parsed la)
      ((parsed.getAttribute la.id).elim [] attrWitness) := by
  unfold pushWitnessAttr AttributeFits
  cases found : parsed.getAttribute la.id with
  | none => exact ⟨fun ⟨_, absent, _⟩ => (nomatch absent), fun _ => ⟨.attributeNotFound, rfl⟩⟩
  | some pa =>
    refine Decides.congr ((decides_check _ _).bind fun fits => Decides.andThen
      (Sha256.msgGiven_decides _ _ _).mapErr ?_) ?_
    · have blocks := blocksFor_of_le fits
      rw [Sha256.msgDerived_eq _ blocks, ok_bind]
      exact congrArg (· >>= _) (tryIntoArray_of_length (Sha256.length_paddedBuffer blocks))
    · constructor
      · rintro ⟨fits, _⟩
        exact ⟨pa, rfl, fits⟩
      · rintro ⟨pa', same, fits⟩
        obtain rfl := Option.some.inj same
        exact ⟨fits, blocksFor_of_le fits⟩

/-- **The witness of the hashes**, exactly for the documents that fit. -/
theorem pushWitnessHash_decides (reqAttrs : List RequestedAttribute) (parsed : ParsedMdoc)
    (macAp : MacAp) : Decides (pushWitnessHash reqAttrs parsed macAp)
      (HashWitnessFits reqAttrs parsed) (hashWitness reqAttrs parsed macAp) := by
  refine (Sha256.msgGiven_decides _ _ _).mapErr.bind fun blocks => ?_
  rw [Sha256.msgDerived_eq _ blocks, ok_bind]
  refine Decides.congr ((?_ : Decides _ True _).bind fun _ =>
    (decides_mapM (pushWitnessAttr_decides parsed) reqAttrs).andThen rfl) (iff_of_eq (true_and _))
  exact ⟨fun _ => tryIntoArray_of_length (Sha256.length_paddedBuffer blocks),
    fun absurd => (absurd trivial).elim⟩

/-! ### The witness of the signatures -/

section Signatures

variable {p : ℕ} (curve : Ec.Curve (ZMod p)) (n : ℕ)

def issuerSignature (issuerPk : ZMod p × ZMod p) (parsed : ParsedMdoc) : Ecdsa.Signature p :=
  ⟨issuerPk, parsed.issuerSigDigest, parsed.issuerSigR, parsed.issuerSigS⟩

def deviceSignature (parsed : ParsedMdoc) : Ecdsa.Signature p :=
  ⟨(parsed.devicePk.1, parsed.devicePk.2), parsed.deviceSigDigest, parsed.deviceSigR,
    parsed.deviceSigS⟩

def pushWitnessSig (issuerPk : ZMod p × ZMod p) (parsed : ParsedMdoc) (macAp : MacAp) :
    Exec String (List (ZMod p)) := do
  let issuerSigGiven ← Ecdsa.given curve n (issuerSignature issuerPk parsed)
  let issuerSigDerived ← Ecdsa.derived curve n (issuerSignature issuerPk parsed)
  let deviceSigGiven ← Ecdsa.given curve n (deviceSignature parsed)
  let deviceSigDerived ← Ecdsa.derived curve n (deviceSignature parsed)
  return pushNat256Bits parsed.issuerSigDigest ++ pushNat256Bits parsed.devicePk.1 ++
    pushNat256Bits parsed.devicePk.2 ++ issuerSigGiven.pushElements ++
    deviceSigGiven.pushElements ++ issuerSigDerived.pushElements ++
    deviceSigDerived.pushElements ++
    macAp.toList.flatMap fun pair => pushPlucked128 pair.1 ++ pushPlucked128 pair.2

/-- What is pushed for two regular signatures. -/
def sigWitness (issuerPk : ZMod p × ZMod p) (parsed : ParsedMdoc) (macAp : MacAp) :
    List (ZMod p) :=
  pushNat256Bits parsed.issuerSigDigest ++ pushNat256Bits parsed.devicePk.1 ++
    pushNat256Bits parsed.devicePk.2 ++
    (Ecdsa.givenOf curve n (issuerSignature issuerPk parsed)).pushElements ++
    (Ecdsa.givenOf curve n (deviceSignature parsed)).pushElements ++
    (Ecdsa.derivedOf curve n (issuerSignature issuerPk parsed)).pushElements ++
    (Ecdsa.derivedOf curve n (deviceSignature parsed)).pushElements ++
    macAp.toList.flatMap fun pair => pushPlucked128 pair.1 ++ pushPlucked128 pair.2

/-- Both signatures of a document are regular. -/
def RegularSignatures (issuerPk : ZMod p × ZMod p) (parsed : ParsedMdoc) : Prop :=
  Ecdsa.Regular curve n (issuerSignature issuerPk parsed) ∧
    Ecdsa.Regular curve n (deviceSignature parsed)

/-- **The witness of the signatures**, exactly for regular ones: all others are a panic. -/
theorem pushWitnessSig_asserts [NeZero n] (small : n ≤ p) (issuerPk : ZMod p × ZMod p)
    (parsed : ParsedMdoc) (macAp : MacAp) :
    Asserts (pushWitnessSig curve n issuerPk parsed macAp)
      (RegularSignatures curve n issuerPk parsed) (sigWitness curve n issuerPk parsed macAp) := by
  refine Asserts.congr ((Ecdsa.given_asserts curve n _).bind fun _ =>
    (Ecdsa.derived_asserts curve n _ small).bind fun _ =>
      (Ecdsa.given_asserts curve n _).bind fun _ =>
        (Ecdsa.derived_asserts curve n _ small).andThen rfl) ?_
  constructor
  · rintro ⟨_, issuer, _, device⟩
    exact ⟨issuer, device⟩
  · rintro ⟨issuer, device⟩
    exact ⟨⟨issuer.s, issuer.finite⟩, issuer, ⟨device.s, device.finite⟩, device⟩

end Signatures

end Longfellow.Mdoc
