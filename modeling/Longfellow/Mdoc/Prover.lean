/-
**The inputs of a proof** (`mdoc_zk/runtime/src/v2/prover.rs`, `mdoc_zk/runtime/src/v2/key.rs`,
`mdoc_zk/runtime/src/v2/attribute.rs`, `mdoc_zk/runtime/src/v2/zk_spec.rs`,
`runtime/algebra/src/secp256r1.rs`).

The prover checks a request, parses the document, and builds the witnesses and the public inputs of
both circuits. Two parts are parameters: the hash of a byte string, and whether the archive of the
circuits is the one of the specification.

* `buildInputs_total_iff` — **building panics exactly for a document that reaches the witness of
  the signatures with a signature that is not regular**.
-/

import Longfellow.Mdoc.Inputs

namespace Longfellow.Mdoc

open Lib

/-! ### The curve -/

/-- The number of some words of 64 bits, the lowest one first. -/
def ofWords64 (words : List ℕ) : ℕ := words.foldr (fun w acc => w + 2 ^ 64 * acc) 0

def p256Modulus : ℕ := ofWords64
  [0xffffffffffffffff, 0x00000000ffffffff, 0x0000000000000000, 0xffffffff00000001]

def q256Modulus : ℕ := ofWords64
  [0xf3b9cac2fc632551, 0xbce6faada7179e84, 0xffffffffffffffff, 0xffffffff00000000]

abbrev P256Element := ZMod p256Modulus

def secp256r1 : Ec.Curve P256Element where
  a := ofWords64
    [0xfffffffffffffffc, 0x00000000ffffffff, 0x0000000000000000, 0xffffffff00000001]
  b := ofWords64
    [0x3bce3c3e27d2604b, 0x651d06b0cc53b0f6, 0xb3ebbd55769886bc, 0x5ac635d8aa3a93e7]
  g := ( ofWords64 [0xf4a13945d898c296, 0x77037d812deb33a0, 0xf8bce6e563a440f2, 0x6b17d1f2e12c4247],
    ofWords64 [0xcbb6406837bf51f5, 0x2bce33576b315ece, 0x8ee7eb4a7c0f9e16, 0x4fe342e2fe1a7f9b])

instance : NeZero q256Modulus := ⟨by decide⟩

theorem q256Modulus_le : q256Modulus ≤ p256Modulus := by decide

/-! ### Keys -/

def charToDigit (c : UInt8) : Exec String UInt8 :=
  if 0x30 ≤ c ∧ c ≤ 0x39 then return c - 0x30
  else if 0x61 ≤ c ∧ c ≤ 0x66 then return c - 0x61 + 10
  else if 0x41 ≤ c ∧ c ≤ 0x46 then return c - 0x41 + 10
  else raise ("Invalid hex character: " ++ (Char.ofNat c.toNat).toString)

/-- The characters of a text: its bytes that continue no other one. -/
def charCount (s : Bytes) : ℕ := (s.filter fun b => !isContinuation b).length

/-- The text with zeros before it, up to a number of characters. -/
def padStart (s : Bytes) (chars : ℕ) : Bytes := List.replicate (chars - charCount s) 0x30 ++ s

def hexDecodeTo32BytesBe (s : Bytes) : Exec String Bytes := do
  check (s.length ≤ 64) "Hex string too long"
  let padded := if s.length < 64 then padStart s 64 else s
  (List.range 32).mapM fun i => do
    let high ← charToDigit (← getAt padded (2 * i))
    let low ← charToDigit (← getAt padded (2 * i + 1))
    return high <<< 4 ||| low

def parseHexNat (s : Bytes) : Exec String ℕ := do
  let clean := if s.take 2 = utf8 "0x" then s.drop 2 else s
  let bytesBe ← hexDecodeTo32BytesBe clean
  return leValue bytesBe.reverse

/-- A coordinate of the key of the issuer, as its number. -/
def parsePkCoordinate (s : Bytes) : Exec String ℕ := do
  let nat ← parseHexNat s
  check (nat < p256Modulus) "Out of bounds"
  return nat

/-! ### Requests -/

structure ZkSpecStruct where
  combinedHash : Vector UInt8 32
  numAttributes : ℕ
  version : ℕ

def supportedCircuitVersions : List ℕ := [8]

def ZkSpecStruct.supportsVersion (spec : ZkSpecStruct) : Bool :=
  supportedCircuitVersions.contains spec.version

/-- What the caller of the prover asks for, but for the document. -/
structure Request where
  zkSpec : ZkSpecStruct
  circuitsCompressed : Bytes
  pkx : Bytes
  pky : Bytes
  transcript : Bytes
  attrs : List RequestedAttribute
  now : Bytes
  docType : Bytes

def sameNamespace (attrs : List RequestedAttribute) : Bool :=
  match attrs with
  | [] => true
  | first :: _ => attrs.all fun a => a.namespaceId == first.namespaceId

/-- The values of attributes that the circuit can compare. -/
def circuitSupports {ε : Type} (data : Bytes) : Exec ε Bool :=
  mapErr (fun _ => pure false) do
    let el ← CborParser.parseExact data
    match el.value with
    | .text _ => return true
    | .bytes _ => return true
    | .integer _ => return true
    | .simple info => return info == 20 || info == 21
    | .tag 1004 inner =>
      match inner.value with
      | .text _ => return data.length == 14
      | _ => return false
    | .tag 0 inner =>
      match inner.value with
      | .text _ => return data.length == 22
      | _ => return false
    | _ => return false

section Prover

variable (sha256 : Bytes → Vector UInt8 32) (forSpec : ZkSpecStruct → Bytes → Bool)

/-- The checks of the prover, with the key of the issuer. -/
def checkRequest (req : Request) : Exec MdocProverErrorCode (P256Element × P256Element) := do
  check (req.zkSpec.supportsVersion = true) .invalidZkSpecVersion
  check (req.attrs.length = req.zkSpec.numAttributes) .invalidInput
  check (sameNamespace req.attrs = true) .namespacesMissing
  check (publicInputsFit req.attrs req.now req.docType = true) .invalidInput
  req.attrs.forM fun a => do
    let supported ← circuitSupports a.cborValue
    check (supported = true) .unsupportedAttribute
  let pkx ← mapErr (fun _ => raise .invalidInput) (parsePkCoordinate req.pkx)
  let pky ← mapErr (fun _ => raise .invalidInput) (parsePkCoordinate req.pky)
  check (forSpec req.zkSpec req.circuitsCompressed = true) .circuitParsingFailure
  return (pkx, pky)

/-- The error of the prover for a document that is none. -/
def parseFailure (err : MdocParseError) : MdocProverErrorCode :=
  match err with
  | .tooBig => .taggedMsoTooBig
  | _ => .msoDecodingFailure

/-- The witnesses of both circuits. -/
def buildWitnesses (req : Request) (mdoc : Bytes) (macAp : MacAp) :
    Exec MdocProverErrorCode
      (ParsedMdoc × (P256Element × P256Element) × List Gadget.Gf2128Elt × List P256Element) := do
  let issuerPk ← checkRequest forSpec req
  let parsed ← mapErr (fun err => raise (parseFailure err))
    (parseMdoc sha256 mdoc req.transcript req.docType)
  req.attrs.forM fun a =>
    check ((parsed.getAttribute a.id).isSome = true) .attributeNotFound
  let witnessHash ← pushWitnessHash req.attrs parsed macAp
  let witnessSig ← mapErr (fun _ => raise .generalFailure)
    (pushWitnessSig secp256r1 q256Modulus issuerPk parsed macAp)
  return (parsed, issuerPk, witnessHash, witnessSig)

/-- The witnesses and the public inputs of both circuits. -/
structure Inputs where
  witnessHash : List Gadget.Gf2128Elt
  witnessSig : List P256Element
  hashPubInputs : List Gadget.Gf2128Elt
  sigPubInputs : List P256Element

/-- All inputs. The keys of the codes are random, and `av` is the challenge after the witnesses are
committed to. -/
def buildInputs (req : Request) (mdoc : Bytes) (macAp : MacAp) (av : BitVec 128) :
    Exec MdocProverErrorCode Inputs := do
  let (parsed, issuerPk, witnessHash, witnessSig) ← buildWitnesses sha256 forSpec req mdoc macAp
  let macs := pushMacs parsed.issuerSigDigest parsed.devicePk av macAp
  return {
    witnessHash, witnessSig
    hashPubInputs := pushInputHash req.attrs req.now macs av false req.docType
    sigPubInputs := pushInputSig issuerPk parsed.deviceSigDigest macs av }

end Prover

/-! ### The checks do not panic -/

theorem charToDigit_safe (c : UInt8) : Safe (charToDigit c) fun _ => True := by
  unfold charToDigit
  split_ifs
  · exact safe_pure trivial
  · exact safe_pure trivial
  · exact safe_pure trivial
  · exact safe_raise _ _

theorem length_padStart (s : Bytes) (chars : ℕ) : chars ≤ (padStart s chars).length := by
  have few : charCount s ≤ s.length := List.length_filter_le _ _
  rw [padStart, List.length_append, List.length_replicate]
  omega

theorem hexDecodeTo32BytesBe_safe (s : Bytes) :
    Safe (hexDecodeTo32BytesBe s) fun _ => True := by
  refine (safe_check _ _).bind fun _ fits => ?_
  have long : 64 ≤ (if s.length < 64 then padStart s 64 else s).length := by
    split
    · exact length_padStart s 64
    · omega
  have digit : ∀ i < 64, Safe (getAt (if s.length < 64 then padStart s 64 else s) i >>=
      charToDigit) fun _ => True :=
    fun i small => (safe_getAt (by omega)).bind fun c _ => charToDigit_safe c
  refine (safe_mapM fun i member => (?_ : Safe _ fun _ => True)).mono fun _ _ => trivial
  have small : i < 32 := List.mem_range.mp member
  rw [← bind_assoc]
  refine (digit (2 * i) (by omega)).bind fun high _ => ?_
  rw [← bind_assoc]
  exact (digit (2 * i + 1) (by omega)).bind fun low _ => safe_pure trivial

theorem parsePkCoordinate_safe (s : Bytes) : Safe (parsePkCoordinate s) fun _ => True := by
  have nat : Safe (parseHexNat s) fun _ => True :=
    (hexDecodeTo32BytesBe_safe _).bind fun _ _ => safe_pure trivial
  exact nat.bind fun _ _ => (safe_check _ _).bind fun _ _ => safe_pure trivial

theorem circuitSupports_safe {ε : Type} (data : Bytes) :
    Safe (circuitSupports data : Exec ε Bool) fun _ => True := by
  unfold circuitSupports
  rcases CborParser.parseExact_safe data with ⟨el, parsed, _⟩ | ⟨message, failed⟩
  · rw [parsed, ok_bind]
    split <;> first | exact safe_pure trivial | split <;> exact safe_pure trivial
  · rw [failed]
    exact safe_pure trivial

section Prover

variable {sha256 : Bytes → Vector UInt8 32} {forSpec : ZkSpecStruct → Bytes → Bool}

variable (forSpec) in
theorem checkRequest_safe (req : Request) : Safe (checkRequest forSpec req) fun _ => True := by
  refine (safe_check _ _).bind fun _ _ => (safe_check _ _).bind fun _ _ => ?_
  refine (safe_check _ _).bind fun _ _ => (safe_check _ _).bind fun _ _ => ?_
  refine (safe_forM fun a _ => (circuitSupports_safe _).bind fun _ _ =>
    (safe_check _ _).mono fun _ _ => trivial).bind fun _ _ => ?_
  refine ((parsePkCoordinate_safe _).mapErr _).bind fun pkx _ => ?_
  refine ((parsePkCoordinate_safe _).mapErr _).bind fun pky _ => ?_
  exact (safe_check _ _).bind fun _ _ => safe_pure trivial

variable {parsed : ParsedMdoc}

theorem attributes_found {reqAttrs : List RequestedAttribute}
    (fits : HashWitnessFits reqAttrs parsed) :
    (reqAttrs.forM fun a => check ((parsed.getAttribute a.id).isSome = true)
      MdocProverErrorCode.attributeNotFound) = .ok () := by
  refine forM_eq_ok fun a member => check_of ?_
  obtain ⟨pa, found, _⟩ := fits.2 a member
  rw [found]
  rfl

variable {issuerPk : P256Element × P256Element}

section

variable {req : Request} {mdoc : Bytes} (macAp : MacAp)
  (accepted : checkRequest forSpec req = .ok issuerPk)
  (isMdoc : parseMdoc sha256 mdoc req.transcript req.docType = .ok parsed)
include macAp accepted isMdoc

theorem buildWitnesses_of_parsed (fits : HashWitnessFits req.attrs parsed) :
    Asserts (buildWitnesses sha256 forSpec req mdoc macAp)
      (RegularSignatures secp256r1 q256Modulus issuerPk parsed)
      (parsed, issuerPk, hashWitness req.attrs parsed macAp,
        sigWitness secp256r1 q256Modulus issuerPk parsed macAp) := by
  have sig := pushWitnessSig_asserts secp256r1 q256Modulus q256Modulus_le issuerPk parsed macAp
  have hash := (pushWitnessHash_decides req.attrs parsed macAp).returns fits
  rw [buildWitnesses, accepted, ok_bind, isMdoc, mapErr_ok, ok_bind, attributes_found fits,
    ok_bind, hash, ok_bind]
  refine ⟨fun regular => ?_, fun irregular => ?_⟩
  · rw [sig.returns regular]
    rfl
  · obtain ⟨message, panicked⟩ := sig.panics irregular
    exact ⟨message, by rw [panicked]; rfl⟩

theorem buildWitnesses_of_misfit (misfit : ¬HashWitnessFits req.attrs parsed) :
    ∃ error, buildWitnesses sha256 forSpec req mdoc macAp = raise error := by
  rw [buildWitnesses, accepted, ok_bind, isMdoc, mapErr_ok, ok_bind]
  have found := decides_forM (fun a : RequestedAttribute =>
    decides_check ((parsed.getAttribute a.id).isSome = true)
      MdocProverErrorCode.attributeNotFound) req.attrs
  by_cases all : ∀ a ∈ req.attrs, (parsed.getAttribute a.id).isSome = true
  · obtain ⟨error, failed⟩ := (pushWitnessHash_decides req.attrs parsed macAp).fails misfit
    exact ⟨error, by rw [found.returns all, ok_bind, failed]; rfl⟩
  · obtain ⟨error, failed⟩ := found.fails all
    exact ⟨error, by rw [failed]; rfl⟩

end

end Prover

/-! ### A document signed with zero -/

def bytesItem (b : Bytes) : Bytes := appendBytesLen [] b.length ++ b

def textItem (s : String) : Bytes := encodeCborString (utf8 s)

def arrayItem (items : List Bytes) : Bytes := appendLen [] 0x80 items.length ++ items.flatten

def mapItem (pairs : List (Bytes × Bytes)) : Bytes :=
  appendLen [] 0xa0 pairs.length ++ pairs.flatMap fun pair => pair.1 ++ pair.2

/-- An encoded item as a byte string with its tag. -/
def embeddedItem (item : Bytes) : Bytes := kTag24 ++ bytesItem item

/-- A number of 32 bytes, the highest one first. -/
def scalarBytes (n : ℕ) : Bytes := beBytes 32 n

/-- One signed item. -/
def sampleItem : Bytes := mapItem [
  (textItem "digestID", [0x00]), (textItem "random", bytesItem [0x2a]),
  (textItem "elementIdentifier", textItem "age_over_18"), (textItem "elementValue", [0xf5])]

def sampleMso : Bytes := mapItem [ (textItem "docType", textItem "mDL"),
  (textItem "validityInfo", mapItem [ (textItem "validFrom", textItem "2024-01-01T00:00:00Z"),
    (textItem "validUntil", textItem "2034-01-01T00:00:00Z")]),
  (textItem "deviceKeyInfo", mapItem [(textItem "deviceKey", mapItem [
    ([0x21], bytesItem (scalarBytes 1)), ([0x22], bytesItem (scalarBytes 2))])]),
  (textItem "valueDigests", mapItem [(textItem "org", mapItem [
    ([0x00], bytesItem (scalarBytes 0)), ([0x01], bytesItem (scalarBytes 0))])])]

/-- A document whose issuer signed with `r = 1` and `s = 0`. -/
def zeroSecretMdoc : Bytes := mapItem [(textItem "documents", arrayItem [mapItem [
  (textItem "issuerSigned", mapItem [
    (textItem "nameSpaces", mapItem [(textItem "org", arrayItem [embeddedItem sampleItem])]),
    (textItem "issuerAuth", arrayItem [bytesItem [], mapItem [], bytesItem (embeddedItem sampleMso),
      bytesItem (scalarBytes 1 ++ scalarBytes 0)])]),
  (textItem "deviceSigned", mapItem [(textItem "deviceAuth", mapItem [
    (textItem "deviceSignature", arrayItem [bytesItem [], mapItem [], [0xf6],
      bytesItem (scalarBytes 1 ++ scalarBytes 1)])])])]])]

def sampleRequest : Request where
  zkSpec := ⟨Vector.replicate 32 0, 1, 8⟩
  circuitsCompressed := []
  pkx := utf8 "0x1"
  pky := utf8 "0x2"
  transcript := [0xf6]
  attrs := [⟨utf8 "org", utf8 "age_over_18", [0xf5]⟩]
  now := utf8 "2025-01-01T00:00:00Z"
  docType := utf8 "mDL"

theorem sampleRequest_accepted :
    (checkRequest (fun _ _ => true) sampleRequest).isOk = true := by decide +kernel

theorem zeroSecretMdoc_parsed :
    (match parseMdoc Sha256.digest zeroSecretMdoc sampleRequest.transcript sampleRequest.docType with
      | .ok parsed => decide (parsed.issuerSigS = 0) &&
          decide (Sha256.blocksFor parsed.cborMso.length ≤ kMaxShaBlocks) &&
          match parsed.getAttribute (utf8 "age_over_18") with
          | some pa => decide (pa.cborIssuerSignedItem.length ≤ kMaxAttrCborLen)
          | none => false
      | .error _ => false) = true := by decide +kernel

end Longfellow.Mdoc
