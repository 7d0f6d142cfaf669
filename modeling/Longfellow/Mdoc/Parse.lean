/-
**Mobile documents** (`mdoc_zk/circuits/src/cbor/mdoc.rs`, `mdoc_zk/circuits/src/cbor/cbor_encode.rs`,
`mdoc_zk/proto/src/hash/constants.rs`).

`parseMdoc` finds in a document what the circuits are about: the signed message with its digest and
the positions of its fields, the two signatures, the key of the device, and the attributes with the
positions of their four entries.

* `parseMdoc_safe` — **the parser of documents never panics**, on any bytes.
-/

import Longfellow.Mdoc.Cbor

namespace Longfellow.Mdoc

open Lib

-- An equation of truth values is decided as it stands.
local instance (priority := 2000) decidableTruth (a b : Bool) : Decidable (a = b) :=
  instDecidableEqBool a b

/-! ### Encodings -/

/-- The bytes of a literal. -/
def utf8 (s : String) : Bytes := s.toUTF8.data.toList

def appendLen (buf : Bytes) (majorType : UInt8) (len : ℕ) : Bytes :=
  if len ≤ 23 then buf ++ [majorType ||| UInt8.ofNat len]
  else if len ≤ 0xff then buf ++ [majorType ||| 24, UInt8.ofNat len]
  else if len ≤ 0xffff then buf ++ (majorType ||| 25) :: beBytes 2 len
  else if len ≤ 0xffffffff then buf ++ (majorType ||| 26) :: beBytes 4 len
  else buf ++ (majorType ||| 27) :: beBytes 8 len

def appendTextLen (buf : Bytes) (len : ℕ) : Bytes := appendLen buf 0x60 len

def appendBytesLen (buf : Bytes) (len : ℕ) : Bytes := appendLen buf 0x40 len

def encodeCborString (s : Bytes) : Bytes := appendTextLen [] s.length ++ s

def kCose1PrefixLen : ℕ := 18

def kDeviceAuthenticationHeader : Bytes := [0x84, 0x74] ++ utf8 "DeviceAuthentication"

def kCoseSign1SigningHeader : Bytes :=
  [0x84, 0x6a] ++ utf8 "Signature1" ++ [0x43, 0xa1, 0x01, 0x26, 0x40]

def kTag24 : Bytes := [0xd8, 0x18]

def kMaxShaBlocks : ℕ := 40

def kMsoPreimageLen : ℕ := kMaxShaBlocks * 64

/-- A number of at most 256 bits: the lowest 32 of the bytes, the highest one first. -/
def natFromBytesBe (bytes : Bytes) : ℕ := leValue (bytes.reverse.take 32)

/-! ### What is found -/

structure FieldLocator where
  slotPosition : List ℕ
  length : List ℕ
  permutation : ℕ

structure ParsedAttr where
  name : Bytes
  cborValue : Bytes
  cborIssuerSignedItem : Bytes
  msoDigestOffsetInPreimage : ℕ
  fieldLocator : FieldLocator

structure ParsedMdoc where
  issuerSigDigest : ℕ
  issuerSigR : ℕ
  issuerSigS : ℕ
  devicePk : ℕ × ℕ
  deviceSigDigest : ℕ
  deviceSigR : ℕ
  deviceSigS : ℕ
  docType : Bytes
  docTypeOffsetInMso : ℕ
  validFromOffsetInMso : ℕ
  validUntilOffsetInMso : ℕ
  deviceKeyInfoOffsetInMso : ℕ
  valueDigestsOffsetInMso : ℕ
  attrs : List ParsedAttr
  cborMso : Bytes

def ParsedMdoc.getAttribute (parsed : ParsedMdoc) (name : Bytes) : Option ParsedAttr :=
  parsed.attrs.find? fun a => a.name == name

inductive MdocParseError where
  | cbor (context message : String)
  | missingField (field : String)
  | duplicateField (field : String)
  | unexpectedType (field : String)
  | invalidLength (field : String) (expected actual : ℕ)
  | invalidValue (field : String)
  | unknownField (field : Bytes)
  | unsupportedEncoding
  | tooBig
  | arithmeticOverflow (context : String)
  deriving DecidableEq

/-! ### Lookups -/

abbrev Parse (α : Type) := Exec MdocParseError α

/-- An item that takes up all bytes. -/
def parseItem (data : Bytes) (context : String) : Parse CborElement :=
  mapErr (fun message => raise (.cbor context message)) (CborParser.parseExact data)

def mapPairs (element : CborElement) (field : String) : Parse (List (CborElement × CborElement)) :=
  match element.value with
  | .map pairs => pure pairs
  | _ => raise (.unexpectedType field)

/-- What is taken from the one pair whose key is the wanted one. -/
def findUnique {α : Type} (wanted : CborValue → Bool)
    (take : CborElement × CborElement → Parse α) (path : String)
    (pairs : List (CborElement × CborElement)) : Parse α := do
  let found ← pairs.foldlM (fun found pair =>
    if wanted pair.1.value then do
      check (found.isNone = true) (.duplicateField path)
      some <$> take pair
    else pure found) none
  okOr found (.missingField path)

def isText (key : Bytes) : CborValue → Bool
  | .text text => text == key
  | _ => false

def isInteger (key : ℤ) : CborValue → Bool
  | .integer n => n == key
  | _ => false

def mapEntryUnique (map : CborElement) (key : Bytes) (path : String) :
    Parse (CborElement × CborElement) := do
  let pairs ← mapPairs map path
  findUnique (isText key) pure path pairs

def requiredMapValue (map : CborElement) (key : Bytes) (path : String) : Parse CborElement := do
  let entry ← mapEntryUnique map key path
  return entry.2

/-- The positions of a key and its value. -/
structure CborIndexVal where
  k : ℕ
  v : ℕ

def requiredMapKey (map : CborElement) (key : Bytes) (path : String) : Parse CborIndexVal := do
  let entry ← mapEntryUnique map key path
  return ⟨entry.1.start, entry.2.start⟩

def requiredArray (element : CborElement) (field : String) : Parse (List CborElement) :=
  match element.value with
  | .array items => pure items
  | _ => raise (.unexpectedType field)

def requiredCoseSign1Array (element : CborElement) (field : String) : Parse (List CborElement) :=
  match element.value with
  | .array items => pure items
  | .tag 18 inner => requiredArray inner field
  | _ => raise (.unexpectedType field)

def requiredBytes (element : CborElement) (field : String) : Parse Bytes :=
  match element.value with
  | .bytes bytes => pure bytes
  | _ => raise (.unexpectedType field)

/-- The bytes of a text. -/
def textOf (element : CborElement) (field : String) : Parse Bytes :=
  match element.value with
  | .text s => pure s
  | _ => raise (.unexpectedType field)

def requiredTaggedBytes (element : CborElement) (tag : ℕ) (field : String) : Parse Bytes :=
  match element.value with
  | .tag actualTag inner =>
    if actualTag = tag then requiredBytes inner field else raise (.unexpectedType field)
  | _ => raise (.unexpectedType field)

def requiredDeviceCoordinate (deviceKey : CborElement) (coordinateKey : ℤ) (field : String) :
    Parse Bytes := do
  let pairs ← mapPairs deviceKey "MSO.deviceKeyInfo.deviceKey"
  findUnique (isInteger coordinateKey) (fun pair => requiredBytes pair.2 field) field pairs

def requiredDigestOffset (valueDigests : CborElement) (ns : Bytes) (digestId : ℕ) :
    Parse ℕ := do
  let namespaceMap ← requiredMapValue valueDigests ns "MSO.valueDigests namespace"
  let pairs ← mapPairs namespaceMap "MSO.valueDigests namespace"
  findUnique (isInteger digestId) (fun pair => pure pair.2.start) "attribute digest in MSO" pairs

def parseSignature (bytes : Bytes) (field : String) : Parse (ℕ × ℕ) := do
  check (bytes.length = 64) (.invalidLength field 64 bytes.length)
  return (natFromBytesBe (bytes.take 32), natFromBytesBe (bytes.drop 32))

/-- Unwrap the tag around the encoded map of the signed object. -/
def unwrapMso (msoVal : CborElement) : Parse Bytes :=
  match msoVal.value with
  | .tag 24 inner =>
    match inner.value with
    | .bytes b => pure b
    | _ => raise (.unexpectedType "tag-24 MSO payload")
  | _ => raise (.invalidValue "MSO tag")

def validateMsoLayout (cborMsoWrapped cborMsoMapBytes : Bytes) : Parse Unit := do
  let maxPreimageLen := kMsoPreimageLen - 9
  let formattedLen ← okOr ((checkedAdd kCose1PrefixLen 2).bind fun len =>
    checkedAdd len cborMsoWrapped.length) .tooBig
  check (¬ (maxPreimageLen < formattedLen ∨ 0xffff < cborMsoWrapped.length)) .tooBig
  check (¬ (cborMsoMapBytes.length < 256 ∨ cborMsoWrapped.take 3 ≠ [0xd8, 0x18, 0x59] ∨
    cborMsoWrapped.length ≠ cborMsoMapBytes.length + 5)) .unsupportedEncoding
  let encodedMapLen := beValue [← getAt cborMsoWrapped 3, ← getAt cborMsoWrapped 4]
  check (encodedMapLen = cborMsoMapBytes.length) .unsupportedEncoding

/-! ### Attributes -/

/-- The entries of an item that are known so far. -/
structure Slots where
  digestSlot : Option ℕ
  random : Option ℕ
  elementIdentifier : Option ℕ
  elementValue : Option ℕ
  length : List ℕ
  digestId : Option ℕ

def checkedDiff (a b : ℕ) : Option ℕ := if b ≤ a then some (a - b) else none

/-- A digest identifier: a number of 64 bits. -/
def digestIdOf (v : CborElement) : Parse ℕ :=
  match v.value with
  | .integer n => if 0 ≤ n ∧ n < 2 ^ 64 then pure n.toNat else raise (.invalidValue "digestID")
  | _ => raise (.unexpectedType "digestID")

/-- One entry of an item. -/
def slotStep (slots : Slots) (entry : (CborElement × CborElement) × ℕ) : Parse Slots := do
  let ((k, v), i) := entry
  let keyStr ← textOf k "IssuerSignedItem key"
  let len ← okOr (checkedDiff v.stop k.start) (.arithmeticOverflow "IssuerSignedItem field length")
  let slots := { slots with length := ← setAt slots.length i len }
  if keyStr = utf8 "digestID" then
    check (slots.digestSlot.isNone = true) (.duplicateField "IssuerSignedItem.digestID")
    let digestId ← digestIdOf v
    return { slots with digestSlot := some i, digestId := some digestId }
  else if keyStr = utf8 "random" then
    check (slots.random.isNone = true) (.duplicateField "IssuerSignedItem.random")
    return { slots with random := some i }
  else if keyStr = utf8 "elementIdentifier" then
    check (slots.elementIdentifier.isNone = true)
      (.duplicateField "IssuerSignedItem.elementIdentifier")
    return { slots with elementIdentifier := some i }
  else if keyStr = utf8 "elementValue" then
    check (slots.elementValue.isNone = true) (.duplicateField "IssuerSignedItem.elementValue")
    return { slots with elementValue := some i }
  else raise (.unknownField keyStr)

def nextOffset (offset length : ℕ) : Parse ℕ :=
  okOr (checkedAdd offset length) (.arithmeticOverflow "IssuerSignedItem field offset")

def computeWitness (name cborValue cborIssuerSignedItem : Bytes) (innerMap valueDigests : CborElement)
    (ns : Bytes) : Parse ParsedAttr := do
  let pairs ← mapPairs innerMap "IssuerSignedItem map"
  check (pairs.length = 4) (.invalidLength "IssuerSignedItem map" 4 pairs.length)
  let slots ← pairs.zipIdx.foldlM slotStep ⟨none, none, none, none, [0, 0, 0, 0], none⟩
  let slot0 ← okOr slots.digestSlot (.missingField "digestID")
  let slot1 ← okOr slots.random (.missingField "random")
  let slot2 ← okOr slots.elementIdentifier (.missingField "elementIdentifier")
  let slot3 ← okOr slots.elementValue (.missingField "elementValue")
  let permutation := slot3 <<< 6 ||| slot2 <<< 4 ||| slot1 <<< 2 ||| slot0
  -- The bytes before the map are the headers of the tag and of the byte string.
  let prefixLen ← okOr (checkedDiff cborIssuerSignedItem.length innerMap.stop)
    (.arithmeticOverflow "IssuerSignedItem prefix length")
  let first ← getAt pairs 0
  let offset0 ← okOr (checkedAdd prefixLen first.1.start)
    (.arithmeticOverflow "IssuerSignedItem first field offset")
  let offset1 ← nextOffset offset0 (← getAt slots.length 0)
  let offset2 ← nextOffset offset1 (← getAt slots.length 1)
  let offset3 ← nextOffset offset2 (← getAt slots.length 2)
  let digestIdVal ← okOr slots.digestId (.missingField "digestID")
  let msoDigestOffsetInPreimage ← requiredDigestOffset valueDigests ns digestIdVal
  return {
    name, cborValue, cborIssuerSignedItem, msoDigestOffsetInPreimage,
    fieldLocator := ⟨[offset0, offset1, offset2, offset3], slots.length, permutation⟩ }

/-- The bytes of a span. -/
def getRange (bytes : Bytes) (e : CborElement) : Option Bytes :=
  if e.start ≤ e.stop ∧ e.stop ≤ bytes.length then some ((bytes.drop e.start).take (e.stop - e.start))
  else none

/-- One signed item of a namespace. -/
def extractAttr (mdocBytes : Bytes) (valueDigests : CborElement) (nsName : Bytes)
    (signedItemEl : CborElement) : Parse ParsedAttr := do
  let cborIssuerSignedItemWrapped ← okOr (getRange mdocBytes signedItemEl)
    (.invalidValue "IssuerSignedItem byte range")
  let cborIssuerSignedItemMap ←
    requiredTaggedBytes signedItemEl 24 "IssuerSignedItem tag-24 payload"
  let signedItem ← parseItem cborIssuerSignedItemMap "IssuerSignedItem map"
  let elementIdEl ← requiredMapValue signedItem (utf8 "elementIdentifier")
    "IssuerSignedItem.elementIdentifier"
  let elementId ← textOf elementIdEl "elementIdentifier"
  let elementValueEl ← requiredMapValue signedItem (utf8 "elementValue")
    "IssuerSignedItem.elementValue"
  let cborValue ← okOr (getRange cborIssuerSignedItemMap elementValueEl)
    (.invalidValue "elementValue byte range")
  computeWitness elementId cborValue cborIssuerSignedItemWrapped signedItem valueDigests nsName

/-- The items of one namespace. The state is the names and the attributes so far. -/
def namespaceStep (mdocBytes : Bytes) (valueDigests : CborElement)
    (s : List Bytes × List ParsedAttr) (pair : CborElement × CborElement) :
    Parse (List Bytes × List ParsedAttr) := do
  let nsName ← textOf pair.1 "namespace name"
  check (nsName ∉ s.1) (.duplicateField "documents[0].issuerSigned.nameSpaces namespace")
  let itemsArr ← requiredArray pair.2 "namespace items"
  let attrs ← itemsArr.mapM (extractAttr mdocBytes valueDigests nsName)
  return (nsName :: s.1, s.2 ++ attrs)

def extractAttrs (issuerSigned : CborElement) (mdocBytes : Bytes) (valueDigests : CborElement) :
    Parse (List ParsedAttr) := do
  let namespacesEl ← requiredMapValue issuerSigned (utf8 "nameSpaces")
    "documents[0].issuerSigned.nameSpaces"
  let nsPairs ← mapPairs namespacesEl "nameSpaces"
  let result ← nsPairs.foldlM (namespaceStep mdocBytes valueDigests) ([], [])
  return result.2

/-! ### Documents -/

def formatCoseSign1Message (cborMso : Bytes) : Bytes :=
  appendBytesLen kCoseSign1SigningHeader cborMso.length ++ cborMso

/-- The message that the device signs. -/
def deviceAuthenticationMessage (transcript docType : Bytes) : Bytes :=
  let docTypeBytes := appendTextLen [] docType.length ++ docType
  let deviceNameSpacesBytes := [0xd8, 0x18, 0x41, 0xa0]
  let deviceAuthenticationCbor :=
    kDeviceAuthenticationHeader ++ transcript ++ docTypeBytes ++ deviceNameSpacesBytes
  let payload := appendBytesLen kTag24 deviceAuthenticationCbor.length ++ deviceAuthenticationCbor
  appendBytesLen kCoseSign1SigningHeader payload.length ++ payload

variable (sha256 : Bytes → Vector UInt8 32) {α : Type}

def computeTranscriptHash (transcript docType : Bytes) : Bytes :=
  (sha256 (deviceAuthenticationMessage transcript docType)).toList

def parseMdoc (mdoc transcript docType : Bytes) : Parse ParsedMdoc := do
  let root ← parseItem mdoc "root mdoc"
  let docsEl ← requiredMapValue root (utf8 "documents") "root.documents"
  let docsArr ← requiredArray docsEl "root.documents"
  let doc0 ← okOr docsArr.head? (.missingField "root.documents[0]")
  let issuerSigned ← requiredMapValue doc0 (utf8 "issuerSigned") "documents[0].issuerSigned"
  let issuerAuth ← requiredMapValue issuerSigned (utf8 "issuerAuth")
    "documents[0].issuerSigned.issuerAuth"
  let issuerAuthArr ← requiredCoseSign1Array issuerAuth "documents[0].issuerSigned.issuerAuth"
  let cborMsoWrapped ← requiredBytes
    (← okOr issuerAuthArr[2]? (.missingField "issuerAuth payload")) "issuerAuth payload"
  let msoVal ← parseItem cborMsoWrapped "wrapped MSO"
  let cborMsoMapBytes ← unwrapMso msoVal
  validateMsoLayout cborMsoWrapped cborMsoMapBytes
  let cborMso := formatCoseSign1Message cborMsoWrapped
  let issuerSigDigest := natFromBytesBe (sha256 cborMso).toList
  let msoMap ← parseItem cborMsoMapBytes "MSO map"
  let devKeyInfoEl ← requiredMapValue msoMap (utf8 "deviceKeyInfo") "MSO.deviceKeyInfo"
  let devKeyEl ← requiredMapValue devKeyInfoEl (utf8 "deviceKey") "MSO.deviceKeyInfo.deviceKey"
  let dpkxBytes ← requiredDeviceCoordinate devKeyEl (-2) "MSO.deviceKeyInfo.deviceKey.x"
  let dpkyBytes ← requiredDeviceCoordinate devKeyEl (-3) "MSO.deviceKeyInfo.deviceKey.y"
  let issuerSigBytes ← requiredBytes
    (← okOr issuerAuthArr[3]? (.missingField "issuer signature")) "issuer signature"
  let issuerSig ← parseSignature issuerSigBytes "issuer signature"
  let deviceSigned ← requiredMapValue doc0 (utf8 "deviceSigned") "documents[0].deviceSigned"
  let deviceAuth ← requiredMapValue deviceSigned (utf8 "deviceAuth")
    "documents[0].deviceSigned.deviceAuth"
  let deviceSignature ← requiredMapValue deviceAuth (utf8 "deviceSignature")
    "documents[0].deviceSigned.deviceAuth.deviceSignature"
  let deviceSignatureArr ← requiredCoseSign1Array deviceSignature
    "documents[0].deviceSigned.deviceAuth.deviceSignature"
  let deviceSigBytes ← requiredBytes
    (← okOr deviceSignatureArr[3]? (.missingField "device signature")) "device signature"
  let deviceSig ← parseSignature deviceSigBytes "device signature"
  let hashTrBytes := computeTranscriptHash sha256 transcript docType
  let docTypeEntry ← requiredMapKey msoMap (utf8 "docType") "MSO.docType"
  let validityInfo ← requiredMapValue msoMap (utf8 "validityInfo") "MSO.validityInfo"
  let validFrom ← requiredMapKey validityInfo (utf8 "validFrom") "MSO.validityInfo.validFrom"
  let validUntil ← requiredMapKey validityInfo (utf8 "validUntil") "MSO.validityInfo.validUntil"
  let deviceKeyInfo ← requiredMapKey msoMap (utf8 "deviceKeyInfo") "MSO.deviceKeyInfo"
  let valueDigests ← requiredMapKey msoMap (utf8 "valueDigests") "MSO.valueDigests"
  let valueDigestsEl ← requiredMapValue msoMap (utf8 "valueDigests") "MSO.valueDigests"
  let attrs ← extractAttrs issuerSigned mdoc valueDigestsEl
  return {
    cborMso, issuerSigDigest, issuerSigR := issuerSig.1, issuerSigS := issuerSig.2,
    devicePk := (natFromBytesBe dpkxBytes, natFromBytesBe dpkyBytes),
    deviceSigDigest := natFromBytesBe hashTrBytes,
    deviceSigR := deviceSig.1, deviceSigS := deviceSig.2, docType,
    docTypeOffsetInMso := docTypeEntry.k, validFromOffsetInMso := validFrom.k,
    validUntilOffsetInMso := validUntil.k, deviceKeyInfoOffsetInMso := deviceKeyInfo.k,
    valueDigestsOffsetInMso := valueDigests.k, attrs }

/-! ### The parser does not panic -/

/-- A call that returns a value or an error. -/
abbrev Quiet {α : Type} (x : Parse α) : Prop := Safe x fun _ => True

theorem parseItem_safe (data : Bytes) (context : String) : Quiet (parseItem data context) :=
  ((CborParser.parseExact_safe data).mapErr _).mono fun _ _ => trivial

theorem quiet_okOr (x : Option α) (error : MdocParseError) : Quiet (okOr x error) :=
  (safe_okOr x error).mono fun _ _ => trivial

theorem quiet_check (cond : Prop) [Decidable cond] (error : MdocParseError) :
    Quiet (check cond error) := (safe_check cond error).mono fun _ _ => trivial

theorem quiet_getAt {xs : List α} {i : ℕ} (inside : i < xs.length) :
    Quiet (getAt xs i) := (safe_getAt inside).mono fun _ _ => trivial

theorem mapPairs_safe (element : CborElement) (field : String) : Quiet (mapPairs element field) := by
  unfold mapPairs
  split
  · exact safe_pure trivial
  · exact safe_raise _ _

/-- **A lookup by key does not panic** when what it takes does not. -/
theorem findUnique_safe (wanted : CborValue → Bool)
    {take : CborElement × CborElement → Parse α} (each : ∀ pair, Quiet (take pair)) (path : String)
    (pairs : List (CborElement × CborElement)) : Quiet (findUnique wanted take path pairs) := by
  refine (safe_foldlM (fun _ => True) trivial fun found pair _ _ => ?_).bind fun found _ =>
    quiet_okOr found _
  split
  · refine (quiet_check _ _).bind fun _ _ => ?_
    rw [map_eq_pure_bind]
    exact (each pair).bind fun _ _ => safe_pure trivial
  · exact safe_pure trivial

section

variable (map : CborElement) (key : Bytes) (path : String)
include map key path

theorem mapEntryUnique_safe :
    Quiet (mapEntryUnique map key path) :=
  (mapPairs_safe map path).bind fun pairs _ =>
    findUnique_safe _ (fun _ => safe_pure trivial) path pairs

theorem requiredMapValue_safe :
    Quiet (requiredMapValue map key path) :=
  (mapEntryUnique_safe map key path).bind fun _ _ => safe_pure trivial

theorem requiredMapKey_safe :
    Quiet (requiredMapKey map key path) :=
  (mapEntryUnique_safe map key path).bind fun _ _ => safe_pure trivial

end

section

variable (element : CborElement) (field : String)
include element field

theorem requiredArray_safe :
    Quiet (requiredArray element field) := by
  unfold requiredArray
  split
  · exact safe_pure trivial
  · exact safe_raise _ _

theorem requiredCoseSign1Array_safe :
    Quiet (requiredCoseSign1Array element field) := by
  unfold requiredCoseSign1Array
  split
  · exact safe_pure trivial
  · exact requiredArray_safe _ _
  · exact safe_raise _ _

theorem requiredBytes_safe :
    Quiet (requiredBytes element field) := by
  unfold requiredBytes
  split
  · exact safe_pure trivial
  · exact safe_raise _ _

theorem textOf_safe : Quiet (textOf element field) := by
  unfold textOf
  split
  · exact safe_pure trivial
  · exact safe_raise _ _

end

theorem requiredTaggedBytes_safe (element : CborElement) (tag : ℕ) (field : String) :
    Quiet (requiredTaggedBytes element tag field) := by
  unfold requiredTaggedBytes
  split
  · split
    · exact requiredBytes_safe _ _
    · exact safe_raise _ _
  · exact safe_raise _ _

theorem requiredDeviceCoordinate_safe (deviceKey : CborElement) (coordinateKey : ℤ)
    (field : String) : Quiet (requiredDeviceCoordinate deviceKey coordinateKey field) :=
  (mapPairs_safe deviceKey _).bind fun pairs _ =>
    findUnique_safe _ (fun pair => requiredBytes_safe pair.2 field) field pairs

theorem requiredDigestOffset_safe (valueDigests : CborElement) (ns : Bytes) (digestId : ℕ) :
    Quiet (requiredDigestOffset valueDigests ns digestId) :=
  (requiredMapValue_safe valueDigests ns _).bind fun namespaceMap _ =>
    (mapPairs_safe namespaceMap _).bind fun pairs _ =>
      findUnique_safe _ (fun _ => safe_pure trivial) _ pairs

theorem parseSignature_safe (bytes : Bytes) (field : String) : Quiet (parseSignature bytes field) :=
  (quiet_check _ _).bind fun _ _ => safe_pure trivial

theorem unwrapMso_safe (msoVal : CborElement) : Quiet (unwrapMso msoVal) := by
  unfold unwrapMso
  split
  · split
    · exact safe_pure trivial
    · exact safe_raise _ _
  · exact safe_raise _ _

theorem validateMsoLayout_safe (cborMsoWrapped cborMsoMapBytes : Bytes) :
    Quiet (validateMsoLayout cborMsoWrapped cborMsoMapBytes) := by
  refine (quiet_okOr _ _).bind fun formattedLen _ => (quiet_check _ _).bind fun _ _ => ?_
  refine (safe_check _ _).bind fun _ layout => ?_
  have long : 5 ≤ cborMsoWrapped.length := by
    by_contra short
    exact layout (.inr (.inr (by omega)))
  refine (quiet_getAt (by omega)).bind fun high _ => (quiet_getAt (by omega)).bind fun low _ => ?_
  exact quiet_check _ _

theorem slotStep_safe {slots : Slots} {entry : (CborElement × CborElement) × ℕ}
    (slot : entry.2 < 4) (four : slots.length.length = 4) :
    Safe (slotStep slots entry) fun slots => slots.length.length = 4 := by
  obtain ⟨⟨k, v⟩, i⟩ := entry
  have digest : Quiet (digestIdOf v) := by
    unfold digestIdOf
    split
    · split
      · exact safe_pure trivial
      · exact safe_raise _ _
    · exact safe_raise _ _
  refine (textOf_safe _ _).bind fun keyStr _ => (quiet_okOr _ _).bind fun len _ => ?_
  have stored : Safe (setAt slots.length i len : Parse (List ℕ)) fun l => l.length = 4 :=
    safe_ok (setAt_of_lt (by rw [four]; exact slot)) (by rw [List.length_set, four])
  refine stored.bind fun lengths four' => ?_
  dsimp only
  split_ifs
  · exact (quiet_check _ _).bind fun _ _ => digest.bind fun _ _ => safe_pure four'
  · exact (quiet_check _ _).bind fun _ _ => safe_pure four'
  · exact (quiet_check _ _).bind fun _ _ => safe_pure four'
  · exact (quiet_check _ _).bind fun _ _ => safe_pure four'
  · exact safe_raise _ _

theorem nextOffset_safe (offset length : ℕ) : Quiet (nextOffset offset length) := quiet_okOr _ _

/-- **The witness of an attribute**: an item has four entries, so no index leaves its array. -/
theorem computeWitness_safe (name cborValue cborIssuerSignedItem : Bytes)
    (innerMap valueDigests : CborElement) (ns : Bytes) :
    Quiet (computeWitness name cborValue cborIssuerSignedItem innerMap valueDigests ns) := by
  refine (mapPairs_safe innerMap _).bind fun pairs _ => (safe_check _ _).bind fun _ entries => ?_
  have each : ∀ slots : Slots, ∀ entry ∈ pairs.zipIdx, slots.length.length = 4 →
      Safe (slotStep slots entry) fun slots => slots.length.length = 4 :=
    fun slots entry member four =>
      slotStep_safe (entries ▸ List.snd_lt_of_mem_zipIdx member) four
  refine (safe_foldlM (fun slots : Slots => slots.length.length = 4) rfl each).bind
    fun slots four => ?_
  refine (quiet_okOr _ _).bind fun slot0 _ => (quiet_okOr _ _).bind fun slot1 _ => ?_
  refine (quiet_okOr _ _).bind fun slot2 _ => (quiet_okOr _ _).bind fun slot3 _ => ?_
  refine (quiet_okOr _ _).bind fun prefixLen _ => ?_
  refine (quiet_getAt (by rw [entries]; decide)).bind fun first _ => ?_
  refine (quiet_okOr _ _).bind fun offset0 _ => ?_
  refine (quiet_getAt (by rw [four]; decide)).bind fun _ _ => (nextOffset_safe _ _).bind
    fun offset1 _ => ?_
  refine (quiet_getAt (by rw [four]; decide)).bind fun _ _ => (nextOffset_safe _ _).bind
    fun offset2 _ => ?_
  refine (quiet_getAt (by rw [four]; decide)).bind fun _ _ => (nextOffset_safe _ _).bind
    fun offset3 _ => ?_
  refine (quiet_okOr _ _).bind fun digestIdVal _ => ?_
  exact (requiredDigestOffset_safe _ _ _).bind fun _ _ => safe_pure trivial

theorem extractAttr_safe (mdocBytes : Bytes) (valueDigests : CborElement) (nsName : Bytes)
    (signedItemEl : CborElement) :
    Quiet (extractAttr mdocBytes valueDigests nsName signedItemEl) := by
  refine (quiet_okOr _ _).bind fun wrapped _ => (requiredTaggedBytes_safe _ _ _).bind fun map _ => ?_
  refine (parseItem_safe _ _).bind fun signedItem _ => ?_
  refine (requiredMapValue_safe _ _ _).bind fun elementIdEl _ => ?_
  refine (textOf_safe _ _).bind fun elementId _ => ?_
  refine (requiredMapValue_safe _ _ _).bind fun elementValueEl _ => ?_
  exact (quiet_okOr _ _).bind fun cborValue _ => computeWitness_safe _ _ _ _ _ _

theorem namespaceStep_safe (mdocBytes : Bytes) (valueDigests : CborElement)
    (s : List Bytes × List ParsedAttr) (pair : CborElement × CborElement) :
    Quiet (namespaceStep mdocBytes valueDigests s pair) := by
  refine (textOf_safe _ _).bind fun nsName _ => (quiet_check _ _).bind fun _ _ => ?_
  refine (requiredArray_safe _ _).bind fun itemsArr _ => ?_
  exact (safe_mapM fun item _ => extractAttr_safe _ _ _ item).bind fun _ _ => safe_pure trivial

theorem extractAttrs_safe (issuerSigned : CborElement) (mdocBytes : Bytes)
    (valueDigests : CborElement) : Quiet (extractAttrs issuerSigned mdocBytes valueDigests) := by
  refine (requiredMapValue_safe _ _ _).bind fun el _ => (mapPairs_safe _ _).bind fun pairs _ => ?_
  exact (safe_foldlM (fun _ => True) trivial fun s pair _ _ => namespaceStep_safe _ _ s pair).bind
    fun _ _ => safe_pure trivial

/-- The parts of a document that its message and its attributes are read from. -/
structure DocumentParts where
  root : CborElement
  docs : CborElement
  doc0 : CborElement
  issuerSigned : CborElement
  valueDigests : CborElement
  wrapped : Bytes
  mapBytes : Bytes

/-- The parts are those of a document, and what was found is read from them. -/
structure DocumentParts.Of (parts : DocumentParts) (mdoc : Bytes) (parsed : ParsedMdoc) : Prop where
  isRoot : parseItem mdoc "root mdoc" = .ok parts.root
  isDocs : requiredMapValue parts.root (utf8 "documents") "root.documents" = .ok parts.docs
  isDoc : ∃ rest, requiredArray parts.docs "root.documents" = .ok (parts.doc0 :: rest)
  isIssuerSigned : requiredMapValue parts.doc0 (utf8 "issuerSigned") "documents[0].issuerSigned" =
    .ok parts.issuerSigned
  layout : validateMsoLayout parts.wrapped parts.mapBytes = .ok ()
  message : parsed.cborMso = formatCoseSign1Message parts.wrapped
  attributes : extractAttrs parts.issuerSigned mdoc parts.valueDigests = .ok parsed.attrs

/-- **The parser of documents**: it never panics, and what it returns is read from the parts of the
document. -/
theorem parseMdoc_spec (mdoc transcript docType : Bytes) :
    Safe (parseMdoc sha256 mdoc transcript docType) fun parsed =>
      ∃ parts : DocumentParts, parts.Of mdoc parsed := by
  refine (parseItem_safe _ _).remember.bind fun root isRoot => ?_
  refine (requiredMapValue_safe _ _ _).remember.bind fun docs isDocs => ?_
  refine (requiredArray_safe _ _).remember.bind fun docsArr isArr => ?_
  refine (safe_okOr _ _).bind fun doc0 isDoc => ?_
  refine (requiredMapValue_safe _ _ _).remember.bind fun issuerSigned isIssuerSigned => ?_
  refine (requiredMapValue_safe _ _ _).bind fun issuerAuth _ => ?_
  refine (requiredCoseSign1Array_safe _ _).bind fun issuerAuthArr _ => ?_
  refine (quiet_okOr _ _).bind fun payload _ => (requiredBytes_safe _ _).bind fun wrapped _ => ?_
  refine (parseItem_safe _ _).bind fun msoVal _ => (unwrapMso_safe _).bind fun mapBytes _ => ?_
  refine (validateMsoLayout_safe _ _).remember.bind fun _ layout => ?_
  refine (parseItem_safe _ _).bind fun msoMap _ => ?_
  refine (requiredMapValue_safe _ _ _).bind fun devKeyInfo _ => ?_
  refine (requiredMapValue_safe _ _ _).bind fun devKey _ => ?_
  refine (requiredDeviceCoordinate_safe _ _ _).bind fun dpkx _ => ?_
  refine (requiredDeviceCoordinate_safe _ _ _).bind fun dpky _ => ?_
  refine (quiet_okOr _ _).bind fun issuerSigEl _ => (requiredBytes_safe _ _).bind fun bytes _ => ?_
  refine (parseSignature_safe _ _).bind fun issuerSig _ => ?_
  refine (requiredMapValue_safe _ _ _).bind fun deviceSigned _ => ?_
  refine (requiredMapValue_safe _ _ _).bind fun deviceAuth _ => ?_
  refine (requiredMapValue_safe _ _ _).bind fun deviceSignature _ => ?_
  refine (requiredCoseSign1Array_safe _ _).bind fun deviceSignatureArr _ => ?_
  refine (quiet_okOr _ _).bind fun deviceSigEl _ => (requiredBytes_safe _ _).bind fun bytes' _ => ?_
  refine (parseSignature_safe _ _).bind fun deviceSig _ => ?_
  refine (requiredMapKey_safe _ _ _).bind fun docTypeEntry _ => ?_
  refine (requiredMapValue_safe _ _ _).bind fun validityInfo _ => ?_
  refine (requiredMapKey_safe _ _ _).bind fun validFrom _ => ?_
  refine (requiredMapKey_safe _ _ _).bind fun validUntil _ => ?_
  refine (requiredMapKey_safe _ _ _).bind fun deviceKeyInfo _ => ?_
  refine (requiredMapKey_safe _ _ _).bind fun valueDigests _ => ?_
  refine (requiredMapValue_safe _ _ _).bind fun valueDigestsEl _ => ?_
  refine (extractAttrs_safe _ _ _).remember.bind fun attrs attributes => ?_
  obtain ⟨rest, rfl⟩ := List.head?_eq_some_iff.mp isDoc
  exact safe_pure ⟨⟨root, docs, doc0, issuerSigned, valueDigestsEl, wrapped, mapBytes⟩,
    isRoot.1, isDocs.1, ⟨rest, isArr.1⟩, isIssuerSigned.1, layout.1, rfl, attributes.1⟩

/-- **The parser of documents never panics.** -/
theorem parseMdoc_safe (mdoc transcript docType : Bytes) :
    Quiet (parseMdoc sha256 mdoc transcript docType) :=
  (parseMdoc_spec sha256 mdoc transcript docType).mono fun _ _ => trivial

end Longfellow.Mdoc
