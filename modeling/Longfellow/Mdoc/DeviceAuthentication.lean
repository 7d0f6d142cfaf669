/-
**The message that the device signs** (`compute_transcript_hash` of
`mdoc_zk/circuits/src/cbor/mdoc.rs`).

Three heads are written in front of bytes of any length, and the transcript stands between them as
it is. The heads say how long their strings are; an item is not the beginning of another one.

* `message_injective` — different transcripts and types give different messages.
-/

import Longfellow.Mdoc.CborExact

namespace Longfellow.Mdoc

open Lib Cbor

/-! ### Reading known items -/

namespace CborParser

variable {data : Bytes} {start stop levels : ℕ}

theorem reads_of_encodes {f : Trees} {bytes : Bytes} (encodes : f.Encodes levels bytes)
    (there : bytes <+: data.drop start) :
    Reads data levels start 1 (elements start f) (start + bytes.length) := by
  refine ⟨f, encodes.single, ⟨encodes.complete, encodes.valid, encodes.height, ?_⟩, rfl, ?_⟩
  · rwa [encodes.bytes]
  · rw [← encodes.bytes, Trees.length_bytes]

theorem parseExact_tree {t : Token} {children : Trees} (small : data.length < 2 ^ 64)
    (encodes : Trees.Encodes (.node t children .nil) (maxDepth + 1) data) :
    parseExact data = .ok ⟨tokenValue t (elements t.size children), 0, data.length⟩ := by
  have width : data.length = t.size + children.width Token.size := by
    rw [← encodes.bytes, Trees.length_bytes, Forest.width, Forest.width_nil, Nat.add_zero]
  refine (parseExact_eq_ok small).mpr ⟨_, encodes, ?_⟩
  rw [elements, elements, width, Nat.zero_add]

theorem Reads.encodes {bytes : Bytes} {e : CborElement} (reads : Reads data levels start 1 [e] stop)
    (item : IsItem bytes) (there : bytes <+: data.drop start) :
    stop = start + bytes.length ∧ ∃ f : Trees, f.Encodes levels bytes ∧ elements start f = [e] := by
  obtain ⟨f, single, stands, same, rfl⟩ := reads
  obtain ⟨xs, left⟩ := stands.there
  obtain ⟨ys, right⟩ := there
  have isItem : IsItem f.bytes := by
    have wellFormed := Trees.wellFormed stands.complete
    rwa [single] at wellFormed
  obtain ⟨rfl, -⟩ := isItem.unique item (left.trans right.symm)
  rw [Trees.length_bytes]
  exact ⟨rfl, f, ⟨single, stands.complete, stands.valid, stands.height, rfl⟩, same⟩

end CborParser

/-! ### The parts of the message -/

/-- What is authenticated: an array of four. -/
def deviceAuthenticationCbor (transcript docType : Bytes) : Bytes :=
  kDeviceAuthenticationHeader ++ transcript ++ (appendTextLen [] docType.length ++ docType) ++
    [0xd8, 0x18, 0x41, 0xa0]

/-- The array as a string behind a tag. -/
def deviceAuthenticationPayload (transcript docType : Bytes) : Bytes :=
  appendBytesLen kTag24 (deviceAuthenticationCbor transcript docType).length ++
    deviceAuthenticationCbor transcript docType

/-- The elements of the array. -/
def deviceAuthenticationItems (transcript docType : Bytes) : List Bytes :=
  [encodeCborString (utf8 "DeviceAuthentication"), transcript, encodeCborString docType,
    [0xd8, 0x18, 0x41, 0xa0]]

theorem arrayMajor_lt : 4 < 8 := by decide

theorem arrayToken_sized : ([] : Bytes).length = if 4 = 2 ∨ 4 = 3 then 4 else 0 := rfl

def arrayToken : Token := ⟨4, 4, 4, [], arrayMajor_lt, by decide, arrayToken_sized⟩

theorem tagMajor_lt : 6 < 8 := by decide

theorem tagToken_sized : ([] : Bytes).length = if 6 = 2 ∨ 6 = 3 then 24 else 0 := rfl

def tagToken : Token := ⟨6, 24, 24, [], tagMajor_lt, by decide, tagToken_sized⟩

/-- The token of a byte string. -/
abbrev bytesToken (s : Bytes) (fits : s.length < 2 ^ 64) : Token := stringToken 2 (.inl rfl) s fits

/-- The token of a text. -/
abbrev textToken (s : Bytes) (fits : s.length < 2 ^ 64) : Token := stringToken 3 (.inr rfl) s fits

section

variable {transcript docType : Bytes}

theorem deviceAuthenticationCbor_eq (transcript docType : Bytes) :
    deviceAuthenticationCbor transcript docType =
      head 4 4 4 ++ (deviceAuthenticationItems transcript docType).flatten := by
  have header : kDeviceAuthenticationHeader =
      head 4 4 4 ++ encodeCborString (utf8 "DeviceAuthentication") := by decide
  have text : appendTextLen [] docType.length ++ docType = encodeCborString docType := rfl
  rw [deviceAuthenticationCbor, header, text, deviceAuthenticationItems]
  simp only [List.flatten_cons, List.flatten_nil, List.append_assoc, List.append_nil]

theorem encodeCborString_eq {s : Bytes} (fits : s.length < 2 ^ 64) :
    encodeCborString s = (textToken s fits).bytes := bytes_stringToken (.inr rfl) fits []

theorem isItem_encodeCborString {s : Bytes} (fits : s.length < 2 ^ 64) :
    IsItem (encodeCborString s) := by
  have complete : Trees.Complete (.node (textToken s fits) .nil .nil) :=
    ⟨(arity_stringToken (.inr rfl) fits).symm, trivial, trivial⟩
  have wellFormed := Trees.wellFormed complete
  rw [Trees.bytes_node, Trees.bytes_nil, List.append_nil, List.append_nil] at wellFormed
  rw [encodeCborString_eq fits]
  exact wellFormed

theorem isItem_emptyMap : IsItem [0xd8, 0x18, 0x41, 0xa0] := by
  have complete : Trees.Complete (.node tagToken
      (.node (bytesToken [0xa0] (by decide)) .nil .nil) .nil) :=
    ⟨rfl, ⟨rfl, trivial, trivial⟩, trivial⟩
  exact Trees.wellFormed complete

theorem isItem_deviceAuthenticationItems (item : IsItem transcript) (fits : docType.length < 2 ^ 64) :
    ∀ i ∈ deviceAuthenticationItems transcript docType, IsItem i := by
  unfold deviceAuthenticationItems
  simp only [List.forall_mem_cons, List.not_mem_nil, false_imp_iff, implies_true, and_true]
  exact ⟨isItem_encodeCborString (by decide), item, isItem_encodeCborString fits, isItem_emptyMap⟩

/-- **What is authenticated is an array of the four items**, and of no others. -/
theorem deviceAuthenticationCbor_wellFormed (item : IsItem transcript)
    (fits : docType.length < 2 ^ 64) :
    IsItem (deviceAuthenticationCbor transcript docType) ∧
      ∀ items : List Bytes, items.length = 4 → (∀ i ∈ items, IsItem i) →
        deviceAuthenticationCbor transcript docType = head 4 4 4 ++ items.flatten →
        items = deviceAuthenticationItems transcript docType := by
  have each := isItem_deviceAuthenticationItems item fits
  constructor
  · have array := WellFormed.definite arrayToken (wellFormed_flatten each) .none
    rw [List.append_nil] at array
    rw [deviceAuthenticationCbor_eq]
    exact array
  · intro items count items' same
    rw [deviceAuthenticationCbor_eq] at same
    exact flatten_injective items' each count (List.append_cancel_left same).symm

/-- The message fits the memory, and so do its parts. -/
structure Fits (transcript docType : Bytes) : Prop where
  payload : (deviceAuthenticationPayload transcript docType).length < 2 ^ 64
  inner : (deviceAuthenticationCbor transcript docType).length < 2 ^ 64
  docType : docType.length < 2 ^ 64

theorem fits_of_message (small : (deviceAuthenticationMessage transcript docType).length < 2 ^ 64) :
    Fits transcript docType := by
  have payload : (deviceAuthenticationPayload transcript docType).length < 2 ^ 64 := by
    have message : deviceAuthenticationMessage transcript docType =
        appendBytesLen kCoseSign1SigningHeader
          (deviceAuthenticationPayload transcript docType).length ++
          deviceAuthenticationPayload transcript docType := rfl
    rw [message, List.length_append] at small
    omega
  have inner : (deviceAuthenticationCbor transcript docType).length < 2 ^ 64 := by
    rw [deviceAuthenticationPayload, List.length_append] at payload
    omega
  refine ⟨payload, inner, ?_⟩
  rw [deviceAuthenticationCbor] at inner
  simp only [List.length_append] at inner
  omega

theorem message_eq (fits : Fits transcript docType) :
    deviceAuthenticationMessage transcript docType = kCoseSign1SigningHeader ++
      (bytesToken (deviceAuthenticationPayload transcript docType) fits.payload).bytes :=
  bytes_stringToken (.inl rfl) fits.payload kCoseSign1SigningHeader

theorem payload_eq (fits : Fits transcript docType) :
    deviceAuthenticationPayload transcript docType =
      kTag24 ++ (bytesToken (deviceAuthenticationCbor transcript docType) fits.inner).bytes :=
  bytes_stringToken (.inl rfl) fits.inner kTag24

theorem stringToken_injective {major : ℕ} (isString : major = 2 ∨ major = 3) {s s' : Bytes}
    (fits : s.length < 2 ^ 64) (fits' : s'.length < 2 ^ 64)
    (same : (stringToken major isString s fits).bytes = (stringToken major isString s' fits').bytes) :
    s = s' := by
  have tokens : (stringToken major isString s fits).bytes ++ [] =
      (stringToken major isString s' fits').bytes ++ [] := by rw [same]
  exact congrArg Token.content (Token.bytes_append_injective tokens).1

/-- **Different transcripts and types give different messages.** -/
theorem message_injective {transcript' docType' : Bytes} (item : IsItem transcript)
    (item' : IsItem transcript') (fits : Fits transcript docType)
    (fits' : Fits transcript' docType') (same : deviceAuthenticationMessage transcript docType =
      deviceAuthenticationMessage transcript' docType') :
    transcript = transcript' ∧ docType = docType' := by
  rw [message_eq fits, message_eq fits'] at same
  have payloads := stringToken_injective _ _ _ (List.append_cancel_left same)
  rw [payload_eq fits, payload_eq fits'] at payloads
  have inner := stringToken_injective _ _ _ (List.append_cancel_left payloads)
  rw [deviceAuthenticationCbor_eq, deviceAuthenticationCbor_eq] at inner
  have items := flatten_injective (isItem_deviceAuthenticationItems item fits.docType)
    (isItem_deviceAuthenticationItems item' fits'.docType) rfl (List.append_cancel_left inner)
  simp only [deviceAuthenticationItems, List.cons.injEq, true_and, and_true] at items
  have texts : (textToken docType fits.docType).bytes = (textToken docType' fits'.docType).bytes := by
    rw [← encodeCborString_eq, ← encodeCborString_eq]
    exact items.2
  exact ⟨items.1, stringToken_injective _ _ _ texts⟩

/-! ### The parser on the message -/

namespace CborParser

theorem isText_literal : IsText (utf8 "Signature1") ∧ IsText (utf8 "DeviceAuthentication") :=
  ⟨(utf8Error_eq_none 0).mp (by decide), (utf8Error_eq_none 0).mp (by decide)⟩

theorem parseExact_message (small : (deviceAuthenticationMessage transcript docType).length < 2 ^ 64) :
    ∃ es, parseExact (deviceAuthenticationMessage transcript docType) =
        .ok ⟨.array es, 0, (deviceAuthenticationMessage transcript docType).length⟩ ∧
      es.map Spanned.value = [.text (utf8 "Signature1"), .bytes [0xa1, 0x01, 0x26], .bytes [],
        .bytes (deviceAuthenticationPayload transcript docType)] := by
  have fits := fits_of_message small
  let children : Trees := .node (textToken (utf8 "Signature1") (by decide)) .nil
    (.node (bytesToken [0xa1, 0x01, 0x26] (by decide)) .nil
      (.node (bytesToken [] (by decide)) .nil (.node (bytesToken _ fits.payload) .nil .nil)))
  have encodes : Trees.Encodes (.node arrayToken children .nil) (maxDepth + 1)
      (deviceAuthenticationMessage transcript docType) := by
    refine ⟨rfl, ?_, ?_, ?_, ?_⟩
    · exact ⟨rfl, ⟨rfl, trivial, rfl, trivial, rfl, trivial, rfl, trivial, trivial⟩, trivial⟩
    · intro t member
      simp only [children, Forest.symbols, List.append_nil, List.nil_append, List.mem_cons,
        List.not_mem_nil, or_false] at member
      rcases member with rfl | rfl | rfl | rfl | rfl
      · rintro ⟨⟩
      · exact fun _ => isText_literal.1
      · rintro ⟨⟩
      · rintro ⟨⟩
      · rintro ⟨⟩
    · simp [children, Forest.height, maxDepth]
    · rw [message_eq fits]
      simp only [children, Trees.bytes_node, Trees.bytes_nil, List.append_nil]
      rfl
  exact ⟨_, parseExact_tree small encodes, rfl⟩

theorem parseExact_payload (small : (deviceAuthenticationMessage transcript docType).length < 2 ^ 64) :
    ∃ e, parseExact (deviceAuthenticationPayload transcript docType) =
        .ok ⟨.tag 24 e, 0, (deviceAuthenticationPayload transcript docType).length⟩ ∧
      e.value = .bytes (deviceAuthenticationCbor transcript docType) := by
  have fits := fits_of_message small
  let children : Trees := .node (bytesToken _ fits.inner) .nil .nil
  have encodes : Trees.Encodes (.node tagToken children .nil) (maxDepth + 1)
      (deviceAuthenticationPayload transcript docType) := by
    refine ⟨rfl, ?_, ?_, ?_, ?_⟩
    · exact ⟨rfl, ⟨rfl, trivial, trivial⟩, trivial⟩
    · intro t member
      simp only [children, Forest.symbols, List.append_nil, List.mem_cons,
        List.not_mem_nil, or_false] at member
      rcases member with rfl | rfl
      · rintro ⟨⟩
      · rintro ⟨⟩
    · simp [children, Forest.height, maxDepth]
    · rw [payload_eq fits]
      simp only [children, Trees.bytes_node, Trees.bytes_nil, List.append_nil]
      rfl
  exact ⟨_, parseExact_tree fits.payload encodes, rfl⟩

/-- **The parser takes what is authenticated for the array of the four items**, when the transcript
leaves it a level. -/
theorem parseExact_inner (fits : Fits transcript docType) (isText : IsText docType) {f : Trees}
    (encodes : f.Encodes maxDepth transcript) :
    ∃ n t d m b, parseExact (deviceAuthenticationCbor transcript docType) =
        .ok ⟨.array [n, shiftElement 22 t, d, m], 0,
          (deviceAuthenticationCbor transcript docType).length⟩ ∧
      parseExact transcript = .ok t ∧ n.value = .text (utf8 "DeviceAuthentication") ∧
      d.value = .text docType ∧ m.value = .tag 24 b ∧ b.value = .bytes [0xa0] := by
  obtain ⟨single, complete, valid, height, bytes⟩ := encodes
  cases f with
  | nil => cases single
  | node t inside none =>
    obtain rfl : none = .nil := Forest.length_eq_zero.mp (Nat.succ.inj single)
    let last : Trees := .node (textToken docType fits.docType) .nil
      (.node tagToken (.node (bytesToken [0xa0] (by decide)) .nil .nil) .nil)
    let children : Trees := .node (textToken (utf8 "DeviceAuthentication") (by decide)) .nil
      (.node t inside last)
    have smallT : transcript.length < 2 ^ 64 := by
      have inner := fits.inner
      rw [deviceAuthenticationCbor] at inner
      simp only [List.length_append] at inner
      omega
    have encodes : Trees.Encodes (.node arrayToken children .nil) (maxDepth + 1)
        (deviceAuthenticationCbor transcript docType) := by
      refine ⟨rfl, ?_, ?_, ?_, ?_⟩
      · exact ⟨rfl, ⟨rfl, trivial, complete.1, complete.2.1, rfl, trivial, rfl,
          ⟨rfl, trivial, trivial⟩, trivial⟩, trivial⟩
      · intro u member
        simp only [children, last, Forest.symbols, List.append_nil, List.nil_append,
          List.mem_cons, List.mem_append, List.not_mem_nil, or_false] at member valid
        rcases member with rfl | rfl | rfl | member | rfl | rfl | rfl
        · rintro ⟨⟩
        · exact fun _ => isText_literal.2
        · exact valid _ (.inl rfl)
        · exact valid _ (.inr member)
        · exact fun _ => isText
        · rintro ⟨⟩
        · rintro ⟨⟩
      · simp only [children, last, Forest.height, maxDepth] at height ⊢
        omega
      · rw [deviceAuthenticationCbor_eq, ← bytes]
        simp only [children, last, Trees.bytes_node, Trees.bytes_nil, List.append_nil,
          List.nil_append, deviceAuthenticationItems, List.flatten_cons, List.flatten_nil,
          encodeCborString_eq fits.docType, List.append_assoc]
        rfl
    have whole := parseExact_tree smallT
      ⟨single, complete, valid, height.trans (Nat.le_succ _), bytes⟩
    have moved : (⟨tokenValue t (elements (22 + t.size) inside), 22,
        22 + t.size + inside.width Token.size⟩ : CborElement) =
          shiftElement 22 ⟨tokenValue t (elements t.size inside), 0, transcript.length⟩ := by
      rw [← bytes, Trees.length_bytes, Forest.width, Forest.width_nil, shiftElement,
        shift_tokenValue, ← elements_shift]
      simp only [Nat.add_zero, Nat.add_assoc]
    let middle := 22 + t.size + inside.width Token.size
    let later := middle + (textToken docType fits.docType).size
    let b : CborElement := ⟨.bytes [0xa0], later + 2, later + 4⟩
    refine ⟨⟨.text (utf8 "DeviceAuthentication"), 1, 22⟩, _, ⟨.text docType, middle, later⟩,
      ⟨.tag 24 b, later, later + 4⟩, b, ?_, whole, rfl, rfl, rfl, rfl⟩
    rw [← moved]
    exact parseExact_tree fits.inner encodes

theorem encodes_of_parseExact_inner (fits : Fits transcript docType) (item : IsItem transcript)
    {e : CborElement} (parsed : parseExact (deviceAuthenticationCbor transcript docType) = .ok e) :
    ∃ f : Trees, f.Encodes maxDepth transcript := by
  obtain ⟨f, encodes, single⟩ := (parseExact_eq_ok fits.inner).mp parsed
  have places : head 4 4 4 ++ (encodeCborString (utf8 "DeviceAuthentication") ++
      (transcript ++ (encodeCborString docType ++ [0xd8, 0x18, 0x41, 0xa0]))) =
        deviceAuthenticationCbor transcript docType := by
    rw [deviceAuthenticationCbor_eq]
    simp only [deviceAuthenticationItems, List.flatten_cons, List.flatten_nil, List.append_nil]
  have there : deviceAuthenticationCbor transcript docType <+:
      (deviceAuthenticationCbor transcript docType).drop 0 := List.prefix_rfl
  have reads := reads_of_encodes encodes there
  rw [single] at reads
  obtain ⟨a, -, ⟨xs, first⟩, es, inner, -⟩ := reads_tree.mp reads
  obtain ⟨rfl, -⟩ : a = arrayToken ∧ _ :=
    Token.bytes_append_injective (first.trans (places.symm.trans rfl))
  -- The array is followed by its name, and the name by the transcript.
  nth_rewrite 1 [← places] at there
  rw [append_prefix_drop, append_prefix_drop, append_prefix_drop] at there
  obtain ⟨e₁, middle, rest, name, more, -⟩ := reads_succ.mp inner
  obtain ⟨e₂, later, rest', found, -, -⟩ := reads_succ.mp more
  obtain ⟨rfl, -⟩ := name.encodes (isItem_encodeCborString (by decide)) there.2.1
  obtain ⟨-, f', encodes', -⟩ := found.encodes item there.2.2.1
  exact ⟨f', encodes'⟩

end CborParser

end

open CborParser

/-- **The message that the device signs is well-formed and injective.** The parser takes the message
for the structure that is signed, with a payload that it takes for a tagged byte string. What is in
the string is one item, an array of the name, the transcript, the type and the tagged empty map, and
it is no other array of four. The parser takes it exactly when the transcript has a definite length
and nests at most 63 deep, and then returns these four. No other transcript and type give the same
message. -/
theorem deviceAuthentication_exact (transcript docType : Bytes) (item : IsItem transcript)
    (isText : IsText docType)
    (small : (deviceAuthenticationMessage transcript docType).length < 2 ^ 64) :
    (∃ es, parseExact (deviceAuthenticationMessage transcript docType) =
        .ok ⟨.array es, 0, (deviceAuthenticationMessage transcript docType).length⟩ ∧
      es.map Spanned.value = [.text (utf8 "Signature1"), .bytes [0xa1, 0x01, 0x26], .bytes [],
        .bytes (deviceAuthenticationPayload transcript docType)]) ∧
    (∃ e, parseExact (deviceAuthenticationPayload transcript docType) =
        .ok ⟨.tag 24 e, 0, (deviceAuthenticationPayload transcript docType).length⟩ ∧
      e.value = .bytes (deviceAuthenticationCbor transcript docType)) ∧
    (IsItem (deviceAuthenticationCbor transcript docType) ∧
      ∀ items : List Bytes, items.length = 4 → (∀ i ∈ items, IsItem i) →
        deviceAuthenticationCbor transcript docType = head 4 4 4 ++ items.flatten →
        items = deviceAuthenticationItems transcript docType) ∧
    ((∃ e, parseExact (deviceAuthenticationCbor transcript docType) = .ok e) ↔
      ∃ f : Trees, f.Encodes maxDepth transcript) ∧
    (∀ e, parseExact (deviceAuthenticationCbor transcript docType) = .ok e →
      ∃ n t d m b, e.value = .array [n, shiftElement 22 t, d, m] ∧
        parseExact transcript = .ok t ∧ n.value = .text (utf8 "DeviceAuthentication") ∧
        d.value = .text docType ∧ m.value = .tag 24 b ∧ b.value = .bytes [0xa0] ∧
        parseExact [0xa0] = .ok ⟨.map [], 0, 1⟩) ∧
    ∀ transcript' docType', IsItem transcript' →
      deviceAuthenticationMessage transcript docType =
        deviceAuthenticationMessage transcript' docType' →
      transcript = transcript' ∧ docType = docType' := by
  have fits := fits_of_message small
  refine ⟨parseExact_message small, parseExact_payload small,
    deviceAuthenticationCbor_wellFormed item fits.docType,
    ⟨fun ⟨e, parsed⟩ => encodes_of_parseExact_inner fits item parsed, fun ⟨f, encodes⟩ => ?_⟩,
    fun e parsed => ?_, fun transcript' docType' item' same => ?_⟩
  · obtain ⟨n, t, d, m, b, parsed, -⟩ := parseExact_inner fits isText encodes
    exact ⟨_, parsed⟩
  · obtain ⟨f, encodes⟩ := encodes_of_parseExact_inner fits item parsed
    obtain ⟨n, t, d, m, b, parsed', whole, name, docTypeItem, tagged, last⟩ :=
      parseExact_inner fits isText encodes
    obtain rfl := Except.ok.inj (parsed.symm.trans parsed')
    exact ⟨n, t, d, m, b, rfl, whole, name, docTypeItem, tagged, last, rfl⟩
  · exact message_injective item item' fits (fits_of_message (same ▸ small)) same

/-- The transcript of no elements and the type of one letter. -/
theorem deviceAuthentication_exact_empty :
    ∃ e, parseExact (deviceAuthenticationPayload [0x80] [0x61]) =
        .ok ⟨.tag 24 e, 0, (deviceAuthenticationPayload [0x80] [0x61]).length⟩ ∧
      e.value = .bytes (deviceAuthenticationCbor [0x80] [0x61]) :=
  (deviceAuthentication_exact [0x80] [0x61]
    (((parseExact_eq_ok (by decide)).mp (show parseExact [0x80] = .ok ⟨.array [], 0, 1⟩ from rfl)).elim
      fun _ found => found.1.isItem)
    ((utf8Error_eq_none 0).mp (by decide)) (by decide)).2.1

/-- A transcript that nests 64 deep is an item that the parser takes, but it does not take what is
authenticated with it. -/
theorem deepest_transcript_not_parsed :
    IsItem (List.replicate 64 0x81 ++ [0x80]) ∧
      (∃ e, parseExact (List.replicate 64 0x81 ++ [0x80]) = .ok e) ∧
      ∀ e, parseExact (deviceAuthenticationCbor (List.replicate 64 0x81 ++ [0x80]) []) ≠ .ok e := by
  have taken : (parseExact (List.replicate 64 0x81 ++ [0x80])).isOk = true := by decide +kernel
  have notTaken :
      (parseExact (deviceAuthenticationCbor (List.replicate 64 0x81 ++ [0x80]) [])).isOk = false := by
    decide +kernel
  cases parsed : parseExact (List.replicate 64 0x81 ++ [0x80]) with
  | error fault =>
    rw [parsed] at taken
    cases taken
  | ok e =>
    obtain ⟨f, encodes, -⟩ := (parseExact_eq_ok (by decide)).mp parsed
    refine ⟨encodes.isItem, ⟨e, rfl⟩, fun e' parsed' => ?_⟩
    rw [parsed'] at notTaken
    cases notTaken

end Longfellow.Mdoc
