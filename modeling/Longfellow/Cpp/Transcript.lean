/-
**The message of a device signature** (`lib/circuits/mdoc/mdoc_witness.h`).

The message frames the session transcript and the type of the document in two byte strings, one
inside the other. One implementation computes the lengths of the headers, the other one writes the
strings from the inside out.

* `transcriptMessage_asserts` — **the message**: a type of 256 bytes or more is replaced by a
  default.
-/

import Longfellow.Mdoc.Parse

namespace Longfellow.Cpp

open Lib Mdoc

variable {ε : Type}

def appendBytesLen (buf : Bytes) (len : ℕ) : Exec ε Bytes := do
  ensure (len < 65536) "Bytestring length too large"
  if len < 24 then pure (buf ++ [UInt8.ofNat (0x40 + len)])
  else if len < 256 then pure (buf ++ [0x58, UInt8.ofNat (len % 256)])
  else pure (buf ++ [0x59, UInt8.ofNat (len / 256 % 256), UInt8.ofNat (len % 256)])

def appendTextLen (buf : Bytes) (len : ℕ) : Exec ε Bytes := do
  ensure (len < 256) "Text length too large"
  if len < 24 then pure (buf ++ [UInt8.ofNat (0x60 + len)])
  else pure (buf ++ [0x78, UInt8.ofNat len])

/-- The type of a document as a text item, `org.iso.18013.5.1.mDL` unless one of less than 256 bytes
is given. -/
def docTypeItem (docType : Option Bytes) : Exec ε Bytes :=
  match docType with
  | some docType =>
    if docType.length < 256 then do
      let docTypeBytes ← appendTextLen [] docType.length
      pure (docTypeBytes ++ docType)
    else pure (0x75 :: utf8 "org.iso.18013.5.1.mDL")
  | none => pure (0x75 :: utf8 "org.iso.18013.5.1.mDL")

/-- The bytes that `compute_transcript_hash` hashes. -/
def transcriptMessage (transcript : Bytes) (docType : Option Bytes) : Exec ε Bytes := do
  let deviceAuthentication := [0x84, 0x74] ++ utf8 "DeviceAuthentication"
  let docTypeBytes ← docTypeItem docType
  let deviceNameSpacesBytes := [0xd8, 0x18, 0x41, 0xa0]
  let da := deviceAuthentication ++ transcript ++ docTypeBytes ++ deviceNameSpacesBytes
  let cose1 := [0x84, 0x6a, 0x53, 0x69, 0x67, 0x6e, 0x61, 0x74, 0x75, 0x72, 0x65, 0x31, 0x43, 0xa1,
    0x01, 0x26, 0x40]
  let l1 := da.length
  let l2 := l1 + if l1 < 256 then 4 else 5
  let cose1 ← appendBytesLen cose1 l2
  let cose1 ← appendBytesLen (cose1 ++ [0xd8, 0x18]) l1
  pure (cose1 ++ da)

/-! ### Headers -/

theorem shortHeader : ∀ len < 24, UInt8.ofNat (0x40 + len) = 0x40 ||| UInt8.ofNat len ∧
    UInt8.ofNat (0x60 + len) = 0x60 ||| UInt8.ofNat len := by decide

variable {buf : Bytes} {len : ℕ}

theorem appendBytesLen_of_lt (small : len < 65536) :
    (appendBytesLen buf len : Exec ε Bytes) = .ok (Mdoc.appendBytesLen buf len) := by
  rw [appendBytesLen, ensure_of small, ok_bind, Mdoc.appendBytesLen, appendLen]
  by_cases tiny : len < 24
  · rw [if_pos tiny, if_pos (by omega), (shortHeader len tiny).1]
    rfl
  rw [if_neg tiny, if_neg (show ¬ len ≤ 23 by omega)]
  by_cases short : len < 256
  · rw [if_pos short, if_pos (show len ≤ 0xff by omega), Nat.mod_eq_of_lt short]
    rfl
  · have low : UInt8.ofNat (len % 256) = UInt8.ofNat len := by
      apply UInt8.toNat_inj.mp
      simp
    rw [if_neg short, if_neg (show ¬ len ≤ 0xff by omega), if_pos (show len ≤ 0xffff by omega),
      Nat.mod_eq_of_lt (show len / 256 < 256 by omega), low]
    rfl

theorem appendTextLen_of_lt (small : len < 256) :
    (appendTextLen buf len : Exec ε Bytes) = .ok (Mdoc.appendTextLen buf len) := by
  rw [appendTextLen, ensure_of small, ok_bind, Mdoc.appendTextLen, appendLen]
  by_cases tiny : len < 24
  · rw [if_pos tiny, if_pos (by omega), (shortHeader len tiny).2]
    rfl
  · rw [if_neg tiny, if_neg (show ¬ len ≤ 23 by omega), if_pos (show len ≤ 0xff by omega)]
    rfl

/-- The number of bytes of a header. -/
def headerLen (len : ℕ) : ℕ :=
  if len ≤ 23 then 1 else if len ≤ 0xff then 2 else if len ≤ 0xffff then 3
  else if len ≤ 0xffffffff then 5 else 9

theorem length_appendLen (buf : Bytes) (majorType : UInt8) (len : ℕ) :
    (appendLen buf majorType len).length = buf.length + headerLen len := by
  unfold appendLen headerLen
  split_ifs <;> simp

theorem headerLen_mono {len' : ℕ} (le : len ≤ len') : headerLen len ≤ headerLen len' := by
  unfold headerLen
  split_ifs <;> omega

theorem counted_injective {majorType : UInt8} {first second : Bytes}
    (same : appendLen buf majorType first.length ++ first =
      appendLen buf majorType second.length ++ second) : first = second := by
  have sizes := congrArg List.length same
  rw [List.length_append, List.length_append, length_appendLen, length_appendLen] at sizes
  have size : first.length = second.length := by
    rcases Nat.lt_trichotomy first.length second.length with less | equal | more
    · have := headerLen_mono less.le
      omega
    · exact equal
    · have := headerLen_mono more.le
      omega
  rw [size] at same
  exact List.append_cancel_left same

/-! ### The message -/

/-- A byte string inside a tagged byte string inside the structure that is signed. -/
def frame (da : Bytes) : Bytes :=
  let payload := Mdoc.appendBytesLen kTag24 da.length ++ da
  Mdoc.appendBytesLen kCoseSign1SigningHeader payload.length ++ payload

theorem frame_injective : Function.Injective frame := fun _ _ same =>
  counted_injective (counted_injective same)

/-- The structure that is framed, from the text item of the type of the document. -/
def authentication (transcript item : Bytes) : Bytes :=
  kDeviceAuthenticationHeader ++ transcript ++ item ++ [0xd8, 0x18, 0x41, 0xa0]

theorem authentication_injective (transcript : Bytes) :
    Function.Injective (authentication transcript) := fun _ _ same =>
  List.append_cancel_left (List.append_cancel_right same)

theorem deviceAuthenticationMessage_eq (transcript docType : Bytes) :
    deviceAuthenticationMessage transcript docType =
      frame (authentication transcript (encodeCborString docType)) := rfl

/-- The text item that is framed for a type. -/
def itemOf (docType : Bytes) : Bytes :=
  if docType.length < 256 then encodeCborString docType
  else encodeCborString (utf8 "org.iso.18013.5.1.mDL")

theorem docTypeItem_some (docType : Bytes) :
    (docTypeItem (some docType) : Exec ε Bytes) = .ok (itemOf docType) := by
  by_cases short : docType.length < 256
  · rw [docTypeItem, if_pos short, appendTextLen_of_lt short, ok_bind, itemOf, if_pos short]
    rfl
  · rw [docTypeItem, if_neg short, itemOf, if_neg short]
    rfl

theorem length_payload {da : Bytes} (long : 24 ≤ da.length) (small : da.length < 65536) :
    (Mdoc.appendBytesLen kTag24 da.length ++ da).length =
      da.length + if da.length < 256 then 4 else 5 := by
  have tag : kTag24.length = 2 := rfl
  rw [List.length_append, Mdoc.appendBytesLen, length_appendLen, tag, headerLen]
  split_ifs <;> omega

theorem appendLen_append (front buf : Bytes) (majorType : UInt8) (len : ℕ) :
    appendLen (front ++ buf) majorType len = front ++ appendLen buf majorType len := by
  unfold appendLen
  split_ifs <;> simp

/-- **The message**: the call returns unless the message is too long for its headers. -/
theorem transcriptMessage_asserts (transcript docType : Bytes) :
    Asserts (transcriptMessage transcript (some docType) : Exec ε Bytes)
      ((authentication transcript (itemOf docType)).length + 5 < 65536)
      (frame (authentication transcript (itemOf docType))) := by
  set da := authentication transcript (itemOf docType) with da_eq
  have long : 24 ≤ da.length := by
    have header : kDeviceAuthenticationHeader.length = 22 := by decide
    rw [da_eq, authentication]
    simp only [List.length_append, header, List.length_cons, List.length_nil]
    omega
  have written : (transcriptMessage transcript (some docType) : Exec ε Bytes) = (do
      let cose1 ← appendBytesLen kCoseSign1SigningHeader
        (da.length + if da.length < 256 then 4 else 5)
      let cose1 ← appendBytesLen (cose1 ++ kTag24) da.length
      pure (cose1 ++ da)) := by
    rw [transcriptMessage, docTypeItem_some, ok_bind]
    rfl
  rw [written]
  constructor
  · intro small
    have outer : (da.length + if da.length < 256 then 4 else 5) < 65536 := by
      split_ifs <;> omega
    rw [appendBytesLen_of_lt outer, ok_bind, appendBytesLen_of_lt (by omega), ok_bind, frame,
      length_payload long (by omega), pure_eq_ok]
    simp only [Mdoc.appendBytesLen, appendLen_append, List.append_assoc]
  · intro large
    have outer : ¬ (da.length + if da.length < 256 then 4 else 5) < 65536 := by
      split_ifs <;> omega
    refine ⟨"Bytestring length too large", ?_⟩
    rw [appendBytesLen, ensure, if_neg outer]
    rfl

/-- **When the two implementations hash the same bytes**: for the types of less than 256 bytes. The
bytes that the other one hashes determine the type. -/
theorem transcriptMessages_agree_iff {transcript docType message : Bytes}
    (returned : (transcriptMessage transcript (some docType) : Exec ε Bytes) = .ok message) :
    (message = deviceAuthenticationMessage transcript docType ↔ docType.length < 256) ∧
      ∀ docType', deviceAuthenticationMessage transcript docType' =
        deviceAuthenticationMessage transcript docType → docType' = docType := by
  rw [(transcriptMessage_asserts transcript docType).eq_of_ok returned]
  simp only [deviceAuthenticationMessage_eq, frame_injective.eq_iff,
    (authentication_injective transcript).eq_iff]
  refine ⟨⟨fun same => ?_, fun short => if_pos short⟩, fun docType' same => counted_injective same⟩
  by_contra long
  rw [itemOf, if_neg long] at same
  have type := counted_injective same
  rw [← type] at long
  exact long (by decide)

/-- A type of 256 bytes and one of 257 bytes lead to the same message. -/
theorem long_docType_is_replaced :
    ∃ message, (transcriptMessage [0xf6] (some (.replicate 256 0x61)) : Exec String _) = .ok message ∧
      (transcriptMessage [0xf6] (some (.replicate 257 0x61)) : Exec String _) = .ok message ∧
      message ≠ deviceAuthenticationMessage [0xf6] (.replicate 256 0x61) := by
  have replaced : ∀ n, 256 ≤ n →
      itemOf (.replicate n 0x61) = encodeCborString (utf8 "org.iso.18013.5.1.mDL") := by
    intro n long
    exact if_neg (by simpa using long)
  have short : (authentication [0xf6] (encodeCborString (utf8 "org.iso.18013.5.1.mDL"))).length + 5 <
      65536 := by decide
  refine ⟨frame (authentication [0xf6] (encodeCborString (utf8 "org.iso.18013.5.1.mDL"))), ?_, ?_, ?_⟩
  · rw [← replaced 256 le_rfl]
    exact (transcriptMessage_asserts _ _).returns (by rw [replaced 256 le_rfl]; exact short)
  · rw [← replaced 257 (by decide)]
    exact (transcriptMessage_asserts _ _).returns (by rw [replaced 257 (by decide)]; exact short)
  · rw [deviceAuthenticationMessage_eq]
    intro same
    have type := counted_injective (authentication_injective _ (frame_injective same))
    have sizes := congrArg List.length type
    rw [List.length_replicate] at sizes
    exact absurd sizes (by decide)

theorem transcriptMessages_agree_mdl :
    ∃ message, (transcriptMessage [0xf6] (some (utf8 "mDL")) : Exec String _) = .ok message ∧
      message = deviceAuthenticationMessage [0xf6] (utf8 "mDL") :=
  ⟨_, rfl, (transcriptMessages_agree_iff (ε := String) rfl).1.mpr (by decide)⟩

end Longfellow.Cpp
