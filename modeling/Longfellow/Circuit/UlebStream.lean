/-
**Variable-length numbers from buffered streams** (`core/proto/src/uleb.rs`).

The reader of at most four bytes looks at the buffer first and goes byte by byte only when the
buffer does not show a whole number; the reader of sizes always goes byte by byte.

* `refines_readUleb128`, `refines_readUleb128Max4U32` — **the readers do not see the chunks**.
-/

import Longfellow.Circuit.Uleb
import Longfellow.Lib.Buffered

namespace Longfellow.Buffered

open Lib

/-! ### The readers -/

/-- The reader of a size, byte by byte: `turns` bytes are left, `shift` bits have been read. -/
def readUleb128From : Nat → Nat → Nat → BufReader String Nat
  | 0, _, _ => liftM (raise "ULEB128 value too large" : Exec String Nat)
  | turns + 1, shift, val => do
    let b ← readExact1 "Unexpected EOF reading ULEB128"
    let byte := leValue b
    let val := val + byte % 128 * 2 ^ shift
    if byte < 128 then pure val else readUleb128From turns (shift + 7) val

/-- Read a size of at most eight bytes. -/
def readUleb128 : BufReader String Nat := readUleb128From 8 0 0

/-- The path byte by byte of the reader of at most four bytes. -/
def readUlebBytes : Nat → Nat → Nat → BufReader String Nat
  | 0, _, _ => liftM (raise "ULEB128 value exceeded 4 bytes (max 28 bits payload)" :
      Exec String Nat)
  | turns + 1, shift, result => do
    let chunk ← readExact1 "Failed to read ULEB128 byte: failed to fill whole buffer"
    let byte := leValue chunk
    let result := result + byte % 128 * 2 ^ shift
    if byte < 128 then do
      liftM (check (result ≤ 0x0FFFFFFF)
        s!"ULEB128 value {result} exceeds max 28 bits payload" : Exec String Unit)
      pure result
    else readUlebBytes turns (shift + 7) result

/-- Read a number of at most 28 bits: from the buffer when it shows all of it, else byte by byte. -/
def readUleb128Max4U32 : BufReader String Nat := fun s =>
  match readUlebBuffered s.fillBuf with
  | some (val, rest) =>
    if val > 0x0FFFFFFF then raise s!"ULEB128 value {val} exceeds max 28 bits payload"
    else pure (val, s.consume (s.fillBuf.length - rest.length))
  | none => (readUlebBytes 4 0 0).run s

/-! ### The chunks are not seen -/

theorem refines_readUleb128From (turns shift val : Nat) :
    Refines (readUleb128From turns shift val) (Longfellow.readUleb128From turns shift val) := by
  induction turns generalizing shift val with
  | zero => exact refines_lift _
  | succ turns ih =>
    refine (refines_readExact1 _).bind fun b => ?_
    simp only
    split
    · exact refines_pure _
    · exact ih _ _

/-- **The reader of sizes does not see the chunks.** -/
theorem refines_readUleb128 : Refines readUleb128 Longfellow.readUleb128 :=
  refines_readUleb128From 8 0 0

theorem refines_readUlebBytes (turns shift result : Nat) :
    Refines (readUlebBytes turns shift result) (Longfellow.readUlebBytes turns shift result) := by
  induction turns generalizing shift result with
  | zero => exact refines_lift _
  | succ turns ih =>
    refine (refines_readExact1 _).bind fun chunk => ?_
    simp only
    split
    · exact (refines_lift _).bind fun _ => refines_pure _
    · exact ih _ _

theorem readUlebBytes_code {turns shift result : Nat} {code : Bytes} (isCode : UlebCode turns code)
    (fits : result + ulebValue code * 2 ^ shift < 2 ^ 28) (rest : Bytes) :
    (Longfellow.readUlebBytes turns shift result).run (code ++ rest) =
      .ok (result + ulebValue code * 2 ^ shift, rest) := by
  induction turns generalizing shift result code with
  | zero => exact isCode.elim
  | succ turns ih => match code with
    | [] => exact isCode.elim
    | byte :: code =>
      have value : leValue [byte] = byte.toNat := by simp [leValue]
      have taken : (takeBytes 1 "Failed to read ULEB128 byte: failed to fill whole buffer").run
          (byte :: (code ++ rest)) = .ok ([byte], code ++ rest) :=
        takeBytes_eq_ok.mpr ⟨rfl, rfl⟩
      have split : result + ulebValue (byte :: code) * 2 ^ shift =
          result + byte.toNat % 128 * 2 ^ shift + ulebValue code * 2 ^ (shift + 7) := by
        rw [ulebValue, pow_add]
        ring
      rw [UlebCode] at isCode
      rw [split] at fits ⊢
      refine reader_bind_eq_ok.mpr ⟨[byte], code ++ rest, taken, ?_⟩
      simp only [value]
      by_cases last : byte.toNat < 128
      · rw [if_pos last] at isCode
        subst isCode
        rw [ulebValue, Nat.zero_mul, Nat.add_zero] at fits ⊢
        rw [if_pos last]
        refine reader_bind_eq_ok.mpr ⟨(), rest, reader_lift_eq_ok.mpr ⟨?_, rfl⟩, rfl⟩
        exact check_of (by rw [value]; omega)
      · rw [if_neg last] at isCode ⊢
        exact ih isCode fits

/-- **The two paths agree**: on all bytes they take the same number off the same bytes, or fail in
the same way. -/
theorem readUlebBytes_eq (bytes : Bytes) :
    (Longfellow.readUlebBytes 4 0 0).run bytes = readUleb128Max4.run bytes := by
  show _ = readUleb128Max4 bytes
  unfold readUleb128Max4
  cases found : readUlebBuffered bytes with
  | none => rfl
  | some result =>
    obtain ⟨val, rest⟩ := result
    obtain ⟨code, isCode, rfl⟩ := code_of_readUlebBuffered found
    have small := ulebValue_lt isCode
    have value : ulebValue code = val := by
      have whole := (readUlebBuffered_code isCode rest).symm.trans found
      exact (Prod.mk.inj (Option.some.inj whole)).1
    have ran := readUlebBytes_code isCode
      (show 0 + ulebValue code * 2 ^ 0 < 2 ^ 28 by omega) rest
    rw [Nat.zero_add, pow_zero, Nat.mul_one, value] at ran
    rw [ran]
    exact (if_neg (by omega)).symm

/-- **The reader of at most four bytes does not see the chunks**, wherever they end. -/
theorem refines_readUleb128Max4U32 : Refines readUleb128Max4U32 readUleb128Max4 := by
  intro s
  show (match readUlebBuffered s.fillBuf with
    | some (val, rest) =>
      if val > 0x0FFFFFFF then raise s!"ULEB128 value {val} exceeds max 28 bits payload"
      else pure (val, s.consume (s.fillBuf.length - rest.length))
    | none => (readUlebBytes 4 0 0).run s).map _ = _
  cases found : readUlebBuffered s.fillBuf with
  | none => exact (refines_readUlebBytes 4 0 0 s).trans (readUlebBytes_eq s.bytes)
  | some result =>
    obtain ⟨val, rest⟩ := result
    obtain ⟨code, isCode, buffer⟩ := code_of_readUlebBuffered found
    have small := ulebValue_lt isCode
    have value : ulebValue code = val := by
      have whole := (readUlebBuffered_code isCode rest).symm.trans (buffer ▸ found)
      exact (Prod.mk.inj (Option.some.inj whole)).1
    have left := s.bytes_eq
    rw [buffer, List.append_assoc] at left
    have length : s.fillBuf.length - rest.length = code.length := by
      rw [buffer, List.length_append]
      omega
    have consumed := s.bytes_consume (n := code.length) (by rw [buffer]; simp)
    rw [left, List.drop_left] at consumed
    have plain := readUleb128Max4_eq_ok.mpr ⟨code, isCode, left, rfl⟩
    rw [plain, value]
    simp only [length]
    rw [if_neg (by omega), pure_eq_ok]
    simp only [Except.map, consumed]

/-! ### Large sizes -/

theorem readUleb128From_large {turns room : Nat} (fits : turns ≤ room) (shift val : Nat) {n : Nat}
    (large : 128 ^ turns ≤ n) (rest : Bytes) :
    (Longfellow.readUleb128From turns shift val).run (ulebBytes room n ++ rest) =
      raise "ULEB128 value too large" := by
  induction turns generalizing room shift val n with
  | zero => rfl
  | succ turns ih =>
    obtain ⟨room, rfl⟩ : ∃ left, room = left + 1 := ⟨room - 1, by omega⟩
    have positive : 0 < 128 ^ turns := Nat.pow_pos (by decide)
    rw [pow_succ] at large
    have more : n / 128 ≠ 0 := by omega
    have byte : leValue [UInt8.ofNat (n % 128 + 128)] = n % 128 + 128 := by
      simp only [leValue, UInt8.toNat_ofNat']
      omega
    have taken : (takeBytes 1 "Unexpected EOF reading ULEB128").run
        (UInt8.ofNat (n % 128 + 128) :: (ulebBytes room (n / 128) ++ rest)) =
          .ok ([UInt8.ofNat (n % 128 + 128)], ulebBytes room (n / 128) ++ rest) :=
      takeBytes_eq_ok.mpr ⟨rfl, rfl⟩
    rw [ulebBytes, if_neg more, List.cons_append, Longfellow.readUleb128From, StateT.run_bind,
      taken, ok_bind]
    simp only [byte]
    rw [if_neg (by omega)]
    exact ih (Nat.le_of_succ_le_succ fits) _ _ (by omega)

/-- **Sizes of more than 56 bits are refused.** -/
theorem readUleb128_large {n : Nat} (large : 2 ^ 56 ≤ n) (rest : Bytes) :
    Longfellow.readUleb128.run (serializeUleb128 n ++ rest) = raise "ULEB128 value too large" :=
  readUleb128From_large (by decide) 0 0 (le_trans (by norm_num) large) rest

/-! ### The round trips -/

/-- **The round trips**: a size comes back, with exactly its bytes consumed, if and only if it has at
most 56 bits; every number that the writer of at most four bytes accepts comes back; and the reader
of at most four bytes does on every stream what its path byte by byte does. -/
theorem uleb128_roundTrip_iff (s : BufStream) (rest : Bytes) :
    (∀ val < 2 ^ 64, s.bytes = serializeUleb128 val ++ rest →
      ((∃ s', readUleb128.run s = .ok (val, s') ∧ s'.bytes = rest) ↔ val < 2 ^ 56)) ∧
    (∀ val bytes, (serializeUleb128Max4 val : Exec String Bytes) = .ok bytes →
      s.bytes = bytes ++ rest →
      ∃ s', readUleb128Max4U32.run s = .ok (val, s') ∧ s'.bytes = rest) ∧
    ((readUleb128Max4U32.run s).map fun (val, s') => (val, s'.bytes)) =
      ((readUlebBytes 4 0 0).run s).map fun (val, s') => (val, s'.bytes) := by
  refine ⟨fun val _ written => ?_, fun val bytes wrote written => ?_, ?_⟩
  · rw [refines_readUleb128.reads, written]
    constructor
    · intro ran
      by_contra large
      rw [readUleb128_large (Nat.le_of_not_lt large)] at ran
      exact raise_ne_ok _ _ ran
    · exact fun small => reads_uleb128 small rest
  · obtain ⟨fits, rfl⟩ := serializeUleb128Max4_eq_ok.mp wrote
    rw [refines_readUleb128Max4U32.reads, written]
    exact reads_uleb fits rest
  · rw [refines_readUleb128Max4U32 s, refines_readUlebBytes 4 0 0 s, readUlebBytes_eq]

/-- A number of two bytes in two chunks. -/
theorem uleb128_roundTrip_split :
    (∃ s', readUleb128.run ⟨[[0x80], [0x01, 0x07]], by decide⟩ = .ok (128, s') ∧ s'.bytes = [0x07]) ∧
      ∃ s', readUleb128Max4U32.run ⟨[[0x80], [0x01, 0x07]], by decide⟩ = .ok (128, s') ∧
        s'.bytes = [0x07] := by
  have trips := uleb128_roundTrip_iff ⟨[[0x80], [0x01, 0x07]], by decide⟩ [0x07]
  exact ⟨(trips.1 128 (by decide) rfl).mpr (by decide), trips.2.1 128 [0x80, 0x01] rfl rfl⟩

/-- The first size that does not come back. -/
theorem uleb128_large : ¬ ∀ (val : Nat) (s : BufStream) (rest : Bytes), val < 2 ^ 64 →
    s.bytes = serializeUleb128 val ++ rest →
    ∃ s', readUleb128.run s = .ok (val, s') ∧ s'.bytes = rest := by
  intro all
  have bytes : serializeUleb128 (2 ^ 56) =
      [0x80, 0x80, 0x80, 0x80, 0x80, 0x80, 0x80, 0x80, 0x01] := by decide
  have trip := all (2 ^ 56) ⟨[[0x80, 0x80, 0x80, 0x80, 0x80, 0x80, 0x80, 0x80, 0x01]], by decide⟩ []
    (by decide) (by rw [bytes]; rfl)
  rw [refines_readUleb128.reads] at trip
  have refused := readUleb128_large (n := 2 ^ 56) le_rfl []
  rw [bytes] at refused
  exact raise_ne_ok _ _ (refused.symm.trans trip)

end Longfellow.Buffered
