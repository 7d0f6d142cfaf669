/-
**The check for UTF-8 is exact** (the standard library's check behind `String::from_utf8`, as
`mdoc_zk/circuits/src/cbor/parse.rs` uses it).

The check takes a character at a time, by the width that its first byte says.

* `utf8Error_eq_none` — **exactly the encodings of characters pass**.
-/

import Longfellow.Lib.Cbor
import Longfellow.Mdoc.Cbor

namespace Longfellow.Mdoc

open Lib Cbor

/-! ### Bytes of characters -/

variable {a : UInt8}

theorem utf8CharWidth_eq_one : utf8CharWidth a = 1 ↔ a.toNat ≤ 0x7f := by
  unfold utf8CharWidth
  simp only [UInt8.le_iff_toNat_le]
  split_ifs <;> simp_all

theorem utf8CharWidth_eq_two :
    utf8CharWidth a = 2 ↔ 0xc2 ≤ a.toNat ∧ a.toNat ≤ 0xdf := by
  unfold utf8CharWidth
  simp only [UInt8.le_iff_toNat_le]
  split_ifs <;> simp_all
  omega

theorem utf8CharWidth_eq_three :
    utf8CharWidth a = 3 ↔ 0xe0 ≤ a.toNat ∧ a.toNat ≤ 0xef := by
  unfold utf8CharWidth
  simp only [UInt8.le_iff_toNat_le]
  split_ifs <;> simp_all <;> omega

theorem utf8CharWidth_eq_four :
    utf8CharWidth a = 4 ↔ 0xf0 ≤ a.toNat ∧ a.toNat ≤ 0xf4 := by
  unfold utf8CharWidth
  simp only [UInt8.le_iff_toNat_le]
  split_ifs <;> simp_all <;> omega

variable {b : UInt8}

theorem isContinuation_iff :
    isContinuation b = true ↔ 0x80 ≤ b.toNat ∧ b.toNat ≤ 0xbf := by
  simp [isContinuation, UInt8.le_iff_toNat_le]

theorem isSecond_iff :
    isSecond a b = true ↔ 0x80 ≤ b.toNat ∧ b.toNat ≤ 0xbf ∧
      (a.toNat = 0xe0 → 0xa0 ≤ b.toNat) ∧ (a.toNat = 0xed → b.toNat ≤ 0x9f) ∧
      (a.toNat = 0xf0 → 0x90 ≤ b.toNat) ∧ (a.toNat = 0xf4 → b.toNat ≤ 0x8f) := by
  unfold isSecond isContinuation
  simp only [← UInt8.toNat_inj]
  split_ifs <;> simp_all [UInt8.le_iff_toNat_le] <;> omega

theorem exists_char_code {n : ℕ} (isValid : n.isValidChar) : ∃ c : Char, c.val.toNat = n :=
  ⟨Char.ofNatAux n isValid, rfl⟩

theorem ofNat_eq {n : ℕ} (same : n = a.toNat) : UInt8.ofNat n = a := by
  rw [same, UInt8.ofNat_toNat]

theorem exists_char_one (width : utf8CharWidth a = 1) :
    ∃ c : Char, String.utf8EncodeChar c = [a] := by
  rw [utf8CharWidth_eq_one] at width
  have isValid : a.toNat.isValidChar := .inl (by omega)
  obtain ⟨c, code⟩ := exists_char_code isValid
  refine ⟨c, ?_⟩
  simp only [String.utf8EncodeChar, code, if_pos width, UInt8.ofNat_toNat]

theorem exists_char_two (width : utf8CharWidth a = 2) (second : isContinuation b = true) :
    ∃ c : Char, String.utf8EncodeChar c = [a, b] := by
  rw [utf8CharWidth_eq_two] at width
  rw [isContinuation_iff] at second
  have isValid : ((a.toNat - 0xc0) * 64 + (b.toNat - 0x80)).isValidChar := .inl (by omega)
  obtain ⟨ch, code⟩ := exists_char_code isValid
  refine ⟨ch, ?_⟩
  simp only [String.utf8EncodeChar, code]
  rw [if_neg (by omega), if_pos (by omega), ofNat_eq (a := a) (by omega),
    ofNat_eq (a := b) (by omega)]

theorem exists_char_three {c : UInt8} (width : utf8CharWidth a = 3) (second : isSecond a b = true)
    (third : isContinuation c = true) :
    ∃ ch : Char, String.utf8EncodeChar ch = [a, b, c] := by
  rw [utf8CharWidth_eq_three] at width
  rw [isSecond_iff] at second
  rw [isContinuation_iff] at third
  have isValid :
      ((a.toNat - 0xe0) * 4096 + (b.toNat - 0x80) * 64 + (c.toNat - 0x80)).isValidChar := by
    unfold Nat.isValidChar
    omega
  obtain ⟨ch, code⟩ := exists_char_code isValid
  refine ⟨ch, ?_⟩
  simp only [String.utf8EncodeChar, code]
  rw [if_neg (by omega), if_neg (by omega), if_pos (by omega), ofNat_eq (a := a) (by omega),
    ofNat_eq (a := b) (by omega), ofNat_eq (a := c) (by omega)]

theorem exists_char_four {c d : UInt8} (width : utf8CharWidth a = 4) (second : isSecond a b = true)
    (third : isContinuation c = true) (fourth : isContinuation d = true) :
    ∃ ch : Char, String.utf8EncodeChar ch = [a, b, c, d] := by
  rw [utf8CharWidth_eq_four] at width
  rw [isSecond_iff] at second
  rw [isContinuation_iff] at third fourth
  have isValid : ((a.toNat - 0xf0) * 262144 + (b.toNat - 0x80) * 4096 + (c.toNat - 0x80) * 64 +
      (d.toNat - 0x80)).isValidChar := by
    unfold Nat.isValidChar
    omega
  obtain ⟨ch, code⟩ := exists_char_code isValid
  refine ⟨ch, ?_⟩
  simp only [String.utf8EncodeChar, code]
  rw [if_neg (by omega), if_neg (by omega), if_neg (by omega), ofNat_eq (a := a) (by omega),
    ofNat_eq (a := b) (by omega), ofNat_eq (a := c) (by omega), ofNat_eq (a := d) (by omega)]

theorem utf8Error_char (ch : Char) (n : ℕ) (rest : Bytes) :
    ∃ m, utf8Error n (String.utf8EncodeChar ch ++ rest) = utf8Error m rest := by
  have isValid : ch.val.toNat < 0xd800 ∨ 0xdfff < ch.val.toNat ∧ ch.val.toNat < 0x110000 := ch.valid
  simp only [String.utf8EncodeChar]
  generalize ch.val.toNat = v at isValid
  split_ifs with one two three
  · have width : utf8CharWidth (UInt8.ofNat v) = 1 := by
      rw [utf8CharWidth_eq_one, UInt8.toNat_ofNat']
      omega
    refine ⟨n + 1, ?_⟩
    rw [List.cons_append, List.nil_append, utf8Error]
    exact width
  · have width : utf8CharWidth (UInt8.ofNat (v / 64 % 0x20 + 0xc0)) = 2 := by
      rw [utf8CharWidth_eq_two, UInt8.toNat_ofNat']
      omega
    have second : isContinuation (UInt8.ofNat (v % 0x40 + 0x80)) = true := by
      rw [isContinuation_iff, UInt8.toNat_ofNat']
      omega
    refine ⟨n + 2, ?_⟩
    rw [List.cons_append, List.cons_append, List.nil_append, utf8Error.eq_def]
    simp only [width, second, if_true]
  · have width : utf8CharWidth (UInt8.ofNat (v / 4096 % 0x10 + 0xe0)) = 3 := by
      rw [utf8CharWidth_eq_three, UInt8.toNat_ofNat']
      omega
    have second : isSecond (UInt8.ofNat (v / 4096 % 0x10 + 0xe0))
        (UInt8.ofNat (v / 64 % 0x40 + 0x80)) = true := by
      rw [isSecond_iff, UInt8.toNat_ofNat', UInt8.toNat_ofNat']
      omega
    have third : isContinuation (UInt8.ofNat (v % 0x40 + 0x80)) = true := by
      rw [isContinuation_iff, UInt8.toNat_ofNat']
      omega
    refine ⟨n + 3, ?_⟩
    simp only [List.cons_append, List.nil_append]
    rw [utf8Error.eq_def]
    simp only [width, second, third, if_true]
  · have width : utf8CharWidth (UInt8.ofNat (v / 262144 % 0x08 + 0xf0)) = 4 := by
      rw [utf8CharWidth_eq_four, UInt8.toNat_ofNat']
      omega
    have second : isSecond (UInt8.ofNat (v / 262144 % 0x08 + 0xf0))
        (UInt8.ofNat (v / 4096 % 0x40 + 0x80)) = true := by
      rw [isSecond_iff, UInt8.toNat_ofNat', UInt8.toNat_ofNat']
      omega
    have third : isContinuation (UInt8.ofNat (v / 64 % 0x40 + 0x80)) = true := by
      rw [isContinuation_iff, UInt8.toNat_ofNat']
      omega
    have fourth : isContinuation (UInt8.ofNat (v % 0x40 + 0x80)) = true := by
      rw [isContinuation_iff, UInt8.toNat_ofNat']
      omega
    refine ⟨n + 4, ?_⟩
    simp only [List.cons_append, List.nil_append]
    rw [utf8Error.eq_def]
    simp only [width, second, third, fourth, if_true]

/-- **The check for UTF-8 is exact.** -/
theorem utf8Error_eq_none {bytes : Bytes} (n : ℕ) : utf8Error n bytes = none ↔ IsText bytes := by
  constructor
  · intro none
    fun_induction utf8Error n bytes with
    | case1 => exact .nil
    | case2 n a rest width ih =>
      obtain ⟨ch, same⟩ := exists_char_one width
      exact .cons same (ih none)
    | case3 n a b rest width second ih =>
      obtain ⟨ch, same⟩ := exists_char_two width second
      exact .cons same (ih none)
    | case5 n a b c rest width second third ih =>
      obtain ⟨ch, same⟩ := exists_char_three width second third
      exact .cons same (ih none)
    | case8 n a b c d rest width second third fourth ih =>
      obtain ⟨ch, same⟩ := exists_char_four width second third fourth
      exact .cons same (ih none)
    | _ => cases none
  · rintro ⟨chars, rfl⟩
    induction chars generalizing n with
    | nil => rfl
    | cons ch chars ih =>
      obtain ⟨m, same⟩ := utf8Error_char ch n (chars.flatMap String.utf8EncodeChar)
      rw [List.flatMap_cons, same]
      exact ih m

end Longfellow.Mdoc
