/-
**Variable-length numbers of at most four bytes** (`core/proto/src/uleb.rs`), and the zigzag
encoding of wrapped differences on top of them.

* `reads_uleb` — the reader returns every number of 28 bits that the writer wrote;
* `readUleb128Max4_eq_ok`, `safeReader_uleb` — what it accepts, on any bytes, and that it does not
  panic;
* `reads_uleb128`, `safeReader_uleb128` — the same for sizes, which may take eight bytes.
-/

import Longfellow.Lib.Safe
import Longfellow.Proto.Util

namespace Longfellow

open Lib

variable {ε : Type}

/-- The bytes of a number, seven bits each, with a continuation bit on all but the last; `room`
bytes are left. -/
def ulebBytes : Nat → Nat → Bytes
  | 0, _ => []
  | room + 1, val =>
    if val / 128 = 0 then [UInt8.ofNat (val % 128)]
    else UInt8.ofNat (val % 128 + 128) :: ulebBytes room (val / 128)

/-- Write a number of at most 28 bits. -/
def serializeUleb128Max4 (val : Nat) : Exec ε Bytes := do
  ensure (val ≤ 0x0FFFFFFF) s!"ULEB128 max 4 bytes limit exceeded: val {val} > 0x0FFF_FFFF"
  pure (ulebBytes 4 val)

/-- The reader's path for a number that lies in the buffer. -/
def readUlebBuffered : Bytes → Option (Nat × Bytes)
  | b0 :: rest =>
    if b0.toNat < 0x80 then some (b0.toNat, rest)
    else match rest with
      | b1 :: rest =>
        if b1.toNat < 0x80 then some (b0.toNat % 128 + b1.toNat * 2 ^ 7, rest)
        else match rest with
          | b2 :: rest =>
            if b2.toNat < 0x80 then
              some (b0.toNat % 128 + b1.toNat % 128 * 2 ^ 7 + b2.toNat * 2 ^ 14, rest)
            else match rest with
              | b3 :: rest =>
                if b3.toNat < 0x80 then
                  some (b0.toNat % 128 + b1.toNat % 128 * 2 ^ 7 + b2.toNat % 128 * 2 ^ 14 +
                    b3.toNat * 2 ^ 21, rest)
                else none
              | [] => none
          | [] => none
      | [] => none
  | [] => none

/-- The reader's path byte by byte: `turns` bytes are left, `shift` bits have been read. -/
def readUlebBytes : Nat → Nat → Nat → Reader String Nat
  | 0, _, _ => liftM (raise "ULEB128 value exceeded 4 bytes (max 28 bits payload)" :
      Exec String Nat)
  | turns + 1, shift, result => do
    let chunk ← takeBytes 1 "Failed to read ULEB128 byte: failed to fill whole buffer"
    let byte := leValue chunk
    let result := result + byte % 128 * 2 ^ shift
    if byte < 128 then do
      demand (result ≤ 0x0FFFFFFF) s!"ULEB128 value {result} exceeds max 28 bits payload"
      pure result
    else readUlebBytes turns (shift + 7) result

/-- Read a number of at most 28 bits. -/
def readUleb128Max4 : Reader String Nat := fun bytes =>
  match readUlebBuffered bytes with
  | some (val, rest) =>
    if val > 0x0FFFFFFF then raise s!"ULEB128 value {val} exceeds max 28 bits payload"
    else pure (val, rest)
  | none => (readUlebBytes 4 0 0).run bytes

variable {val : Nat} {bytes : Bytes}

theorem serializeUleb128Max4_eq_ok :
    (serializeUleb128Max4 val : Exec ε Bytes) = .ok bytes ↔
      val < 2 ^ 28 ∧ bytes = ulebBytes 4 val := by
  rw [serializeUleb128Max4, bind_eq_ok]
  simp only [ensure_eq_ok, pure_eq_ok, Except.ok.injEq]
  constructor
  · rintro ⟨_, fits, rfl⟩
    exact ⟨by omega, rfl⟩
  · rintro ⟨fits, rfl⟩
    exact ⟨(), by omega, rfl⟩

theorem readUlebBuffered_ulebBytes (fits : val < 2 ^ 28) (rest : Bytes) :
    readUlebBuffered (ulebBytes 4 val ++ rest) = some (val, rest) := by
  have last : ∀ {n : Nat}, n < 128 → (UInt8.ofNat (n % 128)).toNat = n := fun bound => by
    rw [UInt8.toNat_ofNat']
    omega
  have more : ∀ n : Nat, (UInt8.ofNat (n % 128 + 128)).toNat = n % 128 + 128 := fun n => by
    rw [UInt8.toNat_ofNat']
    omega
  have continues : ∀ n : Nat, ¬ n % 128 + 128 < 128 := fun n => by omega
  have payload : ∀ n : Nat, (n % 128 + 128) % 128 = n % 128 := fun n => by omega
  simp only [ulebBytes]
  -- One case for each length of the encoding.
  by_cases one : val / 128 = 0
  · have small : val < 128 := by omega
    simp only [if_pos one, List.cons_append, List.nil_append, readUlebBuffered, last small,
      if_pos small]
  by_cases two : val / 128 / 128 = 0
  · have small : val / 128 < 128 := by omega
    simp only [if_neg one, if_pos two, List.cons_append, List.nil_append, readUlebBuffered, more,
      if_neg (continues _), last small, if_pos small, payload]
    congr 2
    omega
  by_cases three : val / 128 / 128 / 128 = 0
  · have small : val / 128 / 128 < 128 := by omega
    simp only [if_neg one, if_neg two, if_pos three, List.cons_append, List.nil_append,
      readUlebBuffered, more, if_neg (continues _), last small, if_pos small, payload]
    congr 2
    omega
  · have small : val / 128 / 128 / 128 < 128 := by omega
    have four : val / 128 / 128 / 128 / 128 = 0 := by omega
    simp only [if_neg one, if_neg two, if_neg three, if_pos four, List.cons_append,
      List.nil_append, readUlebBuffered, more, if_neg (continues _), last small, if_pos small,
      payload]
    congr 2
    omega

theorem reads_uleb (fits : val < 2 ^ 28) :
    Reads readUleb128Max4 (ulebBytes 4 val) val := fun rest => by
  show readUleb128Max4 (ulebBytes 4 val ++ rest) = _
  unfold readUleb128Max4
  rw [readUlebBuffered_ulebBytes fits]
  exact if_neg (by omega)

/-! ### What the reader accepts -/

/-- A code of at most `room` bytes, with a continuation bit on all but the last. -/
def UlebCode : Nat → Bytes → Prop
  | 0, _ => False
  | _ + 1, [] => False
  | room + 1, byte :: code => if byte.toNat < 0x80 then code = [] else UlebCode room code

/-- The number a code stands for; codes may end in zeros. -/
def ulebValue : Bytes → Nat
  | [] => 0
  | byte :: code => byte.toNat % 128 + 128 * ulebValue code

variable {code : Bytes}

theorem ulebValue_lt {room : Nat} (isCode : UlebCode room code) :
    ulebValue code < 128 ^ room := by
  induction room generalizing code with
  | zero => exact isCode.elim
  | succ room ih =>
    match code with
    | [] => exact isCode.elim
    | byte :: code =>
      have positive : 0 < 128 ^ room := Nat.pow_pos (by decide)
      rw [UlebCode] at isCode
      rw [ulebValue, pow_succ]
      split at isCode
      · rw [isCode, ulebValue]
        omega
      · have small := ih isCode
        omega

theorem ulebValue_eq_zero :
    ulebValue code = 0 ↔ ∀ byte ∈ code, byte.toNat % 128 = 0 := by
  induction code with
  | nil => simp [ulebValue]
  | cons byte code ih =>
    rw [ulebValue, List.forall_mem_cons, ← ih]
    omega

theorem readUlebBuffered_code (isCode : UlebCode 4 code) (rest : Bytes) :
    readUlebBuffered (code ++ rest) = some (ulebValue code, rest) := by
  match code with
  | b0 :: code0 =>
  rw [UlebCode] at isCode
  split at isCode
  · rename_i last
    subst isCode
    simp [readUlebBuffered, ulebValue, last]
    omega
  rename_i more0
  match code0 with
  | b1 :: code1 =>
  rw [UlebCode] at isCode
  split at isCode
  · rename_i last
    subst isCode
    simp [readUlebBuffered, ulebValue, last, more0]
    omega
  rename_i more1
  match code1 with
  | b2 :: code2 =>
  rw [UlebCode] at isCode
  split at isCode
  · rename_i last
    subst isCode
    simp [readUlebBuffered, ulebValue, last, more0, more1]
    omega
  rename_i more2
  match code2 with
  | b3 :: code3 =>
  rw [UlebCode] at isCode
  split at isCode
  · rename_i last
    subst isCode
    simp [readUlebBuffered, ulebValue, last, more0, more1, more2]
    omega
  · exact isCode.elim

variable {rest : Bytes}

theorem code_of_readUlebBuffered (found : readUlebBuffered bytes = some (val, rest)) :
    ∃ code, UlebCode 4 code ∧ bytes = code ++ rest := by
  match bytes with
  | [] => simp [readUlebBuffered] at found
  | b0 :: bytes0 =>
  by_cases last0 : b0.toNat < 0x80
  · obtain ⟨_, rfl⟩ : b0.toNat = val ∧ bytes0 = rest := by
      simpa [readUlebBuffered, last0] using found
    exact ⟨[b0], by simp [UlebCode, last0], rfl⟩
  match bytes0 with
  | [] => simp [readUlebBuffered, last0] at found
  | b1 :: bytes1 =>
  by_cases last1 : b1.toNat < 0x80
  · obtain ⟨_, rfl⟩ : _ = val ∧ bytes1 = rest := by
      simpa [readUlebBuffered, last0, last1] using found
    exact ⟨[b0, b1], by simp [UlebCode, last0, last1], rfl⟩
  match bytes1 with
  | [] => simp [readUlebBuffered, last0, last1] at found
  | b2 :: bytes2 =>
  by_cases last2 : b2.toNat < 0x80
  · obtain ⟨_, rfl⟩ : _ = val ∧ bytes2 = rest := by
      simpa [readUlebBuffered, last0, last1, last2] using found
    exact ⟨[b0, b1, b2], by simp [UlebCode, last0, last1, last2], rfl⟩
  match bytes2 with
  | [] => simp [readUlebBuffered, last0, last1, last2] at found
  | b3 :: bytes3 =>
  by_cases last3 : b3.toNat < 0x80
  · obtain ⟨_, rfl⟩ : _ = val ∧ bytes3 = rest := by
      simpa [readUlebBuffered, last0, last1, last2, last3] using found
    exact ⟨[b0, b1, b2, b3], by simp [UlebCode, last0, last1, last2, last3], rfl⟩
  · simp [readUlebBuffered, last0, last1, last2, last3] at found

theorem code_of_readUlebBytes {turns shift result : Nat}
    (ran : (readUlebBytes turns shift result).run bytes = .ok (val, rest)) :
    ∃ code, UlebCode turns code ∧ bytes = code ++ rest := by
  induction turns generalizing shift result bytes with
  | zero => exact absurd (reader_lift_eq_ok.mp ran).1 (raise_ne_ok _ _)
  | succ turns ih =>
    obtain ⟨chunk, middle, taken, next⟩ := reader_bind_eq_ok.mp ran
    obtain ⟨size, rfl⟩ := takeBytes_eq_ok.mp taken
    obtain ⟨byte, rfl⟩ := List.length_eq_one_iff.mp size
    have value : leValue [byte] = byte.toNat := by simp [leValue]
    simp only [value] at next
    split at next
    · rename_i last
      obtain ⟨_, _, demanded, next⟩ := reader_bind_eq_ok.mp next
      obtain ⟨_, rfl⟩ := reader_lift_eq_ok.mp demanded
      obtain ⟨_, rfl⟩ := reader_pure_eq_ok.mp next
      exact ⟨[byte], by simp [UlebCode, last], rfl⟩
    · rename_i more
      obtain ⟨code, isCode, rfl⟩ := ih next
      exact ⟨byte :: code, by simpa [UlebCode, more] using isCode, rfl⟩

/-- **The reader takes the codes of at most four bytes**, canonical or not. -/
theorem readUleb128Max4_eq_ok :
    readUleb128Max4.run bytes = .ok (val, rest) ↔
      ∃ code, UlebCode 4 code ∧ bytes = code ++ rest ∧ val = ulebValue code := by
  have reads : ∀ {code : Bytes}, UlebCode 4 code → ∀ rest,
      readUleb128Max4.run (code ++ rest) = .ok (ulebValue code, rest) := by
    intro code isCode rest
    have small := ulebValue_lt isCode
    show readUleb128Max4 (code ++ rest) = _
    unfold readUleb128Max4
    rw [readUlebBuffered_code isCode]
    exact if_neg (by omega)
  constructor
  · intro ran
    have split : ∃ code, UlebCode 4 code ∧ bytes = code ++ rest := by
      have ran' : readUleb128Max4 bytes = .ok (val, rest) := ran
      unfold readUleb128Max4 at ran'
      split at ran'
      · rename_i val' rest' found
        split at ran'
        · exact absurd ran' (raise_ne_ok _ _)
        · obtain ⟨rfl, rfl⟩ := Prod.mk.inj (Except.ok.inj ran')
          exact code_of_readUlebBuffered found
      · exact code_of_readUlebBytes ran'
    obtain ⟨code, isCode, rfl⟩ := split
    have value := (reads isCode rest).symm.trans ran
    exact ⟨code, isCode, rfl, (Prod.mk.inj (Except.ok.inj value)).1.symm⟩
  · rintro ⟨code, isCode, rfl, rfl⟩
    exact reads isCode rest

theorem safeReader_uleb : SafeReader readUleb128Max4 fun _ => True := by
  have bytewise : ∀ turns shift result,
      SafeReader (readUlebBytes turns shift result) fun _ => True := by
    intro turns
    induction turns with
    | zero => exact fun shift result => safeReader_lift (safe_raise _ _)
    | succ turns ih =>
      intro shift result
      refine (safeReader_takeBytes 1 _).bind fun chunk _ => ?_
      simp only
      split
      · exact (safeReader_demand _ _).bind fun _ _ => safeReader_pure trivial
      · exact ih _ _
  intro bytes
  show Safe (readUleb128Max4 bytes) _
  unfold readUleb128Max4
  split
  · split
    · exact safe_raise _ _
    · exact safe_pure trivial
  · exact bytewise 4 0 0 bytes

/-! ### Sizes -/

/-- Write a size, in as many bytes as it takes; a size has 64 bits. -/
def serializeUleb128 (val : Nat) : Bytes := ulebBytes 10 val

/-- The reader of a size, byte by byte: `turns` bytes are left, `shift` bits have been read. -/
def readUleb128From : Nat → Nat → Nat → Reader String Nat
  | 0, _, _ => liftM (raise "ULEB128 value too large" : Exec String Nat)
  | turns + 1, shift, val => do
    let b ← takeBytes 1 "Unexpected EOF reading ULEB128"
    let byte := leValue b
    let val := val + byte % 128 * 2 ^ shift
    if byte < 128 then pure val else readUleb128From turns (shift + 7) val

/-- Read a size of at most eight bytes. -/
def readUleb128 : Reader String Nat := readUleb128From 8 0 0

theorem reads_uleb128From {turns room : Nat} (some : 0 < turns) (fits : turns ≤ room)
    (shift val : Nat) {n : Nat} (small : n < 128 ^ turns) :
    Reads (readUleb128From turns shift val) (ulebBytes room n) (val + n * 2 ^ shift) := by
  induction turns generalizing room shift val n with
  | zero => exact absurd some (Nat.lt_irrefl 0)
  | succ turns ih =>
    obtain ⟨room, rfl⟩ : ∃ left, room = left + 1 := ⟨room - 1, by omega⟩
    rw [ulebBytes, readUleb128From]
    by_cases last : n / 128 = 0
    · rw [if_pos last]
      have byte : leValue [UInt8.ofNat (n % 128)] = n := by
        simp only [leValue, UInt8.toNat_ofNat']
        omega
      have taken : Reads (takeBytes 1 "Unexpected EOF reading ULEB128")
          [UInt8.ofNat (n % 128)] _ := reads_takeBytes rfl
      refine taken.checked ?_
      simp only [byte]
      rw [if_pos (by omega), Nat.mod_eq_of_lt (by omega)]
      exact Reads.pure _
    · rw [if_neg last]
      have byte : leValue [UInt8.ofNat (n % 128 + 128)] = n % 128 + 128 := by
        simp only [leValue, UInt8.toNat_ofNat']
        omega
      have smaller : n / 128 < 128 ^ turns := by
        rw [pow_succ] at small
        omega
      have more : 0 < turns := by
        apply Nat.pos_of_ne_zero
        rintro rfl
        rw [pow_zero] at smaller
        omega
      have tail := ih more (Nat.le_of_succ_le_succ fits) (shift + 7)
        (val + n % 128 * 2 ^ shift) smaller
      have total : val + n % 128 * 2 ^ shift + n / 128 * 2 ^ (shift + 7) = val + n * 2 ^ shift := by
        have split := Nat.mod_add_div n 128
        calc _ = val + (n % 128 + 128 * (n / 128)) * 2 ^ shift := by rw [pow_add]; ring
          _ = _ := by rw [split]
      rw [total] at tail
      have taken : Reads (takeBytes 1 "Unexpected EOF reading ULEB128")
          [UInt8.ofNat (n % 128 + 128)] _ := reads_takeBytes rfl
      refine taken.bind ?_
      simp only [byte]
      rw [if_neg (by omega), Nat.add_mod_right, Nat.mod_mod]
      exact tail

/-- **A size of at most 56 bits is read back.** -/
theorem reads_uleb128 {n : Nat} (small : n < 2 ^ 56) :
    Reads readUleb128 (serializeUleb128 n) n := by
  have read := reads_uleb128From (show 0 < 8 by decide) (show 8 ≤ 10 by decide) 0 0 (n := n)
    (by simpa using small)
  rwa [Nat.zero_add, pow_zero, Nat.mul_one] at read

theorem safeReader_uleb128From (turns shift val : Nat) :
    SafeReader (readUleb128From turns shift val) fun n =>
      n + 2 ^ shift ≤ val + 128 ^ turns * 2 ^ shift := by
  induction turns generalizing shift val with
  | zero => exact safeReader_lift (safe_raise _ _)
  | succ turns ih =>
    refine (safeReader_takeBytes 1 _).bind fun b _ => ?_
    have low : (leValue b % 128 + 1) * 2 ^ shift ≤ 128 * 2 ^ shift :=
      Nat.mul_le_mul_right _ (Nat.mod_lt _ (by decide))
    rw [Nat.add_mul, Nat.one_mul] at low
    have positive : 0 < 128 ^ turns := Nat.pow_pos (by decide)
    simp only
    split
    · refine safeReader_pure ?_
      have room : 128 * 2 ^ shift ≤ 128 ^ (turns + 1) * 2 ^ shift := by
        apply Nat.mul_le_mul_right
        rw [pow_succ]
        omega
      omega
    · refine (ih (shift + 7) _).mono fun n bound => ?_
      have next : 2 ^ (shift + 7) = 128 * 2 ^ shift := by
        rw [pow_add, Nat.mul_comm]
        rfl
      have split : 128 ^ (turns + 1) * 2 ^ shift = 128 ^ turns * 2 ^ (shift + 7) := by
        rw [next, pow_succ, Nat.mul_assoc]
      rw [split]
      omega

theorem safeReader_uleb128 : SafeReader readUleb128 (· < 2 ^ 56) := by
  refine (safeReader_uleb128From 8 0 0).mono fun n bound => ?_
  have exact : 128 ^ 8 * 2 ^ 0 = 2 ^ 56 := by norm_num
  omega

/-! ### Signed differences -/

/-- A difference modulo `2^32` with its sign in the lowest bit. The second operand is the
arithmetic shift of the difference by 31. -/
def zigzagEncodeDelta (delta : UInt32) : UInt32 :=
  (delta <<< 1) ^^^ (if delta < 0x80000000 then 0 else 0xFFFFFFFF)

/-- The difference a zigzag code stands for. -/
def decodeZigzag (val : UInt32) : UInt32 := (val >>> 1) ^^^ (0 - (val &&& 1))

theorem decodeZigzag_eq (val : UInt32) :
    decodeZigzag val = if val.toNat % 2 = 0 then val >>> 1 else ~~~ (val >>> 1) := by
  have low : (val &&& 1).toNat = val.toNat % 2 := by
    rw [UInt32.toNat_and]
    exact Nat.and_one_is_mod _
  unfold decodeZigzag
  split
  · rename_i even
    have zero : val &&& 1 = 0 := UInt32.toNat_inj.mp (low.trans even)
    rw [zero]
    exact UInt32.xor_zero
  · rename_i odd
    have one : val &&& 1 = 1 := UInt32.toNat_inj.mp (low.trans (by simp; omega))
    rw [one]
    exact UInt32.xor_neg_one

/-- **Zigzag codes are inverted by their decoder**, also for differences that wrap around. -/
theorem decodeZigzag_zigzagEncodeDelta (delta : UInt32) :
    decodeZigzag (zigzagEncodeDelta delta) = delta := by
  have bound := delta.toNat_lt
  have doubled : (delta <<< 1).toNat = 2 * delta.toNat % 2 ^ 32 := by
    rw [UInt32.toNat_shiftLeft]
    simp [Nat.shiftLeft_eq, Nat.mul_comm]
  have halved : ∀ val : UInt32, (val >>> 1).toNat = val.toNat / 2 := fun val => by
    rw [UInt32.toNat_shiftRight]
    simp [Nat.shiftRight_eq_div_pow]
  rw [decodeZigzag_eq]
  apply UInt32.toNat_inj.mp
  unfold zigzagEncodeDelta
  by_cases positive : delta < 0x80000000
  · have small : delta.toNat < 2 ^ 31 := positive
    have code : ((delta <<< 1) ^^^ (0 : UInt32)).toNat = 2 * delta.toNat := by
      rw [UInt32.xor_zero, doubled]
      omega
    rw [if_pos positive, code, if_pos (by omega), halved, code]
    omega
  · have large : 2 ^ 31 ≤ delta.toNat := Nat.le_of_not_lt positive
    have code : ((delta <<< 1) ^^^ (0xFFFFFFFF : UInt32)).toNat = 2 ^ 33 - 1 - 2 * delta.toNat := by
      have ones : (delta <<< 1) ^^^ (0xFFFFFFFF : UInt32) = ~~~ (delta <<< 1) :=
        UInt32.xor_neg_one
      rw [ones, UInt32.toNat_not, doubled]
      simp only [UInt32.size]
      omega
    rw [if_neg positive, code, if_neg (by omega), UInt32.toNat_not, halved, code]
    simp only [UInt32.size]
    omega

end Longfellow
