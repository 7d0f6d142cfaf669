/-
**Decoding a byte** (`lib/circuits/cbor_parser_v2/cbor_byte_decoder.h`).

A byte is decoded as if it were the initial byte of a token: its type, its argument, and the length
of the token as far as the byte alone says it.

* `decodeOneV8_spec` — **the decoder computes the table of initial bytes**.
-/

import Longfellow.CborV2.Counter
import Longfellow.CborV2.Item

set_option linter.unusedSectionVars false

namespace Longfellow.CborV2

open CircuitField

variable {E : Type} [CircuitField E] [DecidableEq E]

structure Decode (E : Type) where
  atomp : BitW E
  itemsp : BitW E
  stringp : BitW E
  arrayp : BitW E
  mapp : BitW E
  tagp : BitW E
  specialp : BitW E
  simpleSpecialp : BitW E
  count0_23 : BitW E
  count24_27 : BitW E
  count24 : BitW E
  count25 : BitW E
  count26 : BitW E
  count27 : BitW E
  lengthPlusNextV8 : BitW E
  countIsNextV8 : BitW E
  invalid : BitW E
  length : CEltW E
  asScalar : E
  asCounter : CEltW E
  countAsCounter : CEltW E
  asBits : ℕ → BitW E

open Logic in
/-- What a byte says as the start of a token, and the assertion that its bits are bits. -/
def decodeOneV8 (v : ℕ → BitW E) : Decode E × Assertions :=
  let count := slice 0 v
  let type := slice 5 v
  let atomp := veqmask 3 type 0b110 0b000
  let stringp := veqmask 3 type 0b110 0b010
  let itemsp := veqmask 3 type 0b110 0b100
  let specialp := veq 3 type 7
  let tagp := veq 3 type 6
  let arrayp := land itemsp (lnot (type 0))
  let mapp := land itemsp (type 0)
  let count0_23 := lnot (veqmask 5 count 0b11000 0b11000)
  let count24_27 := veqmask 5 count 0b11100 0b11000
  let count24 := veq 5 count 24
  let count25 := veq 5 count 25
  let count26 := veq 5 count 26
  let count27 := veq 5 count 27
  let count20_23 := veqmask 5 count 0b11100 0b10100
  let simpleSpecialp := land specialp count20_23
  let lengthPlusNextV8 := veqmask 8 v 0b11011111 0b01011000
  let countIsNextV8 := veqmask 8 v 0b11011111 0b10011000
  let count0_24 := lorExclusive count24 count0_23
  let atomOrTag := lorExclusive atomp tagp
  -- One argument of up to a byte fits all types; longer ones are for numbers and tags.
  let goodCount := lor count0_24 (land atomOrTag count24_27)
  let invalidSpecial := land specialp (lnot simpleSpecialp)
  let invalid := lor invalidSpecial (lnot goodCount)
  let countAsCounter := Counter.asCounterBits 5 count
  let l1 := Counter.asCounter (1 + 1)
  let l2 := Counter.asCounter (1 + 2)
  let l4 := Counter.asCounter (1 + 4)
  let l8 := Counter.asCounter (1 + 8)
  let l24_25 := Counter.mux (count 0) l2 l1
  let l26_27 := Counter.mux (count 0) l8 l4
  let l24_27 := Counter.mux (count 1) l26_27 l24_25
  let x1 := Counter.asCounter 1
  let length := Counter.mux count0_23 x1 l24_27
  let str_23 := land stringp count0_23
  let adjustIfString := Counter.ite0 str_23 countAsCounter
  let length := Counter.add length adjustIfString
  ({ atomp, itemsp, stringp, arrayp, mapp, tagp, specialp, simpleSpecialp, count0_23, count24_27,
     count24, count25, count26, count27, lengthPlusNextV8, countIsNextV8, invalid, length,
     asScalar := Logic.asScalar 8 v, asCounter := Counter.asCounterBits 8 v, countAsCounter,
     asBits := v }, vassertIsBit 8 v)

/-! ### The table -/

/-- The length of a token as far as its initial byte says it. -/
def headLength (b : UInt8) : ℕ :=
  if info b < 24 then 1 + if isString b then info b else 0
  else match info b % 4 with
    | 0 => 2
    | 1 => 3
    | 2 => 5
    | _ => 9

/-- A string whose length is in the next byte. -/
def lengthIsNext (b : UInt8) : Bool := isString b && info b = 24

/-- An array or a map whose count is in the next byte. -/
def countIsNext (b : UInt8) : Bool := isItems b && info b = 24

theorem headLength_eq {b : UInt8} (known : supported b = true) (next : UInt8) :
    tailLength b next + 1 = headLength b + if lengthIsNext b then next.toNat else 0 := by
  have bound := info_le_of_supported known
  unfold tailLength headLength lengthIsNext argument
  by_cases small : info b < 24
  · rw [argumentLength_of_small small, if_pos small, if_pos small]
    have none : (isString b && decide (info b = 24)) = false := by
      rw [decide_eq_false (by omega), Bool.and_false]
    rw [none, if_neg Bool.false_ne_true]
    omega
  · rw [if_neg small, if_neg small]
    cases string : isString b with
    | false =>
      rw [if_neg Bool.false_ne_true, Bool.false_and, if_neg Bool.false_ne_true]
      obtain same | same | same | same : info b = 24 ∨ info b = 25 ∨ info b = 26 ∨ info b = 27 := by
        omega
      all_goals rw [same]; rfl
    | true =>
      have same : info b = 24 := by
        unfold supported at known
        unfold isString at string
        simp only [Bool.or_eq_true, decide_eq_true_eq] at string
        rcases string with type | type <;> rw [type] at known <;> simp at known <;> omega
      rw [same, if_pos rfl, Bool.true_and, decide_eq_true rfl, if_pos rfl]
      show 1 + _ + 1 = 2 + _
      omega

theorem argument_eq (b next : UInt8) (short : info b ≤ 24) :
    argument b next = if info b = 24 then next.toNat else info b := by
  unfold argument
  by_cases same : info b = 24
  · rw [if_neg (by omega), if_pos same]
  · rw [if_pos (by omega), if_neg same]

/-- What the wires of a decoded byte stand for. -/
structure Decoded (s : Decode E) (b : UInt8) : Prop where
  itemsp : s.itemsp.Encodes (isItems b)
  arrayp : s.arrayp.Encodes (isItems b && !isMap b)
  mapp : s.mapp.Encodes (isMap b)
  tagp : s.tagp.Encodes (isTag b)
  lengthPlusNextV8 : s.lengthPlusNextV8.Encodes (lengthIsNext b)
  countIsNextV8 : s.countIsNextV8.Encodes (countIsNext b)
  invalid : s.invalid.Encodes (!supported b)
  length : s.length = counter (headLength b)
  asCounter : s.asCounter = counter b.toNat
  countAsCounter : s.countAsCounter = counter (info b)

theorem type_table : ∀ m : ℕ, m < 8 →
    (m &&& 0b110 = 0b000 &&& 0b110 ↔ m < 2) ∧ (m &&& 0b110 = 0b010 &&& 0b110 ↔ m = 2 ∨ m = 3) ∧
      (m &&& 0b110 = 0b100 &&& 0b110 ↔ m = 4 ∨ m = 5) := by
  decide

theorem count_table : ∀ c : ℕ, c < 32 →
    (c &&& 0b11000 = 0b11000 &&& 0b11000 ↔ 24 ≤ c) ∧
      (c &&& 0b11100 = 0b11000 &&& 0b11100 ↔ 24 ≤ c ∧ c ≤ 27) ∧
      (c &&& 0b11100 = 0b10100 &&& 0b11100 ↔ 20 ≤ c ∧ c ≤ 23) := by
  decide

theorem byte_table : ∀ x : ℕ, x < 256 →
    (x &&& 0b11011111 = 0b01011000 &&& 0b11011111 ↔ (x / 32 = 2 ∨ x / 32 = 3) ∧ x % 32 = 24) ∧
      (x &&& 0b11011111 = 0b10011000 &&& 0b11011111 ↔ (x / 32 = 4 ∨ x / 32 = 5) ∧ x % 32 = 24) := by
  decide +kernel

section Byte

open Logic

variable {v : ℕ → BitW E} {b : UInt8}

theorem holds_type (holds : Holds 8 v b.toNat) : Holds 3 (slice 5 v) (major b) :=
  holds_slice holds (by norm_num)

theorem holds_count (holds : Holds 8 v b.toNat) : Holds 5 (slice 0 v) (info b) := by
  intro i below
  have bit := (holds_slice holds (by norm_num) : Holds 5 (slice 0 v) (b.toNat / 2 ^ 0)) i below
  rw [pow_zero, Nat.div_one] at bit
  unfold info
  rwa [show 32 = 2 ^ 5 by norm_num, Nat.testBit_mod_two_pow, decide_eq_true below, Bool.true_and]

theorem major_lt (b : UInt8) : major b < 8 := by
  have := b.toNat_lt
  unfold major
  omega

theorem info_lt (b : UInt8) : info b < 32 := Nat.mod_lt _ (by norm_num)

theorem supported_eq (b : UInt8) : supported b =
    !((decide (major b = 7) && !(decide (major b = 7) && decide (20 ≤ info b ∧ info b ≤ 23))) ||
      !(decide (info b = 24) || !decide (24 ≤ info b) ||
        (decide (major b < 2) || decide (major b = 6)) && decide (24 ≤ info b ∧ info b ≤ 27))) := by
  -- A table of all kinds and all arguments.
  unfold supported
  have small := info_lt b
  generalize info b = c at small ⊢
  revert c
  have kind := major_lt b
  generalize major b = m at kind ⊢
  revert m
  decide +kernel

variable (holds : Holds 8 v b.toNat)
include holds

theorem atomp_encodes :
    (veqmask 3 (slice 5 v) 0b110 0b000).Encodes (decide (major b < 2)) :=
  (veqmask_encodes (holds_type holds) (major_lt b) 0b110 (by norm_num)).of_iff
    (type_table (major b) (major_lt b)).1

theorem stringp_encodes :
    (veqmask 3 (slice 5 v) 0b110 0b010).Encodes (isString b) := by
  refine ((veqmask_encodes (holds_type holds) (major_lt b) 0b110 (by norm_num)).of_iff
    (type_table (major b) (major_lt b)).2.1).congr ?_
  rw [Bool.decide_or]
  rfl

theorem itemsp_encodes :
    (veqmask 3 (slice 5 v) 0b110 0b100).Encodes (isItems b) := by
  refine ((veqmask_encodes (holds_type holds) (major_lt b) 0b110 (by norm_num)).of_iff
    (type_table (major b) (major_lt b)).2.2).congr ?_
  rw [Bool.decide_or]
  rfl

theorem odd_encodes :
    (slice 5 v 0).Encodes (decide (major b % 2 = 1)) := by
  have bit := holds_type holds 0 (by norm_num)
  rwa [Nat.testBit_zero] at bit

theorem large_encodes :
    (veqmask 5 (slice 0 v) 0b11000 0b11000).Encodes (decide (24 ≤ info b)) :=
  (veqmask_encodes (holds_count holds) (info_lt b) 0b11000 (by norm_num)).of_iff
    (count_table (info b) (info_lt b)).1

theorem count24_27_encodes :
    (veqmask 5 (slice 0 v) 0b11100 0b11000).Encodes (decide (24 ≤ info b ∧ info b ≤ 27)) :=
  (veqmask_encodes (holds_count holds) (info_lt b) 0b11100 (by norm_num)).of_iff
    (count_table (info b) (info_lt b)).2.1

theorem count20_23_encodes :
    (veqmask 5 (slice 0 v) 0b11100 0b10100).Encodes (decide (20 ≤ info b ∧ info b ≤ 23)) :=
  (veqmask_encodes (holds_count holds) (info_lt b) 0b11100 (by norm_num)).of_iff
    (count_table (info b) (info_lt b)).2.2

theorem lengthIsNext_encodes :
    (veqmask 8 v 0b11011111 0b01011000).Encodes (lengthIsNext b) := by
  refine ((veqmask_encodes holds b.toNat_lt 0b11011111 (by norm_num)).of_iff
    (byte_table b.toNat b.toNat_lt).1).congr ?_
  rw [Bool.decide_and, Bool.decide_or]
  rfl

theorem countIsNext_encodes :
    (veqmask 8 v 0b11011111 0b10011000).Encodes (countIsNext b) := by
  refine ((veqmask_encodes holds b.toNat_lt 0b11011111 (by norm_num)).of_iff
    (byte_table b.toNat b.toNat_lt).2).congr ?_
  rw [Bool.decide_and, Bool.decide_or]
  rfl

theorem invalid_encodes :
    (decodeOneV8 v).1.invalid.Encodes (!supported b) := by
  have specialp := veq_encodes (holds_type holds) (major_lt b) (show 7 < 2 ^ 3 by norm_num)
  have tagp := veq_encodes (holds_type holds) (major_lt b) (show 6 < 2 ^ 3 by norm_num)
  have count24 := veq_encodes (holds_count holds) (info_lt b) (show 24 < 2 ^ 5 by norm_num)
  have simple := specialp.land (specialp.land (count20_23_encodes holds)).lnot
  have short := count24.lorExclusive (large_encodes holds).lnot (by
    by_cases same : info b = 24 <;> simp [same])
  have number := (atomp_encodes holds).lorExclusive tagp (by
    by_cases same : major b = 6 <;> simp [same])
  refine (simple.lor (short.lor (number.land (count24_27_encodes holds))).lnot).congr ?_
  rw [supported_eq, Bool.not_not]

theorem mapp_encodes : (decodeOneV8 v).1.mapp.Encodes (isMap b) := by
  refine ((itemsp_encodes holds).land (odd_encodes holds)).congr ?_
  rw [Bool.eq_iff_iff]
  simp only [isItems, isMap, Bool.and_eq_true, Bool.or_eq_true, decide_eq_true_eq]
  omega

theorem arrayp_encodes :
    (decodeOneV8 v).1.arrayp.Encodes (isItems b && !isMap b) := by
  refine ((itemsp_encodes holds).land (odd_encodes holds).lnot).congr ?_
  rw [Bool.eq_iff_iff]
  simp only [isItems, isMap, Bool.and_eq_true, Bool.or_eq_true, Bool.not_eq_true',
    decide_eq_true_eq, decide_eq_false_iff_not]
  omega

theorem countAsCounter_eq :
    (decodeOneV8 v).1.countAsCounter = counter (info b) :=
  asCounterBits_eq (holds_count holds) (info_lt b)

theorem length_eq :
    (decodeOneV8 v).1.length = counter (headLength b) := by
  have small := (large_encodes holds).lnot
  have low := holds_count holds 0 (by norm_num)
  have high := holds_count holds 1 (by norm_num)
  show Counter.add (Counter.mux _ (Counter.asCounter 1) (Counter.mux (slice 0 v 1)
    (Counter.mux (slice 0 v 0) (Counter.asCounter 9) (Counter.asCounter 5))
    (Counter.mux (slice 0 v 0) (Counter.asCounter 3) (Counter.asCounter 2))))
    (Counter.ite0 _ (decodeOneV8 v).1.countAsCounter) = _
  rw [mux_eq' small, mux_eq' high, mux_eq' low, mux_eq' low,
    ite0_eq ((stringp_encodes holds).land small), countAsCounter_eq holds]
  simp only [asCounter_of_byte (E := E) (show 1 < 256 by norm_num),
    asCounter_of_byte (E := E) (show 2 < 256 by norm_num),
    asCounter_of_byte (E := E) (show 3 < 256 by norm_num),
    asCounter_of_byte (E := E) (show 5 < 256 by norm_num),
    asCounter_of_byte (E := E) (show 9 < 256 by norm_num)]
  unfold headLength
  by_cases short : info b < 24
  · rw [if_pos short]
    have isSmall : (!decide (24 ≤ info b)) = true := by simpa using short
    rw [if_pos isSmall, isSmall, Bool.and_true]
    cases isString b with
    | true =>
      rw [if_pos rfl, if_pos rfl, add_counter]
      push_cast
      rfl
    | false =>
      rw [if_neg Bool.false_ne_true, if_neg Bool.false_ne_true, add_counter]
      push_cast
      rfl
  · rw [if_neg short]
    have isLarge : (!decide (24 ≤ info b)) = false := by simpa using Nat.le_of_not_lt short
    rw [isLarge, Bool.and_false, if_neg Bool.false_ne_true, if_neg Bool.false_ne_true, cadd_zero,
      Nat.testBit_zero, Nat.testBit_succ, Nat.testBit_zero]
    -- The lowest two bits of the argument select the length.
    obtain rest | rest | rest | rest : info b % 4 = 0 ∨ info b % 4 = 1 ∨ info b % 4 = 2 ∨
        info b % 4 = 3 := by omega
    · rw [rest, decide_eq_false (by omega), decide_eq_false (by omega)]
      rfl
    · rw [rest, decide_eq_false (by omega), decide_eq_true (by omega)]
      rfl
    · rw [rest, decide_eq_true (by omega), decide_eq_false (by omega)]
      rfl
    · rw [rest, decide_eq_true (by omega), decide_eq_true (by omega)]
      rfl

/-- **The decoder computes the table of initial bytes.** -/
theorem decodeOneV8_spec : Decoded (decodeOneV8 v).1 b where
  itemsp := itemsp_encodes holds
  arrayp := arrayp_encodes holds
  mapp := mapp_encodes holds
  tagp := veq_encodes (holds_type holds) (major_lt b) (by norm_num)
  lengthPlusNextV8 := lengthIsNext_encodes holds
  countIsNextV8 := countIsNext_encodes holds
  invalid := invalid_encodes holds
  length := length_eq holds
  asCounter := asCounterBits_eq holds b.toNat_lt
  countAsCounter := countAsCounter_eq holds

end Byte

end Longfellow.CborV2
