/-
**Message authentication codes** (`circuits/mac/src/concrete.rs`, `circuits/mac/src/circuit.rs`,
`circuits/mac/src/evaluate.rs`, `circuits/mac_gf128/src/circuit.rs`).

A tag of a message of two halves is `av * half + ap` for each half, in the field of `2^128`
elements. The tag is computed on words, asserted over a field of any kind on bits, and asserted
over the field itself on elements.

* `Mac.assertMac_returns`, `MacGf128.assertMac_returns` — **each circuit accepts the computed tag
  and no other**.
-/

import Longfellow.Gadget.Gf2128Mul

set_option linter.unusedSectionVars false

namespace Longfellow.Gadget

open Lib CompileField Polynomial

/-! ### The computation -/

namespace Mac.Concrete

/-- One bit of the second factor, from the highest one on. -/
def mulStep (x : BitVec 128) (s : BitVec 128 × BitVec 128) : BitVec 128 × BitVec 128 :=
  let (a, yShift) := s
  let msb := a &&& 1#128 <<< 127 ≠ 0#128
  let a := a <<< 1
  let a := if msb then a ^^^ 0x87#128 else a
  let a := if yShift &&& 1#128 <<< 127 ≠ 0#128 then a ^^^ x else a
  (a, yShift <<< 1)

def gf2128Mul (x y : BitVec 128) : BitVec 128 := ((mulStep x)^[128] (0#128, y)).1

def computeMac (macAv macAp msg : BitVec 128) : BitVec 128 := gf2128Mul macAv msg ^^^ macAp

/-- The word of some bytes, the lowest one first. -/
def fromLeBytes (bytes : List (BitVec 8)) : BitVec 128 :=
  bytes.foldr (fun b acc => acc <<< 8 ||| b.setWidth 128) 0#128

/-- The tag of a message. -/
def computeTag (message : Vector (BitVec 8) 32) (macAv : BitVec 128)
    (macAp : BitVec 128 × BitVec 128) : BitVec 128 × BitVec 128 :=
  let msg0 := fromLeBytes (message.toList.take 16)
  let msg1 := fromLeBytes (message.toList.drop 16)
  (computeMac macAv macAp.1 msg0, computeMac macAv macAp.2 msg1)

end Mac.Concrete

/-! ### The circuit over bits -/

variable {E : Type} [CompileField E] [DecidableEq E] {message : Vector (BitVec 8) 32}

namespace Mac

structure Given (E : Type) [CompileField E] where
  message : Bitvec E 256
  macAv : V128 E
  macAp : V128 E × V128 E
  tag : V128 E × V128 E

/-- Assert that the tag is the tag of the message: `tag ^ ap = av * half` for both halves. -/
def assertMac (given : Given E) : Exec String Assertions := do
  let (msg0, msg1) ← Bitvec.split 128 128 given.message
  let eq0 ← Bitvec.assertEq "msg0_eq" (← Bitvec.xorb given.tag.1 given.macAp.1)
    (← Gf2128Mul.mul given.macAv msg0)
  let eq1 ← Bitvec.assertEq "msg1_eq" (← Bitvec.xorb given.tag.2 given.macAp.2)
    (← Gf2128Mul.mul given.macAv msg1)
  return Logic.assertAll "assert_mac" [eq0, eq1]

end Mac

/-! ### The circuit over the field -/

namespace MacGf128

structure Given (E : Type) [CompileField E] where
  message : Bitvec E 256
  macAv : Wire E
  macAp : Wire E × Wire E
  tag : Wire E × Wire E

/-- Assert that the tag is the tag of the message: `tag + ap = av * half` for both halves. -/
def assertMac (given : Given E) : Exec String Assertions := do
  let (msg0, msg1) ← Bitvec.split 128 128 given.message
  let msg0Elt ← Bitvec.asEltwField msg0
  let msg1Elt ← Bitvec.asEltwField msg1
  return Logic.assertAll "assert_mac" [
    Logic.assertEq "msg0_eq" (Logic.add given.tag.1 given.macAp.1)
      (Logic.mul given.macAv msg0Elt),
    Logic.assertEq "msg1_eq" (Logic.add given.tag.2 given.macAp.2)
      (Logic.mul given.macAv msg1Elt)]

end MacGf128

/-! ### The product -/

namespace Mac.Concrete

open Gf2128

theorem and_top (a : BitVec 128) : a &&& 1#128 <<< 127 ≠ 0#128 ↔ a.getLsbD 127 = true := by
  have masked := BitVec.and_twoPow a 127
  rw [show a &&& 1#128 <<< 127 = a &&& BitVec.twoPow 128 127 from rfl, masked]
  cases a.getLsbD 127
  · simp
  · simp only [if_true, iff_true]
    decide

theorem mulStep_spec (x a y : BitVec 128) :
    (mulStep x (a, y)).2 = y <<< 1 ∧ value (mulStep x (a, y)).1 =
      classOf X * value a + if y.getLsbD 127 then value x else 0 := by
  refine ⟨rfl, ?_⟩
  have top : a >>> 127 &&& 1#128 ≠ 0#128 ↔ a &&& 1#128 <<< 127 ≠ 0#128 := by
    rw [and_top, and_one_ne_zero _ (by decide), BitVec.getLsbD_ushiftRight]
  have double := value_double a
  rw [if_congr top rfl rfl] at double
  rw [← double]
  dsimp only [mulStep]
  by_cases set : y.getLsbD 127 = true
  · rw [if_pos ((and_top y).mpr set), if_pos set, value_xor]
  · rw [if_neg (mt (and_top y).mp set), if_neg set, add_zero]

theorem value_next (y : BitVec 128) {k : ℕ} (more : k < 128) :
    value (y >>> (127 - k)) =
      classOf X * value (y >>> (128 - k)) + if (y <<< k).getLsbD 127 then 1 else 0 := by
  have split := congrArg classOf (toPoly_shiftRight_one (y >>> (127 - k)))
  rw [classOf_add, classOf_mul, value_bit, ← BitVec.shiftRight_add,
    show 127 - k + 1 = 128 - k by omega, BitVec.getLsbD_ushiftRight, Nat.add_zero] at split
  have bit : (y <<< k).getLsbD 127 = y.getLsbD (127 - k) := by
    rw [BitVec.getLsbD_shiftLeft]
    simp [Nat.not_lt_of_le (Nat.le_of_lt_succ more)]
  rw [bit, add_comm]
  exact split

/-- **The product from the highest bit on.** -/
theorem gf2128Mul_spec (x y : BitVec 128) : value (gf2128Mul x y) = value x * value y := by
  have run : ∀ k ≤ 128, ((mulStep x)^[k] (0#128, y)).2 = y <<< k ∧
      value ((mulStep x)^[k] (0#128, y)).1 = value x * value (y >>> (128 - k)) := by
    intro k
    induction k with
    | zero =>
      intro _
      rw [Function.iterate_zero_apply, BitVec.ushiftRight_eq_zero (le_refl 128), value_zero,
        mul_zero]
      exact ⟨(BitVec.shiftLeft_zero y).symm, rfl⟩
    | succ k ih =>
      intro bound
      obtain ⟨left, sum⟩ := ih (by omega)
      obtain ⟨next, step⟩ := mulStep_spec x ((mulStep x)^[k] (0#128, y)).1
        ((mulStep x)^[k] (0#128, y)).2
      rw [Function.iterate_succ_apply']
      refine ⟨next.trans (by rw [left, ← BitVec.shiftLeft_add]), step.trans ?_⟩
      rw [left, sum, show 128 - (k + 1) = 127 - k by omega, value_next y (by omega)]
      split
      · ring
      · ring
  have last := (run 128 (le_refl 128)).2
  rwa [Nat.sub_self, BitVec.ushiftRight_zero] at last

theorem gf2128Mul_eq (x y : BitVec 128) : gf2128Mul x y = Compile.mul x y :=
  value_injective ((gf2128Mul_spec x y).trans (shiftXor_spec x y).symm)

end Mac.Concrete

/-! ### The words of a message -/

namespace Mac.Concrete

/-- The bits of a message, byte by byte. -/
def messageBits (message : Vector (BitVec 8) 32) : List Bool := message.toList.flatMap bitsOf

theorem length_flatMap_bitsOf {w : ℕ} (bytes : List (BitVec w)) :
    (bytes.flatMap bitsOf).length = bytes.length * w := by
  induction bytes with
  | nil => simp
  | cons b bytes ih =>
    rw [List.flatMap_cons, List.length_append, length_bitsOf, ih, List.length_cons,
      Nat.succ_mul, Nat.add_comm]

theorem getLsbD_fromLeBytes (bytes : List (BitVec 8)) {k : ℕ} (inside : k < 128) :
    (fromLeBytes bytes).getLsbD k = (bytes.flatMap bitsOf).getD k false := by
  induction bytes generalizing k with
  | nil => simp [fromLeBytes]
  | cons b bytes ih =>
    rw [fromLeBytes, List.foldr_cons, ← fromLeBytes, List.flatMap_cons, BitVec.getLsbD_or,
      BitVec.getLsbD_shiftLeft, BitVec.getLsbD_setWidth, decide_eq_true inside]
    by_cases low : k < 8
    · rw [List.getD_append _ _ _ _ (by rwa [length_bitsOf]), bitsOf_getD]
      simp [low]
    · rw [List.getD_append_right _ _ _ _ (by rw [length_bitsOf]; omega), length_bitsOf,
        ← ih (by omega), BitVec.getLsbD_of_ge b k (by omega)]
      simp [low]

/-- **The bits of sixteen bytes are the bits of their word.** -/
theorem bitsOf_fromLeBytes {bytes : List (BitVec 8)} (size : bytes.length = 16) :
    bytes.flatMap bitsOf = bitsOf (fromLeBytes bytes) := by
  have long : (bytes.flatMap bitsOf).length = 128 := by rw [length_flatMap_bitsOf, size]
  refine List.ext_getElem (long.trans (length_bitsOf _).symm) fun k inside inside' => ?_
  rw [← List.getD_eq_getElem _ false inside, ← List.getD_eq_getElem _ false inside', bitsOf_getD,
    getLsbD_fromLeBytes bytes (by omega)]

theorem messageBits_eq (message : Vector (BitVec 8) 32) :
    messageBits message = bitsOf (fromLeBytes (message.toList.take 16)) ++
      bitsOf (fromLeBytes (message.toList.drop 16)) := by
  rw [← bitsOf_fromLeBytes (by simp), ← bitsOf_fromLeBytes (by simp), ← List.flatMap_append,
    List.take_append_drop, messageBits]

end Mac.Concrete

/-! ### The circuits -/

open Mac.Concrete Gf2128

namespace Mac

variable {av : BitVec 128} {ap tag : BitVec 128 × BitVec 128}

/-- The wires hold the bits of a message, a key, pads and a tag. -/
structure Given.Encodes (given : Given E) (message : Vector (BitVec 8) 32) (av : BitVec 128)
    (ap tag : BitVec 128 × BitVec 128) : Prop where
  message : given.message.Encodes (messageBits message)
  av : given.macAv.Holds av
  ap : given.macAp.1.Holds ap.1 ∧ given.macAp.2.Holds ap.2
  tag : given.tag.1.Holds tag.1 ∧ given.tag.2.Holds tag.2

theorem xor_eq_mul_iff (tag ap av msg : BitVec 128) :
    tag ^^^ ap = Compile.mul av msg ↔ tag = computeMac av ap msg := by
  rw [computeMac, gf2128Mul_eq]
  constructor
  · intro same
    rw [← same, BitVec.xor_assoc, BitVec.xor_self, BitVec.xor_zero]
  · rintro rfl
    rw [BitVec.xor_assoc, BitVec.xor_self, BitVec.xor_zero]

/-- **The circuit over bits accepts the computed tag and no other**, in every field. -/
theorem assertMac_returns {given : Given E} (encodes : given.Encodes message av ap tag) :
    ∃ held, assertMac given = .ok held ∧ (held = true ↔ tag = computeTag message av ap) := by
  obtain ⟨msg0, msg1, parted, low, high⟩ := Bitvec.split_encodes
    (messageBits_eq message ▸ encodes.message) (length_bitsOf _) (length_bitsOf _)
  obtain ⟨lhs0, sum0, isSum0⟩ := Bitvec.xorb_holds encodes.tag.1 encodes.ap.1
  obtain ⟨rhs0, product0, isProduct0⟩ := Gf2128Mul.mul_holds encodes.av low
  obtain ⟨eq0, ran0, holds0⟩ := Bitvec.assertEq_returns isSum0 isProduct0 "msg0_eq"
  obtain ⟨lhs1, sum1, isSum1⟩ := Bitvec.xorb_holds encodes.tag.2 encodes.ap.2
  obtain ⟨rhs1, product1, isProduct1⟩ := Gf2128Mul.mul_holds encodes.av high
  obtain ⟨eq1, ran1, holds1⟩ := Bitvec.assertEq_returns isSum1 isProduct1 "msg1_eq"
  refine ⟨Logic.assertAll "assert_mac" [eq0, eq1], ?_, ?_⟩
  · rw [assertMac, parted, ok_bind]
    dsimp only
    rw [sum0, ok_bind, product0, ok_bind, ran0, ok_bind, sum1, ok_bind, product1, ok_bind, ran1,
      ok_bind, pure_eq_ok]
  · rw [assertAll_two, holds0, holds1, xor_eq_mul_iff, xor_eq_mul_iff, computeTag, Prod.ext_iff]

end Mac

namespace MacGf128

variable {av : BitVec 128} {ap tag : BitVec 128 × BitVec 128}

/-- The wires hold the bits of a message, and the elements of a key, pads and a tag. -/
structure Given.Encodes (given : Given Gf2128Elt) (message : Vector (BitVec 8) 32)
    (av : BitVec 128) (ap tag : BitVec 128 × BitVec 128) : Prop where
  message : given.message.Encodes (messageBits message)
  av : given.macAv.Is ⟨av⟩
  ap : given.macAp.1.Is ⟨ap.1⟩ ∧ given.macAp.2.Is ⟨ap.2⟩
  tag : given.tag.1.Is ⟨tag.1⟩ ∧ given.tag.2.Is ⟨tag.2⟩

/-- **The circuit over the field accepts the computed tag and no other.** -/
theorem assertMac_returns {given : Given Gf2128Elt} (encodes : given.Encodes message av ap tag) :
    ∃ held, assertMac given = .ok held ∧ (held = true ↔ tag = computeTag message av ap) := by
  obtain ⟨msg0, msg1, parted, low, high⟩ := Bitvec.split_encodes
    (messageBits_eq message ▸ encodes.message) (length_bitsOf _) (length_bitsOf _)
  obtain ⟨elt0, packed0, isElt0⟩ := Bitvec.asEltwField_is low (le_refl 128)
  obtain ⟨elt1, packed1, isElt1⟩ := Bitvec.asEltwField_is high (le_refl 128)
  have half : ∀ {t a m : BitVec 128}, ((⟨t⟩ : Gf2128Elt) + ⟨a⟩ = ⟨av⟩ * ⟨m⟩) ↔
      t = computeMac av a m := fun {t a m} => by
    rw [← Mac.xor_eq_mul_iff, Gf2128Elt.mk_add, Gf2128Elt.mk_mul, Gf2128Elt.mk.injEq]
  have eq0 := (encodes.tag.1.add encodes.ap.1).assertEq (encodes.av.mul isElt0) "msg0_eq"
  have eq1 := (encodes.tag.2.add encodes.ap.2).assertEq (encodes.av.mul isElt1) "msg1_eq"
  refine ⟨Logic.assertAll "assert_mac" [
    Logic.assertEq "msg0_eq" (Logic.add given.tag.1 given.macAp.1) (Logic.mul given.macAv elt0),
    Logic.assertEq "msg1_eq" (Logic.add given.tag.2 given.macAp.2) (Logic.mul given.macAv elt1)],
    ?_, ?_⟩
  · rw [assertMac, parted, ok_bind]
    dsimp only
    rw [packed0, ok_bind, packed1, ok_bind, pure_eq_ok]
  · rw [assertAll_two, eq0, eq1, Gf2128Elt.weighted_pseudoBasis, Gf2128Elt.weighted_pseudoBasis,
      half, half, computeTag, Prod.ext_iff]

end MacGf128

/-! ### Agreement -/

/-- **The three agree**: over a prime field and over the field of `2^128` elements the circuits
accept the computed tag and no other, and the multiplier of bits computes the product of the
quotient in a field of any kind. -/
theorem macs_agree {p : ℕ} [Fact p.Prime] {message : Vector (BitVec 8) 32} {av : BitVec 128}
    {ap tag : BitVec 128 × BitVec 128} {given : Mac.Given (ZMod p)}
    {given' : MacGf128.Given Gf2128Elt} (encodes : given.Encodes message av ap tag)
    (encodes' : given'.Encodes message av ap tag) :
    (∃ held, Mac.assertMac given = .ok held ∧ (held = true ↔ tag = computeTag message av ap)) ∧
      (∃ held, MacGf128.assertMac given' = .ok held ∧
        (held = true ↔ tag = computeTag message av ap)) ∧
      ∀ {F : Type} [CompileField F] [DecidableEq F] {a b : V128 F} {x y : BitVec 128},
        a.Holds x → b.Holds y → ∃ c z, Gf2128Mul.mul a b = .ok c ∧ c.Holds z ∧
          toPoly z = (toPoly x * toPoly y) %ₘ (X ^ 128 + X ^ 7 + X ^ 2 + X + 1) := by
  refine ⟨Mac.assertMac_returns encodes, MacGf128.assertMac_returns encodes', ?_⟩
  intro F _ _ a b x y left right
  obtain ⟨c, ran, holds⟩ := Gf2128Mul.mul_holds left right
  refine ⟨c, _, ran, holds, (toPoly_eq_product (shiftXor_spec x y)).trans ?_⟩
  rw [product, modulus_eq, tail]
  ring_nf

/-- The wires of a message, a key, pads and a tag as constants. -/
def Mac.evaluateGiven (E : Type) [CompileField E] (message : Vector (BitVec 8) 32)
    (av : BitVec 128) (ap tag : BitVec 128 × BitVec 128) : Mac.Given E where
  message := ⟨(messageBits message).map Boolean.konst, by
    rw [List.length_map, messageBits, length_flatMap_bitsOf, Vector.length_toList]⟩
  macAv := Bitvec.konst av
  macAp := (Bitvec.konst ap.1, Bitvec.konst ap.2)
  tag := (Bitvec.konst tag.1, Bitvec.konst tag.2)

theorem Mac.evaluateGiven_encodes (message : Vector (BitVec 8) 32) (av : BitVec 128)
    (ap tag : BitVec 128 × BitVec 128) :
    (Mac.evaluateGiven E message av ap tag).Encodes message av ap tag where
  message := by
    rw [Bitvec.Encodes, evaluateGiven, List.forall₂_map_left_iff, List.forall₂_same]
    exact fun b _ => Boolean.konst_encodes b
  av := Bitvec.konst_holds av
  ap := ⟨Bitvec.konst_holds ap.1, Bitvec.konst_holds ap.2⟩
  tag := ⟨Bitvec.konst_holds tag.1, Bitvec.konst_holds tag.2⟩

/-- The agreement for a message of zeros over the field of three elements. -/
theorem macs_agree_zeros :
    (∃ held, Mac.assertMac (Mac.evaluateGiven (ZMod 3) (Vector.replicate 32 0) 1 (2, 3) (4, 5)) =
      .ok held ∧ (held = true ↔ (4, 5) = computeTag (Vector.replicate 32 0) 1 (2, 3))) ∧
    (∃ held, MacGf128.assertMac (E := Gf2128Elt) ⟨⟨(messageBits (Vector.replicate 32 0)).map
        Boolean.konst, by rw [List.length_map, messageBits, length_flatMap_bitsOf,
          Vector.length_toList]⟩,
        Logic.konst ⟨1⟩, (Logic.konst ⟨2⟩, Logic.konst ⟨3⟩), (Logic.konst ⟨4⟩, Logic.konst ⟨5⟩)⟩ =
      .ok held ∧ (held = true ↔ (4, 5) = computeTag (Vector.replicate 32 0) 1 (2, 3))) := by
  have encodes : MacGf128.Given.Encodes
      ⟨(Mac.evaluateGiven Gf2128Elt (Vector.replicate 32 0) 1 (2, 3) (4, 5)).message,
        Logic.konst ⟨1⟩, (Logic.konst ⟨2⟩, Logic.konst ⟨3⟩), (Logic.konst ⟨4⟩, Logic.konst ⟨5⟩)⟩
      (Vector.replicate 32 0) 1 (2, 3) (4, 5) :=
    ⟨(Mac.evaluateGiven_encodes _ 1 (2, 3) (4, 5)).message, Wire.Is.konst _,
      ⟨Wire.Is.konst _, Wire.Is.konst _⟩, ⟨Wire.Is.konst _, Wire.Is.konst _⟩⟩
  have agree := macs_agree (Mac.evaluateGiven_encodes (E := ZMod 3) _ 1 (2, 3) (4, 5)) encodes
  exact ⟨agree.1, agree.2.1⟩

end Longfellow.Gadget
