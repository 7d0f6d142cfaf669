/-
**Bit vectors of a fixed length** (`circuits/bitvec/src/circuit.rs`).

The operations are those of slices of bits; the length is part of the type, so no operation on two
vectors of one type meets a mismatch.

* `Bitvec.Holds` — the word that the bits of a vector stand for.
-/

import Longfellow.Gadget.Arithmetic

set_option linter.unusedSectionVars false

namespace Longfellow.Gadget

open Lib CompileField

variable {E : Type} [CompileField E] [DecidableEq E] {n m k : ℕ}

structure Bitvec (E : Type) [CompileField E] (n : ℕ) where
  bits : List (Bitw E)
  size : bits.length = n

abbrev V128 (E : Type) [CompileField E] := Bitvec E 128

namespace Bitvec

/-- A slice as a vector, if it has the length. -/
def new (n : ℕ) (bits : List (Bitw E)) : Exec String (Bitvec E n) :=
  if size : bits.length = n then .ok ⟨bits, size⟩
  else abort "assertion `left == right` failed"

def fromVec (n : ℕ) (vec : List (Bitw E)) : Option (Bitvec E n) :=
  if size : vec.length = n then some ⟨vec, size⟩ else none

/-- The exclusive or, bit by bit. -/
def xorb (a b : Bitvec E n) : Exec String (Bitvec E n) := do
  new n (← Arithmetic.xorb a.bits b.bits)

def asEltwField (bv : Bitvec E n) : Exec String (Wire E) := Arithmetic.asEltwField bv.bits

def assertEq (name : String) (a b : Bitvec E n) : Exec String Assertions :=
  Arithmetic.assertEq name a.bits b.bits

/-- The low and the high part of a vector. -/
def split (m k : ℕ) (bv : Bitvec E n) : Exec String (Bitvec E m × Bitvec E k) := do
  let low ← expect (fromVec m (← slice bv.bits 0 m)) "split low failed"
  let high ← expect (fromVec k (← slice bv.bits m n)) "split high failed"
  return (low, high)

/-- The bits of the vector stand for a list of truth values. -/
def Encodes (bv : Bitvec E n) (xs : List Bool) : Prop := List.Forall₂ Bitw.Encodes bv.bits xs

/-- **The word that the bits of the vector stand for.** -/
def Holds (bv : Bitvec E n) (x : BitVec n) : Prop := bv.Encodes (bitsOf x)

/-- A word as a vector of constants. -/
def konst (x : BitVec n) : Bitvec E n :=
  ⟨(bitsOf x).map Boolean.konst, by rw [List.length_map, length_bitsOf]⟩

theorem konst_holds (x : BitVec n) : (konst x : Bitvec E n).Holds x := by
  rw [Holds, Encodes, konst, List.forall₂_map_left_iff, List.forall₂_same]
  exact fun b _ => Boolean.konst_encodes b

theorem Encodes.length_eq {bv : Bitvec E n} {xs : List Bool} (encodes : bv.Encodes xs) :
    xs.length = n := (List.Forall₂.length_eq encodes).symm.trans bv.size

theorem new_eq_ok {bits : List (Bitw E)} (size : bits.length = n) :
    new n bits = .ok ⟨bits, size⟩ := dif_pos size

theorem fromVec_eq_some {vec : List (Bitw E)} (size : vec.length = n) :
    fromVec n vec = some ⟨vec, size⟩ := dif_pos size

variable {a b : Bitvec E n} {x y : BitVec n}

theorem bitsOf_xor (x y : BitVec n) :
    List.zipWith (· ^^ ·) (bitsOf x) (bitsOf y) = bitsOf (x ^^^ y) := by
  refine polyBits_injective (by simp) ?_
  rw [polyBits_xor (by simp), polyBits_bitsOf, polyBits_bitsOf, polyBits_bitsOf, toPoly_xor]

theorem bitsOf_injective : Function.Injective (bitsOf : BitVec n → List Bool) := by
  intro x y same
  refine toPoly_injective ?_
  rw [← polyBits_bitsOf, ← polyBits_bitsOf, same]

theorem xorb_holds (left : a.Holds x) (right : b.Holds y) :
    ∃ c, xorb a b = .ok c ∧ c.Holds (x ^^^ y) := by
  obtain ⟨bits, ran, holds⟩ := Arithmetic.map2_encodes Boolean.xorb_encodes left right
    (by rw [length_bitsOf, length_bitsOf])
  rw [bitsOf_xor] at holds
  have size : bits.length = n := by rw [holds.length_eq, length_bitsOf]
  refine ⟨⟨bits, size⟩, ?_, holds⟩
  rw [xorb, Arithmetic.xorb, ran, ok_bind, new_eq_ok size]

theorem assertEq_returns (left : a.Holds x) (right : b.Holds y) (name : String) :
    ∃ held, assertEq name a b = .ok held ∧ (held = true ↔ x = y) := by
  obtain ⟨held, ran, holds⟩ := Arithmetic.assertEq_returns left right
    (by rw [length_bitsOf, length_bitsOf]) name
  exact ⟨held, ran, holds.trans bitsOf_injective.eq_iff⟩

theorem asEltwField_is (holds : a.Holds x) (fits : n ≤ pseudoDimension E) :
    ∃ w, asEltwField a = .ok w ∧ w.Is (weighted pseudoBasis (bitsOf x)) :=
  Arithmetic.asEltwField_is holds (by rwa [length_bitsOf])

theorem split_encodes {xs ys : List Bool} (holds : a.Encodes (xs ++ ys)) (low : xs.length = m)
    (high : ys.length = k) :
    ∃ u v, split m k a = .ok (u, v) ∧ u.Encodes xs ∧ v.Encodes ys := by
  have total := holds.length_eq
  rw [List.length_append, low, high] at total
  have first : List.Forall₂ Bitw.Encodes (a.bits.take m) xs := by
    have part := List.forall₂_take m holds
    rwa [List.take_left' low] at part
  have second : List.Forall₂ Bitw.Encodes (a.bits.drop m) ys := by
    have part := List.forall₂_drop m holds
    rwa [List.drop_left' low] at part
  refine ⟨⟨_, first.length_eq.trans low⟩, ⟨_, second.length_eq.trans high⟩, ?_, first, second⟩
  rw [split, slice_of_le (Nat.zero_le m) (by rw [a.size]; omega), ok_bind, List.drop_zero,
    Nat.sub_zero, fromVec_eq_some (first.length_eq.trans low), expect_some, ok_bind,
    slice_of_le (by omega) a.size.ge, ok_bind,
    List.take_of_length_le (by rw [List.length_drop, a.size]),
    fromVec_eq_some (second.length_eq.trans high), expect_some, ok_bind, pure_eq_ok]

end Bitvec

end Longfellow.Gadget
