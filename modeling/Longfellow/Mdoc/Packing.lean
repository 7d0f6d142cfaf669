/-
**Packed bits** (`mdoc_zk/runtime/src/v2/inputs/builder.rs`, `circuits/bit_plucker/src/circuit.rs`).

The runtime packs groups of bits as the points of their numbers, and the circuit unpacks them.

* `unpack_pack` — **what the runtime packs, the circuit unpacks**.
-/

import Longfellow.Gadget.AnalogDecoder
import Longfellow.Mdoc.Builder

set_option linter.unusedSectionVars false

namespace Longfellow.Mdoc

open Lib Gadget AnalogDecoder BitPlucker Interpolation

/-! ### Groups of bits -/

theorem setBits_spec (f : ℕ → Bool) (m : ℕ) :
    (List.range m).foldl (fun v j => if f j = true then v ||| 1 <<< j else v) 0 < 2 ^ m ∧
      ∀ j, ((List.range m).foldl (fun v j => if f j = true then v ||| 1 <<< j else v) 0).testBit j =
        (decide (j < m) && f j) := by
  induction m with
  | zero => exact ⟨Nat.two_pow_pos 0, fun j => by simp⟩
  | succ m ih =>
    obtain ⟨below, digits⟩ := ih
    rw [List.range_succ, List.foldl_append, List.foldl_cons, List.foldl_nil]
    generalize (List.range m).foldl (fun v j => if f j = true then v ||| 1 <<< j else v) 0 = w at *
    have grown : w < 2 ^ (m + 1) := lt_of_lt_of_le below (Nat.pow_le_pow_right (by decide) (by omega))
    have digit : ∀ j, (if f m = true then w ||| 1 <<< m else w).testBit j =
        (decide (j < m + 1) && f j) := by
      intro j
      rcases Nat.lt_trichotomy j m with low | rfl | high
      · split <;> simp [digits, low, Nat.lt_succ_of_lt low, Nat.testBit_shiftLeft, low.not_ge]
      · by_cases set : f j = true
        · simp [set, Nat.testBit_shiftLeft]
        · simp [set, digits]
      · have none : ¬ j < m + 1 := by omega
        have bit : Nat.testBit 1 (j - m) = false := Nat.testBit_lt_two_pow
          (Nat.one_lt_two_pow (by omega))
        split <;> simp [digits, none, high.not_gt, Nat.testBit_shiftLeft, bit]
    refine ⟨?_, digit⟩
    split
    · exact Nat.or_lt_two_pow grown (by
        rw [Nat.shiftLeft_eq, one_mul]
        exact Nat.pow_lt_pow_right (by decide) (Nat.lt_succ_self m))
    · exact grown

theorem packedGroup_lt (width : ℕ) (bits : List Bool) (i : ℕ) :
    packedGroup width bits i < 2 ^ width := (setBits_spec _ width).1

/-- **The digits of the number of a group are its bits.** -/
theorem digits_packedGroup (width : ℕ) (bits : List Bool) (i : ℕ) :
    digits width (packedGroup width bits i) =
      (List.range width).map fun j => bits.getD (i * width + j) false := by
  refine List.map_congr_left fun j member => ?_
  rw [packedGroup, (setBits_spec (fun j => bits.getD (i * width + j) false) width).2,
    decide_eq_true (List.mem_range.mp member), Bool.true_and]

theorem groups_eq_take {width : ℕ} {bits : List Bool} {count : ℕ}
    (room : count * width ≤ bits.length) :
    (List.range count).flatMap (fun i => (List.range width).map fun j =>
      bits.getD (i * width + j) false) = bits.take (count * width) := by
  induction count with
  | zero => simp
  | succ count ih =>
    rw [Nat.succ_mul] at room ⊢
    rw [List.range_succ, List.flatMap_append, ih (by omega), List.flatMap_singleton, List.take_add]
    congr 1
    refine List.ext_getElem (by simp; omega) fun j left right => ?_
    rw [List.length_map, List.length_range] at left
    rw [List.getElem_map, List.getElem_range, List.getElem_take, List.getElem_drop,
      List.getD_eq_getElem _ _ (by omega)]

theorem divCeil_mul {width : ℕ} (wide : 0 < width) (count : ℕ) :
    divCeil (width * count) width = count := by
  rw [divCeil, Nat.add_sub_assoc wide, Nat.mul_add_div wide,
    Nat.div_eq_of_lt (Nat.sub_one_lt_of_lt wide), Nat.add_zero]

theorem digits_pack {width : ℕ} (wide : 0 < width) {bits : List Bool} (whole : width ∣ bits.length) :
    ((List.range (divCeil bits.length width)).map (packedGroup width bits)).flatMap (digits width) =
      bits := by
  obtain ⟨count, size⟩ := whole
  have room : count * width = bits.length := by rw [size, Nat.mul_comm]
  rw [size, divCeil_mul wide, List.flatMap_map]
  simp only [digits_packedGroup]
  rw [groups_eq_take room.le, room, List.take_length]

section Circuit

variable {E : Type} [InvertibleField E] [DecidableEq E] [HasLookupPoints E]

/-- **What the runtime packs, the circuit unpacks.** -/
theorem unpack_pack {width : ℕ} (wide : 0 < width) {d : BinaryDecoder E}
    (made : binary width = .ok d) {bits : List Bool} (whole : width ∣ bits.length)
    {vs : List (Wire E)} (wires : List.Forall₂ Wire.Is vs (packBitsToElements width bits)) :
    ∃ bv, unpack width bits.length d vs = .ok bv ∧ bv.Encodes bits := by
  have size : bits.length = width * vs.length := by
    obtain ⟨count, size⟩ := whole
    rw [wires.length_eq, packBitsToElements, List.length_map, List.length_range, size,
      divCeil_mul wide]
  obtain ⟨bv, ran, unpacked⟩ := unpack_returns made wires size
  have encodes := unpacked.encodes _ (fun i member => by
    obtain ⟨k, -, rfl⟩ := List.mem_map.mp member
    exact packedGroup_lt width bits k) (by rw [packBitsToElements, List.map_map]; rfl)
  rw [digits_pack wide whole] at encodes
  exact ⟨bv, ran, encodes⟩

/-- **Decoding is exact**: whenever a decoder is made, its assertions hold exactly at the points of
the indices, and the bits are those of the index; a table has its entries; and bits that are packed
are unpacked. A decoder is made exactly when the points are apart. -/
theorem analog_exact :
    (∀ width, (∃ d : BinaryDecoder E, binary width = .ok d) ↔
      width < 64 ∧ Apart (2 ^ width + 1) (lookupPoint (2 ^ width + 1) : ℕ → E)) ∧
    (∀ width, 0 < width → ∀ d : BinaryDecoder E, binary width = .ok d → ∀ (x : Wire E) (v : E),
      x.Is v →
      (∃ bits, decodeBinary d x = .ok bits ∧ ((∀ b ∈ bits, b.Holds) ↔ Encoded width v) ∧
        ∀ i < 2 ^ width, v = encodingPoint width i →
          List.Forall₂ Bitw.Encodes bits (digits width i)) ∧
      ∃ bv, pluck width d x = .ok bv ∧ ((∀ b ∈ bv.bits, b.Holds) ↔ Encoded width v) ∧
        ∀ i < 2 ^ width, v = encodingPoint width i → bv.Encodes (digits width i)) ∧
    (∀ n, (∃ d : UnaryDecoder E, unary n = .ok d) ↔
      2 ≤ n ∧ n + 1 < 2 ^ 64 ∧ Apart (n + 1) (lookupPoint (n + 1) : ℕ → E)) ∧
    (∀ (n : ℕ) (d : UnaryDecoder E), unary n = .ok d → ∀ (x : Wire E) (v : E), x.Is v →
      ∃ held bits, decodeUnary d x = .ok (held, bits) ∧
        (held = true ↔ ∃ i < n, v = unaryPoint n i) ∧
        ((∀ b ∈ bits, b.Holds) ↔ ∃ i < n, v = unaryPoint n i) ∧
        ∀ i < n, v = unaryPoint n i →
          List.Forall₂ Bitw.Encodes bits ((List.range n).map fun k => i == k)) ∧
    (∀ (n : ℕ) (fInit : ℕ → Option (Wire E)) (entries : ℕ → E) (t : Table E),
      (∀ i < n, ∀ w, fInit i = some w → w.Is (entries i)) → Lookup.table n fInit = .ok t →
      ∀ i < n, (fInit i).isSome → ∀ x : Wire E, x.Is (lookupPoint n i) →
        ∃ y, Lookup.eval t x = .ok y ∧ y.Is (entries i)) ∧
    (∀ width, 0 < width → ∀ d : BinaryDecoder E, binary width = .ok d → ∀ bits : List Bool,
      width ∣ bits.length → ∀ vs : List (Wire E),
      List.Forall₂ Wire.Is vs (packBitsToElements width bits) →
        ∃ bv, unpack width bits.length d vs = .ok bv ∧ bv.Encodes bits) := by
  -- The assertion of every bit holds when that of one bit does, and there is one.
  have all : ∀ {width : ℕ} {bits : List (Bitw E)} {P : Prop}, 0 < width → bits.length = width →
      (∀ b ∈ bits, b.Holds ↔ P) → ((∀ b ∈ bits, b.Holds) ↔ P) := by
    intro width bits P wide size each
    refine ⟨fun holds => ?_, fun holds b member => (each b member).mpr holds⟩
    obtain ⟨b, member⟩ := List.exists_mem_of_length_pos (size ▸ wide)
    exact (each b member).mp (holds b member)
  refine ⟨binary_returns_iff, fun width wide d made x v is => ⟨?_, ?_⟩, unary_returns_iff,
    fun n d made x v is => ?_, fun n fInit entries t values made i inside entry x is =>
      Lookup.eval_point values made inside entry is,
    fun width wide d made bits whole vs wires => unpack_pack wide made whole wires⟩
  · obtain ⟨bits, decoded, size, holds, encodes⟩ := decodeBinary_returns made is
    exact ⟨bits, decoded, all wide size holds, encodes⟩
  · obtain ⟨bv, plucked, from_⟩ := pluck_returns made is
    exact ⟨bv, plucked, all wide from_.length_eq from_.holds_iff, from_.encodes⟩
  · obtain ⟨enough, -, -⟩ := (unary_returns_iff n).mp ⟨d, made⟩
    obtain ⟨held, bits, decoded, size, asserted, holds, encodes⟩ := decodeUnary_returns made is
    exact ⟨held, bits, decoded, asserted, all (by omega) size holds, encodes⟩

end Circuit

/-- Without bits there is no assertion: an element that encodes no index is accepted. -/
theorem binary_zero_accepts : ∃ (d : BinaryDecoder Gf2128Elt) (bits : List (Bitw Gf2128Elt)),
    binary 0 = .ok d ∧ decodeBinary d (Logic.konst ⟨2⟩) = .ok bits ∧ (∀ b ∈ bits, b.Holds) ∧
      ¬ Encoded 0 (⟨2⟩ : Gf2128Elt) := by
  obtain ⟨d, made⟩ := (binary_returns_iff (E := Gf2128Elt) 0).mpr ⟨by decide, by
    intro i left j right same
    have first : i = 0 ∨ i = 1 := by omega
    have second : j = 0 ∨ j = 1 := by omega
    rcases first with rfl | rfl <;> rcases second with rfl | rfl
    · rfl
    · exact absurd same (by decide +kernel)
    · exact absurd same (by decide +kernel)
    · rfl⟩
  obtain ⟨bits, decoded, size, -⟩ := decodeBinary_returns made (Wire.Is.konst (⟨2⟩ : Gf2128Elt))
  refine ⟨d, bits, made, decoded, ?_, ?_⟩
  · rw [List.length_eq_zero_iff.mp size]
    exact fun b member => absurd member (List.not_mem_nil)
  · rintro ⟨i, below, same⟩
    obtain rfl : i = 0 := by omega
    exact absurd same (by decide +kernel)

end Longfellow.Mdoc
