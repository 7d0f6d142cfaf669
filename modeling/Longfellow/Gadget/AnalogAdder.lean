/-
**Sums of words modulo a power of two** (`circuits/analog_adder/src/circuit.rs`).

The words are added in the field without looking at their bits: in a prime field as numbers below
the modulus, in the binary field as exponents of the generator. The sum differs from the expected
word by one of the possible carries, so the product of the differences is asserted to be zero.

* `assertWrappingSum_exact` — **the assertion is exact** in both fields, whenever it is made: over
  the binary field, words of no bits are a panic.
-/

import Longfellow.Gadget.Bitvec
import Longfellow.Gadget.Generator

set_option linter.unusedSectionVars false

namespace Longfellow.Gadget

open Lib CompileField

variable {E : Type} [CompileField E] [DecidableEq E] {words : List (List (List Bool))} {n : ℕ}
  {want : List Bool} {bits : List Bool} {terms : List (List (Bitvec E n))}

/-! ### The circuit -/

/-- A product as a balanced tree. -/
def Logic.prod : List (Wire E) → Wire E
  | [] => Logic.one
  | elements => Boolean.fold Logic.mul id Logic.one elements

/-- A field whose multiplicative group has room for sums of words. -/
class FieldWrappingSum (E : Type) [CompileField E] where
  pseudoDimensionOfMultiplicativeGroup : ℕ
  assertWrappingSum : {n : ℕ} → Bitvec E n → List (List (Bitvec E n)) → Exec String Assertions

namespace AnalogAdder

/-- How many terms may not be reached. -/
def maxTerms (dim width : ℕ) : ℕ := if dim - width < 64 then 2 ^ (dim - width) else 2 ^ 64 - 1

/-- The assertions about the number of terms. -/
def checkTerms (dim width n : ℕ) : Exec String Unit := do
  ensure (0 < n) "assert_wrapping_sum requires at least 1 term"
  ensure (width < dim) ("Field dimension " ++ toString dim ++
    " must be strictly greater than term bit-width " ++ toString width)
  ensure (n < maxTerms dim width) ("Field dimension " ++ toString dim ++ " is too small to sum " ++
    toString n ++ " terms of width " ++ toString width ++ " without overflow (max terms: " ++
    toString (maxTerms dim width - 1) ++ ")")

section Prime

variable {p : ℕ} [Fact p.Prime]

def u64ToElement (n : ℕ) : Exec String (ZMod p) := do
  ensure (n < p) "integer is not a canonical field element"
  return n

instance : FieldWrappingSum (ZMod p) where
  pseudoDimensionOfMultiplicativeGroup := (p - 1).log2
  assertWrappingSum {width} expected terms := do
    let flatTerms := terms.flatten
    let n := flatTerms.length
    checkTerms (p - 1).log2 width n
    let want ← expected.asEltwField
    let groupSums ← terms.mapM fun g => do return Logic.sum (← g.mapM Bitvec.asEltwField)
    let c := Logic.sum groupSums
    let z := Logic.precious (Logic.sub c want)
    let twoToN : ZMod p := pseudoBasis width
    let factors ← (List.range n).mapM fun i => do
      let iElement ← u64ToElement i
      return Logic.sub z (Logic.mulk twoToN (Logic.konst iElement))
    return Logic.assert0 "assert_wrapping_sum_prime" (Logic.prod factors)

end Prime

/-- A word as an exponent: the product of the powers of its bits. -/
def inject {width : ℕ} (basis : List (Wire E)) (v : Bitvec E width) : Wire E :=
  Logic.prod (List.zipWith (fun bWire bit =>
    Logic.add Logic.one (Logic.mul (Logic.sub bWire Logic.one) (Boolean.asEltw bit))) basis v.bits)

instance : FieldWrappingSum Gf2128Elt where
  pseudoDimensionOfMultiplicativeGroup := 128
  assertWrappingSum {width} expected terms := do
    let n := (terms.map List.length).sum
    checkTerms 128 width n
    let alpha : Wire Gf2128Elt := Logic.konst Gf2128Elt.generator
    let basis := List.iterate (fun b => Logic.mul b b) alpha width
    let last ← getAt basis (← checkedSub width 1)
    let alphaK := Logic.mul last last
    let want := inject basis expected
    let groupProds := terms.map fun g => Logic.prod (g.map (inject basis))
    let got := Logic.prod groupProds
    let p := List.iterate (fun b => Logic.mul b alphaK) Logic.one n
    let ff := p.map fun pElt => Logic.sub got (Logic.mul pElt want)
    return Logic.assert0 "assert_wrapping_sum_gf2" (Logic.prod ff)

def assertWrappingSum [FieldWrappingSum E] {n : ℕ} (expected : Bitvec E n)
    (terms : List (List (Bitvec E n))) : Exec String Assertions :=
  FieldWrappingSum.assertWrappingSum expected terms

/-! ### Carries -/

/-- The number of terms that is accepted. -/
structure Admitted (dim width n : ℕ) : Prop where
  some : 0 < n
  wide : width < dim
  few : n < maxTerms dim width

theorem checkTerms_of_admitted {dim width : ℕ} (admitted : Admitted dim width n) :
    checkTerms dim width n = .ok () := by
  rw [checkTerms, ensure_of admitted.some, ok_bind, ensure_of admitted.wide, ok_bind,
    ensure_of admitted.few]

theorem Admitted.room {dim width : ℕ} (admitted : Admitted dim width n) :
    n * 2 ^ width < 2 ^ dim := by
  obtain ⟨-, wide, few⟩ := admitted
  have below : n < 2 ^ (dim - width) := by
    unfold maxTerms at few
    split_ifs at few with small
    · exact few
    · have large : 2 ^ 64 ≤ 2 ^ (dim - width) := Nat.pow_le_pow_right (by decide) (by omega)
      omega
  have whole : 2 ^ (dim - width) * 2 ^ width = 2 ^ dim := by
    rw [← Nat.pow_add, Nat.sub_add_cancel wide.le]
  rw [← whole]
  exact Nat.mul_lt_mul_of_pos_right below (Nat.two_pow_pos width)

theorem sum_lt_mul {w : ℕ} {xs : List ℕ} (some : 0 < xs.length) (each : ∀ x ∈ xs, x < w) :
    xs.sum < xs.length * w := by
  have most := List.sum_le_card_nsmul xs (w - 1) fun x member => Nat.le_sub_one_of_lt (each x member)
  have positive : 0 < w := by
    obtain ⟨x, member⟩ := List.exists_mem_of_length_pos some
    exact Nat.zero_lt_of_lt (each x member)
  refine lt_of_le_of_lt most ?_
  rw [smul_eq_mul]
  exact Nat.mul_lt_mul_of_pos_left (Nat.sub_lt positive one_pos) some

/-- **A sum has one of the carries** exactly when it is the expected word, modulo the power. -/
theorem exists_carry_iff {w sum want : ℕ} (small : want < w) (below : sum < n * w) :
    (∃ i < n, sum = want + w * i) ↔ sum ≡ want [MOD w] := by
  constructor
  · rintro ⟨i, -, rfl⟩
    rw [Nat.ModEq, Nat.add_mul_mod_self_left]
  · intro same
    rw [Nat.ModEq, Nat.mod_eq_of_lt small] at same
    refine ⟨sum / w, Nat.div_lt_of_lt_mul (by rwa [Nat.mul_comm]), ?_⟩
    rw [← same, Nat.mod_add_div]

theorem exists_encoded_iff {V : Type} {encode : ℕ → V} {w sum want : ℕ}
    (injective : Set.InjOn encode (Set.Iio (n * w))) (small : want < w) (below : sum < n * w) :
    (∃ i < n, encode sum = encode (want + w * i)) ↔ sum ≡ want [MOD w] := by
  rw [← exists_carry_iff small below]
  refine exists_congr fun i => and_congr_right fun inside => injective.eq_iff below ?_
  have carry := Nat.mul_le_mul_left w (Nat.le_sub_one_of_lt inside)
  have last : n * w = w * (n - 1) + w := by
    obtain ⟨k, rfl⟩ := Nat.exists_eq_add_of_lt inside
    rw [Nat.add_sub_cancel, ← Nat.mul_succ, Nat.mul_comm]
  show want + w * i < n * w
  omega

/-! ### Products -/

section

variable {elements : List (Wire E)} {vs : List E} (each : List.Forall₂ Wire.Is elements vs)
include each

theorem prod_is : (Logic.prod elements).Is vs.prod := by
  have folded : (Boolean.fold Logic.mul id Logic.one elements).Is (vs.foldr (· * ·) 1) :=
    Boolean.fold_rel Wire.Is mul_assoc one_mul mul_one Wire.Is.one each Wire.Is.mul
  cases each with
  | nil => exact Wire.Is.one
  | cons head tail => exact folded

theorem assert0_prod [NoZeroDivisors E] (name : String) :
    Logic.assert0 name (Logic.prod elements) = true ↔ 0 ∈ vs := by
  have nontrivial : Nontrivial E := ⟨1, 0, one_ne_zero⟩
  rw [(prod_is each).assert0, List.prod_eq_zero_iff]

end

/-! ### Both fields -/

/-- Words as numbers, in groups: what is asserted of a sum of words. -/
structure Stands [FieldWrappingSum E] {n : ℕ} (expected : Bitvec E n) (terms : List (List (Bitvec E n)))
    (want : List Bool) (words : List (List (List Bool))) : Prop where
  expectedIs : expected.Encodes want
  termsAre : List.Forall₂ (List.Forall₂ Bitvec.Encodes) terms words
  admitted : Admitted (FieldWrappingSum.pseudoDimensionOfMultiplicativeGroup E) n
    (terms.map List.length).sum

/-- **An assertion is exact**: it is made, and it holds exactly when the words sum to the expected
one modulo the power of two. -/
def IsExact [FieldWrappingSum E] {n : ℕ} (expected : Bitvec E n) (terms : List (List (Bitvec E n)))
    (want : List Bool) (words : List (List (List Bool))) : Prop :=
  ∃ held, assertWrappingSum expected terms = .ok held ∧
    (held = true ↔ (words.flatten.map natBits).sum ≡ natBits want [MOD 2 ^ n])

section Bounds

variable [FieldWrappingSum E] {expected : Bitvec E n}

variable (stands : Stands expected terms want words)
include stands

theorem Stands.count :
    (words.flatten.map natBits).length = (terms.map List.length).sum := by
  have lengths : terms.map List.length = words.map List.length := by
    have related := stands.termsAre
    clear stands
    induction related with
    | nil => rfl
    | cons head _ ih => rw [List.map_cons, List.map_cons, head.length_eq, ih]
  rw [List.length_map, List.length_flatten, lengths]

theorem Stands.want_lt : natBits want < 2 ^ n := by
  rw [← stands.expectedIs.length_eq]
  exact natBits_lt want

theorem Stands.sum_lt :
    (words.flatten.map natBits).sum < (terms.map List.length).sum * 2 ^ n := by
  rw [← stands.count]
  refine sum_lt_mul (stands.count ▸ stands.admitted.some) fun x member => ?_
  obtain ⟨bits, isWord, rfl⟩ := List.mem_map.mp member
  obtain ⟨group, isGroup, inside⟩ := List.mem_flatten.mp isWord
  obtain ⟨g, -, encodes⟩ := exists_of_mem_right stands.termsAre isGroup
  obtain ⟨v, -, holds⟩ := exists_of_mem_right encodes inside
  rw [← Bitvec.Encodes.length_eq holds]
  exact natBits_lt bits

end Bounds

/-! ### Prime fields -/

section PrimeExact

variable {p : ℕ} [Fact p.Prime]

theorem u64ToElement_of_lt {i : ℕ} (small : i < p) : (u64ToElement i : Exec String (ZMod p)) = .ok i := by
  rw [u64ToElement, ensure_of small]
  rfl

theorem word_is {v : Bitvec (ZMod p) n} (fits : n ≤ p.log2)
    (encodes : v.Encodes bits) : ∃ x, v.asEltwField = .ok x ∧ x.Is (natBits bits : ZMod p) := by
  obtain ⟨x, packed, is⟩ := Arithmetic.asEltwField_is encodes (encodes.length_eq.trans_le fits)
  exact ⟨x, packed, is.congr (weighted_pow_two bits)⟩

theorem group_is {g : List (Bitvec (ZMod p) n)} {bits : List (List Bool)} (fits : n ≤ p.log2)
    (encodes : List.Forall₂ Bitvec.Encodes g bits) :
    ∃ x, (do return Logic.sum (← g.mapM Bitvec.asEltwField) : Exec String (Wire (ZMod p))) = .ok x ∧
      x.Is (((bits.map natBits).sum : ℕ) : ZMod p) := by
  obtain ⟨xs, ran, each⟩ := mapM_forall₂ (r := Bitvec.Encodes)
    (g := fun bits => (natBits bits : ZMod p)) (word_is fits) encodes
  refine ⟨Logic.sum xs, by rw [ran]; rfl, (Wire.Is.sum each).congr ?_⟩
  rw [Nat.cast_list_sum, List.map_map]
  rfl

theorem sum_flatten_natBits (words : List (List (List Bool))) :
    (words.flatten.map natBits).sum = (words.map fun bits => (bits.map natBits).sum).sum := by
  rw [List.map_flatten, List.sum_flatten, List.map_map]
  rfl

theorem factors_are {z : Wire (ZMod p)} {v : ZMod p} (isZ : z.Is v) {count : ℕ} (few : count ≤ p) :
    ∃ factors, (List.range count).mapM (fun i => do
        let iElement ← u64ToElement i
        return Logic.sub z (Logic.mulk (pseudoBasis n) (Logic.konst iElement)) :
          ℕ → Exec String (Wire (ZMod p))) = .ok factors ∧
      List.Forall₂ Wire.Is factors
        ((List.range count).map fun i : ℕ => v - ((2 ^ n : ℕ) : ZMod p) * (i : ZMod p)) := by
  refine mapM_related fun i member => ?_
  have inside := List.mem_range.mp member
  refine ⟨Logic.sub z (Logic.mulk (pseudoBasis n) (Logic.konst (i : ZMod p))), ?_,
    isZ.sub ((Wire.Is.konst _).mulk _)⟩
  rw [u64ToElement_of_lt (by omega), ok_bind, pure_eq_ok]

/-- **Over a prime field the assertion is exact.** -/
theorem prime_exact {expected : Bitvec (ZMod p) n} {terms : List (List (Bitvec (ZMod p) n))}
    (stands : Stands expected terms want words) :
    IsExact expected terms want words := by
  have two := (Fact.out : p.Prime).two_le
  have modulus : 2 ^ (p - 1).log2 ≤ p - 1 := Nat.log2_self_le (by omega)
  have admitted : Admitted (p - 1).log2 n (terms.map List.length).sum := stands.admitted
  have wide := admitted.wide
  have fits : n ≤ p.log2 :=
    wide.le.trans ((Nat.le_log2 (by omega)).mpr (modulus.trans (Nat.sub_le p 1)))
  obtain ⟨w, packed, isWant⟩ := word_is fits stands.expectedIs
  obtain ⟨sums, grouped, isSums⟩ := mapM_forall₂ (r := List.Forall₂ Bitvec.Encodes)
    (g := fun bits => (((bits.map natBits).sum : ℕ) : ZMod p)) (group_is fits) stands.termsAre
  generalize counted : (terms.map List.length).sum = count at admitted
  have room := admitted.room
  generalize summed : (words.flatten.map natBits).sum = sum
  have isSum : (Logic.sum sums).Is (sum : ZMod p) := by
    refine (Wire.Is.sum isSums).congr ?_
    rw [← summed, sum_flatten_natBits, Nat.cast_list_sum, List.map_map]
    rfl
  have isZ : (Logic.precious (Logic.sub (Logic.sum sums) w)).Is (sum - natBits want : ZMod p) :=
    isSum.sub isWant
  have few : count ≤ p := by
    have small : count ≤ count * 2 ^ n := Nat.le_mul_of_pos_right count (Nat.two_pow_pos n)
    omega
  obtain ⟨factors, ran, differences⟩ := factors_are isZ few (n := n)
  have injective : Set.InjOn (Nat.cast : ℕ → ZMod p) (Set.Iio (count * 2 ^ n)) := by
    intro a insideA b insideB same
    rw [Set.mem_Iio] at insideA insideB
    rwa [ZMod.natCast_eq_natCast_iff', Nat.mod_eq_of_lt (by omega), Nat.mod_eq_of_lt (by omega)]
      at same
  refine ⟨Logic.assert0 "assert_wrapping_sum_prime" (Logic.prod factors), ?_, ?_⟩
  · dsimp only [assertWrappingSum, FieldWrappingSum.assertWrappingSum]
    rw [List.length_flatten, counted, checkTerms_of_admitted admitted, ok_bind, packed, ok_bind,
      grouped, ok_bind, ran, ok_bind, pure_eq_ok]
  · have below : sum < count * 2 ^ n := by
      rw [← counted, ← summed]
      exact stands.sum_lt
    rw [summed, assert0_prod differences, ← exists_encoded_iff injective stands.want_lt below,
      List.mem_map]
    simp only [List.mem_range]
    refine exists_congr fun i => and_congr_right fun _ => ?_
    rw [sub_eq_zero, sub_eq_iff_eq_add, Nat.cast_add, Nat.cast_mul, add_comm (natBits want : ZMod p)]

end PrimeExact

/-! ### The binary field -/

section BinaryExact

theorem inject_is {v : List (Bitw E)} (encodes : List.Forall₂ Bitw.Encodes v bits)
    (base : E) : ∃ vs, List.Forall₂ Wire.Is (List.zipWith (fun bWire bit =>
        Logic.add Logic.one (Logic.mul (Logic.sub bWire Logic.one) (Boolean.asEltw bit)))
        (List.iterate (fun b => Logic.mul b b) (Logic.konst base) v.length) v) vs ∧
      vs.prod = base ^ natBits bits := by
  induction encodes generalizing base with
  | nil => exact ⟨[], .nil, by rw [List.prod_nil, natBits, weighted, pow_zero]⟩
  | @cons a b v bits head _ ih =>
    obtain ⟨vs, each, product⟩ := ih (base * base)
    have isBit := Wire.Is.one.add (((Wire.Is.konst base).sub Wire.Is.one).mul
      (Boolean.asEltw_is head))
    refine ⟨(1 + (base - 1) * bit E b) :: vs, .cons isBit each, ?_⟩
    rw [List.prod_cons, product, natBits_cons, pow_add, pow_mul, pow_two]
    cases b
    · rw [bit_false, mul_zero, add_zero, Bool.toNat_false, pow_zero]
    · rw [bit_true, mul_one, add_sub_cancel, Bool.toNat_true, pow_one]

theorem word_power {v : Bitvec E n} (encodes : v.Encodes bits) (base : E) :
    (inject (List.iterate (fun b => Logic.mul b b) (Logic.konst base) n) v).Is
      (base ^ natBits bits) := by
  obtain ⟨vs, each, product⟩ := inject_is encodes base
  rw [v.size] at each
  exact (prod_is each).congr product

theorem prod_map_pow (base : E) (ns : List ℕ) : (ns.map (base ^ ·)).prod = base ^ ns.sum := by
  induction ns with
  | nil => rw [List.map_nil, List.prod_nil, List.sum_nil, pow_zero]
  | cons n ns ih => rw [List.map_cons, List.prod_cons, ih, List.sum_cons, pow_add]

theorem groups_power
    (encodes : List.Forall₂ (List.Forall₂ Bitvec.Encodes) terms words) (base : E) :
    (Logic.prod (terms.map fun g => Logic.prod (g.map
      (inject (List.iterate (fun b => Logic.mul b b) (Logic.konst base) n))))).Is
      (base ^ (words.flatten.map natBits).sum) := by
  have each : List.Forall₂ Wire.Is
      (terms.map fun g => Logic.prod (g.map
        (inject (List.iterate (fun b => Logic.mul b b) (Logic.konst base) n))))
      (words.map fun bits => base ^ (bits.map natBits).sum) := by
    rw [List.forall₂_map_left_iff, List.forall₂_map_right_iff]
    refine encodes.imp fun g bits group => ?_
    rw [← prod_map_pow, List.map_map]
    apply prod_is
    rw [List.forall₂_map_left_iff, List.forall₂_map_right_iff]
    exact group.imp fun v word encodes => word_power encodes base
  refine (prod_is each).congr ?_
  rw [sum_flatten_natBits, ← prod_map_pow, List.map_map]
  rfl

theorem iterate_mul (k a : E) (count : ℕ) :
    List.iterate (fun b => Logic.mul b (Logic.konst k)) (Logic.konst a) count =
      (List.range count).map fun i => Logic.konst (a * k ^ i) := by
  induction count generalizing a with
  | zero => rfl
  | succ count ih =>
    have next : Logic.mul (Logic.konst a) (Logic.konst k) = Logic.konst (a * k) := rfl
    rw [List.iterate, next, ih, List.range_succ_eq_map, List.map_cons, List.map_map, pow_zero,
      mul_one]
    congr 1
    refine List.map_congr_left fun i _ => ?_
    show Logic.konst (a * k * k ^ i) = Logic.konst (a * k ^ (i + 1))
    rw [pow_succ', mul_assoc]

theorem getElem?_iterate_mul (base : E) {i count : ℕ} (inside : i < count) :
    (List.iterate (fun b => Logic.mul b b) (Logic.konst base) count)[i]? =
      some (Logic.konst (base ^ 2 ^ i)) := by
  induction count generalizing base i with
  | zero => exact absurd inside (Nat.not_lt_zero i)
  | succ count ih =>
    cases i with
    | zero => rw [List.iterate, List.getElem?_cons_zero, pow_zero, pow_one]
    | succ i =>
      have next : Logic.mul (Logic.konst base) (Logic.konst base) = Logic.konst (base * base) :=
        rfl
      rw [List.iterate, next, List.getElem?_cons_succ, ih _ (Nat.lt_of_succ_lt_succ inside),
        ← pow_two, ← pow_mul, pow_succ']

theorem assertWrappingSum_zero {expected : Bitvec Gf2128Elt 0}
    {terms : List (List (Bitvec Gf2128Elt 0))}
    (stands : Stands expected terms want words) :
    assertWrappingSum expected terms = abort "attempt to subtract with overflow" := by
  have admitted : Admitted 128 0 (terms.map List.length).sum := stands.admitted
  dsimp only [assertWrappingSum, FieldWrappingSum.assertWrappingSum]
  rw [checkTerms_of_admitted admitted]
  rfl

/-- **Over the binary field the assertion is exact** for words of some bits. -/
theorem binary_exact {expected : Bitvec Gf2128Elt n} {terms : List (List (Bitvec Gf2128Elt n))}
    (stands : Stands expected terms want words) :
    IsExact expected terms want words ↔ n ≠ 0 := by
  have admitted : Admitted 128 n (terms.map List.length).sum := stands.admitted
  constructor
  · rintro ⟨held, ran, -⟩ rfl
    rw [assertWrappingSum_zero stands] at ran
    cases ran
  · intro some
    have below := stands.sum_lt
    generalize counted : (terms.map List.length).sum = count at admitted below
    generalize summed : (words.flatten.map natBits).sum = sum at below
    have isWant := word_power stands.expectedIs Gf2128Elt.generator
    have isGot := groups_power stands.termsAre Gf2128Elt.generator
    rw [summed] at isGot
    generalize bases : List.iterate (fun b => Logic.mul b b) (Logic.konst Gf2128Elt.generator) n =
      basis at isWant isGot
    have last : (getAt basis (n - 1) : Exec String (Wire Gf2128Elt)) =
        .ok (Logic.konst (Gf2128Elt.generator ^ 2 ^ (n - 1))) := by
      rw [getAt_eq_ok, ← bases, getElem?_iterate_mul _ (by omega)]
    have carry : Logic.mul (Logic.konst (Gf2128Elt.generator ^ 2 ^ (n - 1)))
        (Logic.konst (Gf2128Elt.generator ^ 2 ^ (n - 1))) =
        Logic.konst (Gf2128Elt.generator ^ 2 ^ n) := by
      have double : 2 ^ (n - 1) + 2 ^ (n - 1) = 2 ^ n := by
        rw [← Nat.two_mul, ← Nat.pow_succ', Nat.succ_eq_add_one, Nat.sub_add_cancel (by omega)]
      rw [← double, pow_add]
      rfl
    have injective : Set.InjOn (Gf2128Elt.generator ^ ·) (Set.Iio (count * 2 ^ n)) := by
      have room := admitted.room
      refine pow_injOn_Iio_orderOf.mono fun a inside => ?_
      rw [Set.mem_Iio] at inside ⊢
      rw [Gf2128Elt.orderOf_generator]
      omega
    have differences : List.Forall₂ Wire.Is
        ((List.iterate (fun b => Logic.mul b (Logic.konst (Gf2128Elt.generator ^ 2 ^ n))) Logic.one
          count).map fun pElt => Logic.sub (Logic.prod (terms.map fun g =>
            Logic.prod (g.map (inject basis)))) (Logic.mul pElt (inject basis expected)))
        ((List.range count).map fun i => Gf2128Elt.generator ^ sum -
          Gf2128Elt.generator ^ (natBits want + 2 ^ n * i)) := by
      rw [Logic.one, iterate_mul, List.map_map, List.forall₂_map_left_iff,
        List.forall₂_map_right_iff, List.forall₂_same]
      refine fun i _ => (isGot.sub ((Wire.Is.konst _).mul isWant)).congr ?_
      rw [one_mul, ← pow_mul, ← pow_add, Nat.add_comm]
    dsimp only [IsExact, assertWrappingSum, FieldWrappingSum.assertWrappingSum]
    rw [counted, checkTerms_of_admitted admitted, ok_bind, checkedSub_of_le (by omega), ok_bind,
      bases, last, ok_bind, carry, pure_eq_ok]
    refine ⟨_, rfl, ?_⟩
    rw [assert0_prod differences, summed,
      ← exists_encoded_iff injective stands.want_lt below, List.mem_map]
    simp only [List.mem_range]
    refine exists_congr fun i => and_congr_right fun _ => ?_
    rw [sub_eq_zero]

end BinaryExact

/-- **The assertion is exact** in both fields, for every number of terms that it accepts and every
assignment of bits; over the binary field, exactly for words of some bits. -/
theorem assertWrappingSum_exact {p : ℕ} [Fact p.Prime] (n : ℕ) :
    (∀ {expected : Bitvec (ZMod p) n} {terms : List (List (Bitvec (ZMod p) n))} {want : List Bool}
      {words : List (List (List Bool))},
      Stands expected terms want words → IsExact expected terms want words) ∧
    ∀ {expected : Bitvec Gf2128Elt n} {terms : List (List (Bitvec Gf2128Elt n))} {want : List Bool}
      {words : List (List (List Bool))},
      Stands expected terms want words → (IsExact expected terms want words ↔ n ≠ 0) :=
  ⟨prime_exact, binary_exact⟩

instance prime_seventeen : Fact (Nat.Prime 17) := ⟨by norm_num⟩

theorem stands_five [FieldWrappingSum E]
    (admitted : Admitted (FieldWrappingSum.pseudoDimensionOfMultiplicativeGroup E) 2 2) :
    Stands (Bitvec.konst 1#2 : Bitvec E 2) [[Bitvec.konst 3#2], [Bitvec.konst 2#2]] (bitsOf 1#2)
      [[bitsOf 3#2], [bitsOf 2#2]] :=
  ⟨Bitvec.konst_holds _, .cons (.cons (Bitvec.konst_holds _) .nil)
    (.cons (.cons (Bitvec.konst_holds _) .nil) .nil), admitted⟩

/-- Three and two are one modulo four, in both fields. -/
theorem assertWrappingSum_exact_five :
    IsExact (Bitvec.konst 1#2 : Bitvec (ZMod 17) 2) [[Bitvec.konst 3#2], [Bitvec.konst 2#2]]
        (bitsOf 1#2) [[bitsOf 3#2], [bitsOf 2#2]] ∧
      (IsExact (Bitvec.konst 1#2 : Bitvec Gf2128Elt 2) [[Bitvec.konst 3#2], [Bitvec.konst 2#2]]
        (bitsOf 1#2) [[bitsOf 3#2], [bitsOf 2#2]] ↔ 2 ≠ 0) :=
  ⟨(assertWrappingSum_exact 2).1 (stands_five ⟨by decide, by decide, by decide⟩),
    (assertWrappingSum_exact (p := 17) 2).2 (stands_five ⟨by decide, by decide, by decide⟩)⟩

/-- **One word of no bits**, which is the sum of itself. -/
theorem empty_word_panics :
    ¬∀ {n : ℕ} {expected : Bitvec Gf2128Elt n} {terms : List (List (Bitvec Gf2128Elt n))}
      {want : List Bool} {words : List (List (List Bool))},
      Stands expected terms want words → IsExact expected terms want words := by
  intro always
  have stands : Stands (Bitvec.konst 0#0 : Bitvec Gf2128Elt 0) [[Bitvec.konst 0#0]] (bitsOf 0#0)
      [[bitsOf 0#0]] :=
    ⟨Bitvec.konst_holds _, .cons (.cons (Bitvec.konst_holds _) .nil) .nil,
      ⟨by decide, by decide, by decide⟩⟩
  obtain ⟨held, ran, -⟩ := always stands
  rw [assertWrappingSum_zero stands] at ran
  cases ran

end AnalogAdder

end Longfellow.Gadget
