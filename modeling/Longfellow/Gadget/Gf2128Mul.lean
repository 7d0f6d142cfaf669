/-
**Multiplication of bits modulo a polynomial** (`circuits/gf2_128/src/circuit.rs`).

The circuit multiplies two words of bits as polynomials over the field of two elements, by three
products of halves from a threshold on, and reduces: a bit of the remainder is the parity of the
bits of the product that its taps list.

* `karatsuba_returns` — **the bits of the product**, for every power of two.
-/

import Longfellow.Gadget.Bitvec

set_option linter.unusedSectionVars false

namespace Longfellow.Gadget

open Lib CompileField Polynomial

variable {E : Type} [CompileField E] [DecidableEq E]

namespace Gf2128Mul

def threshold : ℕ := 16

/-- The product, coefficient by coefficient. -/
def gf2PolynomialMultiplier (a b : List (Bitw E)) : Exec String (List (Bitw E)) := do
  ensure (a.length = b.length) "assertion `left == right` failed"
  (List.range (2 * a.length)).mapM fun k => do
    let t ← ((List.range a.length).filter fun i =>
        decide (i ≤ k) && decide (k - i < a.length)).mapM fun i => do
      return Boolean.andb (← getAt a i) (← getAt b (k - i))
    return Boolean.parity t

/-- The product, from three products of halves. -/
def gf2PolynomialMultiplierKaratsuba (a b : List (Bitw E)) : Exec String (List (Bitw E)) := do
  ensure (a.length = b.length) "assertion `left == right` failed"
  ensure (a.length.isPowerOfTwo) "assertion failed: w.is_power_of_two()"
  if _small : a.length < threshold then gf2PolynomialMultiplier a b
  else
    let ab01Raw ← gf2PolynomialMultiplierKaratsuba
      (List.zipWith Boolean.xorb (a.take (a.length / 2)) (a.drop (a.length / 2)))
      (List.zipWith Boolean.xorb (b.take (a.length / 2)) (b.drop (a.length / 2)))
    let a0b0 ← gf2PolynomialMultiplierKaratsuba (a.take (a.length / 2)) (b.take (a.length / 2))
    let a1b1 ← gf2PolynomialMultiplierKaratsuba (a.drop (a.length / 2)) (b.drop (a.length / 2))
    let ab01 := List.zipWith (fun ab aa => Boolean.xor3 ab aa.1 aa.2) ab01Raw (a0b0.zip a1b1)
    let half := a.length / 2
    let c0 := a0b0.take half
    let c1 := List.zipWith Boolean.xorb ((a0b0.drop half).take half) (ab01.take half)
    let c2 := List.zipWith Boolean.xorb ((ab01.drop half).take half) (a1b1.take half)
    let c3 := a1b1.drop half
    return c0 ++ c1 ++ c2 ++ c3
termination_by a.length
decreasing_by
  all_goals
    simp only [List.length_zipWith, List.length_take, List.length_drop]
    unfold threshold at _small
    omega

/-- A shift by one place: the bit that leaves the word, and the word. -/
def shiftLeft (r : List Bool) : Bool × List Bool := (r.getLastD false, false :: r.dropLast)

/-- The next power: the taps of the bits that are set, and the shifted word, reduced. -/
def tapStep (lowerTerms : List ℕ) (s : List (List ℕ) × List Bool) (i : ℕ) :
    List (List ℕ) × List Bool :=
  (List.zipWith (fun taps set => if set then taps ++ [i] else taps) s.1 s.2,
    if (shiftLeft s.2).1 then
      lowerTerms.foldl (fun r term => r.modify term (!·)) (shiftLeft s.2).2
    else (shiftLeft s.2).2)

/-- For each bit of a remainder, the bits of the product that it adds up. -/
def generateTaps (n : ℕ) (lowerTerms : List ℕ) : List (List ℕ) :=
  ((List.range (2 * n - 1)).foldl (tapStep lowerTerms)
    (List.replicate n [], true :: List.replicate (n - 1) false)).1

def taps : List (List ℕ) := generateTaps 128 [0, 1, 2, 7]

/-- The product of two words modulo the modulus. -/
def mul (a b : V128 E) : Exec String (V128 E) := do
  let t ← gf2PolynomialMultiplierKaratsuba a.bits b.bits
  let cBits ← (List.range 128).mapM fun i => do
    let tmp ← (← getAt taps i).mapM fun ti => getAt t ti
    return Boolean.parity tmp
  Bitvec.new 128 cBits

/-! ### The product -/

variable {a b : List (Bitw E)} {xs ys : List Bool}

/-- **The product, coefficient by coefficient.** -/
theorem multiplier_returns (ha : List.Forall₂ Bitw.Encodes a xs)
    (hb : List.Forall₂ Bitw.Encodes b ys) (size : xs.length = ys.length) :
    ∃ c, gf2PolynomialMultiplier a b = .ok c ∧
      List.Forall₂ Bitw.Encodes c (productBits xs ys) := by
  unfold gf2PolynomialMultiplier
  rw [ensure_of (by rw [ha.length_eq, hb.length_eq, size]), ok_bind, ha.length_eq]
  refine mapM_related fun k _ => ?_
  obtain ⟨t, ran, encodes⟩ := mapM_related (r := Bitw.Encodes (E := E))
    (l := (List.range xs.length).filter fun i => decide (i ≤ k) && decide (k - i < xs.length))
    (g := fun i => xs.getD i false && ys.getD (k - i) false)
    (f := fun i => do return Boolean.andb (← getAt a i) (← getAt b (k - i)))
    fun i member => by
      simp only [List.mem_filter, List.mem_range, Bool.and_eq_true, decide_eq_true_eq] at member
      obtain ⟨x, found, isX⟩ := getAt_encodes ha member.1
      obtain ⟨y, found', isY⟩ := getAt_encodes hb (size ▸ member.2.2)
      exact ⟨_, by rw [found, ok_bind, found', ok_bind]; rfl, Boolean.andb_encodes isX isY⟩
  exact ⟨Boolean.parity t, by rw [ran, ok_bind]; rfl, Boolean.parity_encodes encodes⟩

/-- The bits of a list that stand for a polynomial. -/
def IsPoly (a : List (Bitw E)) (n : ℕ) (P : (ZMod 2)[X]) : Prop :=
  ∃ xs, List.Forall₂ Bitw.Encodes a xs ∧ xs.length = n ∧ polyBits xs = P

variable {n : ℕ} {P : (ZMod 2)[X]}

theorem IsPoly.halves (is : IsPoly a (2 * n) P) :
    ∃ P0 P1, IsPoly (a.take n) n P0 ∧ IsPoly (a.drop n) n P1 ∧ P = P0 + X ^ n * P1 := by
  obtain ⟨xs, each, size, rfl⟩ := is
  have low : (xs.take n).length = n := by
    rw [List.length_take]
    omega
  refine ⟨_, _, ⟨_, List.forall₂_take n each, low, rfl⟩,
    ⟨_, List.forall₂_drop n each, by rw [List.length_drop]; omega, rfl⟩, ?_⟩
  conv_lhs => rw [← List.take_append_drop n xs, polyBits_append, low]

variable {c : List (Bitw E)} {Q : (ZMod 2)[X]}

theorem IsPoly.append {m : ℕ} (left : IsPoly a n P) (right : IsPoly c m Q) :
    IsPoly (a ++ c) (n + m) (P + X ^ n * Q) := by
  obtain ⟨xs, each, size, rfl⟩ := left
  obtain ⟨ys, each', size', rfl⟩ := right
  exact ⟨xs ++ ys, List.rel_append each each', by rw [List.length_append, size, size'],
    by rw [polyBits_append, size]⟩

theorem IsPoly.xor (left : IsPoly a n P) (right : IsPoly c n Q) :
    IsPoly (List.zipWith Boolean.xorb a c) n (P + Q) := by
  obtain ⟨xs, each, size, rfl⟩ := left
  obtain ⟨ys, each', size', rfl⟩ := right
  refine ⟨_, forall₂_zipWith (f := Boolean.xorb) (g := (· ^^ ·)) Boolean.xorb_encodes each each', ?_,
    polyBits_xor (size.trans size'.symm)⟩
  rw [List.length_zipWith, size, size', Nat.min_self]

theorem IsPoly.xor3 {d : List (Bitw E)} {R : (ZMod 2)[X]} (first : IsPoly a n P)
    (second : IsPoly c n Q) (third : IsPoly d n R) :
    IsPoly (List.zipWith (fun ab aa => Boolean.xor3 ab aa.1 aa.2) a (c.zip d)) n (P + (Q + R)) := by
  have shape : List.zipWith (fun ab aa => Boolean.xor3 ab aa.1 aa.2) a (c.zip d) =
      List.zipWith Boolean.xorb a (List.zipWith Boolean.xorb c d) := by
    rw [List.zip, List.zipWith_zipWith_right, List.zipWith_zipWith_right]
    rfl
  rw [shape]
  exact first.xor (second.xor third)

theorem IsPoly.length_eq (is : IsPoly a n P) : a.length = n := by
  obtain ⟨xs, each, size, -⟩ := is
  exact each.length_eq.trans size

theorem multiplier_isPoly (ha : IsPoly a n P) (hb : IsPoly b n Q) :
    ∃ c, gf2PolynomialMultiplier a b = .ok c ∧ IsPoly c (2 * n) (P * Q) := by
  obtain ⟨xs, each, size, rfl⟩ := ha
  obtain ⟨ys, each', size', rfl⟩ := hb
  obtain ⟨c, ran, encodes⟩ := multiplier_returns each each' (size.trans size'.symm)
  refine ⟨c, ran, _, encodes, ?_, polyBits_productBits (size.trans size'.symm)⟩
  rw [productBits, List.length_map, List.length_range, size]

/-- **The bits of the product**, for every power of two. -/
theorem karatsuba_returns {e : ℕ} (ha : IsPoly a (2 ^ e) P) (hb : IsPoly b (2 ^ e) Q) :
    ∃ c, gf2PolynomialMultiplierKaratsuba a b = .ok c ∧ IsPoly c (2 * 2 ^ e) (P * Q) := by
  induction e generalizing a b P Q with
  | zero =>
    rw [gf2PolynomialMultiplierKaratsuba, ensure_of (ha.length_eq.trans hb.length_eq.symm),
      ok_bind, ensure_of ⟨0, ha.length_eq⟩, ok_bind, dif_pos (by rw [ha.length_eq]; decide)]
    exact multiplier_isPoly ha hb
  | succ d ih =>
    rw [gf2PolynomialMultiplierKaratsuba, ensure_of (ha.length_eq.trans hb.length_eq.symm),
      ok_bind, ensure_of ⟨d + 1, ha.length_eq⟩, ok_bind]
    by_cases small : a.length < threshold
    · rw [dif_pos small]
      exact multiplier_isPoly ha hb
    · have half : a.length / 2 = 2 ^ d := by
        rw [ha.length_eq, pow_succ, Nat.mul_div_cancel _ (by decide)]
      rw [dif_neg small, half]
      rw [pow_succ'] at ha hb
      obtain ⟨P0, P1, lowP, highP, rfl⟩ := ha.halves
      obtain ⟨Q0, Q1, lowQ, highQ, rfl⟩ := hb.halves
      obtain ⟨raw, ranRaw, isRaw⟩ := ih (lowP.xor highP) (lowQ.xor highQ)
      obtain ⟨low, ranLow, isLow⟩ := ih lowP lowQ
      obtain ⟨high, ranHigh, isHigh⟩ := ih highP highQ
      have isMiddle := isRaw.xor3 isLow isHigh
      obtain ⟨L0, L1, first, second, shapeL⟩ := isLow.halves
      obtain ⟨M0, M1, first', second', shapeM⟩ := isMiddle.halves
      obtain ⟨H0, H1, first'', second'', shapeH⟩ := isHigh.halves
      have whole : (low.drop (2 ^ d)).take (2 ^ d) = low.drop (2 ^ d) :=
        List.take_of_length_le second.length_eq.le
      refine ⟨_, by rw [ranRaw, ok_bind, ranLow, ok_bind, ranHigh, ok_bind]; rfl, ?_⟩
      rw [whole, List.take_of_length_le second'.length_eq.le]
      have joined := ((first.append (second.xor first')).append (second'.xor first'')).append
        second''
      have total : 2 * 2 ^ (d + 1) = 2 ^ d + 2 ^ d + 2 ^ d + 2 ^ d := by
        rw [pow_succ]
        omega
      convert joined using 1
      simp only [pow_add]
      linear_combination shapeL + X ^ 2 ^ d * shapeM + X ^ 2 ^ d * X ^ 2 ^ d * shapeH -
        X ^ 2 ^ d * (P0 * Q0 + P1 * Q1) * two_eq_zero_poly

/-! ### The taps -/

open Gf2128

/-- **The state of the loop that generates the taps**: the power of `X`, and the taps so far, which
reduce the coefficients so far. -/
structure Reduces (t : ℕ → Bool) (i : ℕ) (s : List (List ℕ) × List Bool) : Prop where
  taps : s.1.length = 128
  size : s.2.length = 128
  power : classOf (polyBits s.2) = classOf X ^ i
  below : ∀ tap ∈ s.1, ∀ k ∈ tap, k < i
  sums : classOf (polyBits (s.1.map fun tap => xorAll (tap.map t))) =
    classOf (polyBits ((List.range i).map t))

/-- A shift by one place multiplies by `X`. -/
theorem polyBits_shiftLeft {r : List Bool} (occupied : r ≠ []) :
    X * polyBits r = polyBits (shiftLeft r).2 + X ^ r.length * C (bitVal (shiftLeft r).1) := by
  have shape := List.dropLast_append_getLast occupied
  have long : r.dropLast.length + 1 = r.length := by
    rw [List.length_dropLast]
    have := List.length_pos_iff.mpr occupied
    omega
  conv_lhs => rw [← shape, polyBits_concat]
  rw [shiftLeft, polyBits_cons, bitVal_false, C_0, zero_add, ← long, pow_succ',
    List.getLastD_eq_getLast?, List.getLast?_eq_some_getLast occupied, Option.getD_some]
  ring

theorem polyBits_lower {r : List Bool} (size : r.length = 128) :
    polyBits ([0, 1, 2, 7].foldl (fun r term => r.modify term (!·)) r) =
      polyBits r + Gf2128.tail := by
  simp only [List.foldl_cons, List.foldl_nil]
  rw [polyBits_modify (by simp [size]), polyBits_modify (by simp [size]),
    polyBits_modify (by simp [size]), polyBits_modify (by simp [size]), Gf2128.tail]
  ring

theorem tapStep_keeps {t : ℕ → Bool} {i : ℕ} {s : List (List ℕ) × List Bool}
    (state : Reduces t i s) : Reduces t (i + 1) (tapStep [0, 1, 2, 7] s i) := by
  obtain ⟨taps, r⟩ := s
  have shifted : (shiftLeft r).2.length = 128 := by
    rw [shiftLeft, List.length_cons, List.length_dropLast, state.size]
  have occupied : r ≠ [] := List.ne_nil_of_length_pos (by rw [state.size]; decide)
  have times := congrArg classOf (polyBits_shiftLeft occupied)
  rw [state.size, classOf_mul, state.power, classOf_add, classOf_mul, classOf_pow] at times
  refine ⟨?_, ?_, ?_, ?_, ?_⟩
  · rw [tapStep, List.length_zipWith, state.taps, state.size, Nat.min_self]
  · dsimp only [tapStep]
    split
    · simpa using shifted
    · exact shifted
  · dsimp only [tapStep]
    rw [pow_succ', times]
    split
    next carry =>
      rw [polyBits_lower shifted, classOf_add, carry, bitVal_true, C_1, classOf_one, mul_one,
        X_pow_128]
      simp only [tail, classOf_add, classOf_pow, classOf_one]
    next none =>
      rw [Bool.eq_false_of_not_eq_true none, bitVal_false, C_0, classOf_zero, mul_zero, add_zero]
  · intro tap member k inside
    obtain ⟨j, bound, rfl⟩ := List.mem_iff_getElem.mp member
    simp only [tapStep, List.getElem_zipWith] at inside
    have inBounds : j < taps.length := by
      rw [tapStep, List.length_zipWith] at bound
      exact lt_of_lt_of_le bound (Nat.min_le_left ..)
    have earlier := state.below _ (List.getElem_mem inBounds)
    split at inside
    · rcases List.mem_append.mp inside with before | last
      · exact Nat.lt_succ_of_lt (earlier k before)
      · rw [List.mem_singleton.mp last]
        exact Nat.lt_succ_self i
    · exact Nat.lt_succ_of_lt (earlier k inside)
  · have push : (tapStep [0, 1, 2, 7] (taps, r) i).1.map (fun tap => xorAll (tap.map t)) =
        List.zipWith (· ^^ ·) (taps.map fun tap => xorAll (tap.map t)) (r.map (t i && ·)) := by
      rw [tapStep, List.map_zipWith, List.zipWith_map]
      congr 1
      funext tap set
      cases set
      · simp
      · simp [xorAll_append]
    rw [push, polyBits_xor (by rw [List.length_map, List.length_map, state.taps, state.size]),
      polyBits_and, classOf_add, classOf_mul, state.sums, state.power, List.range_succ,
      List.map_append, List.map_singleton, polyBits_concat, classOf_add, classOf_mul, classOf_pow,
      List.length_map, List.length_range, mul_comm]

/-- **The taps reduce a product.** -/
theorem taps_reduce (t : ℕ → Bool) :
    Gf2128Mul.taps.length = 128 ∧ (∀ tap ∈ Gf2128Mul.taps, ∀ k ∈ tap, k < 255) ∧
      classOf (polyBits (Gf2128Mul.taps.map fun tap => xorAll (tap.map t))) =
        classOf (polyBits ((List.range 255).map t)) := by
  have general : ∀ n, Reduces t n ((List.range n).foldl (tapStep [0, 1, 2, 7])
      (List.replicate 128 [], true :: List.replicate (128 - 1) false)) := by
    intro n
    induction n with
    | zero =>
      refine ⟨List.length_replicate, ?_, ?_, ?_, ?_⟩
      · rw [List.range_zero, List.foldl_nil, List.length_cons, List.length_replicate]
      · rw [List.range_zero, List.foldl_nil, polyBits_cons, polyBits_replicate_false, mul_zero,
          add_zero, bitVal_true, C_1, classOf_one, pow_zero]
      · intro tap member
        rw [List.eq_of_mem_replicate member]
        exact fun k absent => absurd absent List.not_mem_nil
      · rw [List.range_zero, List.foldl_nil, List.map_replicate, List.map_nil, xorAll_nil,
          polyBits_replicate_false, polyBits_nil]
    | succ n ih =>
      rw [List.range_succ, List.foldl_append, List.foldl_cons, List.foldl_nil]
      exact tapStep_keeps ih
  have last := general (2 * 128 - 1)
  rw [Gf2128Mul.taps, generateTaps]
  exact ⟨last.taps, last.below, last.sums⟩

/-! ### The circuit -/

theorem polyBits_product {zs : List Bool} {x y : BitVec 128}
    (product : polyBits zs = toPoly x * toPoly y) :
    polyBits ((List.range 255).map fun k => zs.getD k false) = polyBits zs := by
  have word : ∀ z : BitVec 128, (toPoly z).natDegree ≤ 127 := fun z =>
    natDegree_le_iff_coeff_eq_zero.mpr fun k high => by
      rw [coeff_toPoly, BitVec.getLsbD_of_ge z k (by omega), bitVal_false]
  have low : (polyBits zs).natDegree ≤ 254 :=
    product ▸ natDegree_mul_le.trans (Nat.add_le_add (word x) (word y))
  ext k
  rw [coeff_polyBits]
  by_cases inside : k < 255
  · rw [List.getD_eq_getElem _ _ (by simpa using inside), List.getElem_map, List.getElem_range,
      coeff_polyBits]
  · rw [List.getD_eq_default _ _ (by simpa using inside), bitVal_false]
    exact (coeff_eq_zero_of_natDegree_lt (by omega)).symm

theorem map_range_getD {A B : Type} {l : List A} (size : l.length = n) (f : A → B) (default : A) :
    (List.range n).map (fun i => f (l.getD i default)) = l.map f := by
  refine List.ext_getElem (by simp [size]) fun i inside inside' => ?_
  rw [List.length_map] at inside'
  simp [inside']

/-- **The circuit computes the product modulo the modulus.** -/
theorem mul_holds {a b : V128 E} {x y : BitVec 128} (left : a.Holds x) (right : b.Holds y) :
    ∃ c, mul a b = .ok c ∧ c.Holds (Gf2128.Compile.mul x y) := by
  have isX : IsPoly a.bits (2 ^ 7) (toPoly x) := ⟨_, left, length_bitsOf x, polyBits_bitsOf x⟩
  have isY : IsPoly b.bits (2 ^ 7) (toPoly y) := ⟨_, right, length_bitsOf y, polyBits_bitsOf y⟩
  obtain ⟨t, ran, zs, encodes, size, product⟩ := karatsuba_returns isX isY
  obtain ⟨count, below, sums⟩ := taps_reduce fun k => zs.getD k false
  obtain ⟨cBits, ranC, encodesC⟩ := mapM_related (r := Bitw.Encodes (E := E)) (l := List.range 128)
    (g := fun i => xorAll ((taps.getD i []).map fun k => zs.getD k false))
    (f := fun i => do
      let tmp ← (← getAt taps i).mapM fun ti => getAt t ti
      return Boolean.parity tmp) fun i member => by
    have inside : i < taps.length := by rwa [count, ← List.mem_range]
    obtain ⟨tmp, ranTmp, encodesTmp⟩ := mapM_related (r := Bitw.Encodes (E := E)) (l := taps[i])
      (g := fun k => zs.getD k false) (f := fun ti => getAt t ti) fun k member => by
        have low := below _ (List.getElem_mem inside) k member
        exact getAt_encodes encodes (by omega)
    refine ⟨Boolean.parity tmp, by rw [getAt_of_lt inside, ok_bind, ranTmp, ok_bind]; rfl, ?_⟩
    rw [List.getD_eq_getElem _ _ inside]
    exact Boolean.parity_encodes encodesTmp
  rw [map_range_getD count (fun tap => xorAll (tap.map fun k => zs.getD k false)) []] at encodesC
  have long : cBits.length = 128 := by rw [encodesC.length_eq, List.length_map, count]
  refine ⟨⟨cBits, long⟩, ?_, ?_⟩
  · rw [mul, ran, ok_bind, ranC, ok_bind, Bitvec.new_eq_ok long]
  · rw [polyBits_product product, product] at sums
    have same : classOf (toPoly (Gf2128.Compile.mul x y)) = classOf (polyBits
        (taps.map fun tap => xorAll (tap.map fun k => zs.getD k false))) :=
      (shiftXor_spec x y).trans ((classOf_mul _ _).symm.trans sums.symm)
    have long' : (taps.map fun tap => xorAll (tap.map fun k => zs.getD k false)).length = 128 := by
      rw [List.length_map, count]
    rw [Bitvec.Holds, polyBits_injective (by rw [length_bitsOf, long'])
      ((polyBits_bitsOf _).trans ((toPoly_eq_mod same).trans (polyBits_mod long'.le)))]
    exact encodesC

end Gf2128Mul

end Longfellow.Gadget
