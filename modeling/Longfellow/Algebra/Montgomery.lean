/-
**The interleaved product.**

The buffer of the Montgomery product, round by round. Before round `i` it holds, from limb `i`
on, a number `T < 2 M` with `T · B ^ i ≡ (a mod B ^ i) · b`; nothing stands above the window.

* `montgomeryMul_returns` — **the product**.
-/

import Longfellow.Algebra.FpGeneric
import Mathlib.Data.BitVec
import Mathlib.Data.ZMod.Basic

namespace Longfellow.FpGeneric

open Lib Limb

variable {n : ℕ}

/-! ### The constants -/

@[simp] theorem oneLimbs_length (n L : ℕ) : (oneLimbs n L).length = L := by simp [oneLimbs]

theorem oneLimbs_val (positive : 0 < n) {L : ℕ} (some : 0 < L) :
    wordsVal (oneLimbs n L) = 1 := by
  obtain ⟨L, rfl⟩ : ∃ k, L = k + 1 := ⟨L - 1, by omega⟩
  rw [oneLimbs, List.replicate_succ, List.set_cons_zero, wordsVal_cons, wordsVal_replicate_zero,
    BitVec.toNat_ofNat, Nat.mod_eq_of_lt (Nat.one_lt_two_pow (by omega)), Nat.mul_zero]

theorem newton_error (m0 inv : BitVec n) :
    1 - m0 * (inv * (2 - m0 * inv)) = (1 - m0 * inv) * (1 - m0 * inv) := by
  ring

/-- After `k` rounds the error is a multiple of `2 ^ 2 ^ k`. -/
theorem newton_iterate {m0 : BitVec n} (odd : m0.toNat % 2 = 1) (k : ℕ) :
    ∃ e, 1 - m0 * (fun inv => inv * (2 - m0 * inv))^[k] m0 = BitVec.ofNat n (2 ^ 2 ^ k) * e := by
  induction k with
  | zero =>
    have split : m0 = 2 * BitVec.ofNat n (m0.toNat / 2) + 1 := by
      apply BitVec.eq_of_toNat_eq
      have half := Nat.div_add_mod m0.toNat 2
      have value : 2 * BitVec.ofNat n (m0.toNat / 2) + 1 =
          BitVec.ofNat n (2 * (m0.toNat / 2) + 1) := by
        rw [BitVec.ofNat_add, BitVec.ofNat_mul]
        rfl
      rw [value, BitVec.toNat_ofNat, ← odd, half, Nat.mod_eq_of_lt m0.isLt]
    generalize BitVec.ofNat n (m0.toNat / 2) = h at split
    refine ⟨-(2 * h * h) - 2 * h, ?_⟩
    rw [Function.iterate_zero, id_eq, split]
    show _ = 2 * _
    ring
  | succ k ih =>
    obtain ⟨e, error⟩ := ih
    refine ⟨e * e, ?_⟩
    rw [Function.iterate_succ_apply', newton_error, error, pow_succ 2 k, pow_mul, pow_two,
      BitVec.ofNat_mul]
    ring

/-- **The inverse of an odd limb.** -/
theorem computeMPrime_spec (narrow : n ≤ 64) {m0 : BitVec n} (odd : m0.toNat % 2 = 1) :
    m0 * computeMPrime m0 = -1 := by
  obtain ⟨e, error⟩ := newton_iterate odd 6
  have vanishes : BitVec.ofNat n (2 ^ 2 ^ 6) = 0 := by
    apply BitVec.eq_of_toNat_eq
    rw [BitVec.toNat_ofNat, BitVec.ofNat_eq_ofNat, BitVec.toNat_zero]
    exact Nat.mod_eq_zero_of_dvd (Nat.pow_dvd_pow 2 narrow)
  rw [vanishes, zero_mul, sub_eq_zero] at error
  rw [computeMPrime, mul_neg, ← error]

/-! ### The reduction -/

/-- The constants that the product computes with, for a modulus `m` of `L` limbs. -/
structure Constants (L : ℕ) (modulo negm : List (BitVec n)) (mPrime : BitVec n) (m : ℕ) : Prop where
  wide : 2 ≤ n
  narrow : n ≤ 64
  some : 0 < L
  length : modulo.length = L
  value : wordsVal modulo = m
  negLength : negm.length = L
  opposite : wordsVal negm + m = (2 ^ n) ^ L
  inverse : ∀ m0, modulo.head? = .some m0 → m0 * mPrime = -1

section

variable {L m : ℕ} {modulo negm : List (BitVec n)} {mPrime : BitVec n}

section

variable (constants : Constants L modulo negm mPrime m)
include constants

theorem Constants.modulus_lt : m < (2 ^ n) ^ L := by
  rw [← constants.value, ← constants.length]
  exact wordsVal_lt modulo

theorem Constants.modulus_pos : 0 < m := by
  have neg := wordsVal_lt negm
  have opposite := constants.opposite
  rw [constants.negLength] at neg
  omega

theorem Constants.radix : 4 ≤ 2 ^ n :=
  Nat.pow_le_pow_right (n := 2) (by decide) constants.wide

end

variable {t : List (BitVec n)}

/-- **One reduction step** adds the multiple of the modulus that clears the low limb. -/
theorem reductionStep_returns (constants : Constants L modulo negm mPrime m)
    (bound : L + 1 ≤ t.length) (fits : wordsVal t + 2 ^ n * m ≤ (2 ^ n) ^ t.length) :
    ∃ reduced q, reductionStep t 0 modulo mPrime = .ok reduced ∧ reduced.length = t.length ∧
      q < 2 ^ n ∧ wordsVal reduced = wordsVal t + q * m ∧ 2 ^ n ∣ wordsVal reduced := by
  cases t with
  | nil => simp at bound
  | cons t0 t =>
    cases modulo with
    | nil =>
      have length := constants.length
      have some := constants.some
      simp at length
      omega
    | cons m0 modulo =>
      have inverse := constants.inverse m0 rfl
      have low := (t0 * mPrime).isLt
      have under : (t0 * mPrime).toNat * m + m ≤ 2 ^ n * m := by
        rw [← Nat.succ_mul]
        exact Nat.mul_le_mul_right m low
      have some := constants.modulus_pos
      obtain ⟨reduced, ran, size, value⟩ := mulAccum_returns (Nat.zero_lt_of_lt constants.wide)
        (a := t0 :: t) (y := m0 :: modulo) (k := 0) (t0 * mPrime)
        (by rw [constants.length]; omega)
        (by rw [constants.value, pow_zero, Nat.one_mul]; omega)
      rw [constants.value, pow_zero, Nat.one_mul] at value
      refine ⟨reduced, (t0 * mPrime).toNat, ?_, size, low, value, ?_⟩
      · rw [reductionStep, getAt_of_lt (Nat.zero_lt_succ _), ok_bind]
        exact ran
      · -- Modulo the radix only the low limbs count: `t₀ + t₀ m' m₀ = 0`.
        have clears : t0 + t0 * mPrime * m0 = 0 := by
          rw [mul_assoc, mul_comm mPrime, inverse, mul_neg, mul_one, add_neg_cancel]
        have residue := congrArg BitVec.toNat clears
        rw [BitVec.toNat_add, BitVec.toNat_mul, Nat.add_mod_mod, BitVec.ofNat_eq_ofNat,
          BitVec.toNat_zero] at residue
        rw [value, ← constants.value, wordsVal_cons, wordsVal_cons]
        have rest : t0.toNat + 2 ^ n * wordsVal t + (t0 * mPrime).toNat *
            (m0.toNat + 2 ^ n * wordsVal modulo) =
            t0.toNat + (t0 * mPrime).toNat * m0.toNat +
              2 ^ n * (wordsVal t + (t0 * mPrime).toNat * wordsVal modulo) := by ring
        rw [rest]
        exact (Nat.dvd_of_mod_eq_zero residue).add (Dvd.intro _ rfl)

/-! ### The product -/

variable {i : ℕ}

theorem window_val {k : ℕ} (bound : i + k ≤ t.length) (low : wordsVal (t.drop i) < (2 ^ n) ^ k) :
    wordsVal ((t.drop i).take k) = wordsVal (t.drop i) ∧ wordsVal (t.drop (i + k)) = 0 := by
  have room : k ≤ (t.drop i).length := by rw [List.length_drop]; omega
  constructor
  · rw [wordsVal_take _ room, Nat.mod_eq_of_lt low]
  · rw [← List.drop_drop, wordsVal_drop _ room, Nat.div_eq_of_lt low]

variable {work : List (BitVec n) → Exec String (List (BitVec n))}

/-- **Work on a window**: what follows the window holds nothing, before and after. -/
theorem withSlice_returns {w : List (BitVec n)} {k : ℕ} (bound : i + k ≤ t.length)
    (low : wordsVal (t.drop i) < (2 ^ n) ^ k) (ran : work ((t.drop i).take k) = .ok w)
    (size : w.length = k) :
    ∃ t', withSlice t i (i + k) work = .ok t' ∧ t'.length = t.length ∧
      wordsVal (t'.drop i) = wordsVal w := by
  refine ⟨t.take i ++ w ++ t.drop (i + k), ?_, ?_, ?_⟩
  · exact withSlice_of_le (by omega) bound (by rwa [Nat.add_sub_cancel_left])
  · rw [List.length_append, List.length_append, List.length_take, List.length_drop, size]
    omega
  · rw [List.append_assoc, List.drop_left' (by rw [List.length_take]; omega), wordsVal_append,
      (window_val bound low).2, Nat.mul_zero, Nat.add_zero]

theorem Constants.window_lt (constants : Constants L modulo negm mPrime m) :
    2 * m + 2 ^ n * m + 2 ^ n * m < (2 ^ n) ^ (L + 2) := by
  have modulus := constants.modulus_lt
  have radix := constants.radix
  have four := Nat.mul_le_mul radix (le_refl (2 ^ n * (2 ^ n) ^ L))
  have double := Nat.mul_le_mul radix (le_refl m)
  have top := Nat.mul_lt_mul_of_pos_left modulus (show 0 < 2 ^ n by omega)
  have square : (2 ^ n) ^ (L + 2) = 2 ^ n * (2 ^ n * (2 ^ n) ^ L) := by ring
  omega

variable {b : List (BitVec n)}

/-- **One round of the product** on a window of `L + 2` limbs. -/
theorem round_returns (constants : Constants L modulo negm mPrime m) {w : List (BitVec n)}
    (x : BitVec n) (size : w.length = L + 2) (low : wordsVal w < 2 * m) (length : b.length = L)
    (canonical : wordsVal b < m) :
    ∃ w', (mulAccum w 0 x b >>= fun w => reductionStep w 0 modulo mPrime) = .ok w' ∧
      w'.length = L + 2 ∧ ∃ q, q < 2 ^ n ∧
      wordsVal w' = wordsVal w + x.toNat * wordsVal b + q * m ∧ 2 ^ n ∣ wordsVal w' := by
  have modulus := constants.modulus_lt
  have radix := constants.radix
  have word := Nat.mul_le_mul (Nat.le_of_lt x.isLt) (Nat.le_of_lt canonical)
  have room := constants.window_lt
  obtain ⟨sum, added, sumSize, sumVal⟩ := mulAccum_returns (Nat.zero_lt_of_lt constants.wide)
    (a := w) (y := b) (k := 0) x (by omega)
    (by rw [size, pow_zero, Nat.one_mul]; omega)
  rw [pow_zero, Nat.one_mul] at sumVal
  obtain ⟨reduced, q, ran, reducedSize, qLow, value, divides⟩ := reductionStep_returns constants
    (t := sum) (by omega) (by rw [sumSize, size, sumVal]; omega)
  refine ⟨reduced, ?_, by omega, q, qLow, by rw [value, sumVal], divides⟩
  rw [added, ok_bind, ran]

/-- What a buffer of `size` limbs holds before round `i` of a product with `b`. -/
structure Rounds (size m : ℕ) (a : List (BitVec n)) (b i : ℕ) (t : List (BitVec n)) : Prop where
  size : t.length = size
  low : wordsVal (t.drop i) < 2 * m
  value : (wordsVal (t.drop i) * ((2 ^ n) ^ i : ℕ) : ZMod m) = (wordsVal (a.take i) : ZMod m) * b

variable {size : ℕ} {a : List (BitVec n)}

theorem Rounds.next {b : ℕ} {t' : List (BitVec n)} (round : Rounds size m a b i t)
    (index : i < a.length) (canonical : b < m) (length : t'.length = size) {q : ℕ}
    (qLow : q < 2 ^ n) (value : wordsVal (t'.drop i) = wordsVal (t.drop i) + a[i].toNat * b + q * m)
    (divides : 2 ^ n ∣ wordsVal (t'.drop i)) (inside : i < size) :
    Rounds size m a b (i + 1) t' := by
  obtain ⟨quotient, exact'⟩ := divides
  have nextVal : wordsVal (t'.drop (i + 1)) = quotient := by
    rw [← List.drop_drop, wordsVal_drop _ (by rw [List.length_drop]; omega), exact', pow_one,
      Nat.mul_div_cancel_left _ (by positivity)]
  rw [exact'] at value
  refine ⟨length, ?_, ?_⟩
  · have low := round.low
    have word := Nat.mul_le_mul_left a[i].toNat (Nat.le_of_lt canonical)
    have words := Nat.mul_le_mul_right m (Nat.succ_le_of_lt a[i].isLt)
    have steps := Nat.mul_le_mul_right m (Nat.succ_le_of_lt qLow)
    rw [Nat.succ_mul] at words steps
    rw [nextVal]
    exact Nat.lt_of_mul_lt_mul_left (a := 2 ^ n)
      (show 2 ^ n * quotient < 2 ^ n * (2 * m) by rw [Nat.mul_left_comm]; omega)
  · have cast := congrArg (Nat.cast (R := ZMod m)) value
    have before := round.value
    push_cast [ZMod.natCast_self] at cast before ⊢
    rw [nextVal, List.take_succ_eq_append_getElem index, wordsVal_append, List.length_take,
      min_eq_left (Nat.le_of_lt index), wordsVal_cons, wordsVal_nil]
    push_cast
    rw [pow_succ]
    linear_combination (2 ^ n) ^ i * cast + before

theorem set_zero {j : ℕ} (zero : wordsVal (t.drop j) = 0) :
    t.set j 0#n = t := by
  by_cases inside : j < t.length
  · rw [List.drop_eq_getElem_cons inside, wordsVal_cons] at zero
    have cell : t[j] = 0#n := BitVec.eq_of_toNat_eq (by rw [BitVec.toNat_zero]; omega)
    rw [← cell, List.set_getElem_self]
  · exact List.set_eq_of_length_le (by omega)

variable (constants : Constants L modulo negm mPrime m)
include constants

theorem Rounds.window {b : ℕ} (round : Rounds size m a b i t) (k : ℕ) :
    wordsVal (t.drop i) < (2 ^ n) ^ (L + 1 + k) := by
  have low := round.low
  have modulus := constants.modulus_lt
  have radix := Nat.mul_le_mul_right ((2 ^ n) ^ L) constants.radix
  have more : (2 ^ n) ^ (L + 1) ≤ (2 ^ n) ^ (L + 1 + k) :=
    Nat.pow_le_pow_right (by positivity) (by omega)
  rw [pow_succ' (2 ^ n) L] at more
  omega

/-- **A round in its window of the buffer.** -/
theorem Rounds.step {b : ℕ} (round : Rounds size m a b i t) (room : i + L + 2 ≤ size)
    (index : i < a.length) (canonical : b < m)
    (works : ∀ w : List (BitVec n), w.length = L + 2 → wordsVal w < 2 * m → ∃ w', work w = .ok w' ∧
      w'.length = L + 2 ∧ ∃ q, q < 2 ^ n ∧ wordsVal w' = wordsVal w + a[i].toNat * b + q * m ∧
      2 ^ n ∣ wordsVal w') :
    ∃ t', withSlice t i (i + L + 2) work = .ok t' ∧ Rounds size m a b (i + 1) t' := by
  have length := round.size
  have windowSize : ((t.drop i).take (L + 2)).length = L + 2 := by
    rw [List.length_take, List.length_drop]
    omega
  have windowVal : wordsVal ((t.drop i).take (L + 2)) = wordsVal (t.drop i) :=
    (window_val (by omega) (round.window constants 1)).1
  obtain ⟨w, worked, wSize, q, qLow, value, divides⟩ := works _ windowSize
    (by rw [windowVal]; exact round.low)
  obtain ⟨t', ran', size', value'⟩ := withSlice_returns (t := t) (i := i) (k := L + 2)
    (w := w) (by omega) (round.window constants 1) worked wSize
  exact ⟨t', ran', round.next index canonical (size'.trans length) qLow
    (by rw [value', value, windowVal]) (by rw [value']; exact divides) (by omega)⟩

theorem Rounds.mul (round : Rounds size m a (wordsVal b) i t) (room : i + L + 2 ≤ size)
    (index : i < a.length) (right : b.length = L) (canonical : wordsVal b < m) :
    ∃ t', (withSlice t i (i + L + 2) fun windowStep => do
        let windowStep ← mulAccum windowStep 0 (← getAt a i) b
        reductionStep windowStep 0 modulo mPrime) = .ok t' ∧
      Rounds size m a (wordsVal b) (i + 1) t' := by
  refine round.step constants room index canonical fun w wSize low => ?_
  simp only [getAt_of_lt index, ok_bind]
  exact round_returns constants a[i] wSize low right canonical

/-- **One round of the reduction of an accumulator** brings down one more limb. -/
theorem Rounds.fold (large : 1 < m) (round : Rounds size m a 1 i t) (room : i + L + 2 ≤ size)
    (index : i < a.length) :
    ∃ t', (withSlice t i (i + L + 2) fun window => do
        let window ← accum window 0 [← getAt a i]
        reductionStep window 0 modulo mPrime) = .ok t' ∧ Rounds size m a 1 (i + 1) t' := by
  refine round.step constants room index large fun w wSize low => ?_
  have limb : wordsVal [a[i]] = a[i].toNat := by rw [wordsVal_cons, wordsVal_nil]; rfl
  have word := a[i].isLt
  have modulus := constants.modulus_lt
  have radix := constants.radix
  have enough : 2 * m + 2 ^ n + 2 ^ n * m < (2 ^ n) ^ (L + 2) := by
    have four := Nat.mul_le_mul radix (le_refl (2 ^ n * (2 ^ n) ^ L))
    have double := Nat.mul_le_mul radix (le_refl m)
    have wide := Nat.mul_le_mul_left (2 ^ n) large
    have top := Nat.mul_lt_mul_of_pos_left modulus (show 0 < 2 ^ n by omega)
    have square : (2 ^ n) ^ (L + 2) = 2 ^ n * (2 ^ n * (2 ^ n) ^ L) := by ring
    omega
  obtain ⟨sum, added, sumSize, sumVal⟩ := accum_returns (Nat.zero_lt_of_lt constants.wide)
    (a := w) (b := [a[i]]) (k := 0) (by rw [wSize, List.length_singleton]; omega)
    (by rw [wSize, limb, pow_zero, Nat.one_mul]; omega)
  rw [limb, pow_zero, Nat.one_mul] at sumVal
  obtain ⟨reduced, q, ran, reducedSize, qLow, value, divides⟩ := reductionStep_returns constants
    (t := sum) (by omega) (by rw [sumSize, wSize, sumVal]; omega)
  refine ⟨reduced, ?_, by omega, q, qLow, by rw [value, sumVal, Nat.mul_one], divides⟩
  simp only [getAt_of_lt index, ok_bind]
  rw [added, ok_bind, ran]

/-- The first product goes into cells that hold nothing: the shortcut is the product. -/
theorem mulAccumZero_eq (x : BitVec n) (right : b.length = L) (canonical : wordsVal b < m) :
    mulAccumZero (List.replicate (L + 2) 0#n) 0 x b =
      mulAccum (List.replicate (L + 2) 0#n) 0 x b := by
  have positive := Nat.zero_lt_of_lt constants.wide
  have modulus := constants.modulus_lt
  have fits : wordsVal (List.replicate (L + 2) 0#n) + (2 ^ n) ^ 0 * (x.toNat * wordsVal b) <
      (2 ^ n) ^ (List.replicate (L + 2) 0#n).length := by
    have word := Nat.mul_le_mul (Nat.le_of_lt x.isLt) (Nat.le_of_lt canonical)
    have top := Nat.mul_lt_mul_of_pos_left modulus (show 0 < 2 ^ n by positivity)
    have more : (2 ^ n) ^ (L + 1) ≤ (2 ^ n) ^ (L + 2) :=
      Nat.pow_le_pow_right (by positivity) (by omega)
    rw [pow_succ' (2 ^ n) L] at more
    rw [wordsVal_replicate_zero, List.length_replicate, pow_zero, Nat.one_mul, Nat.zero_add]
    omega
  have bound : 0 + b.length + 1 ≤ (List.replicate (L + 2) 0#n).length := by
    rw [List.length_replicate]
    omega
  obtain ⟨sum, ran, size, value⟩ := mulAccum_returns positive x bound fits
  obtain ⟨sum', ran', size', value'⟩ := mulAccumZero_returns positive x bound
    (by rw [List.drop_zero, List.take_replicate, min_eq_left (by omega)]) fits
  rw [ran, ran', wordsVal_injective (size'.trans size.symm) (value'.trans value.symm)]

/-- **The buffer after all rounds**: the limbs and the carry above them, reduced once. -/
theorem Rounds.result {b : ℕ} (round : Rounds size m a b i t) (inside : i + L < t.length) :
    (maybeMinusM ((t.drop i).take L) t[i + L] negm).length = L ∧
      wordsVal (maybeMinusM ((t.drop i).take L) t[i + L] negm) < m ∧
      (wordsVal (maybeMinusM ((t.drop i).take L) t[i + L] negm) : ZMod m) =
        wordsVal (t.drop i) := by
  have resSize : ((t.drop i).take L).length = L := by
    rw [List.length_take, List.length_drop]
    omega
  have above := (window_val (by omega) (round.window constants 0)).2
  have value : wordsVal ((t.drop i).take L) + (2 ^ n) ^ L * t[i + L].toNat =
      wordsVal (t.drop i) := by
    rw [wordsVal_split (t.drop i) (k := L) (by rw [List.length_drop]; omega), List.drop_drop,
      List.drop_eq_getElem_cons inside, wordsVal_cons,
      show i + L + 1 = i + (L + 1 + 0) by omega, above, Nat.mul_zero, Nat.add_zero]
  obtain ⟨length, low, reduced⟩ := maybeMinusM_spec (h := t[i + L]) (m := m)
    (Nat.zero_lt_of_lt constants.wide) constants.narrow
    (resSize.trans constants.negLength.symm) (by rw [resSize]; exact constants.opposite)
    (by rw [resSize, value]; exact round.low)
  rw [resSize, value] at reduced
  refine ⟨length.trans resSize, low, ?_⟩
  rcases reduced with equal | equal
  · rw [equal]
  · rw [← equal, Nat.cast_add, ZMod.natCast_self, add_zero]

theorem Rounds.start (size : ℕ) (a : List (BitVec n)) (b : ℕ) :
    Rounds size m a b 0 (List.replicate size 0#n) := by
  have positive := constants.modulus_pos
  refine ⟨List.length_replicate, ?_, ?_⟩
  · rw [List.drop_zero, wordsVal_replicate_zero]
    omega
  · rw [List.drop_zero, wordsVal_replicate_zero, List.take_zero, wordsVal_nil, Nat.cast_zero,
      zero_mul, zero_mul]

/-- **The later rounds and the result.** Each round clears a cell that holds nothing. -/
theorem Rounds.later {b : ℕ} {t1 : List (BitVec n)} (rounds1 : Rounds size m a b 1 t1)
    (room : 2 * L < size) (left : a.length = L)
    {f : List (BitVec n) → ℕ → Exec String (List (BitVec n))}
    (works : ∀ {i t}, i < L → Rounds size m a b i t →
      ∃ t', f t i = .ok t' ∧ Rounds size m a b (i + 1) t') :
    ∃ c, (do
        let t ← (List.range' 1 (L - 1)).foldlM (fun t i => do
          let t ← setAt t (i + L + 1) 0#n
          f t i) t1
        let res ← slice t L (2 * L)
        let top ← getAt t (2 * L)
        pure (maybeMinusM res top negm)) = .ok c ∧ c.length = L ∧ wordsVal c < m ∧
      (wordsVal c * ((2 ^ n) ^ L : ℕ) : ZMod m) = (wordsVal a : ZMod m) * b := by
  have some := constants.some
  obtain ⟨t, ran, rounds⟩ := foldlM_range'_returns (ε := String)
    (f := fun (t : List (BitVec n)) i => do
      let t ← setAt t (i + L + 1) 0#n
      f t i) (Rounds size m a b) (k := 1) (n := L - 1) (s := t1) rounds1 (by
      intro i t first inside round
      have clear : setAt (ε := String) t (i + L + 1) 0#n = .ok t := by
        have size := round.size
        rw [setAt_of_lt (by omega), set_zero]
        exact (window_val (by omega) (round.window constants 0)).2
      obtain ⟨t', ran, next⟩ := works (by omega) round
      exact ⟨t', by rw [clear, ok_bind, ran], next⟩)
  rw [show 1 + (L - 1) = L by omega] at rounds
  have size := rounds.size
  obtain ⟨length, low, value⟩ := rounds.result constants (by omega)
  refine ⟨maybeMinusM ((t.drop L).take L) t[L + L] negm, ?_, length, low, ?_⟩
  · rw [ran, ok_bind, two_mul, slice_of_le (by omega) (by omega), ok_bind, Nat.add_sub_cancel,
      getAt_of_lt (by omega), ok_bind, pure_eq_ok]
  · rw [value, rounds.value, List.take_of_length_le left.le]

/-- **The product of a number and a canonical number**, without the factor `R`. -/
theorem montgomeryMul_returns (small : L ≤ 16) (left : a.length = L) (right : b.length = L)
    (canonical : wordsVal b < m) :
    ∃ c, montgomeryMul L a b modulo negm mPrime = .ok c ∧ c.length = L ∧ wordsVal c < m ∧
      (wordsVal c * ((2 ^ n) ^ L : ℕ) : ZMod m) = (wordsVal a : ZMod m) * wordsVal b := by
  have some := constants.some
  obtain ⟨t1, ran1, rounds1⟩ := (Rounds.start constants 33 a (wordsVal b)).mul constants
    (by omega) (by omega) right canonical
  obtain ⟨c, ran, facts⟩ := rounds1.later constants (by omega) left fun inside round =>
    round.mul constants (by omega) (by omega) right canonical
  refine ⟨c, ?_, facts⟩
  have first : (withSlice (List.replicate 33 0#n) 0 (L + 2) fun window0 => do
      let window0 ← mulAccumZero window0 0 (← getAt a 0) b
      reductionStep window0 0 modulo mPrime) = .ok t1 := by
    rw [Nat.zero_add, withSlice, slice_of_le (by omega) (by simp; omega), ok_bind,
      List.drop_zero, Nat.sub_zero, List.take_replicate, min_eq_left (by omega),
      getAt_of_lt (by omega), ok_bind] at ran1
    rw [withSlice, slice_of_le (by omega) (by simp; omega), ok_bind, List.drop_zero,
      Nat.sub_zero, List.take_replicate, min_eq_left (by omega), getAt_of_lt (by omega), ok_bind,
      mulAccumZero_eq constants _ right canonical, ran1]
  rw [montgomeryMul, ensure_of small, ok_bind]
  simp only [if_pos some]
  rw [first, ok_bind]
  exact ran

end

end Longfellow.FpGeneric
