/-
**Limb primitives.**

Numbers as arrays of machine words, least significant first, as the prime-field arithmetic
computes on them. The width of a limb is 64 bits, or 32 where the target or the build asks for
it; everything here holds for both.

* `maybeMinusM_spec`, `maybePlusM_spec` — **one conditional subtraction, with the carry**.
-/

import Longfellow.Lib.Exec
import Longfellow.Lib.Words

namespace Longfellow.Limb

open Lib

/-- The machine words of the build. -/
inductive Width where
  | limb32
  | limb64
  deriving DecidableEq, Repr

namespace Width

/-- `LIMB_BITS`. -/
def bits : Width → ℕ
  | limb32 => 32
  | limb64 => 64

/-- `LIMBS_PER_U64`. -/
def perU64 : Width → ℕ
  | limb32 => 2
  | limb64 => 1

theorem bits_mul_perU64 (width : Width) : width.bits * width.perU64 = 64 := by
  cases width <;> rfl

theorem perU64_pos (width : Width) : 0 < width.perU64 := by cases width <;> decide

theorem wide (width : Width) : 2 ≤ width.bits := by cases width <;> decide

theorem narrow (width : Width) : width.bits ≤ 64 := by cases width <;> decide

/-- The bytes of a limb. -/
def bytes (width : Width) : ℕ := width.bits / 8

theorem bytes_mul_perU64 (width : Width) : width.bytes * width.perU64 = 8 := by
  cases width <;> rfl

theorem bits_eq (width : Width) : width.bits = 8 * width.bytes := by cases width <;> rfl

end Width

variable {n : ℕ}

/-- A carry or a borrow as a limb. -/
def ofBool (n : ℕ) (bit : Bool) : BitVec n := BitVec.ofNat n bit.toNat

/-- Add `b` to `a`; the carry. -/
def addLimb (a b : List (BitVec n)) : List (BitVec n) × BitVec n :=
  let (sum, carry) := addWords a b false
  (sum, ofBool n carry)

/-- Subtract `b` from `a`; the borrow. -/
def subLimb (a b : List (BitVec n)) : List (BitVec n) × BitVec n :=
  let (diff, borrow) := subWords a b false
  (diff, ofBool n borrow)

/-- One step of a shift to the right, from the top limb down: the limb, and the bit that the
limb below receives. -/
def shrStep (x : BitVec n) (state : List (BitVec n) × BitVec n) : List (BitVec n) × BitVec n :=
  ((x >>> 1 ||| state.2) :: state.1, x <<< (n - 1))

/-- Shift right by one bit. -/
def shr1 (a : List (BitVec n)) : List (BitVec n) := (a.foldr shrStep ([], 0#n)).1

/-- Add a carry from an index on. -/
def propagateCarry (a : List (BitVec n)) (start : ℕ) (carry : Bool) :
    Exec String (List (BitVec n)) := do
  ensure (start ≤ a.length) "range start index out of range for slice"
  pure (a.take start ++ (carryWords (a.drop start) carry).1)

/-- Add `b` to `a` at an offset. -/
def accum (a : List (BitVec n)) (start : ℕ) (b : List (BitVec n)) :
    Exec String (List (BitVec n)) := do
  ensure (start + b.length ≤ a.length) "assertion failed: a.len() >= start + NB"
  let dest ← slice a start (start + b.length)
  let (dest, carry) := addLimb dest b
  propagateCarry (a.take start ++ dest ++ a.drop (start + b.length)) (start + b.length)
    (carry != 0#n)

/-- The same, with the carry that leaves the buffer. -/
def accumOut (a : List (BitVec n)) (start : ℕ) (b : List (BitVec n)) :
    Exec String (List (BitVec n) × Bool) := do
  ensure (start + b.length ≤ a.length) "assertion failed: a.len() >= start + NB"
  let dest ← slice a start (start + b.length)
  let (dest, carry) := addLimb dest b
  let (above, out) := carryWords (a.drop (start + b.length)) (carry != 0#n)
  pure (a.take start ++ dest ++ above, out)

def isOneSlice (a : List (BitVec n)) : Bool :=
  a.head? == some 1#n && a.tail.all (· == 0#n)

/-- The halves of a product of limbs, low then high. -/
def mulhlOne (a b : BitVec n) : BitVec n × BitVec n :=
  let p := a.setWidth (2 * n) * b.setWidth (2 * n)
  (p.setWidth n, (p >>> n).setWidth n)

/-- The halves of the products of a limb with limbs. -/
def mulhl (x : BitVec n) (y : List (BitVec n)) : List (BitVec n) × List (BitVec n) :=
  (y.map fun limb => (mulhlOne x limb).1, y.map fun limb => (mulhlOne x limb).2)

/-- Add the product of a limb and limbs at an offset. -/
def mulAccum (a : List (BitVec n)) (start : ℕ) (x : BitVec n) (y : List (BitVec n)) :
    Exec String (List (BitVec n)) := do
  let (l, h) := mulhl x y
  let a ← accum a start l
  accum a (start + 1) h

/-- The same into cells that hold zero. -/
def mulAccumZero (a : List (BitVec n)) (start : ℕ) (x : BitVec n) (y : List (BitVec n)) :
    Exec String (List (BitVec n)) := do
  let (l, h) := mulhl x y
  let _ ← slice a start (start + y.length)
  let a := a.take start ++ l ++ a.drop (start + y.length)
  accum a (start + 1) h

/-- Compare from the top limb down. -/
def ltFrom : List (BitVec n × BitVec n) → Bool
  | [] => false
  | (x, y) :: below => if x < y then true else if y < x then false else ltFrom below

def lt (a b : List (BitVec n)) : Bool := ltFrom (a.zip b).reverse

/-- Replace `a` by `b` when `x ≠ y`, without a branch. -/
def cmovne (a : List (BitVec n)) (x y : BitVec n) (b : List (BitVec n)) : List (BitVec n) :=
  let mask : BitVec n := (0#64 - (if x ≠ y then 1#64 else 0#64)).setWidth n
  a.zipWith (fun a b => (a &&& ~~~mask) ||| (b &&& mask)) b

def cmovnz (a : List (BitVec n)) (nz : BitVec n) (b : List (BitVec n)) : List (BitVec n) :=
  cmovne a nz 0#n b

/-- Subtract the modulus once when the number with its carry reaches it. -/
def maybeMinusM (a : List (BitVec n)) (ah : BitVec n) (negm : List (BitVec n)) :
    List (BitVec n) :=
  let (a1, ah1) := addLimb negm a
  cmovne a ah ah1 a1

/-- Add the modulus after a borrow. -/
def maybePlusM (a : List (BitVec n)) (ah : BitVec n) (modulo : List (BitVec n)) :
    List (BitVec n) :=
  let (a1, _) := addLimb a modulo
  cmovnz a ah a1

def accumModular (a b negm : List (BitVec n)) : List (BitVec n) :=
  let (sum, carry) := addLimb a b
  maybeMinusM sum carry negm

/-- The limbs of a word. -/
def u64ToLimbs : (width : Width) → BitVec 64 → List (BitVec width.bits)
  | .limb32, val => [val.setWidth 32, (val >>> 32).setWidth 32]
  | .limb64, val => [val]

/-- The limbs of words, cut or filled with zeros to `L` limbs. -/
def words64ToLimbs (width : Width) (L : ℕ) (words : List (BitVec 64)) :
    List (BitVec width.bits) :=
  (words.flatMap (u64ToLimbs width) ++ List.replicate L (BitVec.ofNat width.bits 0)).take L

/-! ### Sums and differences -/

@[simp] theorem ofBool_toNat (positive : 0 < n) (bit : Bool) : (ofBool n bit).toNat = bit.toNat := by
  have small : bit.toNat < 2 ^ n :=
    lt_of_lt_of_le (Bool.toNat_lt bit) (Nat.pow_le_pow_right (n := 2) (by omega) positive)
  rw [ofBool, BitVec.toNat_ofNat, Nat.mod_eq_of_lt small]

theorem ofBool_ne_zero (positive : 0 < n) (bit : Bool) : (ofBool n bit != 0#n) = bit := by
  have value := ofBool_toNat positive bit
  cases bit with
  | false => simp [ofBool]
  | true =>
    rw [bne_iff_ne]
    intro zero
    rw [zero] at value
    simp at value

variable {a b : List (BitVec n)}

theorem addLimb_length (size : a.length = b.length) :
    (addLimb a b).1.length = a.length := (addWords_spec false size).1

theorem addLimb_val (positive : 0 < n) (size : a.length = b.length) :
    wordsVal (addLimb a b).1 + (2 ^ n) ^ a.length * (addLimb a b).2.toNat =
      wordsVal a + wordsVal b := by
  simpa [addLimb, ofBool_toNat positive] using (addWords_spec false size).2

theorem subLimb_length (size : a.length = b.length) :
    (subLimb a b).1.length = a.length := (subWords_spec false size).1

theorem subLimb_val (positive : 0 < n) (size : a.length = b.length) :
    wordsVal (subLimb a b).1 + wordsVal b =
      wordsVal a + (2 ^ n) ^ a.length * (subLimb a b).2.toNat := by
  simpa [subLimb, ofBool_toNat positive] using (subWords_spec false size).2

/-! ### Halving and comparison -/

theorem shrStep_fold (positive : 0 < n) (a : List (BitVec n)) :
    (a.foldr shrStep ([], 0#n)).1.length = a.length ∧
      wordsVal (a.foldr shrStep ([], 0#n)).1 = wordsVal a / 2 ∧
      (a.foldr shrStep ([], 0#n)).2.toNat = 2 ^ (n - 1) * (wordsVal a % 2) := by
  obtain ⟨k, rfl⟩ : ∃ k, n = k + 1 := ⟨n - 1, by omega⟩
  induction a with
  | nil => simp
  | cons x a ih =>
    obtain ⟨length, halved, carry⟩ := ih
    rw [Nat.add_sub_cancel] at carry
    have word := x.isLt
    rw [pow_succ] at word
    have low : (x >>> 1 ||| (a.foldr shrStep ([], 0#(k + 1))).2).toNat =
        x.toNat / 2 + 2 ^ k * (wordsVal a % 2) := by
      rw [BitVec.toNat_or, carry, BitVec.toNat_ushiftRight, Nat.shiftRight_one, Nat.or_comm,
        ← Nat.two_pow_add_eq_or_of_lt (by omega), add_comm]
    have out : (x <<< k).toNat = 2 ^ k * (x.toNat % 2) := by
      rw [BitVec.toNat_shiftLeft, Nat.shiftLeft_eq, Nat.mul_comm, pow_succ, Nat.mul_mod_mul_left]
    have even : wordsVal (x :: a) = x.toNat + 2 * (2 ^ k * wordsVal a) := by
      rw [wordsVal_cons, pow_succ]
      ring
    have parity := Nat.div_add_mod (wordsVal a) 2
    refine ⟨by simp [shrStep, length], ?_, ?_⟩
    · show (x >>> 1 ||| (a.foldr shrStep ([], 0#(k + 1))).2).toNat +
          2 ^ (k + 1) * wordsVal (a.foldr shrStep ([], 0#(k + 1))).1 = _
      rw [low, halved, even, Nat.add_mul_div_left _ _ (by decide), pow_succ]
      linear_combination 2 ^ k * parity
    · show (x <<< k).toNat = 2 ^ k * (wordsVal (x :: a) % 2)
      rw [out, even, Nat.add_mul_mod_self_left]

theorem shr1_length (positive : 0 < n) (a : List (BitVec n)) : (shr1 a).length = a.length :=
  (shrStep_fold positive a).1

theorem shr1_val (positive : 0 < n) (a : List (BitVec n)) :
    wordsVal (shr1 a) = wordsVal a / 2 := (shrStep_fold positive a).2.1

theorem ltFrom_spec (pairs : List (BitVec n × BitVec n)) :
    ltFrom pairs.reverse = true ↔ wordsVal (pairs.map (·.1)) < wordsVal (pairs.map (·.2)) := by
  induction pairs using List.reverseRecOn with
  | nil => simp [ltFrom]
  | append_singleton pairs last ih =>
    obtain ⟨x, y⟩ := last
    have left := wordsVal_lt (pairs.map (·.1))
    have right := wordsVal_lt (pairs.map (·.2))
    rw [List.length_map] at left right
    rw [List.reverse_append, List.reverse_singleton, List.singleton_append, ltFrom]
    simp only [List.map_append, List.map_cons, List.map_nil, wordsVal_append, wordsVal_cons,
      wordsVal_nil, Nat.mul_zero, Nat.add_zero, List.length_map, BitVec.lt_def]
    -- The top limb decides unless it is the same in both.
    rcases Nat.lt_trichotomy x.toNat y.toNat with less | same | more
    · have top := Nat.mul_le_mul_left ((2 ^ n) ^ pairs.length) (Nat.succ_le_of_lt less)
      rw [Nat.mul_succ] at top
      simp only [less, if_true, true_iff]
      omega
    · simp only [same, lt_irrefl, if_false, ih]
      omega
    · have top := Nat.mul_le_mul_left ((2 ^ n) ^ pairs.length) (Nat.succ_le_of_lt more)
      rw [Nat.mul_succ] at top
      simp only [more, Nat.lt_asymm more, if_true, if_false, Bool.false_eq_true, false_iff]
      omega

theorem lt_spec (size : a.length = b.length) :
    lt a b = true ↔ wordsVal a < wordsVal b := by
  rw [lt, ltFrom_spec, List.map_fst_zip size.le, List.map_snd_zip size.ge]

/-! ### Conditional moves -/

theorem cmovne_eq (narrow : n ≤ 64) (x y : BitVec n) (size : a.length = b.length) :
    cmovne a x y b = if x ≠ y then b else a := by
  unfold cmovne
  by_cases differ : x ≠ y
  · have ones : ((0#64 - 1#64).setWidth n : BitVec n) = BitVec.allOnes n := by
      have all : (0#64 - 1#64) = BitVec.allOnes 64 := by decide
      rw [all]
      apply BitVec.eq_of_getElem_eq
      intro i bound
      rw [BitVec.getElem_setWidth, BitVec.getLsbD_allOnes, BitVec.getElem_allOnes]
      simpa using by omega
    simp only [if_pos differ, ones, BitVec.not_allOnes, BitVec.and_zero, BitVec.and_allOnes,
      BitVec.zero_or]
    induction a generalizing b with
    | nil => exact (List.eq_nil_of_length_eq_zero size.symm).symm
    | cons a as ih => cases b with
      | nil => simp at size
      | cons b bs => rw [List.zipWith_cons_cons, ih (by simpa using size)]
  · simp only [if_neg differ]
    induction a generalizing b with
    | nil => rfl
    | cons a as ih => cases b with
      | nil => simp at size
      | cons b bs =>
        rw [List.zipWith_cons_cons, ih (by simpa using size)]
        simp

variable {negm : List (BitVec n)}

theorem maybeMinusM_eq (narrow : n ≤ 64) (ah : BitVec n) (size : a.length = negm.length) :
    maybeMinusM a ah negm =
      if ah ≠ (addLimb negm a).2 then (addLimb negm a).1 else a :=
  cmovne_eq narrow _ _ (size.trans (addLimb_length size.symm).symm)

/-- **The conditional subtraction**, for a number below twice the modulus whose carry is `h`. -/
theorem maybeMinusM_spec (positive : 0 < n) (narrow : n ≤ 64) {h : BitVec n} {m : ℕ}
    (size : a.length = negm.length) (opposite : wordsVal negm + m = (2 ^ n) ^ a.length)
    (bound : wordsVal a + (2 ^ n) ^ a.length * h.toNat < 2 * m) :
    (maybeMinusM a h negm).length = a.length ∧ wordsVal (maybeMinusM a h negm) < m ∧
      (wordsVal (maybeMinusM a h negm) = wordsVal a + (2 ^ n) ^ a.length * h.toNat ∨
        wordsVal (maybeMinusM a h negm) + m = wordsVal a + (2 ^ n) ^ a.length * h.toNat) := by
  have length := addLimb_length size.symm
  have sum := addLimb_val positive size.symm
  have sumLow := wordsVal_lt (addLimb negm a).1
  rw [← size] at length sum
  rw [length] at sumLow
  have carried : (addLimb negm a).2.toNat ≤ 1 := by
    show (ofBool n _).toNat ≤ 1
    rw [ofBool_toNat positive]
    exact Bool.toNat_le _
  have top : h.toNat ≤ 1 := by
    by_contra large
    have two := Nat.mul_le_mul_left ((2 ^ n) ^ a.length) (show 2 ≤ h.toNat by omega)
    omega
  rw [maybeMinusM_eq narrow h size]
  generalize (2 ^ n) ^ a.length = r at *
  by_cases same : h = (addLimb negm a).2
  · rw [if_neg (not_not_intro same)]
    rw [← same] at sum
    refine ⟨rfl, ?_⟩
    rcases Nat.le_one_iff_eq_zero_or_eq_one.mp top with zero | one
    · rw [zero] at sum bound ⊢
      omega
    · rw [one] at sum bound ⊢
      omega
  · rw [if_pos same]
    have differ : h.toNat ≠ (addLimb negm a).2.toNat := fun equal =>
      same (BitVec.eq_of_toNat_eq equal)
    refine ⟨length, ?_⟩
    rcases Nat.le_one_iff_eq_zero_or_eq_one.mp top with zero | one
    · rw [show (addLimb negm a).2.toNat = 1 by omega] at sum
      rw [zero] at bound ⊢
      omega
    · rw [show (addLimb negm a).2.toNat = 0 by omega] at sum
      rw [one] at bound ⊢
      omega

/-- **The conditional addition**, after a difference of numbers below the modulus. -/
theorem maybePlusM_spec (positive : 0 < n) (narrow : n ≤ 64) {modulo : List (BitVec n)}
    (size : a.length = b.length) (width : a.length = modulo.length)
    (left : wordsVal a < wordsVal modulo) (right : wordsVal b < wordsVal modulo) :
    (maybePlusM (subLimb a b).1 (subLimb a b).2 modulo).length = a.length ∧
      wordsVal (maybePlusM (subLimb a b).1 (subLimb a b).2 modulo) < wordsVal modulo ∧
      (wordsVal (maybePlusM (subLimb a b).1 (subLimb a b).2 modulo) + wordsVal b = wordsVal a ∨
        wordsVal (maybePlusM (subLimb a b).1 (subLimb a b).2 modulo) + wordsVal b =
          wordsVal a + wordsVal modulo) := by
  have length := subLimb_length size
  have diff := subLimb_val positive size
  have diffLow := wordsVal_lt (subLimb a b).1
  have sumLength := addLimb_length (length.trans width)
  have sum := addLimb_val positive (length.trans width)
  have sumLow := wordsVal_lt (addLimb (subLimb a b).1 modulo).1
  have high := wordsVal_lt modulo
  rw [sumLength] at sumLow
  rw [length] at sumLength sum diffLow sumLow
  rw [← width] at high
  have borrowed : (subLimb a b).2.toNat ≤ 1 := by
    show (ofBool n _).toNat ≤ 1
    rw [ofBool_toNat positive]
    exact Bool.toNat_le _
  have carried : (addLimb (subLimb a b).1 modulo).2.toNat ≤ 1 := by
    show (ofBool n _).toNat ≤ 1
    rw [ofBool_toNat positive]
    exact Bool.toNat_le _
  have moved : maybePlusM (subLimb a b).1 (subLimb a b).2 modulo =
      if (subLimb a b).2 ≠ 0#n then (addLimb (subLimb a b).1 modulo).1 else (subLimb a b).1 :=
    cmovne_eq narrow _ _ (length.trans sumLength.symm)
  rw [moved]
  generalize (2 ^ n) ^ a.length = r at *
  by_cases zero : (subLimb a b).2 = 0#n
  · rw [if_neg (not_not_intro zero)]
    rw [zero, BitVec.toNat_zero] at diff
    refine ⟨length, ?_⟩
    omega
  · rw [if_pos zero]
    have one : (subLimb a b).2.toNat = 1 := by
      have : (subLimb a b).2.toNat ≠ 0 := fun value =>
        zero (BitVec.eq_of_toNat_eq (value.trans BitVec.toNat_zero.symm))
      omega
    rw [one] at diff
    refine ⟨sumLength, ?_⟩
    rcases Nat.le_one_iff_eq_zero_or_eq_one.mp carried with none | some
    · rw [none] at sum
      omega
    · rw [some] at sum
      omega

/-- **The sum of numbers below the modulus.** -/
theorem accumModular_spec (positive : 0 < n) (narrow : n ≤ 64) {m : ℕ} (size : a.length = b.length)
    (width : a.length = negm.length) (opposite : wordsVal negm + m = (2 ^ n) ^ a.length)
    (left : wordsVal a < m) (right : wordsVal b < m) :
    (accumModular a b negm).length = a.length ∧ wordsVal (accumModular a b negm) < m ∧
      (wordsVal (accumModular a b negm) = wordsVal a + wordsVal b ∨
        wordsVal (accumModular a b negm) + m = wordsVal a + wordsVal b) := by
  have length := addLimb_length size
  have sum := addLimb_val positive size
  have reduced := maybeMinusM_spec positive narrow (a := (addLimb a b).1) (m := m)
    (length.trans width) (by rw [length]; exact opposite)
    (h := (addLimb a b).2) (by rw [length]; omega)
  rw [length, sum] at reduced
  exact reduced

/-! ### Sums and products into a buffer -/

theorem propagateCarry_eq {start : ℕ} (carry : Bool) (bound : start ≤ a.length) :
    propagateCarry a start carry =
      .ok (a.take start ++ (carryWords (a.drop start) carry).1) := by
  rw [propagateCarry, ensure_of bound, ok_bind, pure_eq_ok]

theorem window_parts (a : List (BitVec n)) (start k : ℕ) :
    a = a.take start ++ ((a.drop start).take k ++ a.drop (start + k)) := by
  rw [← List.drop_drop, List.take_append_drop, List.take_append_drop]

variable {k : ℕ}

/-- **A sum into a buffer**, with the carry that leaves it. -/
theorem accumOut_returns (positive : 0 < n) (bound : k + b.length ≤ a.length) :
    ∃ sum out, accumOut a k b = .ok (sum, out) ∧ accum a k b = .ok sum ∧ sum.length = a.length ∧
      wordsVal sum + (2 ^ n) ^ a.length * out.toNat = wordsVal a + (2 ^ n) ^ k * wordsVal b := by
  obtain ⟨below, size⟩ : ∃ below, below = a.take k := ⟨_, rfl⟩
  obtain ⟨dest, isDest⟩ : ∃ dest, dest = (a.drop k).take b.length := ⟨_, rfl⟩
  obtain ⟨above, isAbove⟩ : ∃ above, above = a.drop (k + b.length) := ⟨_, rfl⟩
  have parts : a = below ++ (dest ++ above) := by
    rw [size, isDest, isAbove]
    exact window_parts a k b.length
  have belowLength : below.length = k := by rw [size, List.length_take]; omega
  have destLength : dest.length = b.length := by
    rw [isDest, List.length_take, List.length_drop]
    omega
  have sumLength := addLimb_length destLength
  have sum := addLimb_val positive destLength
  obtain ⟨carryLength, carried⟩ := carryWords_spec above ((addLimb dest b).2 != 0#n)
  have carryIs : ((addLimb dest b).2 != 0#n).toNat = (addLimb dest b).2.toNat := by
    show (ofBool n _ != 0#n).toNat = (ofBool n _).toNat
    rw [ofBool_ne_zero positive, ofBool_toNat positive]
  have prefixLength : (below ++ (addLimb dest b).1).length = k + b.length := by
    rw [List.length_append, belowLength, sumLength, destLength]
  have found : slice (ε := String) a k (k + b.length) = .ok dest := by
    rw [slice_of_le (by omega) bound, Nat.add_sub_cancel_left, ← isDest]
  refine ⟨below ++ (addLimb dest b).1 ++ (carryWords above ((addLimb dest b).2 != 0#n)).1,
    (carryWords above ((addLimb dest b).2 != 0#n)).2, ?_, ?_, ?_, ?_⟩
  · rw [accumOut, ensure_of bound, ok_bind, found, ok_bind, ← size, ← isAbove]
    rfl
  · rw [accum, ensure_of bound, ok_bind, found, ok_bind, ← size, ← isAbove]
    show propagateCarry (below ++ (addLimb dest b).1 ++ above) (k + b.length) _ = _
    rw [propagateCarry_eq _ (by rw [List.length_append, prefixLength]; omega),
      List.take_left' prefixLength, List.drop_left' prefixLength]
    rfl
  · rw [parts, List.length_append, List.length_append, carryLength, List.length_append,
      List.length_append, sumLength]
    omega
  · have whole : wordsVal a = wordsVal below + (2 ^ n) ^ k *
        (wordsVal dest + (2 ^ n) ^ b.length * wordsVal above) := by
      rw [parts, wordsVal_append, wordsVal_append, belowLength, destLength]
    have total : (2 ^ n) ^ a.length =
        (2 ^ n) ^ k * ((2 ^ n) ^ b.length * (2 ^ n) ^ above.length) := by
      rw [parts, List.length_append, List.length_append, belowLength, destLength, pow_add, pow_add]
    rw [carryIs] at carried
    rw [destLength] at sum
    rw [wordsVal_append, prefixLength, wordsVal_append, belowLength, pow_add, whole, total]
    linear_combination (2 ^ n) ^ k * sum + (2 ^ n) ^ k * (2 ^ n) ^ b.length * carried

section

variable (positive : 0 < n) (bound : k + b.length ≤ a.length)
  (fits : wordsVal a + (2 ^ n) ^ k * wordsVal b < (2 ^ n) ^ a.length)
include positive bound fits

theorem accumOut_of_fits :
    ∃ sum, accumOut a k b = .ok (sum, false) ∧ accum a k b = .ok sum ∧ sum.length = a.length ∧
      wordsVal sum = wordsVal a + (2 ^ n) ^ k * wordsVal b := by
  obtain ⟨sum, out, ranOut, ran, size, value⟩ := accumOut_returns positive bound
  -- A carry out of the buffer would be a number that does not fit.
  cases out with
  | true =>
    rw [Bool.toNat_true, Nat.mul_one] at value
    omega
  | false =>
    rw [Bool.toNat_false, Nat.mul_zero, Nat.add_zero] at value
    exact ⟨sum, ranOut, ran, size, value⟩

/-- **A sum into a buffer that has room for it.** -/
theorem accum_returns :
    ∃ sum, accum a k b = .ok sum ∧ sum.length = a.length ∧
      wordsVal sum = wordsVal a + (2 ^ n) ^ k * wordsVal b := by
  obtain ⟨sum, _, ran, size, value⟩ := accumOut_of_fits positive bound fits
  exact ⟨sum, ran, size, value⟩

end

/-! ### Products -/

theorem mulhlOne_val (x y : BitVec n) :
    (mulhlOne x y).1.toNat + 2 ^ n * (mulhlOne x y).2.toNat = x.toNat * y.toNat := by
  have left := x.isLt
  have right := y.isLt
  have small : x.toNat * y.toNat < 2 ^ n * 2 ^ n := Nat.mul_lt_mul'' left right
  have wide : 2 ^ (2 * n) = 2 ^ n * 2 ^ n := by rw [two_mul, pow_add]
  have grow : 2 ^ n ≤ 2 ^ (2 * n) := Nat.pow_le_pow_right (by decide) (by omega)
  have product : (x.setWidth (2 * n) * y.setWidth (2 * n)).toNat = x.toNat * y.toNat := by
    rw [BitVec.toNat_mul, BitVec.toNat_setWidth, BitVec.toNat_setWidth,
      Nat.mod_eq_of_lt (lt_of_lt_of_le left grow), Nat.mod_eq_of_lt (lt_of_lt_of_le right grow),
      wide, Nat.mod_eq_of_lt small]
  simp only [mulhlOne, BitVec.toNat_setWidth, BitVec.toNat_ushiftRight, product,
    Nat.shiftRight_eq_div_pow]
  rw [Nat.mod_eq_of_lt (Nat.div_lt_of_lt_mul small), Nat.mod_add_div]

theorem mulhl_val (x : BitVec n) (y : List (BitVec n)) :
    wordsVal (mulhl x y).1 + 2 ^ n * wordsVal (mulhl x y).2 = x.toNat * wordsVal y := by
  induction y with
  | nil => rfl
  | cons limb y ih =>
    have first := mulhlOne_val x limb
    simp only [mulhl, List.map_cons, wordsVal_cons] at ih ⊢
    linear_combination first + 2 ^ n * ih

theorem mulhl_shifted (k : ℕ) (x : BitVec n) (y : List (BitVec n)) :
    (2 ^ n) ^ k * wordsVal (mulhl x y).1 + (2 ^ n) ^ (k + 1) * wordsVal (mulhl x y).2 =
      (2 ^ n) ^ k * (x.toNat * wordsVal y) := by
  rw [pow_succ]
  linear_combination (2 ^ n) ^ k * mulhl_val x y

theorem mulhl_length (x : BitVec n) (y : List (BitVec n)) :
    (mulhl x y).1.length = y.length ∧ (mulhl x y).2.length = y.length := by simp [mulhl]

/-- **A product into a buffer that has room for it.** -/
theorem mulAccum_returns (positive : 0 < n) {y : List (BitVec n)} (x : BitVec n)
    (bound : k + y.length + 1 ≤ a.length)
    (fits : wordsVal a + (2 ^ n) ^ k * (x.toNat * wordsVal y) < (2 ^ n) ^ a.length) :
    ∃ sum, mulAccum a k x y = .ok sum ∧ sum.length = a.length ∧
      wordsVal sum = wordsVal a + (2 ^ n) ^ k * (x.toNat * wordsVal y) := by
  obtain ⟨lowLength, highLength⟩ := mulhl_length x y
  have total := mulhl_shifted k x y
  obtain ⟨low, addLow, lowSize, lowVal⟩ := accum_returns positive (a := a) (b := (mulhl x y).1)
    (k := k) (by omega) (by omega)
  obtain ⟨sum, addHigh, sumSize, sumVal⟩ := accum_returns positive (a := low)
    (b := (mulhl x y).2) (k := k + 1) (by omega) (by rw [lowSize, lowVal]; omega)
  refine ⟨sum, ?_, sumSize.trans lowSize, by rw [sumVal, lowVal]; omega⟩
  show (accum a k (mulhl x y).1 >>= fun a => accum a (k + 1) (mulhl x y).2) = .ok sum
  rw [addLow, ok_bind, addHigh]

theorem copied_val {l : List (BitVec n)} (bound : k + l.length ≤ a.length)
    (zero : (a.drop k).take l.length = List.replicate l.length 0#n) :
    (a.take k ++ l ++ a.drop (k + l.length)).length = a.length ∧
      wordsVal (a.take k ++ l ++ a.drop (k + l.length)) = wordsVal a + (2 ^ n) ^ k * wordsVal l := by
  have takeLength : (a.take k).length = k := by rw [List.length_take]; omega
  constructor
  · rw [List.length_append, List.length_append, takeLength, List.length_drop]
    omega
  · conv_rhs => rw [window_parts a k l.length, zero]
    rw [List.append_assoc, wordsVal_append, wordsVal_append, wordsVal_append, wordsVal_append,
      wordsVal_replicate_zero, List.length_replicate, takeLength]
    ring

theorem mulAccumZero_returns (positive : 0 < n) {y : List (BitVec n)} (x : BitVec n)
    (bound : k + y.length + 1 ≤ a.length)
    (zero : (a.drop k).take y.length = List.replicate y.length 0#n)
    (fits : wordsVal a + (2 ^ n) ^ k * (x.toNat * wordsVal y) < (2 ^ n) ^ a.length) :
    ∃ sum, mulAccumZero a k x y = .ok sum ∧ sum.length = a.length ∧
      wordsVal sum = wordsVal a + (2 ^ n) ^ k * (x.toNat * wordsVal y) := by
  obtain ⟨lowLength, highLength⟩ := mulhl_length x y
  have total := mulhl_shifted k x y
  obtain ⟨size, copied⟩ := copied_val (a := a) (l := (mulhl x y).1) (k := k) (by omega)
    (by rw [lowLength, zero])
  rw [lowLength] at size copied
  obtain ⟨sum, addHigh, sumSize, sumVal⟩ := accum_returns positive
    (a := a.take k ++ (mulhl x y).1 ++ a.drop (k + y.length)) (b := (mulhl x y).2)
    (k := k + 1) (by omega) (by rw [size, copied]; omega)
  refine ⟨sum, ?_, sumSize.trans size, by rw [sumVal, copied]; omega⟩
  show (slice a k (k + y.length) >>= fun _ =>
    accum (a.take k ++ (mulhl x y).1 ++ a.drop (k + y.length)) (k + 1)
      (mulhl x y).2) = .ok sum
  rw [slice_of_le (by omega) (by omega), ok_bind, addHigh]

/-! ### Words of 64 bits -/

variable (width : Width) {words : List (BitVec 64)}
include width

theorem u64ToLimbs_length (val : BitVec 64) :
    (u64ToLimbs width val).length = width.perU64 := by cases width <;> rfl

theorem u64ToLimbs_val (val : BitVec 64) :
    wordsVal (u64ToLimbs width val) = val.toNat := by
  have bound := val.isLt
  cases width with
  | limb32 =>
    show (val.setWidth 32).toNat + 2 ^ 32 * (((val >>> 32).setWidth 32).toNat + 2 ^ 32 * 0) = _
    rw [BitVec.toNat_setWidth, BitVec.toNat_setWidth, BitVec.toNat_ushiftRight,
      Nat.shiftRight_eq_div_pow]
    omega
  | limb64 =>
    show val.toNat + 2 ^ 64 * 0 = val.toNat
    rw [Nat.mul_zero, Nat.add_zero]

theorem flatMap_u64ToLimbs_length (words : List (BitVec 64)) :
    (words.flatMap (u64ToLimbs width)).length = words.length * width.perU64 := by
  induction words with
  | nil => simp
  | cons word words ih =>
    rw [List.flatMap_cons, List.length_append, u64ToLimbs_length, ih, List.length_cons,
      Nat.succ_mul, Nat.add_comm]

theorem flatMap_u64ToLimbs_val (words : List (BitVec 64)) :
    wordsVal (words.flatMap (u64ToLimbs width)) = wordsVal words := by
  induction words with
  | nil => rfl
  | cons word words ih =>
    rw [List.flatMap_cons, wordsVal_append, u64ToLimbs_length, u64ToLimbs_val, ih, ← pow_mul,
      width.bits_mul_perU64, wordsVal_cons]

theorem words64ToLimbs_eq {L : ℕ}
    (size : L = words.length * width.perU64) :
    words64ToLimbs width L words = words.flatMap (u64ToLimbs width) :=
  List.take_left' ((flatMap_u64ToLimbs_length width words).trans size.symm)

theorem words64ToLimbs_length (L : ℕ) (words : List (BitVec 64)) :
    (words64ToLimbs width L words).length = L := by
  rw [words64ToLimbs, List.length_take, List.length_append, List.length_replicate]
  omega

theorem words64ToLimbs_val {L : ℕ}
    (size : L = words.length * width.perU64) :
    wordsVal (words64ToLimbs width L words) = wordsVal words := by
  rw [words64ToLimbs_eq width size, flatMap_u64ToLimbs_val]

end Longfellow.Limb
