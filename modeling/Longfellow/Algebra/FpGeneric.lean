/-
**Prime fields in Montgomery form.**

A field of `W` words of 64 bits is a modulus and the constants that its constructor computes
from it. An element is an array of `L` limbs: the number `x · R mod M`, with `R = 2 ^ (64 W)`.

* `invert` — a binary extended greatest common divisor;
* `accumReduce` — the reduction of a sum of products.
-/

import Longfellow.Algebra.Limb

namespace Longfellow.FpGeneric

open Lib Limb

variable {n : ℕ}

/-! ### Arithmetic and modular reduction helpers -/

/-- `-m₀⁻¹` modulo the radix, by Newton's iteration. -/
def computeMPrime (m0 : BitVec n) : BitVec n := -((fun inv => inv * (2 - m0 * inv))^[6] m0)

def doubleModular (negm x : List (BitVec n)) : List (BitVec n) := accumModular x x negm

/-- The limbs of one. -/
def oneLimbs (n L : ℕ) : List (BitVec n) := (List.replicate L 0#n).set 0 1#n

/-- `R² mod M`. -/
def computeR2 (L : ℕ) (negm : List (BitVec n)) : List (BitVec n) :=
  (doubleModular negm)^[2 * n * L] (oneLimbs n L)

/-- `R mod M`. -/
def computeR (L : ℕ) (negm : List (BitVec n)) : List (BitVec n) :=
  (doubleModular negm)^[n * L] (oneLimbs n L)

/-- One reduction step at index `i`. -/
def reductionStep (t : List (BitVec n)) (i : ℕ) (modulo : List (BitVec n)) (mPrime : BitVec n) :
    Exec String (List (BitVec n)) := do
  let q := (← getAt t i) * mPrime
  mulAccum t i q modulo

/-- The interleaved product `a · b · R⁻¹ mod M`. -/
def montgomeryMul (L : ℕ) (a b modulo negm : List (BitVec n)) (mPrime : BitVec n) :
    Exec String (List (BitVec n)) := do
  ensure (L ≤ 16) "montgomery_mul: limb count exceeds static buffer"
  let t := List.replicate 33 0#n
  let t ← if 0 < L then do
      let t ← withSlice t 0 (L + 2) fun window0 => do
        let window0 ← mulAccumZero window0 0 (← getAt a 0) b
        reductionStep window0 0 modulo mPrime
      (List.range' 1 (L - 1)).foldlM (fun t i => do
        let t ← setAt t (i + L + 1) 0#n
        withSlice t i (i + L + 2) fun windowStep => do
          let windowStep ← mulAccum windowStep 0 (← getAt a i) b
          reductionStep windowStep 0 modulo mPrime) t
    else pure t
  let res ← slice t L (2 * L)
  let top ← getAt t (2 * L)
  pure (maybeMinusM res top negm)

/-! ### The field -/

/-- The parameters of the type, and the constants of the value. -/
structure FpGenericField (width : Width) where
  W : ℕ
  L : ℕ
  accumL : ℕ
  modulo : List (BitVec width.bits)
  negModulo : List (BitVec width.bits)
  mPrime : BitVec width.bits
  r2 : List (BitVec width.bits)
  r : List (BitVec width.bits)
  accumScale : List (BitVec width.bits)
  rawHalf : List (BitVec width.bits)

/-- The constructor, for the words of a modulus that the caller says is prime. -/
def newGeneric (width : Width) (L accumL : ℕ) (moduloWords : List (BitVec 64)) :
    Exec String (FpGenericField width) := do
  let W := moduloWords.length
  ensure (0 < W) "field width must contain at least one word"
  let limbs ← expect (checkedMul W width.perU64) "field limb count overflow"
  ensure (L = limbs) "field limb count must match its serialized word width"
  let room ← expect ((checkedMul L 2).bind (checkedAdd · 1)) "field accumulator size overflow"
  ensure (room ≤ accumL) "accumulator must contain at least twice the field limbs plus one"
  ensure ((checkedAdd accumL L).any (· < 64))
    "field and accumulator exceed the reduction scratch space"
  let modulo := words64ToLimbs width L moduloWords
  let m0 ← getAt modulo 0
  ensure (m0 &&& 1 = 1 ∧ ¬ isOneSlice modulo)
    "Montgomery modulus must be odd and greater than one"
  let (negModulo, _) := subLimb (List.replicate L 0) modulo
  let r2 := computeR2 L negModulo
  let rawHalf ← propagateCarry (shr1 modulo) 0 true
  pure {
    W, L, accumL, modulo, negModulo
    mPrime := computeMPrime m0
    r2
    r := computeR L negModulo
    accumScale := (doubleModular negModulo)^[(accumL - 2 * L) * width.bits] r2
    rawHalf }

namespace FpGenericField

variable {width : Width} (F : FpGenericField width)

abbrev Element (width : Width) := List (BitVec width.bits)

def zero : Element width := List.replicate F.L 0

def one : Element width := F.r

def isZero (e : Element width) : Bool := e == F.zero

def add (a b : Element width) : Element width := accumModular a b F.negModulo

def sub (a b : Element width) : Element width :=
  let (diff, ah) := subLimb a b
  maybePlusM diff ah F.modulo

def neg (a : Element width) : Element width := F.sub F.zero a

def mul (a b : Element width) : Exec String (Element width) :=
  montgomeryMul F.L a b F.modulo F.negModulo F.mPrime

def toMontgomery (standard : Element width) : Exec String (Element width) :=
  montgomeryMul F.L standard F.r2 F.modulo F.negModulo F.mPrime

def toStandard (mont : Element width) : Exec String (Element width) :=
  montgomeryMul F.L mont (oneLimbs width.bits F.L) F.modulo F.negModulo F.mPrime

/-- The element of a word. -/
def ofScalar (scalar : BitVec 64) : Exec String (Element width) :=
  F.toMontgomery ((u64ToLimbs width scalar ++ List.replicate F.L 0).take F.L)

/-- Half of an element: an odd number is halved and gets the half of one. -/
def byhalf (a : Element width) : Exec String (Element width) := do
  let lsb := (← getAt a 0) &&& 1
  pure (if lsb ≠ 0 then F.add (shr1 a) F.rawHalf else shr1 a)

/-! ### Inversion -/

/-- The variables of the inversion loop. -/
structure InvertState (width : Width) where
  a : Element width
  b : Element width
  u : Element width
  v : Element width

/-- One round of the loop. -/
def invertStep (s : InvertState width) : Exec String (InvertState width) := do
  if (← getAt s.a 0) &&& 1 = 0 then
    pure { s with a := shr1 s.a, u := ← F.byhalf s.u }
  else
    let s := if lt s.a s.b then { a := s.b, b := s.a, u := s.v, v := s.u } else s
    pure { s with a := shr1 (subLimb s.a s.b).1, u := ← F.byhalf (F.sub s.u s.v) }

/-- The loop, for at most `fuel` rounds. -/
def invertLoop : ℕ → InvertState width → Exec String (Element width)
  | 0, s => if s.a ≠ F.zero then abort "out of fuel" else pure s.v
  | fuel + 1, s =>
    if s.a ≠ F.zero then do invertLoop fuel (← F.invertStep s) else pure s.v

def invert (a : Element width) : Exec String (Element width) := do
  ensure (¬ F.isZero a) "cannot invert zero"
  F.invertLoop (2 * width.bits * F.L)
    { a := ← F.toStandard a, b := F.modulo, u := F.one, v := F.zero }

/-! ### Serialization -/

def serializedSizeBytes : ℕ := F.W * 8

/-- The bytes of a limb, least significant first. -/
def toLeBytes (limb : BitVec width.bits) : List (BitVec 8) :=
  (List.range width.bytes).map fun k => limb.extractLsb' (8 * k) 8

def fromLeBytes (bytes : List (BitVec 8)) : BitVec width.bits :=
  BitVec.ofNat width.bits (wordsVal bytes)

/-- Write limb `i` into a destination of `len` bytes, as far as it reaches. -/
def writeLimb (len : ℕ) (bytes : List (BitVec 8)) (limb : BitVec width.bits × ℕ) :
    Exec String (List (BitVec 8)) := do
  let start := limb.2 * width.bytes
  let stop := start + width.bytes
  if stop ≤ len then
    withSlice bytes start stop fun _ => pure (toLeBytes limb.1)
  else if start < len then
    withSlice bytes start len fun _ => slice (toLeBytes limb.1) 0 (len - start)
  else pure bytes

def toBytesInto (e : Element width) (dst : List (BitVec 8)) :
    Exec String (List (BitVec 8)) := do
  let len := dst.length
  let size := F.serializedSizeBytes
  ensure (len = size) s!"destination slice length mismatch: {len} != {size}"
  let standard ← F.toStandard e
  standard.zipIdx.foldlM (writeLimb len) dst

def toBytes (e : Element width) : Exec String (List (BitVec 8)) :=
  F.toBytesInto e (List.replicate F.serializedSizeBytes 0)

def bytesToElement (bytes : List (BitVec 8)) : Exec String (Element width) := do
  check (bytes.length = F.serializedSizeBytes) "Invalid size"
  let limbs ← (List.range F.L).mapM fun i => do
    let start := i * width.bytes
    let stop := start + width.bytes
    if stop ≤ bytes.length then pure (fromLeBytes (← slice bytes start stop))
    else pure (BitVec.ofNat width.bits 0)
  check (lt limbs F.modulo) "Out of bounds"
  F.toMontgomery limbs

/-! ### Sums of products -/

/-- Add the product of two elements to an accumulator. -/
def mac (acc : Element width) (x y : Element width) : Exec String (Element width) :=
  (List.range F.L).foldlM (fun acc i => do mulAccum acc i (← getAt x i) y) acc

def accumReduce (acc : Element width) : Exec String (Element width) := do
  let size := F.accumL + F.L + 1
  ensure (F.accumL + F.L < 64) s!"Scratch array size 64 is too small for ACCUM_L + L + 1 = {size}"
  let a := List.replicate 64 (BitVec.ofNat width.bits 0)
  ensure (2 * F.L < F.accumL) "Accumulator size must be at least 2W+1"
  let a ← (List.range F.accumL).foldlM (fun a i =>
    withSlice a i (i + F.L + 2) fun window => do
      let window ← accum window 0 [← getAt acc i]
      reductionStep window 0 F.modulo F.mPrime) a
  let res ← slice a F.accumL (F.accumL + F.L)
  let top ← getAt a (F.accumL + F.L)
  F.mul (maybeMinusM res top F.negModulo) F.accumScale

/-- The element of a number of `W` words, which may be the modulus or more. -/
def reduceNat (words : List (BitVec 64)) : Exec String (Element width) := do
  let limbs := words64ToLimbs width F.L words
  if lt limbs F.modulo then
    F.toMontgomery limbs
  else
    let acc ← F.mac (List.replicate F.accumL 0) limbs F.r2
    F.accumReduce acc

end FpGenericField

end Longfellow.FpGeneric
