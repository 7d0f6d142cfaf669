/-
**Prime-field arithmetic is arithmetic modulo the prime.**

* `newGeneric_refines_iff` — **an admitted field is the field of integers modulo its prime exactly
  when its limbs fit the buffer of the product**.
-/

import Longfellow.Algebra.FpOperations
import Mathlib.Tactic.NormNum.Prime

namespace Longfellow.FpGeneric

open Lib Limb

variable {width : Width} {p : ℕ} {F : FpGenericField width} {x : ZMod p}
  {e : FpGenericField.Element width}

attribute [local instance] two_atLeastTwo

/-! ### Bytes -/

@[simp] theorem toLeBytes_length (limb : BitVec width.bits) :
    (FpGenericField.toLeBytes limb).length = width.bytes := by
  rw [FpGenericField.toLeBytes, List.length_map, List.length_range]

theorem leBytes_val {n : ℕ} (x : BitVec n) (k : ℕ) :
    wordsVal ((List.range k).map fun i => x.extractLsb' (8 * i) 8) = x.toNat % 2 ^ (8 * k) := by
  induction k with
  | zero => simp [Nat.mod_one]
  | succ k ih =>
    rw [List.range_succ, List.map_append, wordsVal_append, ih, List.length_map,
      List.length_range, List.map_singleton, wordsVal_cons, wordsVal_nil, Nat.mul_zero,
      Nat.add_zero, BitVec.extractLsb'_toNat, Nat.shiftRight_eq_div_pow, ← pow_mul,
      Nat.mul_succ, pow_add, Nat.mod_mul]

theorem toLeBytes_val (limb : BitVec width.bits) :
    wordsVal (FpGenericField.toLeBytes limb) = limb.toNat := by
  rw [FpGenericField.toLeBytes, leBytes_val, ← width.bits_eq, Nat.mod_eq_of_lt limb.isLt]

theorem flatMap_toLeBytes (limbs : List (BitVec width.bits)) :
    (limbs.flatMap FpGenericField.toLeBytes).length = limbs.length * width.bytes ∧
      wordsVal (limbs.flatMap FpGenericField.toLeBytes) = wordsVal limbs := by
  induction limbs with
  | nil => simp
  | cons limb limbs ih =>
    obtain ⟨length, value⟩ := ih
    constructor
    · rw [List.flatMap_cons, List.length_append, toLeBytes_length, length, List.length_cons,
        Nat.succ_mul, Nat.add_comm]
    · rw [List.flatMap_cons, wordsVal_append, toLeBytes_length, toLeBytes_val, value,
        wordsVal_cons, ← pow_mul, ← width.bits_eq]

theorem fromLeBytes_val {bytes : List (BitVec 8)} (size : bytes.length = width.bytes) :
    (FpGenericField.fromLeBytes bytes : BitVec width.bits).toNat = wordsVal bytes := by
  have low := wordsVal_lt bytes
  rw [size, ← pow_mul, ← width.bits_eq] at low
  rw [FpGenericField.fromLeBytes, BitVec.toNat_ofNat, Nat.mod_eq_of_lt low]

theorem limbs_val {bytes : List (BitVec 8)} {k : ℕ} (size : k * width.bytes ≤ bytes.length) :
    wordsVal ((List.range k).map fun i => (FpGenericField.fromLeBytes
      ((bytes.drop (i * width.bytes)).take width.bytes) : BitVec width.bits)) =
        wordsVal (bytes.take (k * width.bytes)) := by
  induction k with
  | zero => simp
  | succ k ih =>
    rw [Nat.succ_mul] at size
    rw [List.range_succ, List.map_append, wordsVal_append, ih (by omega), List.length_map,
      List.length_range, List.map_singleton, wordsVal_cons, wordsVal_nil, Nat.mul_zero,
      Nat.add_zero, fromLeBytes_val (by rw [List.length_take, List.length_drop]; omega),
      Nat.succ_mul, List.take_add, wordsVal_append, List.length_take,
      min_eq_left (show k * width.bytes ≤ bytes.length by omega), ← pow_mul, ← pow_mul,
      width.bits_eq]
    congr 3
    ring

section

theorem Valid.bytes (valid : Valid F p) : F.L * width.bytes = F.serializedSizeBytes := by
  rw [valid.limbs, FpGenericField.serializedSizeBytes, Nat.mul_assoc,
    Nat.mul_comm width.perU64, width.bytes_mul_perU64]

theorem toBytesInto_loop {standard : List (BitVec width.bits)} {dst : List (BitVec 8)}
    (size : dst.length = standard.length * width.bytes) :
    (standard.zipIdx.foldlM (FpGenericField.writeLimb dst.length) dst) =
    .ok (standard.flatMap FpGenericField.toLeBytes) := by
  obtain ⟨bytes, ran, length, written⟩ := foldlM_returns (ε := String)
    (f := FpGenericField.writeLimb dst.length)
    (fun (done : List (BitVec width.bits × ℕ)) (bytes : List (BitVec 8)) =>
      bytes.length = dst.length ∧ bytes.take (done.length * width.bytes) =
        (done.map (·.1)).flatMap FpGenericField.toLeBytes)
    (s := dst) ⟨rfl, by simp⟩ (by
      rintro done ⟨limb, i⟩ bytes before ⟨length, written⟩
      have found := getElem?_of_prefixed before
        (show (done ++ [(limb, i)])[done.length]? = some (limb, i) by simp)
      obtain ⟨inside, _⟩ := List.getElem?_eq_some_iff.mp found
      rw [List.getElem?_zipIdx, Nat.zero_add, Option.map_eq_some_iff] at found
      obtain ⟨_, _, same⟩ := found
      have index : i = done.length := (Prod.mk.inj same).2.symm
      rw [List.length_zipIdx] at inside
      have room := Nat.mul_le_mul_right width.bytes (Nat.succ_le_of_lt inside)
      rw [← size, Nat.succ_mul] at room
      have startLength : (bytes.take (i * width.bytes)).length = i * width.bytes := by
        rw [List.length_take, index]
        omega
      refine ⟨bytes.take (i * width.bytes) ++ FpGenericField.toLeBytes limb ++
        bytes.drop (i * width.bytes + width.bytes), ?_, ?_, ?_⟩
      · unfold FpGenericField.writeLimb
        dsimp only
        rw [index, if_pos room]
        exact withSlice_of_le (by omega) (by omega) (pure_eq_ok _)
      · rw [List.length_append, List.length_append, startLength, toLeBytes_length,
          List.length_drop, length, index]
        omega
      · rw [List.length_append, List.length_singleton, ← index, Nat.succ_mul, List.map_append,
          List.flatMap_append, ← written, index, List.take_left'
            (by rw [List.length_append, toLeBytes_length, ← index, startLength])]
        simp)
  rw [ran]
  rw [List.length_zipIdx, ← size, ← length, List.take_length, List.zipIdx_map_fst] at written
  rw [written]

variable [Fact p.Prime]

omit [Fact p.Prime] in
theorem IsResidue.val {L n : ℕ} {e : List (BitVec n)} (residue : IsResidue L p e x) :
    wordsVal e = x.val := by
  rw [← residue.value, ZMod.val_natCast, Nat.mod_eq_of_lt residue.canonical]

/-- **The bytes of an element** are those of its number. -/
theorem toBytes_returns (valid : Valid F p) (small : F.L ≤ 16) (form : F.IsForm p e x) :
    ∃ bytes, F.toBytes e = .ok bytes ∧ bytes.length = F.serializedSizeBytes ∧
      wordsVal bytes = x.val := by
  obtain ⟨standard, ran, residue⟩ := toStandard_residue valid small form
  obtain ⟨length, value⟩ := flatMap_toLeBytes standard
  refine ⟨standard.flatMap FpGenericField.toLeBytes, ?_, ?_, ?_⟩
  · rw [FpGenericField.toBytes, FpGenericField.toBytesInto]
    rw [ensure_of List.length_replicate, ok_bind, ran, ok_bind]
    exact toBytesInto_loop (by rw [List.length_replicate, residue.length, valid.bytes])
  · rw [length, residue.length, valid.bytes]
  · rw [value, residue.val]

/-- **What bytes decode to**: the element of a number below the prime, in exactly as many bytes
as the field has; any other string of bytes is an error. -/
theorem bytesToElement_returns (valid : Valid F p) (small : F.L ≤ 16) (bytes : List (BitVec 8)) :
    (bytes.length = F.serializedSizeBytes ∧ wordsVal bytes < p ∧
      ∃ e, F.bytesToElement bytes = .ok e ∧ F.IsForm p e (wordsVal bytes)) ∨
    (¬ (bytes.length = F.serializedSizeBytes ∧ wordsVal bytes < p) ∧
      ∃ error, F.bytesToElement bytes = raise error) := by
  by_cases size : bytes.length = F.serializedSizeBytes
  · have whole : F.L * width.bytes = bytes.length := valid.bytes.trans size.symm
    obtain ⟨limbs, isLimbs⟩ : ∃ limbs, limbs = (List.range F.L).map fun i =>
      (FpGenericField.fromLeBytes
        ((bytes.drop (i * width.bytes)).take width.bytes) : BitVec width.bits) := ⟨_, rfl⟩
    have length : limbs.length = F.L := by rw [isLimbs, List.length_map, List.length_range]
    have value : wordsVal limbs = wordsVal bytes := by
      rw [isLimbs, limbs_val whole.le, whole, List.take_length]
    have ran : ((List.range F.L).mapM fun i => do
        let start := i * width.bytes
        let stop := start + width.bytes
        if stop ≤ bytes.length then pure (FpGenericField.fromLeBytes (← slice bytes start stop))
        else pure (BitVec.ofNat width.bits 0) : Exec String (List (BitVec width.bits))) = .ok limbs := by
      rw [isLimbs]
      apply mapM_eq_ok_map
      intro i member
      have room := Nat.mul_le_mul_right width.bytes (Nat.succ_le_of_lt (List.mem_range.mp member))
      rw [Nat.succ_mul, whole] at room
      dsimp only
      rw [if_pos room, slice_of_le (by omega) room, ok_bind, pure_eq_ok, Nat.add_sub_cancel_left]
    have order := lt_spec (length.trans valid.constants.length.symm)
    rw [value, valid.constants.value] at order
    by_cases below : wordsVal bytes < p
    · obtain ⟨e, isElement, form⟩ := toMontgomery_form valid small length
      rw [value] at form
      refine .inl ⟨size, below, e, ?_, form⟩
      rw [FpGenericField.bytesToElement, check_of size, ok_bind, ran, ok_bind,
        check_of (order.mpr below), ok_bind, isElement]
    · refine .inr ⟨fun both => below both.2, "Out of bounds", ?_⟩
      rw [FpGenericField.bytesToElement, check_of size, ok_bind, ran, ok_bind, check,
        if_neg (order.not.mpr below)]
      rfl
  · refine .inr ⟨fun both => size both.1, "Invalid size", ?_⟩
    rw [FpGenericField.bytesToElement, check, if_neg size]
    rfl

/-! ### Sums of products -/

variable {acc x y : FpGenericField.Element width}

omit [Fact p.Prime] in
/-- **The product of two numbers is added to an accumulator** that has room for the sum. -/
theorem mac_returns (valid : Valid F p) (size : acc.length = F.accumL) (left : x.length = F.L)
    (right : y.length = F.L)
    (fits : wordsVal acc + wordsVal x * wordsVal y < (2 ^ width.bits) ^ F.accumL) :
    ∃ sum, F.mac acc x y = .ok sum ∧ sum.length = F.accumL ∧
      wordsVal sum = wordsVal acc + wordsVal x * wordsVal y := by
  have positive : 0 < width.bits := Nat.zero_lt_of_lt width.wide
  have room := valid.room
  obtain ⟨sum, ran, length, value⟩ := foldlM_range_returns (ε := String)
    (f := fun (acc : List (BitVec width.bits)) i => do mulAccum acc i (← getAt x i) y)
    (fun i sum => sum.length = F.accumL ∧
      wordsVal sum = wordsVal acc + wordsVal (x.take i) * wordsVal y)
    (n := F.L) (s := acc) ⟨size, by simp⟩ (by
      rintro i sum inside ⟨length, value⟩
      have index : i < x.length := by omega
      have next : wordsVal acc + wordsVal (x.take (i + 1)) * wordsVal y =
          wordsVal sum + (2 ^ width.bits) ^ i * (x[i].toNat * wordsVal y) := by
        rw [value, List.take_succ_eq_append_getElem index, wordsVal_append, List.length_take,
          min_eq_left index.le, wordsVal_cons, wordsVal_nil]
        ring
      have part : wordsVal (x.take (i + 1)) ≤ wordsVal x := by
        have whole := wordsVal_append (x.take (i + 1)) (x.drop (i + 1))
        rw [List.take_append_drop] at whole
        omega
      have below := Nat.mul_le_mul_right (wordsVal y) part
      obtain ⟨sum', ran, size', total⟩ := mulAccum_returns positive (a := sum) (y := y) (k := i)
        x[i] (by omega) (by rw [← next, length]; omega)
      refine ⟨sum', ?_, size'.trans length, total.trans next.symm⟩
      rw [getAt_of_lt index, ok_bind, ran])
  exact ⟨sum, ran, length, by rw [value, List.take_of_length_le left.le]⟩

omit [Fact p.Prime] in
/-- **The product of two numbers in an accumulator of zeros.** -/
theorem mac_zero_returns (valid : Valid F p) (left : x.length = F.L) (right : y.length = F.L) :
    ∃ acc, F.mac (List.replicate F.accumL 0) x y = .ok acc ∧ acc.length = F.accumL ∧
      wordsVal acc = wordsVal x * wordsVal y := by
  have room := valid.room
  have zero : wordsVal (List.replicate F.accumL (0 : BitVec width.bits)) = 0 :=
    wordsVal_replicate_zero _
  have fits : wordsVal x * wordsVal y < (2 ^ width.bits) ^ F.accumL := by
    have product := Nat.mul_lt_mul'' (wordsVal_lt x) (wordsVal_lt y)
    rw [left, right, ← pow_add] at product
    exact lt_of_lt_of_le product (Nat.pow_le_pow_right (by positivity) (by omega))
  obtain ⟨acc, ran, length, value⟩ := mac_returns valid List.length_replicate left right
    (by rw [zero, Nat.zero_add]; exact fits)
  exact ⟨acc, ran, length, by rw [value, zero, Nat.zero_add]⟩

/-- **The reduction of an accumulator** divides by `R` and reduces. -/
theorem accumReduce_residue (valid : Valid F p) (small : F.L ≤ 16) (length : acc.length = F.accumL) :
    ∃ c, F.accumReduce acc = .ok c ∧
      ∀ z : ZMod p, z * (2 ^ width.bits) ^ F.L = wordsVal acc → IsResidue F.L p c z := by
  have scratch := valid.scratch
  have constants := valid.constants
  obtain ⟨a, ran, rounds⟩ := foldlM_range_returns (ε := String)
    (f := fun (a : List (BitVec width.bits)) i =>
      withSlice a i (i + F.L + 2) fun window => do
        let window ← accum window 0 [← getAt acc i]
        reductionStep window 0 F.modulo F.mPrime)
    (Rounds 64 p acc 1) (n := F.accumL)
    (Rounds.start constants 64 acc 1) (fun inside round =>
      round.fold constants valid.large (by omega) (by omega))
  have size := rounds.size
  obtain ⟨resLength, low, value⟩ := rounds.result constants (by omega)
  have folded := rounds.value
  rw [← value, List.take_of_length_le length.le] at folded
  obtain ⟨c, product, residue⟩ := montgomeryMul_residue constants small resLength valid.accumScale
  refine ⟨c, ?_, fun z quotient => residue z valid.two_ne_zero.isUnit ?_⟩
  · rw [FpGenericField.accumReduce]
    rw [ensure_of scratch, ok_bind, ensure_of valid.room, ok_bind, ran, ok_bind,
      slice_of_le (by omega) (by omega), ok_bind, Nat.add_sub_cancel_left,
      getAt_of_lt (by omega), ok_bind, FpGenericField.mul, product]
  · rw [quotient]
    push_cast at folded
    rw [folded, mul_one]

/-- **The reduction of a number of `W` words**, whether it is below the modulus or not. -/
theorem reduceNat_form (valid : Valid F p) (small : F.L ≤ 16) {words : List (BitVec 64)}
    (size : words.length = F.W) :
    ∃ c, F.reduceNat words = .ok c ∧ F.IsForm p c (wordsVal words) := by
  have length := words64ToLimbs_length width F.L words
  have value := words64ToLimbs_val width
    (show F.L = words.length * width.perU64 by rw [size, valid.limbs])
  rw [FpGenericField.reduceNat]
  by_cases below : lt (words64ToLimbs width F.L words) F.modulo = true
  · rw [if_pos below, ← value]
    exact toMontgomery_form valid small length
  · obtain ⟨acc, product, accLength, accVal⟩ := mac_zero_returns valid length valid.r2.length
    obtain ⟨c, ran, residue⟩ := accumReduce_residue valid small accLength
    rw [if_neg below]
    refine ⟨c, by rw [product, ok_bind, ran], residue _ ?_⟩
    rw [accVal, value, Nat.cast_mul, valid.r2.value, two_mul, pow_add]
    ring

end

/-! ### The refinement -/

namespace FpGenericField

variable (F : FpGenericField width)

/-- The limbs of a number below `p`. -/
def IsCanonical (p : ℕ) (e : Element width) : Prop := e.length = F.L ∧ wordsVal e < p

/-- **The representation map**: the number of the limbs over `R`. -/
def repr (p : ℕ) [Fact p.Prime] (e : Element width) : ZMod p :=
  (wordsVal e : ZMod p) / (2 ^ width.bits) ^ F.L

/-- A call returns the canonical element that represents `x`. -/
def Returns (p : ℕ) [Fact p.Prime] (call : Exec String (Element width)) (x : ZMod p) : Prop :=
  ∃ c, call = .ok c ∧ F.IsCanonical p c ∧ F.repr p c = x

/-- **The field refines the integers modulo `p`**: on canonical elements the representation map
is one to one and every operation returns the canonical element of the result, and the elements
are exchanged with the bytes of the numbers below `p`. -/
structure Refines (p : ℕ) [Fact p.Prime] : Prop where
  injective : ∀ a b, F.IsCanonical p a → F.IsCanonical p b → F.repr p a = F.repr p b → a = b
  add : ∀ a b, F.IsCanonical p a → F.IsCanonical p b →
    F.Returns p (.ok (F.add a b)) (F.repr p a + F.repr p b)
  sub : ∀ a b, F.IsCanonical p a → F.IsCanonical p b →
    F.Returns p (.ok (F.sub a b)) (F.repr p a - F.repr p b)
  neg : ∀ a, F.IsCanonical p a → F.Returns p (.ok (F.neg a)) (-F.repr p a)
  mul : ∀ a b, F.IsCanonical p a → F.IsCanonical p b →
    F.Returns p (F.mul a b) (F.repr p a * F.repr p b)
  invert : ∀ a, F.IsCanonical p a → F.repr p a ≠ 0 → F.Returns p (F.invert a) (F.repr p a)⁻¹
  ofScalar : ∀ scalar : BitVec 64, F.Returns p (F.ofScalar scalar) (scalar.toNat : ZMod p)
  reduceNat : ∀ words : List (BitVec 64), words.length = F.W →
    F.Returns p (F.reduceNat words) (wordsVal words : ZMod p)
  toBytes : ∀ e, F.IsCanonical p e → ∃ bytes, F.toBytes e = .ok bytes ∧
    bytes.length = F.serializedSizeBytes ∧ wordsVal bytes = (F.repr p e).val ∧
    F.bytesToElement bytes = .ok e
  bytesToElement : ∀ bytes : List (BitVec 8), bytes.length = F.serializedSizeBytes →
    wordsVal bytes < p → ∃ e, F.bytesToElement bytes = .ok e ∧ F.IsCanonical p e ∧
      F.toBytes e = .ok bytes
  rejects : ∀ bytes : List (BitVec 8),
    ¬ (bytes.length = F.serializedSizeBytes ∧ wordsVal bytes < p) →
      ∃ error, F.bytesToElement bytes = raise error

end FpGenericField

section

variable [Fact p.Prime]

theorem isForm_iff (valid : Valid F p) :
    F.IsForm p e x ↔ F.IsCanonical p e ∧ F.repr p e = x := by
  constructor
  · intro form
    exact ⟨⟨form.length, form.canonical⟩, (div_eq_iff valid.radix_ne_zero).mpr form.value⟩
  · rintro ⟨⟨length, canonical⟩, value⟩
    exact ⟨length, canonical, (div_eq_iff valid.radix_ne_zero).mp value⟩

theorem returns_of_form (valid : Valid F p) {call : Exec String (FpGenericField.Element width)}
    (ran : ∃ c, call = .ok c ∧ F.IsForm p c x) : F.Returns p call x := by
  obtain ⟨c, returned, form⟩ := ran
  exact ⟨c, returned, (isForm_iff valid).mp form⟩

theorem refines_of_small (valid : Valid F p) (small : F.L ≤ 16) : F.Refines p := by
  have form : ∀ {e}, F.IsCanonical p e → F.IsForm p e (F.repr p e) := fun canonical =>
    (isForm_iff valid).mpr ⟨canonical, rfl⟩
  refine
    { injective := ?_, add := ?_, sub := ?_, neg := ?_, mul := ?_, invert := ?_, ofScalar := ?_,
      reduceNat := ?_, toBytes := ?_, bytesToElement := ?_, rejects := ?_ }
  · intro a b left right same
    exact (form left).unique (same ▸ form right)
  · intro a b left right
    exact returns_of_form valid ⟨_, rfl, add_form valid (form left) (form right)⟩
  · intro a b left right
    exact returns_of_form valid ⟨_, rfl, sub_form valid (form left) (form right)⟩
  · intro a canonical
    exact returns_of_form valid ⟨_, rfl, neg_form valid (form canonical)⟩
  · intro a b left right
    exact returns_of_form valid (mul_form valid small (form left) (form right))
  · intro a canonical nonzero
    exact returns_of_form valid (invert_form valid small (form canonical) nonzero)
  · intro scalar
    exact returns_of_form valid (ofScalar_form valid small scalar)
  · intro words size
    exact returns_of_form valid (reduceNat_form valid small size)
  · intro e canonical
    obtain ⟨bytes, ran, size, value⟩ := toBytes_returns valid small (form canonical)
    refine ⟨bytes, ran, size, value, ?_⟩
    have below : wordsVal bytes < p := value ▸ ZMod.val_lt _
    rcases bytesToElement_returns valid small bytes with ⟨_, _, back, decoded, again⟩ | ⟨bad, _⟩
    · rw [value, ZMod.natCast_val, ZMod.cast_id] at again
      rw [decoded, again.unique (form canonical)]
    · exact absurd ⟨size, below⟩ bad
  · intro bytes size below
    rcases bytesToElement_returns valid small bytes with ⟨_, _, e, decoded, again⟩ | ⟨bad, _⟩
    · obtain ⟨bytes', ran, size', value⟩ := toBytes_returns valid small again
      rw [ZMod.val_natCast, Nat.mod_eq_of_lt below] at value
      refine ⟨e, decoded, ⟨again.length, again.canonical⟩, ?_⟩
      rw [ran, wordsVal_injective (size'.trans size.symm) value]
    · exact absurd ⟨size, below⟩ bad
  · intro bytes bad
    rcases bytesToElement_returns valid small bytes with ⟨size, below, _⟩ | ⟨_, failed⟩
    · exact absurd ⟨size, below⟩ bad
    · exact failed

end

theorem mul_aborts (large : 16 < F.L)
    (a b : FpGenericField.Element width) :
    F.mul a b = abort "montgomery_mul: limb count exceeds static buffer" := by
  rw [FpGenericField.mul, montgomeryMul, ensure, if_neg (by omega)]
  rfl

theorem not_refines_of_large [Fact p.Prime] (valid : Valid F p)
    (large : 16 < F.L) : ¬ F.Refines p := by
  intro refines
  obtain ⟨canonical, _⟩ := (isForm_iff valid).mp (zero_form valid)
  obtain ⟨c, returned, _⟩ := refines.mul F.zero F.zero canonical canonical
  rw [mul_aborts large] at returned
  exact abort_ne_ok _ _ returned

/-- **An admitted field refines the integers modulo its prime exactly when its limbs fit the
buffer of the product.** -/
theorem newGeneric_refines_iff {L accumL : ℕ} {words : List (BitVec 64)}
    {F : FpGenericField width} [Fact (wordsVal words).Prime]
    (admitted : newGeneric width L accumL words = .ok F) :
    F.Refines (wordsVal words) ↔ L ≤ 16 := by
  obtain ⟨_, size, valid⟩ := newGeneric_valid admitted
  rw [← size]
  refine ⟨fun refines => ?_, refines_of_small valid⟩
  by_contra large
  exact not_refines_of_large valid (by omega) refines

theorem exists_seven : ∃ _ : Fact (wordsVal [7#64]).Prime, ∃ F,
    newGeneric .limb64 1 3 [7#64] = .ok F := by
  obtain ⟨F, admitted, _⟩ := newGeneric_returns (show Admits .limb64 1 3 [7#64] from
    ⟨by decide, rfl, by decide, by decide, by decide, by decide⟩)
  exact ⟨⟨show Nat.Prime 7 by norm_num⟩, F, admitted⟩

theorem newGeneric_refines_seven : ∃ _ : Fact (wordsVal [7#64]).Prime, ∃ F,
    newGeneric .limb64 1 3 [7#64] = .ok F ∧ F.Refines (wordsVal [7#64]) := by
  obtain ⟨prime, F, admitted⟩ := exists_seven
  exact ⟨prime, F, admitted, (newGeneric_refines_iff admitted).mpr (by decide)⟩

theorem exists_three : ∃ F, newGeneric .limb64 17 35 (3#64 :: List.replicate 16 0#64) = .ok F ∧
    wordsVal (3#64 :: List.replicate 16 0#64) = 3 ∧ F.L = 17 ∧ Valid F 3 := by
  have value : wordsVal (3#64 :: List.replicate 16 0#64) = 3 := by
    rw [wordsVal_cons, wordsVal_replicate_zero]
    rfl
  obtain ⟨F, admitted, _, size, valid⟩ := newGeneric_returns
    (show Admits .limb64 17 35 (3#64 :: List.replicate 16 0#64) from
      ⟨by decide, rfl, by decide, by decide, by rw [value], by rw [value]; decide⟩)
  rw [value] at valid
  exact ⟨F, admitted, value, size, valid⟩

/-- No product of theirs returns. -/
theorem newGeneric_three_panics : ∃ F, newGeneric .limb64 17 35 (3#64 :: List.replicate 16 0#64) =
    .ok F ∧ wordsVal (3#64 :: List.replicate 16 0#64) = 3 ∧ ¬ F.Refines 3 := by
  obtain ⟨F, admitted, value, size, valid⟩ := exists_three
  exact ⟨F, admitted, value, not_refines_of_large valid (by omega)⟩

end Longfellow.FpGeneric
