/-
**Bit vectors** (`circuits/arithmetic/src/circuit.rs`, `circuits/bitvec/src/circuit.rs`).

* `assertExactlyOne` combines the bits in a tree, with an or that is right only while its own
  assertions hold: `assertExactlyOne_returns` — it **holds exactly when one bit is set**.
-/

import Longfellow.Gadget.Boolean
import Longfellow.Gadget.Fields
import Longfellow.Lib.Exec

set_option linter.unusedSectionVars false

namespace Longfellow.Gadget

open Lib CompileField

variable {E : Type} [CompileField E] [DecidableEq E]

theorem getAt_encodes {a : List (Bitw E)} {xs : List Bool}
    (each : List.Forall₂ Bitw.Encodes a xs) {i : ℕ} (inside : i < xs.length) :
    ∃ x : Bitw E, (getAt a i : Exec String (Bitw E)) = .ok x ∧ x.Encodes (xs.getD i false) := by
  have inside' : i < a.length := by rwa [each.length_eq]
  refine ⟨a[i], getAt_of_lt inside', ?_⟩
  rw [List.getD_eq_getElem _ _ inside]
  exact List.Forall₂.get each inside' inside

namespace Arithmetic

/-- The bits as one element of the field. -/
def asEltwField (a : List (Bitw E)) : Exec String (Wire E) := do
  ensure (a.length ≤ pseudoDimension E)
    ("Bitvector length " ++ toString a.length ++ " exceeds field capacity " ++
      toString (pseudoDimension E))
  return Logic.sum (a.zipIdx.map fun x => Logic.mulk (pseudoBasis x.2) (Boolean.asEltw x.1))

/-- What is left of two vectors: bits, chunks, and the position of the next chunk. -/
structure Chunks where
  remainingN : ℕ
  remainingK : ℕ
  idx : ℕ

/-- The next chunk of two vectors. -/
def chunkStep (a b : List (Bitw E)) (s : Chunks) : Exec String (Assertions × Chunks) := do
  ensure (s.remainingK ≠ 0) "attempt to divide by zero"
  let chunkSize := s.remainingN / s.remainingK
  let chunkA ← slice a s.idx (s.idx + chunkSize)
  let chunkB ← slice b s.idx (s.idx + chunkSize)
  let eltA ← asEltwField chunkA
  let eltB ← asEltwField chunkB
  return (Logic.assertEq "chunk_eq" eltA eltB,
    ⟨s.remainingN - chunkSize, s.remainingK - 1, s.idx + chunkSize⟩)

/-- The next chunks. -/
def chunkLoop (a b : List (Bitw E)) : ℕ → Chunks → Exec String (List Assertions)
  | 0, _ => return []
  | k + 1, s => do
    let chunk ← chunkStep a b s
    let rest ← chunkLoop a b k chunk.2
    return chunk.1 :: rest

/-- Assert that two vectors are equal. -/
def assertEq (name : String) (a b : List (Bitw E)) : Exec String Assertions := do
  ensure (a.length = b.length) "assert_eq: slice lengths must match"
  if a.length = 0 then return Logic.ok
  else
    let k := divCeil a.length (pseudoDimension E)
    let chunks ← chunkLoop a b k ⟨a.length, k, 0⟩
    return Logic.assertNumbered name chunks

/-- An operation on every bit of two vectors of one length. -/
def map2 (f : Bitw E → Bitw E → Bitw E) (a b : List (Bitw E)) : Exec String (List (Bitw E)) := do
  ensure (a.length = b.length) "slice lengths mismatch in map2"
  return List.zipWith f a b

def xorb (a b : List (Bitw E)) : Exec String (List (Bitw E)) := map2 Boolean.xorb a b

/-! ### What the operations compute -/

variable {a b : List (Bitw E)} {xs ys : List Bool}

theorem terms_are (weight : ℕ → E) (each : List.Forall₂ Bitw.Encodes a xs) (k : ℕ) :
    List.Forall₂ Wire.Is
      ((a.zipIdx k).map fun x => Logic.mulk (weight x.2) (Boolean.asEltw x.1))
      ((xs.zipIdx k).map fun x => weight x.2 * bit E x.1) := by
  induction each generalizing k with
  | nil => exact .nil
  | cons head _ ih =>
    rw [List.zipIdx_cons, List.zipIdx_cons]
    exact .cons ((Boolean.asEltw_is head).mulk _) (ih (k + 1))

/-- **The element of some bits.** -/
theorem asEltwField_is (each : List.Forall₂ Bitw.Encodes a xs)
    (fits : xs.length ≤ pseudoDimension E) :
    ∃ x, asEltwField a = .ok x ∧ x.Is (weighted pseudoBasis xs) := by
  refine ⟨Logic.sum (a.zipIdx.map fun x => Logic.mulk (pseudoBasis x.2) (Boolean.asEltw x.1)), ?_,
    (Wire.Is.sum (terms_are pseudoBasis each 0)).congr (sum_weights pseudoBasis xs 0)⟩
  rw [asEltwField, ensure_of (each.length_eq ▸ fits), ok_bind, pure_eq_ok]

theorem chunk_fits {n k dim : ℕ} (bound : n ≤ (k + 1) * dim) :
    n / (k + 1) ≤ dim ∧ n - n / (k + 1) ≤ k * dim := by
  have small : n / (k + 1) ≤ dim := Nat.div_le_of_le_mul bound
  refine ⟨small, ?_⟩
  have split := Nat.div_add_mod n (k + 1)
  have rest : n % (k + 1) < k + 1 := Nat.mod_lt n (Nat.succ_pos k)
  rcases Nat.eq_or_lt_of_le small with full | less
  · rw [full] at split ⊢
    rw [Nat.add_mul, Nat.one_mul] at bound split
    omega
  · have most := Nat.mul_le_mul_left k (Nat.succ_le_of_lt less)
    rw [Nat.add_mul, Nat.one_mul] at split
    rw [Nat.mul_succ] at most
    omega

section

variable (each : List.Forall₂ Bitw.Encodes a xs) (each' : List.Forall₂ Bitw.Encodes b ys)
  (size : xs.length = ys.length)
include each each' size

/-- **The chunks that are left**: their assertions hold exactly when the bits that are left are
equal. -/
theorem chunkLoop_returns {n i : ℕ} (k : ℕ) (left : n + i = xs.length)
    (bound : n ≤ k * pseudoDimension E) :
    ∃ chunks, chunkLoop a b k ⟨n, k, i⟩ = .ok chunks ∧
      ((∀ c ∈ chunks, c = true) ↔ xs.drop i = ys.drop i) := by
  induction k generalizing n i with
  | zero =>
    refine ⟨[], rfl, ?_⟩
    rw [List.drop_eq_nil_of_le (by omega), List.drop_eq_nil_of_le (by omega)]
    simp
  | succ k ih =>
    obtain ⟨small, rest⟩ := chunk_fits bound
    generalize chosen : n / (k + 1) = c at small rest
    have inside : c ≤ n := chosen ▸ Nat.div_le_self _ _
    obtain ⟨chunks, ran, holds⟩ := ih (n := n - c) (i := i + c) (by omega) rest
    have part : List.Forall₂ Bitw.Encodes ((a.drop i).take c) ((xs.drop i).take c) :=
      List.forall₂_take _ (List.forall₂_drop _ each)
    have part' : List.Forall₂ Bitw.Encodes ((b.drop i).take c) ((ys.drop i).take c) :=
      List.forall₂_take _ (List.forall₂_drop _ each')
    obtain ⟨x, packed, isX⟩ := asEltwField_is part (by rw [List.length_take]; omega)
    obtain ⟨y, packed', isY⟩ := asEltwField_is part' (by rw [List.length_take]; omega)
    have stepped : chunkStep a b ⟨n, k + 1, i⟩ =
        .ok (Logic.assertEq "chunk_eq" x y, ⟨n - c, k, i + c⟩) := by
      have cut : ∀ l : List (Bitw E), l.length = xs.length →
          slice l i (i + c) = (.ok ((l.drop i).take c) : Exec String _) := fun l long => by
        rw [slice_of_le (Nat.le_add_right ..) (by omega), Nat.add_sub_cancel_left]
      dsimp only [chunkStep]
      rw [ensure_of (Nat.succ_ne_zero k), ok_bind, chosen, cut a each.length_eq, ok_bind,
        cut b (each'.length_eq.trans size.symm), ok_bind, packed, ok_bind, packed', ok_bind]
      rfl
    refine ⟨Logic.assertEq "chunk_eq" x y :: chunks, ?_, ?_⟩
    · rw [chunkLoop, stepped, ok_bind, ran, ok_bind, pure_eq_ok]
    · rw [List.forall_mem_cons, holds, isX.assertEq isY]
      have whole : ∀ l : List Bool, l.drop i = (l.drop i).take c ++ l.drop (i + c) :=
        fun l => by rw [← List.drop_drop, List.take_append_drop]
      have aligned : ((xs.drop i).take c).length = ((ys.drop i).take c).length := by
        simp [size]
      constructor
      · rintro ⟨first, later⟩
        have short : ((xs.drop i).take c).length ≤ pseudoDimension E := by
          rw [List.length_take]
          omega
        exact (whole xs).trans ((congr (congrArg _ (independent _ _ aligned short first))
          later).trans (whole ys).symm)
      · intro same
        obtain ⟨first, later⟩ :=
          List.append_inj ((whole xs).symm.trans (same.trans (whole ys))) aligned
        exact ⟨congrArg _ first, later⟩

/-- **Two vectors are asserted equal exactly when their bits are.** -/
theorem assertEq_returns (name : String) :
    ∃ held, assertEq name a b = .ok held ∧ (held = true ↔ xs = ys) := by
  have long := each.length_eq
  unfold assertEq
  rw [ensure_of (by rw [long, each'.length_eq, size]), ok_bind]
  by_cases empty : a.length = 0
  · rw [if_pos empty]
    refine ⟨_, rfl, ?_⟩
    rw [List.eq_nil_of_length_eq_zero (by omega : xs.length = 0),
      List.eq_nil_of_length_eq_zero (by omega : ys.length = 0)]
    exact ⟨fun _ => rfl, fun _ => rfl⟩
  · rw [if_neg empty]
    obtain ⟨chunks, ran, holds⟩ := chunkLoop_returns each each' size (n := a.length) (i := 0)
      (divCeil a.length (pseudoDimension E)) (by omega)
      (le_divCeil_mul _ pseudoDimension_pos)
    dsimp only
    refine ⟨Logic.assertNumbered name chunks, by rw [ran, ok_bind, pure_eq_ok], ?_⟩
    rw [assertNumbered_iff, holds, List.drop_zero, List.drop_zero]

end

theorem map2_encodes {f : Bitw E → Bitw E → Bitw E} {g : Bool → Bool → Bool}
    (bitwise : ∀ {a b : Bitw E} {s t : Bool}, a.Encodes s → b.Encodes t → (f a b).Encodes (g s t))
    (each : List.Forall₂ Bitw.Encodes a xs) (each' : List.Forall₂ Bitw.Encodes b ys)
    (size : xs.length = ys.length) :
    ∃ c, map2 f a b = .ok c ∧ List.Forall₂ Bitw.Encodes c (List.zipWith g xs ys) := by
  refine ⟨_, ?_, forall₂_zipWith (f := f) (g := g) bitwise each each'⟩
  rw [map2, ensure_of (by rw [each.length_eq, each'.length_eq, size]), ok_bind, pure_eq_ok]

/-! ### Exactly one -/

open Logic in
/-- Whether a bit is set in one of two parts, and whether at most one is in both. -/
def exactlyOneStep (l r : Bitw E × Assertions) : Bitw E × Assertions :=
  let atMostOne := Boolean.assertFalse "at_most_one" (Boolean.andb l.1 r.1)
  let combinedAssert := assertAll "at_most_one_step" [l.2, r.2, atMostOne]
  let combinedAny := Boolean.orAssumingAtMostOneTrue l.1 r.1
  (combinedAny, combinedAssert)

/-- Assert that exactly one bit is set. -/
def assertExactlyOne (a : List (Bitw E)) : Exec String Assertions :=
  match a with
  | [] => abort "assert_exactly_one of empty array"
  | [single] => return Boolean.assertTrue "single" single
  | a =>
    let root := Boolean.fold exactlyOneStep (fun x => (x, Logic.ok)) (.false, Logic.ok) a
    return Logic.assertAll "assert_exactly_one" [Boolean.assertTrue "any_root" root.1, root.2]

/-- What a part of the tree says of the number of bits that are set. Only while at most one is, its
bit stands for whether there is one. -/
def Counts (r : Bitw E × Assertions) (count : ℕ) : Prop :=
  (r.2 = true ↔ count ≤ 1) ∧ (count ≤ 1 → r.1.Encodes (decide (count = 1)))

theorem counts_bit {x : Bitw E} {s : Bool} (is : x.Encodes s) : Counts (x, Logic.ok) s.toNat := by
  refine ⟨iff_of_true rfl (Bool.toNat_le s), fun _ => ?_⟩
  cases s <;> exact is

theorem counts_step {l r : Bitw E × Assertions} {m n : ℕ} (left : Counts l m) (right : Counts r n) :
    Counts (exactlyOneStep l r) (m + n) := by
  obtain ⟨leftHolds, leftBit⟩ := left
  obtain ⟨rightHolds, rightBit⟩ := right
  have combined : (exactlyOneStep l r).2 = true ↔ m ≤ 1 ∧ n ≤ 1 ∧
      Boolean.assertFalse "at_most_one" (Boolean.andb l.1 r.1) = true := by
    rw [exactlyOneStep, assertAll_iff, ← leftHolds, ← rightHolds]
    simp
  have apart : m ≤ 1 → n ≤ 1 →
      (Boolean.assertFalse "at_most_one" (Boolean.andb l.1 r.1) = true ↔ m + n ≤ 1) := by
    intro few few'
    rw [Boolean.assertFalse_iff (Boolean.andb_encodes (leftBit few) (rightBit few'))]
    simp only [Bool.and_eq_false_iff, decide_eq_false_iff_not]
    omega
  refine ⟨combined.trans ⟨fun ⟨few, few', held⟩ => (apart few few').mp held, fun small => ?_⟩,
    fun small => ?_⟩
  · exact ⟨by omega, by omega, (apart (by omega) (by omega)).mpr small⟩
  · have chosen := Boolean.orAssumingAtMostOneTrue_encodes (leftBit (by omega)) (rightBit (by omega))
      (by simp only [decide_eq_true_eq]; omega)
    have same : (decide (m = 1) || decide (n = 1)) = decide (m + n = 1) := by
      rw [Bool.eq_iff_iff, Bool.or_eq_true, decide_eq_true_iff, decide_eq_true_iff,
        decide_eq_true_iff]
      omega
    rwa [same] at chosen

theorem count_eq_sum (xs : List Bool) : (xs.map Bool.toNat).foldr (· + ·) 0 = xs.count true := by
  induction xs with
  | nil => rfl
  | cons x xs ih =>
    rw [List.map_cons, List.foldr_cons, ih, List.count_cons]
    cases x
    · exact Nat.zero_add _
    · exact Nat.add_comm 1 _

/-- **Exactly one bit is asserted to be set**, whatever the others are. -/
theorem assertExactlyOne_returns (some : xs ≠ []) (each : List.Forall₂ Bitw.Encodes a xs) :
    ∃ held, assertExactlyOne a = .ok held ∧ (held = true ↔ xs.count true = 1) := by
  match a, xs, each with
  | [], [], .nil => exact absurd rfl some
  | [x], [s], .cons is .nil =>
    refine ⟨_, rfl, (Boolean.assertTrue_iff is).trans ?_⟩
    cases s <;> decide
  | x :: y :: a, s :: t :: xs, each =>
    have counts : List.Forall₂ (fun (x : Bitw E) n => Counts (x, Logic.ok) n) (x :: y :: a)
        ((s :: t :: xs).map Bool.toNat) :=
      List.forall₂_map_right_iff.mpr (each.imp fun _ _ => counts_bit)
    have none : Counts ((.false, Logic.ok) : Bitw E × Assertions) 0 :=
      counts_bit (show (Bitw.false : Bitw E).Encodes false from rfl)
    have root := Boolean.fold_rel Counts Nat.add_assoc Nat.zero_add Nat.add_zero none counts
      counts_step
    rw [count_eq_sum] at root
    obtain ⟨holds, any⟩ := root
    refine ⟨_, rfl, ?_⟩
    rw [assertAll_two, holds]
    constructor
    · rintro ⟨set, few⟩
      exact of_decide_eq_true ((Boolean.assertTrue_iff (any few)).mp set)
    · intro one
      exact ⟨(Boolean.assertTrue_iff (any one.le)).mpr (decide_eq_true one), one.le⟩

/-- **Packed equality and exactly one**: no vector is too long for the field, equality holds exactly
of equal bits, and exactly one exactly of a single bit. -/
theorem packed_exact (each : List.Forall₂ Bitw.Encodes a xs)
    (each' : List.Forall₂ Bitw.Encodes b ys) (size : xs.length = ys.length) (some : xs ≠ [])
    (name : String) :
    (∃ held, assertEq name a b = .ok held ∧ (held = true ↔ xs = ys)) ∧
      ∃ held, assertExactlyOne a = .ok held ∧ (held = true ↔ xs.count true = 1) :=
  ⟨assertEq_returns each each' size name, assertExactlyOne_returns some each⟩

/-- Three bits of a field of three elements, which packs one at a time, and of the binary field. -/
theorem packed_exact_three :
    (∃ a b : List (Bitw (ZMod 3)),
      (∃ held, assertEq "three" a b = .ok held ∧
        (held = true ↔ [false, true, true] = [false, true, false])) ∧
      ∃ held, assertExactlyOne a = .ok held ∧ (held = true ↔ [false, true, true].count true = 1)) ∧
    ∃ a b : List (Bitw Gf2128Elt),
      (∃ held, assertEq "three" a b = .ok held ∧
        (held = true ↔ [false, true, false] = [false, true, false])) ∧
      ∃ held, assertExactlyOne a = .ok held ∧
        (held = true ↔ [false, true, false].count true = 1) := by
  have three : List.Forall₂ Bitw.Encodes
      [.false, .p (Logic.konst (1 : ZMod 3)), .n (Logic.konst 0)] [false, true, true] :=
    .cons rfl (.cons ⟨rfl, rfl⟩ (.cons ⟨rfl, rfl⟩ .nil))
  have other : List.Forall₂ Bitw.Encodes
      [.false, .p (Logic.konst (1 : ZMod 3)), .n (Logic.konst 1)] [false, true, false] :=
    .cons rfl (.cons ⟨rfl, rfl⟩ (.cons ⟨rfl, rfl⟩ .nil))
  have binary : List.Forall₂ Bitw.Encodes
      [.false, .p (Logic.konst (1 : Gf2128Elt)), .n (Logic.konst 1)] [false, true, false] :=
    .cons rfl (.cons ⟨rfl, rfl⟩ (.cons ⟨rfl, rfl⟩ .nil))
  exact ⟨⟨_, _, packed_exact three other rfl (by decide) "three"⟩,
    ⟨_, _, packed_exact binary binary rfl (by decide) "three"⟩⟩

end Arithmetic

end Longfellow.Gadget
