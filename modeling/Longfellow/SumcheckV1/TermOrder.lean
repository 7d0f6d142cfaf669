/-
**The order of the terms of a layer** (`core/proto/src/layer.rs`, `util/src/morton.rs`).

The terms of a layer are sorted by the Morton order of their operands first. The wiring tensor counts
on two facts about it: terms with the same operands are next to each other, and the operands stay in
order when the hands are halved in turn, with the hand that is halved next taken as the low one.

* `pairwise_prefixes` — **halving in turn keeps the order**.
-/

import Longfellow.Compile.Schedule
import Longfellow.Lib.Ordering
import Longfellow.SumcheckV1.Binding

namespace Longfellow.SumcheckV1

open Lib

variable {ε E : Type}

/-! ### A total order -/

/-- The comparison of two pairs of words. -/
def cmpWords (x y : UInt32 × UInt32) : Ordering :=
  Morton.cmp x.1.toNat x.2.toNat y.1.toNat y.2.toNat

/-- The bits of a pair of words in turn. -/
def wordsCode (x : UInt32 × UInt32) : Nat := Morton.interleave 64 x.1.toNat x.2.toNat

theorem fits_words (x : UInt32 × UInt32) : Morton.Fits 64 x.1.toNat x.2.toNat :=
  ⟨x.1.toNat_lt, x.2.toNat_lt⟩

theorem cmpWords_eq (x y : UInt32 × UInt32) : cmpWords x y = compare (wordsCode x) (wordsCode y) :=
  Morton.cmp_eq_compare (fits_words x) (fits_words y)

theorem wordsCode_injective : Function.Injective wordsCode := by
  intro x y same
  obtain ⟨first, second⟩ := Morton.interleave_inj (fits_words x) (fits_words y) same
  exact Prod.ext (UInt32.toNat.inj first) (UInt32.toNat.inj second)

theorem transCmp_cmpWords : Std.TransCmp cmpWords := by
  have codes : Std.TransCmp fun x y : UInt32 × UInt32 => compare (wordsCode x) (wordsCode y) :=
    transCmp_comap (inferInstance : Std.TransCmp fun a b : Nat => compare a b) wordsCode
  rwa [← funext fun x => funext fun y => cmpWords_eq x y] at codes

theorem lawful_cmpWords : Std.LawfulEqCmp cmpWords where
  compare_self := by
    intro x
    rw [cmpWords_eq, Nat.compare_eq_eq]
  eq_of_compare := by
    intro x y same
    rw [cmpWords_eq, Nat.compare_eq_eq] at same
    exact wordsCode_injective same

/-! ### Sorted terms -/

/-- The operands of a term as words. -/
def operandWords (term : Term E) : UInt32 × UInt32 := (term.h0, term.h1)

theorem compareTerm_eq (f : SerializableField E) (t s : Term E) : Compile.compareTerm f t s =
    (cmpWords (operandWords t) (operandWords s)).then ((compare t.g s.g).then
      (Compile.compareBytes (f.toBytes t.k) (f.toBytes s.k))) := rfl

theorem transCmp_compareTerm (f : SerializableField E) : Std.TransCmp (Compile.compareTerm f) := by
  have outputs : Std.TransCmp fun a b : UInt32 => compare a b := inferInstance
  have bytes : Std.TransCmp Compile.compareBytes :=
    inferInstanceAs (Std.TransCmp (List.compareLex compare))
  exact transCmp_then (transCmp_comap transCmp_cmpWords operandWords)
    (transCmp_then (transCmp_comap outputs Term.g) (transCmp_comap bytes fun t : Term E => f.toBytes t.k))

theorem pairwise_operands {f : SerializableField E} {terms : List (Term E)}
    (sorted : terms.Pairwise fun t s => (Compile.compareTerm f t s).isLE = true) :
    terms.Pairwise fun t s => (cmpWords (operandWords t) (operandWords s)).isLE = true :=
  sorted.imp fun {t s} order => Ordering.isLE_left_of_isLE_then (compareTerm_eq f t s ▸ order)

/-! ### Halving in turn -/

/-- The comparison with the given hand taken as the first coordinate. -/
def cmpFrom (hand : Hand) (c d : Nat × Nat) : Ordering :=
  Morton.cmp (hand.get c) (hand.other.get c) (hand.get d) (hand.other.get d)

/-- **Halving one hand** keeps the order, with the other hand taken first. -/
theorem cmpFrom_halve {hand : Hand} {c d : Nat × Nat} (order : (cmpFrom hand c d).isLE = true) :
    (cmpFrom hand.other (halve hand c) (halve hand d)).isLE = true := by
  rw [cmpFrom, Morton.cmp_step] at order
  rw [cmpFrom, Hand.other_other, halve, halve, Hand.get_set, Hand.get_set, Hand.get_other_set,
    Hand.get_other_set]
  exact Ordering.isLE_left_of_isLE_then order

/-- **Halving in turn keeps the order.** -/
theorem pairwise_prefixes {hs : List (Nat × Nat)}
    (sorted : hs.Pairwise fun c d => (cmpFrom .right c d).isLE = true) (n : Nat) :
    (hs.map (prefixAt n)).Pairwise fun c d => (cmpFrom (handAt n) c d).isLE = true := by
  induction n with
  | zero =>
    rw [List.map_congr_left fun h _ => prefixAt_zero h, List.map_id']
    exact sorted
  | succ n ih =>
    have next : hs.map (prefixAt (n + 1)) = (hs.map (prefixAt n)).map (halve (handAt n)) := by
      rw [List.map_map]
      exact List.map_congr_left fun h _ => prefixAt_succ n h
    rw [next, List.pairwise_map, handAt_succ]
    exact ih.imp cmpFrom_halve

/-! ### The rounds in place -/

/-- Indices of words. -/
def IsWords (h : Nat × Nat) : Prop := h.1 < 2 ^ 32 ∧ h.2 < 2 ^ 32

/-- Corners in strict order. -/
def Ascending (hand : Hand) (corners : List (Corner E)) : Prop :=
  corners.Pairwise fun c d => cmpFrom hand c.h d.h = .lt

variable {corners : List (Corner E)}

theorem Ascending.ordered (ascending : Ascending .right corners)
    (small : ∀ c ∈ corners, IsWords c.h) : Ordered .right 64 corners := by
  have fits : ∀ c ∈ corners, Morton.Fits 64 (Hand.right.get c.h) (Hand.right.other.get c.h) := small
  refine ⟨fits, List.Pairwise.imp_of_mem (fun {c d} inside inside' less => ?_) ascending⟩
  rw [cmpFrom, Morton.cmp_eq_compare (fits c inside) (fits d inside'), Nat.compare_eq_lt] at less
  exact less

theorem Ordered.ascending {hand : Hand} {k : Nat} (ordered : Ordered hand k corners) :
    Ascending hand corners := by
  refine List.Pairwise.imp_of_mem (fun {c d} inside inside' less => ?_) ordered.increasing
  rw [cmpFrom, Morton.cmp_eq_compare (ordered.fits c inside) (ordered.fits d inside'),
    Nat.compare_eq_lt]
  exact less

/-- A term at the indices of a corner. -/
def termAt (c : Corner E) : Term E := ⟨c.v, 0, UInt32.ofNat c.h.1, UInt32.ofNat c.h.2⟩

theorem operands_termAt {c : Corner E} (small : IsWords c.h) : operands (termAt c) = c.h :=
  Prod.ext (UInt32.toNat_ofNat_of_lt' small.1) (UInt32.toNat_ofNat_of_lt' small.2)

/-- **The rounds in place keep the order**, and drop the bits of the rounds from every corner. -/
theorem ascending_rounds [CommRing E] (ascending : Ascending .right corners)
    (small : ∀ c ∈ corners, IsWords c.h) (rs : List E) (room : rs.length ≤ 64) :
    ∃ left, (bindRounds 0 rs (.ofCorners corners) : Exec ε _) = .ok (.ofCorners left) ∧
      Ascending (handAt rs.length) left ∧
      ∀ h, (∃ c ∈ left, c.h = h) ↔ ∃ c ∈ corners, prefixAt rs.length c.h = h := by
  have same : ∀ i h, (∃ term ∈ corners.map termAt, prefixAt i (operands term) = h) ↔
      ∃ c ∈ corners, prefixAt i c.h = h := by
    intro i h
    constructor
    · rintro ⟨term, member, isPrefix⟩
      obtain ⟨c, isCorner, rfl⟩ := List.mem_map.mp member
      exact ⟨c, isCorner, by rw [← operands_termAt (small c isCorner), isPrefix]⟩
    · rintro ⟨c, isCorner, isPrefix⟩
      exact ⟨termAt c, List.mem_map_of_mem isCorner, by
        rw [operands_termAt (small c isCorner), isPrefix]⟩
  have start : Bound 64 0 (corners.map termAt) corners := by
    refine ⟨ascending.ordered small, fun h => ?_⟩
    rw [same]
    simp only [prefixAt_zero]
  obtain ⟨left, ran, final⟩ := bound_rounds (ε := ε) rs start (by omega)
  rw [Nat.zero_add] at final
  exact ⟨left, ran, final.ordered.ascending, fun h => (final.prefixes h).trans (same _ h)⟩

/-! ### Morton order -/

/-- **Morton order**: the comparison is that of the interleaved integers and a total order; a layer
sorted by it has terms with the same operands next to each other, and stays in order when its hands
are halved in turn, as the rounds of the sumcheck do it. -/
theorem mortonOrder [CommRing E] (f : SerializableField E) :
    (∀ x : UInt32 × UInt32, ∀ i < 32, (wordsCode x).testBit (2 * i) = x.1.toNat.testBit i ∧
      (wordsCode x).testBit (2 * i + 1) = x.2.toNat.testBit i) ∧
    (∀ x y, cmpWords x y = compare (wordsCode x) (wordsCode y)) ∧
    (Std.TransCmp cmpWords ∧ Std.LawfulEqCmp cmpWords) ∧
    (∀ terms : List (Term E),
      ((terms.mergeSort fun t s => (Compile.compareTerm f t s).isLE).Perm terms ∧
        (terms.mergeSort fun t s => (Compile.compareTerm f t s).isLE).Pairwise fun t s =>
          (Compile.compareTerm f t s).isLE = true)) ∧
    (∀ terms : List (Term E),
      (terms.Pairwise fun t s => (Compile.compareTerm f t s).isLE = true) →
        (∀ (i j k : Nat) (s t u : Term E), i ≤ j → j ≤ k → terms[i]? = some s →
          terms[j]? = some t → terms[k]? = some u → operands s = operands u → operands t = operands s) ∧
        ∀ n, (terms.map fun t => prefixAt n (operands t)).Pairwise fun c d =>
          (cmpFrom (handAt n) c d).isLE = true) ∧
    ∀ (corners : List (Corner E)) (rs : List E), (∀ c ∈ corners, IsWords c.h) →
      Ascending .right corners → rs.length ≤ 64 →
        ∃ left, (bindRounds 0 rs (.ofCorners corners) : Exec ε _) = .ok (.ofCorners left) ∧
          Ascending (handAt rs.length) left ∧
          ∀ h, (∃ c ∈ left, c.h = h) ↔ ∃ c ∈ corners, prefixAt rs.length c.h = h := by
  refine ⟨fun x i low => ⟨?_, ?_⟩, cmpWords_eq, ⟨transCmp_cmpWords, lawful_cmpWords⟩,
    fun terms => ⟨List.mergeSort_perm .., pairwise_sorted (transCmp_compareTerm f) terms⟩,
    fun terms sorted => ⟨?_, fun n => ?_⟩,
    fun corners rs small ascending room => ascending_rounds ascending small rs room⟩
  · rw [wordsCode, Morton.testBit_interleave, if_pos (by omega), Nat.mul_div_cancel_left i two_pos]
    simp [show 2 * i < 64 by omega]
  · rw [wordsCode, Morton.testBit_interleave, if_neg (by omega),
      show (2 * i + 1) / 2 = i by omega]
    simp [show 2 * i + 1 < 64 by omega]
  · intro i j k s t u lower upper isFirst isMiddle isLast same
    have words : operandWords s = operandWords u :=
      Prod.ext (UInt32.toNat.inj (Prod.ext_iff.mp same).1) (UInt32.toNat.inj (Prod.ext_iff.mp same).2)
    have equal := key_between transCmp_cmpWords lawful_cmpWords (pairwise_operands sorted) lower
      upper isFirst isMiddle isLast words
    exact congrArg (fun w : UInt32 × UInt32 => (w.1.toNat, w.2.toNat)) equal
  · have inOrder : (terms.map operands).Pairwise fun c d => (cmpFrom .right c d).isLE = true :=
      List.pairwise_map.mpr (pairwise_operands sorted)
    have kept := pairwise_prefixes inOrder n
    rwa [List.map_map] at kept

end Longfellow.SumcheckV1
