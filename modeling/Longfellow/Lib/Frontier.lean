/-
**Frontiers in heap-shaped trees.**

Some leaves of a heap with `n` leaves are marked, and each inner node is marked when one of its
children is. The frontier consists of the unmarked children of marked nodes.

* `card_half` — **the size of the frontier**: the marked inner nodes and one, less the marked leaves.
-/

import Longfellow.Lib.Heap
import Mathlib.Algebra.BigOperators.Intervals
import Mathlib.Algebra.BigOperators.Ring.Finset
import Mathlib.Algebra.Order.BigOperators.Group.Finset

namespace Lib

open Finset

variable {n : Nat} {marked : Nat → Prop}

/-- An inner node is marked when one of its children is. -/
def Rooted (n : Nat) (marked : Nat → Prop) : Prop :=
  ∀ i, 1 ≤ i → i < n → (marked i ↔ marked (2 * i) ∨ marked (2 * i + 1))

theorem Rooted.above (rooted : Rooted n marked) {v : Nat} (low : 1 ≤ v) (high : v < 2 * n)
    (here : marked v) : ∃ leaf, n ≤ leaf ∧ leaf < 2 * n ∧ marked leaf ∧
      (v = leaf ∨ v ∈ ancestors leaf) := by
  induction gap : 2 * n - v using Nat.strong_induction_on generalizing v with
  | _ gap ih =>
    by_cases inner : v < n
    · obtain ⟨child, isChild, below⟩ : ∃ c, (c = 2 * v ∨ c = 2 * v + 1) ∧ marked c := by
        rcases (rooted v low inner).mp here with left | right
        · exact ⟨2 * v, Or.inl rfl, left⟩
        · exact ⟨2 * v + 1, Or.inr rfl, right⟩
      obtain ⟨leaf, bound, bound', isMarked, above⟩ :=
        ih (2 * n - child) (by omega) (by omega) (by omega) below rfl
      exact ⟨leaf, bound, bound', isMarked, Or.inr (mem_ancestors_of_child low isChild above)⟩
    · exact ⟨v, by omega, high, here, Or.inl rfl⟩

variable [DecidablePred marked]

/-- The marked inner nodes. -/
def markedInner (n : Nat) (marked : Nat → Prop) [DecidablePred marked] : Finset Nat :=
  (Ico 1 n).filter marked

/-- The marked leaves. -/
def markedLeaves (n : Nat) (marked : Nat → Prop) [DecidablePred marked] : Finset Nat :=
  (Ico n (2 * n)).filter marked

/-- The marked inner nodes with an unmarked child. -/
def halfMarked (n : Nat) (marked : Nat → Prop) [DecidablePred marked] : Finset Nat :=
  (Ico 1 n).filter fun i => marked i ∧ ¬ (marked (2 * i) ∧ marked (2 * i + 1))

theorem sum_children (f : Nat → Nat) (pos : 1 ≤ n) :
    ∑ i ∈ Ico 1 n, (f (2 * i) + f (2 * i + 1)) = ∑ v ∈ Ico 2 (2 * n), f v := by
  induction n, pos using Nat.le_induction with
  | base => simp
  | succ n pos ih =>
    rw [sum_Ico_succ_top pos, ih, Nat.mul_succ, sum_Ico_succ_top (by omega),
      sum_Ico_succ_top (by omega), Nat.add_assoc]

/-- **The size of the frontier.** Counted by their parents, the marked nodes below the root are two
for each marked inner node, less one for each with an unmarked child. -/
theorem card_half (rooted : Rooted n marked) (pos : 1 ≤ n) (root : marked 1) :
    (halfMarked n marked).card + (markedLeaves n marked).card = (markedInner n marked).card + 1 := by
  let count : Nat → Nat := fun v => if marked v then 1 else 0
  have parents : (halfMarked n marked).card + ∑ i ∈ Ico 1 n, (count (2 * i) + count (2 * i + 1)) =
      2 * ∑ i ∈ Ico 1 n, count i := by
    rw [halfMarked, card_filter, ← sum_add_distrib, mul_sum]
    refine sum_congr rfl fun i member => ?_
    obtain ⟨low, high⟩ := mem_Ico.mp member
    have up := rooted i low high
    by_cases left : marked (2 * i) <;> by_cases right : marked (2 * i + 1) <;>
      simp [count, up, left, right]
  have whole : ∑ v ∈ Ico 1 n, count v + ∑ v ∈ Ico n (2 * n), count v =
      count 1 + ∑ v ∈ Ico 2 (2 * n), count v := by
    rw [sum_Ico_consecutive count pos (by omega), sum_eq_sum_Ico_succ_bot (by omega)]
  have one : count 1 = 1 := if_pos root
  rw [sum_children count pos] at parents
  rw [markedLeaves, markedInner, card_filter, card_filter]
  show (halfMarked n marked).card + ∑ v ∈ Ico n (2 * n), count v = ∑ v ∈ Ico 1 n, count v + 1
  omega

/-! ### Levels -/

/-- The ancestor of a node on level `l`. -/
def ancestorAt (l v : Nat) : Nat := v / 2 ^ (Nat.log 2 v - l)

theorem ancestorAt_log {i v : Nat} (low : 1 ≤ i) (above : i = v ∨ i ∈ ancestors v) :
    ancestorAt (Nat.log 2 i) v = i := by
  obtain ⟨k, bound, rfl⟩ : ∃ k ≤ Nat.log 2 v, i = v / 2 ^ k := by
    rcases above with rfl | member
    · exact ⟨0, Nat.zero_le _, by simp⟩
    · obtain ⟨k, inside, reach⟩ := List.mem_map.mp member
      exact ⟨k + 1, List.mem_range.mp inside, reach.symm⟩
  rw [ancestorAt, Nat.log_div_base_pow, Nat.sub_sub_self bound]

/-- **The marked nodes of a level** are at most those of the level, and at most one for each marked
leaf. -/
theorem card_inner_le (rooted : Rooted n marked) :
    (markedInner n marked).card ≤
      ∑ l ∈ range (Nat.clog 2 n), min (2 ^ l) (markedLeaves n marked).card := by
  have levels : Set.MapsTo (Nat.log 2) (markedInner n marked : Set Nat)
      (range (Nat.clog 2 n) : Set Nat) := fun i member => by
    obtain ⟨low, high⟩ := mem_Ico.mp (mem_filter.mp (mem_coe.mp member)).1
    refine mem_coe.mpr (mem_range.mpr (Nat.log_lt_of_lt_pow (by omega) ?_))
    exact high.trans_le (Nat.le_pow_clog (by norm_num) n)
  rw [card_eq_sum_card_fiberwise levels]
  refine sum_le_sum fun l _ => Nat.le_min.mpr ⟨?_, ?_⟩
  · calc (filter (fun i => Nat.log 2 i = l) (markedInner n marked)).card
        ≤ (Ico (2 ^ l) (2 ^ (l + 1))).card := card_le_card fun i member => by
          obtain ⟨inner, level⟩ := mem_filter.mp member
          obtain ⟨low, _⟩ := mem_Ico.mp (mem_filter.mp inner).1
          rw [mem_Ico, ← level]
          exact ⟨Nat.pow_log_le_self 2 (by omega), Nat.lt_pow_succ_log_self (by norm_num) i⟩
      _ = 2 ^ l := by rw [Nat.card_Ico, pow_succ]; omega
  · refine (card_le_card fun i member => ?_).trans (card_image_le (f := ancestorAt l))
    obtain ⟨inner, rfl⟩ := mem_filter.mp member
    obtain ⟨range, here⟩ := mem_filter.mp inner
    obtain ⟨low, high⟩ := mem_Ico.mp range
    obtain ⟨leaf, bound, bound', isMarked, above⟩ := rooted.above low (by omega) here
    exact mem_image.mpr ⟨leaf, mem_filter.mpr ⟨mem_Ico.mpr ⟨bound, bound'⟩, isMarked⟩,
      ancestorAt_log low above⟩

/-- The levels that `t` marks fill, and the ones where each mark has its own node. -/
theorem sum_levels {t height : Nat} (fits : Nat.clog 2 t ≤ height) :
    ∑ l ∈ range height, min (2 ^ l) t + 1 = t * (height - Nat.clog 2 t) + 2 ^ Nat.clog 2 t := by
  induction height, fits using Nat.le_induction with
  | base =>
    have full : ∀ levels ≤ Nat.clog 2 t, ∑ l ∈ range levels, min (2 ^ l) t + 1 = 2 ^ levels := by
      intro levels
      induction levels with
      | zero => simp
      | succ l ih =>
        intro bound
        have small : 2 ^ l < t := (Nat.lt_clog_iff_pow_lt (by norm_num)).mp (by omega)
        have before := ih (by omega)
        rw [sum_range_succ, min_eq_left small.le, pow_succ]
        omega
    rw [full _ le_rfl, Nat.sub_self, Nat.mul_zero, Nat.zero_add]
  | succ height fits ih =>
    have large : t ≤ 2 ^ height := (Nat.le_pow_clog (by norm_num) t).trans
      (Nat.pow_le_pow_right (by norm_num) fits)
    rw [sum_range_succ, min_eq_right large, Nat.succ_sub fits, Nat.mul_succ]
    omega

/-- **The largest frontier** of `t` marked leaves. -/
theorem card_half_le (rooted : Rooted n marked) (pos : 1 ≤ n) (root : marked 1) :
    (halfMarked n marked).card + (markedLeaves n marked).card ≤ (markedLeaves n marked).card *
      (Nat.clog 2 n - Nat.clog 2 (markedLeaves n marked).card) +
        2 ^ Nat.clog 2 (markedLeaves n marked).card := by
  have few : (markedLeaves n marked).card ≤ n := by
    refine (card_filter_le _ _).trans ?_
    rw [Nat.card_Ico]
    omega
  have sum := sum_levels (Nat.clog_mono_right 2 few)
  have size := card_half rooted pos root
  have inner := card_inner_le rooted
  omega

end Lib
