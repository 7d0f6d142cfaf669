/-
**Tables in the order of use.**

The entries of a table are counted, the table is sorted by the counts, and references to it are
renumbered. The new numbers have 32 bits, the table may have more entries than that.

* `sortedTable_getAt` — **a reference that is used leads to the entry it led to before**: entries
  that are used stand first, and references have 32 bits.
-/

import Mathlib.Data.List.GetD
import Mathlib.Data.List.Sort
import Mathlib.Data.List.Perm.Subperm
import Longfellow.Lib.Exec

namespace Lib

variable {ε α : Type} {i : ℕ}

/-- One more reference to a position. -/
def bumpAt (counts : List ℕ) (i : ℕ) : Exec ε (List ℕ) := do
  setAt counts i ((← getAt counts i) + 1)

/-- The counts of references to a table of some length. -/
def tally (n : ℕ) (refs : List ℕ) : Exec ε (List ℕ) := refs.foldlM bumpAt (List.replicate n 0)

/-- Whether a position stands before another one: more often used, or as often and earlier. -/
def before (counts : List ℕ) (a b : ℕ) : Bool :=
  decide (counts.getD b 0 < counts.getD a 0 ∨ counts.getD b 0 = counts.getD a 0 ∧ a ≤ b)

/-- The positions of a table, the most used ones first. -/
def frequencyOrder (counts : List ℕ) : List ℕ :=
  (List.range counts.length).mergeSort (before counts)

/-- The new number of every position. -/
def oldToNew (order : List ℕ) : List UInt32 :=
  order.zipIdx.foldl (fun table x => table.set x.1 (UInt32.ofNat x.2))
    (List.replicate order.length 0)

/-! ### Counts -/

theorem bumpAt_returns {counts : List ℕ} (inside : i < counts.length) :
    (bumpAt counts i : Exec ε _) = .ok (counts.set i (counts.getD i 0 + 1)) := by
  rw [bumpAt, getAt_of_lt inside, ok_bind, setAt_of_lt inside, List.getD_eq_getElem _ _ inside]

/-- **The counts of a list of references.** -/
theorem tally_returns {n : ℕ} (refs : List ℕ) (inside : ∀ i ∈ refs, i < n) :
    ∃ counts, (tally n refs : Exec ε _) = .ok counts ∧ counts.length = n ∧
      ∀ i < n, counts.getD i 0 = refs.count i := by
  suffices general : ∀ start : List ℕ, start.length = n →
      ∃ counts, (refs.foldlM bumpAt start : Exec ε _) = .ok counts ∧ counts.length = n ∧
        ∀ i < n, counts.getD i 0 = start.getD i 0 + refs.count i by
    obtain ⟨counts, ran, size, each⟩ := general (List.replicate n 0) List.length_replicate
    refine ⟨counts, ran, size, fun i small => ?_⟩
    rw [each i small, List.getD_eq_getElem _ _ (by rwa [List.length_replicate]),
      List.getElem_replicate, Nat.zero_add]
  induction refs with
  | nil => exact fun start size => ⟨start, rfl, size, fun i _ => by simp⟩
  | cons r refs ih =>
    intro start size
    have here : r < start.length := size ▸ inside r (List.mem_cons_self ..)
    obtain ⟨counts, ran, sized, each⟩ :=
      ih (fun i member => inside i (List.mem_cons_of_mem _ member))
        (start.set r (start.getD r 0 + 1)) (by rw [List.length_set, size])
    refine ⟨counts, by rw [List.foldlM_cons, bumpAt_returns here, ok_bind, ran], sized, ?_⟩
    intro i small
    rw [each i small, List.count_cons]
    by_cases same : r = i
    · subst same
      rw [List.getD_eq_getElem _ _ (by rwa [List.length_set]), List.getElem_set_self,
        if_pos (beq_self_eq_true r)]
      omega
    · rw [List.getD_eq_getElem _ _ (by rwa [List.length_set, size]), List.getElem_set_ne same,
        ← List.getD_eq_getElem _ 0, if_neg (by simpa using same), Nat.add_zero]

/-! ### The order -/

section

variable {counts : List ℕ}

theorem frequencyOrder_perm (counts : List ℕ) :
    (frequencyOrder counts).Perm (List.range counts.length) := List.mergeSort_perm _ _

theorem length_frequencyOrder (counts : List ℕ) :
    (frequencyOrder counts).length = counts.length := by
  rw [(frequencyOrder_perm counts).length_eq, List.length_range]

theorem mem_frequencyOrder : i ∈ frequencyOrder counts ↔ i < counts.length :=
  (frequencyOrder_perm counts).mem_iff.trans List.mem_range

theorem nodup_frequencyOrder (counts : List ℕ) : (frequencyOrder counts).Nodup :=
  (frequencyOrder_perm counts).nodup_iff.mpr List.nodup_range

theorem pairwise_frequencyOrder (counts : List ℕ) :
    (frequencyOrder counts).Pairwise fun a b => counts.getD b 0 ≤ counts.getD a 0 := by
  have sorted : (frequencyOrder counts).Pairwise fun a b => before counts a b = true := by
    refine List.pairwise_mergeSort ?_ ?_ _
    · intro a b c first second
      simp only [before, decide_eq_true_eq] at first second ⊢
      omega
    · intro a b
      simp only [before, Bool.or_eq_true, decide_eq_true_eq]
      omega
  refine sorted.imp fun {a b} earlier => ?_
  simp only [before, decide_eq_true_eq] at earlier
  omega

/-- Entries that are used have a number in 32 bits, when their positions have 32 bits: those before
them are used as well. -/
theorem idxOf_frequencyOrder_lt {bound : ℕ} (used : 0 < counts.getD i 0)
    (small : ∀ j, 0 < counts.getD j 0 → j < bound) :
    (frequencyOrder counts).idxOf i < bound := by
  have inside : i < counts.length := by
    by_contra outside
    rw [List.getD_eq_default _ _ (not_lt.mp outside)] at used
    exact absurd used (lt_irrefl 0)
  have found : (frequencyOrder counts).idxOf i < (frequencyOrder counts).length :=
    List.idxOf_lt_length_iff.mpr (mem_frequencyOrder.mpr inside)
  -- the entries up to this one, all of them used
  have early : ((frequencyOrder counts).take ((frequencyOrder counts).idxOf i + 1)) ⊆
      List.range bound := by
    intro j member
    obtain ⟨k, before, rfl⟩ := List.mem_take_iff_getElem.mp member
    have place : k ≤ (frequencyOrder counts).idxOf i := by omega
    have listed : k < (frequencyOrder counts).length := by omega
    have count : counts.getD i 0 ≤ counts.getD (frequencyOrder counts)[k] 0 := by
      rcases place.eq_or_lt with same | less
      · subst same
        rw [List.getElem_idxOf]
      · have ordered := List.pairwise_iff_getElem.mp (pairwise_frequencyOrder counts) k _
          listed found less
        rwa [List.getElem_idxOf] at ordered
    exact List.mem_range.mpr (small _ (used.trans_le count))
  have distinct := (nodup_frequencyOrder counts).sublist
    (List.take_sublist ((frequencyOrder counts).idxOf i + 1) _)
  have few := (List.subperm_of_subset distinct early).length_le
  rw [List.length_take, List.length_range] at few
  omega

/-! ### References -/

theorem length_oldToNew (order : List ℕ) : (oldToNew order).length = order.length := by
  suffices general : ∀ (pairs : List (ℕ × ℕ)) (start : List UInt32),
      (pairs.foldl (fun table x => table.set x.1 (UInt32.ofNat x.2)) start).length =
        start.length by
    rw [oldToNew, general, List.length_replicate]
  intro pairs
  induction pairs with
  | nil => exact fun start => rfl
  | cons x pairs ih => exact fun start => by rw [List.foldl_cons, ih, List.length_set]

theorem oldToNew_getD {order : List ℕ} (distinct : order.Nodup)
    (positions : ∀ i ∈ order, i < order.length) (member : i ∈ order) :
    (oldToNew order).getD i 0 = UInt32.ofNat (order.idxOf i) := by
  suffices general : ∀ (rest : List ℕ) (k : ℕ) (start : List UInt32), rest.Nodup →
      i < start.length →
      ((rest.zipIdx k).foldl (fun table x => table.set x.1 (UInt32.ofNat x.2)) start).getD i 0 =
        if i ∈ rest then UInt32.ofNat (k + rest.idxOf i) else start.getD i 0 by
    rw [oldToNew, general order 0 _ distinct
      (by rw [List.length_replicate]; exact positions i member), if_pos member, Nat.zero_add]
  intro rest
  induction rest with
  | nil => exact fun k start _ _ => by simp
  | cons r rest ih =>
    intro k start distinct inside
    obtain ⟨new, distinct⟩ := List.nodup_cons.mp distinct
    rw [List.zipIdx_cons, List.foldl_cons, ih (k + 1) _ distinct (by rwa [List.length_set])]
    by_cases same : r = i
    · subst same
      rw [if_neg new, if_pos (List.mem_cons_self ..), List.idxOf_cons_self,
        List.getD_eq_getElem _ _ (by rwa [List.length_set]), List.getElem_set_self]
      rfl
    · have other : i ≠ r := fun equal => same equal.symm
      rw [List.idxOf_cons_ne _ same]
      by_cases later : i ∈ rest
      · rw [if_pos later, if_pos (List.mem_cons_of_mem _ later)]
        congr 1
        omega
      · rw [if_neg later, if_neg (List.not_mem_cons_of_ne_of_not_mem other later),
          List.getD_eq_getElem _ _ (by rwa [List.length_set]),
          List.getElem_set_ne same, List.getD_eq_getElem _ _ inside]

theorem getAt_oldToNew (inside : i < counts.length) :
    (getAt (oldToNew (frequencyOrder counts)) i : Exec ε _) =
      .ok (UInt32.ofNat ((frequencyOrder counts).idxOf i)) := by
  have listed := mem_frequencyOrder.mpr inside
  have fits : i < (oldToNew (frequencyOrder counts)).length := by
    rwa [length_oldToNew, length_frequencyOrder]
  rw [getAt_of_lt fits, ← List.getD_eq_getElem _ 0, oldToNew_getD (nodup_frequencyOrder counts)
    (fun j member => length_frequencyOrder counts ▸ mem_frequencyOrder.mp member) listed]

theorem mapM_frequencyOrder (xs : List α) (size : counts.length = xs.length) :
    ∃ sorted, ((frequencyOrder counts).mapM (getAt xs) : Exec ε _) = .ok sorted ∧
      sorted.length = xs.length ∧
      ∀ i < xs.length, sorted[(frequencyOrder counts).idxOf i]? = xs[i]? := by
  have entries : ∀ i ∈ frequencyOrder counts, ∃ x, (getAt xs i : Exec ε _) = .ok x ∧
      some x = xs[i]? := by
    intro i member
    have inside : i < xs.length := size ▸ mem_frequencyOrder.mp member
    exact ⟨xs[i], getAt_of_lt inside, (List.getElem?_eq_getElem inside).symm⟩
  obtain ⟨sorted, ran, related⟩ := mapM_related entries
  have long : sorted.length = xs.length := by
    rw [related.length_eq, List.length_map, length_frequencyOrder, size]
  refine ⟨sorted, ran, long, fun i inside => ?_⟩
  have listed : i ∈ frequencyOrder counts := mem_frequencyOrder.mpr (size ▸ inside)
  have place : (frequencyOrder counts).idxOf i < sorted.length := by
    rw [long, ← size, ← length_frequencyOrder counts]
    exact List.idxOf_lt_length_iff.mpr listed
  have entry := List.Forall₂.get related place (by rw [← related.length_eq]; exact place)
  rw [List.get_eq_getElem, List.get_eq_getElem, List.getElem_map, List.getElem_idxOf] at entry
  rw [List.getElem?_eq_getElem place, entry]

/-- **A reference that is used leads to the entry it led to before.** -/
theorem sortedTable_getAt {refs : List ℕ} {xs sorted : List α}
    (counted : ∀ i < xs.length, counts.getD i 0 = refs.count i) (size : counts.length = xs.length)
    (narrow : ∀ i ∈ refs, i < 2 ^ 32)
    (moved : ∀ i < xs.length, sorted[(frequencyOrder counts).idxOf i]? = xs[i]?)
    (used : i ∈ refs) (inside : i < xs.length) :
    sorted[(UInt32.ofNat ((frequencyOrder counts).idxOf i)).toNat]? = xs[i]? := by
  have place : (frequencyOrder counts).idxOf i < 2 ^ 32 := by
    refine idxOf_frequencyOrder_lt ?_ fun j positive => ?_
    · rw [counted i inside]
      exact List.count_pos_iff.mpr used
    · have inside' : j < xs.length := by
        by_contra outside
        rw [List.getD_eq_default _ _ (by omega)] at positive
        exact absurd positive (lt_irrefl 0)
      rw [counted j inside'] at positive
      exact narrow j (List.count_pos_iff.mp positive)
  rw [UInt32.toNat_ofNat', Nat.mod_eq_of_lt place, moved i inside]

end

end Lib
