/-
**Bottom-up passes over a heap-shaped tree.**

A complete binary tree with `n` leaves sits in an array of `2 * n` cells: the leaves at `n … 2n-1`,
the root at `1`, the children of `i` at `2i` and `2i + 1`. The passes over it walk the inner nodes
downwards from `n - 1` to `1`.

* `bottomUp_returns` — **the pass that combines children** returns, leaves the leaves alone and
  gives every inner node the combination of its final children (`Filled`).
-/

import Longfellow.Lib.Exec
import Mathlib.Algebra.Order.BigOperators.Group.List
import Mathlib.Data.List.Nodup
import Mathlib.Data.Nat.Log
import Mathlib.Data.List.Perm.Subperm
import Mathlib.Tactic.Ring

namespace Lib

variable {ε α σ : Type}

/-! ### Counting down the inner nodes -/

/-- The inner nodes of a heap with `n` leaves, last to first: `n - 1, …, 1`. -/
def innerNodes (n : Nat) : List Nat := (List.range' 1 (n - 1)).reverse

variable {n : Nat}

theorem mem_innerNodes {i : Nat} : i ∈ innerNodes n ↔ 1 ≤ i ∧ i < n := by
  simp only [innerNodes, List.mem_reverse, List.mem_range'_1]
  omega

theorem innerNodes_succ (pos : 1 ≤ n) : innerNodes (n + 1) = n :: innerNodes n := by
  obtain ⟨k, rfl⟩ : ∃ k, n = k + 1 := ⟨n - 1, by omega⟩
  simp [innerNodes, List.range'_concat, Nat.add_comm]

theorem nodup_innerNodes (n : Nat) : (innerNodes n).Nodup := by
  rw [innerNodes, List.nodup_reverse]
  exact List.nodup_range'

theorem countdown_returns {f : σ → Nat → Exec ε σ} (inv : Nat → σ → Prop) {s : σ} (pos : 1 ≤ n)
    (start : inv n s) (step : ∀ {i s}, 1 ≤ i → i < n → inv (i + 1) s → ∃ t, f s i = .ok t ∧ inv i t) :
    ∃ t, (innerNodes n).foldlM f s = .ok t ∧ inv 1 t := by
  induction n, pos using Nat.le_induction generalizing s with
  | base => exact ⟨s, rfl, start⟩
  | succ n pos ih =>
    obtain ⟨next, stepped, held⟩ := step pos (Nat.lt_succ_self n) start
    obtain ⟨t, ran, final⟩ := ih held (fun low high => step low (Nat.lt_succ_of_lt high))
    refine ⟨t, ?_, final⟩
    rw [innerNodes_succ pos, List.foldlM_cons, stepped]
    exact ran

/-! ### Combining children -/

/-- One step of a bottom-up pass: node `i` becomes a combination of its old value and of its
children. -/
def combineAt (combine : α → α → α → α) (cells : List α) (i : Nat) : Exec ε (List α) := do
  let old ← getAt cells i
  let left ← getAt cells (2 * i)
  let right ← getAt cells (2 * i + 1)
  setAt cells i (combine old left right)

/-- The bottom-up pass over all inner nodes. -/
def bottomUp (combine : α → α → α → α) (n : Nat) (cells : List α) : Exec ε (List α) :=
  (innerNodes n).foldlM (combineAt combine) cells

/-- The outcome of a bottom-up pass: the leaves are those of `before`, and every inner node is the
combination of its old value and its final children. -/
structure Filled (combine : α → α → α → α) (n : Nat) (before cells : List α) : Prop where
  length : cells.length = before.length
  leaf : ∀ {v}, n ≤ v → cells[v]? = before[v]?
  node : ∀ {i}, 1 ≤ i → i < n → ∃ old left right, before[i]? = some old ∧
    cells[2 * i]? = some left ∧ cells[2 * i + 1]? = some right ∧
    cells[i]? = some (combine old left right)

/-- **The bottom-up pass returns a filled heap.** -/
theorem bottomUp_returns (combine : α → α → α → α) {before : List α} (pos : 1 ≤ n)
    (size : before.length = 2 * n) :
    ∃ cells, (bottomUp combine n before : Exec ε (List α)) = .ok cells ∧
      Filled combine n before cells := by
  -- Above `i` the heap is filled; below `i`, and among the leaves, nothing has been written.
  let inv : Nat → List α → Prop := fun i cells =>
    cells.length = 2 * n ∧ (∀ v, v < i ∨ n ≤ v → cells[v]? = before[v]?) ∧
      ∀ j, i ≤ j → j < n → ∃ old left right, before[j]? = some old ∧
        cells[2 * j]? = some left ∧ cells[2 * j + 1]? = some right ∧
        cells[j]? = some (combine old left right)
  have start : inv n before := ⟨size, fun _ _ => rfl, fun j low high => by omega⟩
  obtain ⟨cells, ran, length, outer, inner⟩ := countdown_returns (ε := ε) inv pos start
    (f := combineAt combine) (by
      rintro i cells low high ⟨length, outer, inner⟩
      have ownBound : i < cells.length := by omega
      have leftBound : 2 * i < cells.length := by omega
      have rightBound : 2 * i + 1 < cells.length := by omega
      refine ⟨cells.set i (combine cells[i] cells[2 * i] cells[2 * i + 1]), ?_, ?_, ?_, ?_⟩
      · simp only [combineAt, getAt_of_lt ownBound, getAt_of_lt leftBound, getAt_of_lt rightBound,
          ok_bind, setAt_of_lt ownBound]
      · rw [List.length_set, length]
      · intro v away
        rw [List.getElem?_set_ne (by omega)]
        exact outer v (by omega)
      · intro j above below
        have children : i ≠ 2 * j ∧ i ≠ 2 * j + 1 := by omega
        rw [List.getElem?_set_ne children.1, List.getElem?_set_ne children.2]
        by_cases same : i = j
        · subst same
          refine ⟨cells[i], cells[2 * i], cells[2 * i + 1], ?_, ?_, ?_, ?_⟩
          · rw [← outer i (by omega), List.getElem?_eq_getElem ownBound]
          · exact List.getElem?_eq_getElem leftBound
          · exact List.getElem?_eq_getElem rightBound
          · exact List.getElem?_set_self ownBound
        · rw [List.getElem?_set_ne same]
          exact inner j (by omega) below)
  exact ⟨cells, ran, length.trans size.symm, fun far => outer _ (Or.inr far),
    fun low high => inner _ low high⟩

/-! ### Writing a list of cells -/

/-- Write the given values into the given cells, in order. -/
def assign (writes : List (Nat × α)) (cells : List (Option α)) : List (Option α) :=
  writes.foldl (fun cells write => cells.set write.1 (some write.2)) cells

@[simp] theorem assign_nil (cells : List (Option α)) : assign [] cells = cells := rfl

@[simp] theorem assign_cons (write : Nat × α) (writes : List (Nat × α)) (cells : List (Option α)) :
    assign (write :: writes) cells = assign writes (cells.set write.1 (some write.2)) := rfl

@[simp] theorem length_assign (writes : List (Nat × α)) (cells : List (Option α)) :
    (assign writes cells).length = cells.length := by
  induction writes generalizing cells with
  | nil => rfl
  | cons write writes ih => rw [assign_cons, ih, List.length_set]

variable {writes : List (Nat × α)} {cells : List (Option α)} {j : Nat}

/-- A cell that is not written keeps its value. -/
theorem assign_getElem?_of_notMem (fresh : j ∉ writes.map Prod.fst) :
    (assign writes cells)[j]? = cells[j]? := by
  induction writes generalizing cells with
  | nil => rfl
  | cons write writes ih =>
    simp only [List.map_cons, List.mem_cons, not_or] at fresh
    rw [assign_cons, ih fresh.2, List.getElem?_set_ne (Ne.symm fresh.1)]

theorem mem_of_assign_getElem? {a : α} (found : (assign writes cells)[j]? = some (some a)) :
    (j, a) ∈ writes ∨ cells[j]? = some (some a) := by
  induction writes generalizing cells with
  | nil => exact Or.inr found
  | cons write writes ih =>
    rcases ih found with member | kept
    · exact Or.inl (List.mem_cons_of_mem _ member)
    · by_cases same : write.1 = j
      · subst same
        rw [List.getElem?_set] at kept
        have : a = write.2 := by grind
        exact Or.inl (by simp [this])
      · rw [List.getElem?_set_ne same] at kept
        exact Or.inr kept

/-- A cell that is written once holds what was written. -/
theorem assign_getElem?_of_mem {a : α} (distinct : (writes.map Prod.fst).Nodup)
    (member : (j, a) ∈ writes) (bound : j < cells.length) :
    (assign writes cells)[j]? = some (some a) := by
  induction writes generalizing cells with
  | nil => cases member
  | cons write writes ih =>
    rw [List.map_cons, List.nodup_cons] at distinct
    rcases List.mem_cons.mp member with rfl | member
    · rw [assign_cons, assign_getElem?_of_notMem distinct.1, List.getElem?_set_self bound]
    · exact ih distinct.2 member (by rwa [List.length_set])

theorem exists_assign_getElem?
    (written : (∃ a, cells[j]? = some (some a)) ∨ (j ∈ writes.map Prod.fst ∧ j < cells.length)) :
    ∃ a, (assign writes cells)[j]? = some (some a) := by
  induction writes generalizing cells with
  | nil => simpa using written
  | cons write writes ih =>
    refine ih ?_
    rw [List.length_set]
    by_cases same : write.1 = j
    · left
      subst same
      have bound : write.1 < cells.length := by
        rcases written with ⟨a, found⟩ | ⟨_, bound⟩
        · exact (List.getElem?_eq_some_iff.mp found).1
        · exact bound
      exact ⟨write.2, List.getElem?_set_self bound⟩
    · rw [List.getElem?_set_ne same]
      rcases written with held | ⟨member, bound⟩
      · exact Or.inl held
      · rcases List.mem_cons.mp member with equal | member
        · exact absurd equal.symm same
        · exact Or.inr ⟨member, bound⟩

theorem foldlM_setAt (bound : ∀ write ∈ writes, write.1 < cells.length) :
    (writes.foldlM (fun cells write => setAt cells write.1 (some write.2)) cells :
      Exec ε (List (Option α))) = .ok (assign writes cells) := by
  induction writes generalizing cells with
  | nil => rfl
  | cons write writes ih =>
    have head := bound write (List.mem_cons_self ..)
    rw [List.foldlM_cons, setAt_of_lt head, ok_bind, assign_cons]
    exact ih fun later member => by
      rw [List.length_set]
      exact bound later (List.mem_cons_of_mem _ member)

/-! ### Nodes above leaves -/

/-- The proper ancestors of cell `v`, from its parent to the root. -/
def ancestors (v : Nat) : List Nat := (List.range (Nat.log 2 v)).map fun k => v / 2 ^ (k + 1)

theorem mem_ancestors_of_child {c v i : Nat} (pos : 1 ≤ i) (child : c = 2 * i ∨ c = 2 * i + 1)
    (above : c = v ∨ c ∈ ancestors v) : i ∈ ancestors v := by
  have half : i = c / 2 := by omega
  have large : 2 ≤ c := by omega
  obtain ⟨k, reach⟩ : ∃ k, c = v / 2 ^ k := by
    rcases above with rfl | member
    · exact ⟨0, by simp⟩
    · obtain ⟨k, _, reach⟩ := List.mem_map.mp member
      exact ⟨k + 1, reach.symm⟩
  have value : v / 2 ^ (k + 1) = i := by rw [half, reach, Nat.div_div_eq_div_mul, pow_succ]
  refine List.mem_map.mpr ⟨k, List.mem_range.mpr ?_, value⟩
  by_contra far
  have small : v < 2 ^ (k + 1) :=
    lt_of_lt_of_le (Nat.lt_pow_succ_log_self (by norm_num) v)
      (Nat.pow_le_pow_right (by norm_num) (by omega))
  rw [Nat.div_eq_of_lt small] at value
  omega

/-- **How many nodes lie above `t` leaves**: at most `t` times the height of the heap. -/
theorem length_le_of_ancestors {nodes leaves : List Nat} (distinct : nodes.Nodup)
    (inside : ∀ v ∈ leaves, v < 2 * n) (above : ∀ i ∈ nodes, ∃ v ∈ leaves, i ∈ ancestors v) :
    nodes.length ≤ leaves.length * Nat.clog 2 n := by
  have cover : nodes ⊆ leaves.flatMap ancestors := fun i member => by
    obtain ⟨v, leaf, ancestor⟩ := above i member
    exact List.mem_flatMap.mpr ⟨v, leaf, ancestor⟩
  have height : ∀ v ∈ leaves, (ancestors v).length ≤ Nat.clog 2 n := fun v leaf => by
    rw [ancestors, List.length_map, List.length_range]
    have top : v < 2 ^ (Nat.clog 2 n + 1) := by
      have := inside v leaf
      have := Nat.le_pow_clog (b := 2) (by norm_num) n
      rw [pow_succ]
      omega
    exact Nat.lt_succ_iff.mp (Nat.log_lt_of_lt_pow' (by omega) top)
  calc nodes.length ≤ (leaves.flatMap ancestors).length :=
        (List.subperm_of_subset distinct cover).length_le
    _ = (leaves.map fun v => (ancestors v).length).sum := List.length_flatMap
    _ ≤ (leaves.map fun _ => Nat.clog 2 n).sum := List.sum_le_sum height
    _ = leaves.length * Nat.clog 2 n := by simp

end Lib
