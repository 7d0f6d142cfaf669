/-
**Comparisons and sorted lists.**

* `key_between` — **between two entries of one key, a list in the order of its keys has that key
  only.**
-/

import Mathlib.Data.List.Sort

namespace Lib

variable {α β : Type} {cmp : β → β → Ordering}

theorem transCmp_comap (trans : Std.TransCmp cmp) (g : α → β) :
    Std.TransCmp fun a b => cmp (g a) (g b) where
  eq_swap := Std.OrientedCmp.eq_swap
  isLE_trans := Std.TransCmp.isLE_trans

theorem transCmp_then {cmp cmp' : α → α → Ordering} (first : Std.TransCmp cmp)
    (second : Std.TransCmp cmp') : Std.TransCmp fun a b => (cmp a b).then (cmp' a b) :=
  inferInstanceAs (Std.TransCmp (compareLex cmp cmp'))

theorem pairwise_sorted {cmp : α → α → Ordering} (trans : Std.TransCmp cmp) (xs : List α) :
    (xs.mergeSort fun a b => (cmp a b).isLE).Pairwise fun a b => (cmp a b).isLE = true := by
  refine List.pairwise_mergeSort (fun _ _ _ => Std.TransCmp.isLE_trans) (fun a b => ?_) xs
  have swapped : cmp b a = (cmp a b).swap := Std.OrientedCmp.eq_swap
  rw [Bool.or_eq_true, swapped]
  cases cmp a b <;> decide

/-- **Entries of one key are adjacent** in a list that is in the order of its keys. -/
theorem key_between {xs : List α} {key : α → β} (trans : Std.TransCmp cmp)
    (lawful : Std.LawfulEqCmp cmp)
    (sorted : xs.Pairwise fun a b => (cmp (key a) (key b)).isLE = true) {i j k : ℕ} {a b c : α}
    (lower : i ≤ j) (upper : j ≤ k) (isFirst : xs[i]? = some a) (isMiddle : xs[j]? = some b)
    (isLast : xs[k]? = some c) (same : key a = key c) : key b = key a := by
  have ordered : ∀ {m n : ℕ} {x y : α}, m ≤ n → xs[m]? = some x → xs[n]? = some y →
      (cmp (key x) (key y)).isLE = true := by
    intro m n x y order found found'
    obtain ⟨inside, rfl⟩ := List.getElem?_eq_some_iff.mp found
    obtain ⟨inside', rfl⟩ := List.getElem?_eq_some_iff.mp found'
    rcases order.lt_or_eq with less | rfl
    · exact List.pairwise_iff_getElem.mp sorted m n inside inside' less
    · exact Std.ReflCmp.isLE_rfl
  have low := ordered lower isFirst isMiddle
  have high := ordered upper isMiddle isLast
  rw [← same] at high
  exact lawful.eq_of_compare (Std.OrientedCmp.isLE_antisymm high low)

end Lib
