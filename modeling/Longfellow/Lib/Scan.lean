/-
**Parallel prefixes of an associative operation.**

A scan replaces every entry of a list by the combination of all entries up to it. Done in halves,
the entries of the right half are combined with the last one of the left half.

* `sklansky_rel` — **a scan in halves computes the prefixes**, by induction on the halves.
-/

import Mathlib.Data.List.Forall2

namespace Lib

variable {R M : Type}

/-- Every combination of an accumulator with the first entries. -/
def prefixes (op : M → M → M) : M → List M → List M
  | _, [] => []
  | acc, x :: xs => op acc x :: prefixes op (op acc x) xs

/-- The scan of a list from the scans of its halves. -/
def joinHalves (reduce : R → R → R) (first : R) (left right : List R) : List R :=
  left ++ right.map (reduce (left.getLastD first))

/-- Scan in halves. -/
def sklansky (reduce : R → R → R) : List R → List R
  | [] => []
  | [x] => [x]
  | x :: y :: rest =>
    joinHalves reduce x
      (sklansky reduce ((x :: y :: rest).take ((x :: y :: rest).length / 2)))
      (sklansky reduce ((x :: y :: rest).drop ((x :: y :: rest).length / 2)))
termination_by arr => arr.length
decreasing_by
  · simp only [List.length_take, List.length_cons]
    omega
  · simp only [List.length_drop, List.length_cons]
    omega

variable {op : M → M → M}

theorem prefixes_append (acc : M) (xs ys : List M) :
    prefixes op acc (xs ++ ys) = prefixes op acc xs ++ prefixes op (xs.foldl op acc) ys := by
  induction xs generalizing acc with
  | nil => rfl
  | cons x xs ih => rw [List.cons_append, prefixes, ih, prefixes, List.cons_append, List.foldl_cons]

theorem prefixes_map (assoc : ∀ x y z, op (op x y) z = op x (op y z)) (acc acc' : M) (xs : List M) :
    prefixes op (op acc acc') xs = (prefixes op acc' xs).map (op acc) := by
  induction xs generalizing acc' with
  | nil => rfl
  | cons x xs ih => rw [prefixes, assoc, ih, prefixes, List.map_cons]

theorem getLastD_prefixes (acc d : M) {xs : List M} (some : xs ≠ []) :
    (prefixes op acc xs).getLastD d = xs.foldl op acc := by
  induction xs generalizing acc d with
  | nil => exact absurd rfl some
  | cons x xs ih =>
    rw [prefixes, List.getLastD_cons, List.foldl_cons]
    cases xs with
    | nil => rfl
    | cons y ys => exact ih _ _ (List.cons_ne_nil y ys)

theorem getLastD_rel {rel : R → M → Prop} {as : List R} {ms : List M} {d : R} {e : M}
    (each : List.Forall₂ rel as ms) (default : rel d e) : rel (as.getLastD d) (ms.getLastD e) := by
  induction each generalizing d e with
  | nil => exact default
  | cons head _ ih =>
    rw [List.getLastD_cons, List.getLastD_cons]
    exact ih head

/-- **A scan in halves computes the prefixes.** -/
theorem sklansky_rel {reduce : R → R → R} {unit : M} (rel : R → M → Prop)
    (assoc : ∀ x y z, op (op x y) z = op x (op y z)) (left : ∀ x, op unit x = x)
    (right : ∀ x, op x unit = x) (step : ∀ {r q x y}, rel r x → rel q y → rel (reduce r q) (op x y))
    {as : List R} {ms : List M} (each : List.Forall₂ rel as ms) :
    List.Forall₂ rel (sklansky reduce as) (prefixes op unit ms) := by
  fun_induction sklansky reduce as generalizing ms with
  | case1 =>
    cases each
    exact .nil
  | case2 x =>
    obtain ⟨m, _, head, rest, rfl⟩ := List.forall₂_cons_left_iff.mp each
    cases rest
    rw [prefixes, prefixes, left]
    exact .cons head .nil
  | case3 x y rest ih ih' =>
    obtain ⟨m, later, head, _, rfl⟩ := List.forall₂_cons_left_iff.mp each
    have halved : 0 < (x :: y :: rest).length / 2 := by
      simp only [List.length_cons]
      omega
    generalize (x :: y :: rest).length / 2 = half at ih ih' halved ⊢
    have lower := ih (List.forall₂_take half each)
    have upper := ih' (List.forall₂_drop half each)
    have some : (m :: later).take half ≠ [] := by
      rw [Ne, List.take_eq_nil_iff, not_or]
      exact ⟨Nat.ne_of_gt halved, List.cons_ne_nil _ _⟩
    -- The prefixes of the right half start from the last prefix of the left half.
    have last := getLastD_rel lower head
    rw [getLastD_prefixes _ _ some] at last
    rw [← List.take_append_drop half (m :: later), prefixes_append]
    refine List.rel_append lower ?_
    rw [← right (List.foldl op unit _), prefixes_map assoc, List.forall₂_map_left_iff,
      List.forall₂_map_right_iff]
    exact upper.imp fun _ _ entry => step last entry

end Lib
