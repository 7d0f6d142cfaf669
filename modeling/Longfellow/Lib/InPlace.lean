/-
**Arrays that are halved in place.**

A loop reads the two neighbours `2 i` and `2 i + 1` of an array and writes their combination at `i`.
The write cursor never overtakes the read cursor, so every pair is read as it was at the start.

* `combinePairs` — the loop; `combinePairs_returns` — **what it leaves**: the combinations in front,
  and the entries from the middle on as they were.
-/

import Longfellow.Lib.Exec

namespace Lib

variable {ε α : Type}

/-- Write the combination of each pair of neighbours over the first half of the array. -/
def combinePairs (combine : α → α → α) (v : List α) : Exec ε (List α) :=
  (List.range (v.length / 2)).foldlM (fun v i => do
    let v0 ← getAt v (2 * i)
    let v1 ← getAt v (2 * i + 1)
    setAt v i (combine v0 v1)) v

/-- The combinations of neighbours, with what becomes of a last entry that has none. -/
def pairUp (combine : α → α → α) (alone : α → α) : List α → List α
  | [] => []
  | [a] => [alone a]
  | a :: b :: rest => combine a b :: pairUp combine alone rest

variable {combine : α → α → α} {alone : α → α}

theorem length_pairUp (v : List α) : (pairUp combine alone v).length = (v.length + 1) / 2 := by
  induction v using pairUp.induct with
  | case1 => simp [pairUp]
  | case2 a => simp [pairUp]
  | case3 a b rest ih =>
    rw [pairUp, List.length_cons, ih, List.length_cons, List.length_cons]
    omega

theorem getElem?_pairUp {v : List α} {i : Nat} {a b : α} (even : v[2 * i]? = some a)
    (odd : v[2 * i + 1]? = some b) : (pairUp combine alone v)[i]? = some (combine a b) := by
  induction v using pairUp.induct generalizing i with
  | case1 => simp at even
  | case2 c => simp at odd
  | case3 c d rest ih =>
    cases i with
    | zero =>
      obtain rfl : c = a := by simpa using even
      obtain rfl : d = b := by simpa using odd
      rfl
    | succ i => exact ih (by simpa [Nat.mul_succ] using even) (by simpa [Nat.mul_succ] using odd)

theorem getElem?_pairUp_last {v : List α} {half : Nat} {a : α} (size : v.length = 2 * half + 1)
    (last : v[2 * half]? = some a) : (pairUp combine alone v)[half]? = some (alone a) := by
  induction v using pairUp.induct generalizing half with
  | case1 => simp at size
  | case2 c =>
    obtain rfl : half = 0 := by
      rw [List.length_singleton] at size
      omega
    obtain rfl : c = a := by simpa using last
    rfl
  | case3 c d rest ih =>
    cases half with
    | zero => simp at size
    | succ half =>
      refine ih ?_ (by simpa [Nat.mul_succ] using last)
      simp only [List.length_cons] at size
      omega

/-- **The loop leaves** the combinations of the pairs in front, and the rest as it was. -/
theorem combinePairs_returns (combine : α → α → α) (v : List α) :
    ∃ w, (combinePairs combine v : Exec ε _) = .ok w ∧ w.length = v.length ∧
      (∀ i a b, i < v.length / 2 → v[2 * i]? = some a → v[2 * i + 1]? = some b →
        w[i]? = some (combine a b)) ∧
      ∀ i, v.length / 2 ≤ i → w[i]? = v[i]? := by
  have run := foldlM_range_returns (ε := ε) (f := fun w i => do
      let v0 ← getAt w (2 * i)
      let v1 ← getAt w (2 * i + 1)
      setAt w i (combine v0 v1))
    (fun k w => w.length = v.length ∧
      (∀ i a b, i < k → v[2 * i]? = some a → v[2 * i + 1]? = some b →
        w[i]? = some (combine a b)) ∧ ∀ i, k ≤ i → w[i]? = v[i]?)
    (n := v.length / 2) (s := v) ⟨rfl, by simp, fun _ _ => rfl⟩ ?_
  · exact run
  rintro k w below ⟨size, done, left⟩
  have inEven : 2 * k < v.length := by omega
  have inOdd : 2 * k + 1 < v.length := by omega
  have readEven : w[2 * k]? = some v[2 * k] := by
    rw [left (2 * k) (by omega), List.getElem?_eq_getElem inEven]
  have readOdd : w[2 * k + 1]? = some v[2 * k + 1] := by
    rw [left (2 * k + 1) (by omega), List.getElem?_eq_getElem inOdd]
  refine ⟨w.set k (combine v[2 * k] v[2 * k + 1]), ?_, by simpa using size, ?_, ?_⟩
  · simp only [getAt_eq_ok.mpr readEven, getAt_eq_ok.mpr readOdd, ok_bind]
    exact setAt_of_lt (by omega)
  · intro i a b earlier even odd
    by_cases last : i = k
    · subst last
      rw [List.getElem?_eq_getElem inEven] at even
      rw [List.getElem?_eq_getElem inOdd] at odd
      rw [List.getElem?_set_self (by omega), Option.some.inj even, Option.some.inj odd]
    · rw [List.getElem?_set_ne (Ne.symm last)]
      exact done i a b (by omega) even odd
  · intro i later
    rw [List.getElem?_set_ne (by omega)]
    exact left i (by omega)

/-- Halve an array in place. -/
def halveInPlace (combine : α → α → α) (alone : α → α) (v : List α) : Exec ε (List α) := do
  let inN := v.length
  let half := inN / 2
  let v ← combinePairs combine v
  if inN % 2 ≠ 0 then do
    let vn ← getAt v (inN - 1)
    let v ← setAt v half (alone vn)
    pure (v.take (half + 1))
  else pure (v.take half)

/-- **Halving in place**: no pair is overwritten before it is read. -/
theorem halveInPlace_eq (combine : α → α → α) (alone : α → α) (v : List α) :
    (halveInPlace combine alone v : Exec ε _) = .ok (pairUp combine alone v) := by
  obtain ⟨w, ran, size, pairs, left⟩ := combinePairs_returns (ε := ε) combine v
  have entry : ∀ i, i < v.length / 2 → w[i]? = (pairUp combine alone v)[i]? := by
    intro i below
    have even := List.getElem?_eq_getElem (show 2 * i < v.length by omega)
    have odd := List.getElem?_eq_getElem (show 2 * i + 1 < v.length by omega)
    rw [pairs i _ _ below even odd, getElem?_pairUp even odd]
  rw [halveInPlace, ran, ok_bind]
  by_cases isOdd : v.length % 2 ≠ 0
  · have half : v.length = 2 * (v.length / 2) + 1 := by omega
    have last := List.getElem?_eq_getElem (show 2 * (v.length / 2) < v.length by omega)
    have read : w[v.length - 1]? = some v[2 * (v.length / 2)] := by
      rw [left _ (by omega), ← last]
      congr 1
      omega
    rw [if_pos isOdd, getAt_eq_ok.mpr read, ok_bind, setAt_of_lt (by omega), ok_bind, pure_eq_ok]
    congr 1
    refine List.ext_getElem? fun i => ?_
    rcases Nat.lt_trichotomy i (v.length / 2) with below | rfl | above
    · rw [List.getElem?_take_of_lt (by omega), List.getElem?_set_ne (by omega), entry i below]
    · rw [List.getElem?_take_of_lt (by omega), List.getElem?_set_self (by omega),
        getElem?_pairUp_last half last]
    · rw [List.getElem?_take_eq_none (by omega), List.getElem?_eq_none]
      rw [length_pairUp]
      omega
  · rw [if_neg isOdd, pure_eq_ok]
    congr 1
    refine List.ext_getElem? fun i => ?_
    by_cases below : i < v.length / 2
    · rw [List.getElem?_take_of_lt below, entry i below]
    · rw [List.getElem?_take_eq_none (by omega), List.getElem?_eq_none]
      rw [length_pairUp]
      omega

end Lib
