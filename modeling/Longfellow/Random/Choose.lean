/-
**Distinct indices** (`runtime/random/src/lib.rs`).

A transcript also samples numbers below a bound, and from these draws distinct indices by swapping
each drawn entry of a table to the front.

* `choose_returns` — **the drawn indices are distinct and in range**, whatever is sampled.
-/

import Longfellow.Random.Transcript

namespace Longfellow

open Lib

/-- A transcript that samples numbers below a bound. -/
structure QueryTranscript (σ E : Type) extends Transcript σ E where
  nat : Nat → σ → Nat × σ
  nat_lt : ∀ {n : Nat} (t : σ), 0 < n → (nat n t).1 < n

variable {ε σ E : Type}

/-- Swap two entries. -/
def swapAt (a : List Nat) (i j : Nat) : Exec ε (List Nat) := do
  let x ← getAt a i
  let y ← getAt a j
  let a ← setAt a i y
  setAt a j x

/-- Draw the index at position `i`. The state is the result, the table and the transcript. -/
def QueryTranscript.chooseStep (ts : QueryTranscript σ E) (n : Nat)
    (state : (List Nat × List Nat) × σ) (i : Nat) : Exec ε ((List Nat × List Nat) × σ) := do
  ensure (n - i > 0) "nat(0) is undefined"
  let (draw, t) := ts.nat (n - i) state.2
  let a ← swapAt state.1.2 i ((i + draw) % n)
  let drawn ← getAt a i
  let res ← setAt state.1.1 i drawn
  pure ((res, a), t)

/-- Choose `k` distinct indices below `n` into `res`. -/
def QueryTranscript.choose (ts : QueryTranscript σ E) (res : List Nat) (n k : Nat) (t : σ) :
    Exec ε (List Nat × σ) :=
  if n = 0 ∨ k = 0 then pure (res, t)
  else do
    ensure (n ≥ k ∧ res.length ≥ k) "assertion failed: n >= k && res.len() >= k"
    let ((res, _), t) ← (List.range k).foldlM (ts.chooseStep n) ((res, List.range n), t)
    pure (res, t)

variable {a : List Nat}

theorem swapAt_returns {i j : Nat} (ordered : i ≤ j) (bound : j < a.length) :
    ∃ b, (swapAt a i j : Exec ε (List Nat)) = .ok b ∧ b.Perm a ∧ b.take i = a.take i := by
  have first : i < a.length := by omega
  refine ⟨(a.set i a[j]).set j a[i], ?_, List.set_set_perm first bound, ?_⟩
  · rw [swapAt, getAt_of_lt first, ok_bind, getAt_of_lt bound, ok_bind, setAt_of_lt first, ok_bind,
      setAt_of_lt (by simpa using bound)]
  · rw [List.take_set_of_le ordered, List.take_set_of_le (le_refl i)]

/-- The indices drawn so far are the front of the table. -/
structure Drawn (n k i : Nat) (res a : List Nat) : Prop where
  table : a.Perm (List.range n)
  size : res.length = k
  front : res.take i = a.take i

variable (ts : QueryTranscript σ E) {n k i : Nat}

theorem place_returns (table : a.Perm (List.range n)) {draw : Nat} (inside : draw < n - i) :
    ∃ a', ∃ here : i < a'.length,
      (swapAt a i ((i + draw) % n) : Exec ε _) = .ok a' ∧ a'.Perm (List.range n) ∧
      ∀ {k : Nat} {res : List Nat}, Drawn n k i res a → i < k →
        (setAt res i a'[i] : Exec ε _) = .ok (res.set i a'[i]) ∧
        Drawn n k (i + 1) (res.set i a'[i]) a' := by
  have size : a.length = n := by simpa using table.length_eq
  obtain ⟨a', swapped, same, front⟩ := swapAt_returns (ε := ε) (a := a) (Nat.le_add_right i draw)
    (by omega)
  have size' : a'.length = n := same.length_eq.trans size
  have here : i < a'.length := by omega
  refine ⟨a', here, by rw [Nat.mod_eq_of_lt (by omega), swapped], same.trans table,
    fun {k res} drawn more => ?_⟩
  have kept : (res.set i a'[i]).take i = res.take i := List.take_set_of_le (le_refl i)
  have room : i < res.length := by rw [drawn.size]; exact more
  refine ⟨setAt_of_lt room, same.trans table, by simpa using drawn.size, ?_⟩
  rw [List.take_add_one, List.take_add_one, kept, drawn.front, front, List.getElem?_set_self room,
    List.getElem?_eq_getElem here]

variable {res : List Nat}

theorem Drawn.step (drawn : Drawn n k i res a) (more : i < k) (fits : k ≤ n) (t : σ) :
    ∃ res' a' t', (ts.chooseStep n ((res, a), t) i : Exec ε _) = .ok ((res', a'), t') ∧
      Drawn n k (i + 1) res' a' := by
  have rest : n - i > 0 := by omega
  obtain ⟨a', here, swapped, -, placed⟩ := place_returns (ε := ε) drawn.table (ts.nat_lt t rest)
  obtain ⟨recorded, drawn'⟩ := placed drawn more
  refine ⟨res.set i a'[i], a', (ts.nat (n - i) t).2, ?_, drawn'⟩
  simp only [QueryTranscript.chooseStep, ensure_of rest, ok_bind, swapped, getAt_of_lt here,
    recorded, pure_eq_ok]

theorem Drawn.distinct (drawn : Drawn n k i res a) :
    (res.take i).Nodup ∧ ∀ x ∈ res.take i, x < n := by
  rw [drawn.front]
  refine ⟨((drawn.table.nodup_iff).mpr List.nodup_range).sublist (List.take_sublist i a), ?_⟩
  intro x inside
  exact List.mem_range.mp (drawn.table.mem_iff.mp (List.mem_of_mem_take inside))

/-- **The chosen indices are distinct and in range.** -/
theorem choose_returns (fits : k ≤ n) (size : res.length = k) (t : σ) :
    ∃ idx t', (ts.choose res n k t : Exec ε _) = .ok (idx, t') ∧ idx.length = k ∧ idx.Nodup ∧
      ∀ i ∈ idx, i < n := by
  by_cases empty : k = 0
  · obtain rfl : res = [] := List.eq_nil_of_length_eq_zero (size.trans empty)
    exact ⟨[], t, by rw [QueryTranscript.choose, if_pos (Or.inr empty), pure_eq_ok], by simpa using size,
      List.nodup_nil, by simp⟩
  have loop : ∀ i ≤ k, ∃ res' a t', ((List.range i).foldlM (ts.chooseStep n)
      ((res, List.range n), t) : Exec ε _) = .ok ((res', a), t') ∧ Drawn n k i res' a := by
    intro i
    induction i with
    | zero => exact fun _ => ⟨res, List.range n, t, rfl, List.Perm.refl _, size, rfl⟩
    | succ i ih =>
      intro more
      obtain ⟨res', a, t', ran, drawn⟩ := ih (by omega)
      obtain ⟨res'', a', t'', stepped, drawn'⟩ := drawn.step (ε := ε) ts more fits t'
      refine ⟨res'', a', t'', ?_, drawn'⟩
      rw [List.range_succ, List.foldlM_append, ran, ok_bind, List.foldlM_cons, stepped, ok_bind,
        List.foldlM_nil, pure_eq_ok]
  obtain ⟨idx, a, t', ran, drawn⟩ := loop k (le_refl k)
  have whole : idx.take k = idx := List.take_of_length_le drawn.size.le
  obtain ⟨distinct, inside⟩ := drawn.distinct
  rw [whole] at distinct inside
  refine ⟨idx, t', ?_, drawn.size, distinct, inside⟩
  rw [QueryTranscript.choose, if_neg (by omega), ensure_of ⟨fits, size.ge⟩, ok_bind, ran, ok_bind]
  rfl

end Longfellow
