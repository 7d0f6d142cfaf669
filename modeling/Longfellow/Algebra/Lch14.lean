/-
**The additive Fourier transform** (`runtime/algebra/src/lch14.rs`).

Coefficients in the novel polynomial basis of a subfield become values at the points of a coset, and
back; the bidirectional transform takes values at some points and coefficients for the others, and
exchanges them. The twiddle factors come from a table of the normalized subspace polynomials at the
basis.

* `bidirRecur_returns` — **the bidirectional transform**, for every number of points.
-/

import Longfellow.Lib.AdditiveFft
import Longfellow.Lib.Exec
import Mathlib.Data.Nat.Size

namespace Longfellow

open Lib

/-- The table of the normalized subspace polynomials at the basis, row after row. -/
structure Lch14 (E : Type) where
  dimension : ℕ
  table : List E

namespace Lch14

variable {ε E : Type} [CommRing E]

/-! ### The code -/

/-- The next row: `W_{i+1}(X) = W_i(X) (W_i(X) + W_i(β_i))`. -/
def nextRow (rows : List (List E)) (i : ℕ) : Exec ε (List (List E)) := do
  let row ← getAt rows i
  let wIBetaI ← getAt row i
  pure (rows ++ [row.map fun x => x * (x + wIBetaI)])

/-- A row over its diagonal entry. -/
def normalize (invert : E → Exec ε E) (rows : List (List E)) (i : ℕ) : Exec ε (List E) := do
  let row ← getAt rows i
  let scale ← invert (← getAt row i)
  pure (row.map fun x => x * scale)

def new (invert : E → Exec ε E) (basis : List E) : Exec ε (Lch14 E) := do
  let dimensionSubfield := basis.length
  let last ← checkedSub dimensionSubfield 1
  let rows ← (List.range last).foldlM nextRow [basis]
  let rows ← (List.range dimensionSubfield).mapM (normalize invert rows)
  pure ⟨dimensionSubfield, rows.flatten⟩

variable (g : Lch14 E)

def wHat (i j : ℕ) : Exec ε E := getAt g.table (i * g.dimension + j)

/-- One twiddle factor: the loop runs over the bits of `u`. -/
def twiddle (i u : ℕ) : Exec ε E :=
  (List.range u.size).foldlM (fun t k => do
    if u.testBit k then pure (t + (← g.wHat i k)) else pure t) 0

/-- The twiddle factors of level `i`, doubled bit by bit. -/
def twiddles (i l coset : ℕ) : Exec ε (List E) := do
  let first ← g.twiddle i coset
  (List.range (l - 1 - i)).foldlM (fun tw k => do
    let shift ← g.wHat i (i + 1 + k)
    pure (tw ++ tw.map (· + shift))) [first]

def butterflyFwdPair (twu x y : E) : E × E :=
  let x := x + y * twu
  (x, y + x)

def butterflyBwdPair (twu x y : E) : E × E :=
  let y := y - x
  (x - y * twu, y)

def butterflyDiagPair (twu x y : E) : E × E := (x - y * twu, y + x)

/-- A butterfly on the pairs of two halves. -/
def pairs (butterfly : E → E → E × E) (left right : List E) : List E × List E :=
  (List.zipWith (fun x y => (butterfly x y).1) left right,
    List.zipWith (fun x y => (butterfly x y).2) left right)

/-- One level: a butterfly with its own factor on every block of two halves of `s`. There are as many
factors of the level as blocks. -/
def level (butterfly : E → E → E → E × E) (s : ℕ) : List E → List E → List E
  | [], b => b
  | twu :: tw, b =>
    if 2 * s ≤ b.length then
      let halves := pairs (butterfly twu) (b.take s) ((b.drop s).take s)
      halves.1 ++ halves.2 ++ level butterfly s tw (b.drop (2 * s))
    else b

/-- The levels of a transform, in some order, on the first `2 ^ l` elements. -/
def transform (butterfly : E → E → E → E × E) (levels : List ℕ) (l coset : ℕ) (b : List E) :
    Exec ε (List E) := do
  ensure (l ≤ g.dimension) "assertion failed: l <= self.subfield.dimension()"
  if 0 < l then
    let len := 2 ^ l
    ensure (len ≤ b.length) "assertion failed: b.len() >= len"
    let b' ← levels.foldlM (fun b i => do
      pure (level butterfly (2 ^ i) (← g.twiddles i l coset) b)) (b.take len)
    pure (b' ++ b.drop len)
  else pure b

def fft (l coset : ℕ) (b : List E) : Exec ε (List E) :=
  g.transform butterflyFwdPair (List.range l).reverse l coset b

def ifft (l coset : ℕ) (b : List E) : Exec ε (List E) :=
  g.transform butterflyBwdPair (List.range l) l coset b

def bidirRecur : ℕ → ℕ → ℕ → List E → Exec ε (List E)
  | 0, _, _, b => pure b
  | i + 1, coset, k, b => do
    let s := 2 ^ i
    let twu ← g.twiddle i coset
    let bSlice ← slice b 0 (2 * s)
    let left := bSlice.take s
    let right := bSlice.drop s
    if k < s then
      let high := pairs (butterflyFwdPair twu) (left.drop k) (right.drop k)
      let right := right.take k ++ high.2
      let left ← bidirRecur i coset k (left.take k ++ high.1)
      let low := pairs (butterflyDiagPair twu) (left.take k) (right.take k)
      let right ← g.fft i (coset ^^^ s) (low.2 ++ right.drop k)
      pure (low.1 ++ left.drop k ++ right ++ b.drop (2 * s))
    else
      let left ← g.ifft i coset left
      let kSub := k - s
      let high := pairs (butterflyDiagPair twu) (left.drop kSub) (right.drop kSub)
      let left := left.take kSub ++ high.1
      let right ← bidirRecur i (coset ^^^ s) kSub (right.take kSub ++ high.2)
      let low := pairs (butterflyBwdPair twu) (left.take kSub) (right.take kSub)
      pure (low.1 ++ left.drop kSub ++ (low.2 ++ right.drop kSub) ++ b.drop (2 * s))

def checkBidirectionalInput (l coset k bufferLen : ℕ) : Exec ε ℕ := do
  ensure (coset < 2 ^ g.dimension) "assertion failed: coset < 1 << self.subfield.dimension()"
  ensure (l ≤ g.dimension) "assertion failed: l <= self.subfield.dimension()"
  let len := 2 ^ l
  ensure (k ≤ len) "bidirectional FFT requires k <= 2^l"
  ensure (len ≤ bufferLen) "bidirectional FFT buffer must contain at least 2^l elements"
  pure len

def bidirectionalFftOnCoset (l coset k : ℕ) (b : List E) : Exec ε (List E) := do
  let _ ← g.checkBidirectionalInput l coset k b.length
  g.bidirRecur l coset k b

def bidirectionalFft (l k : ℕ) (b : List E) : Exec ε (List E) :=
  g.bidirectionalFftOnCoset l 0 k b

/-- The values are those at the last `k` points. -/
def bidirectionalFftSuffixOnCoset (l coset k : ℕ) (b : List E) : Exec ε (List E) := do
  let len ← g.checkBidirectionalInput l coset k b.length
  let b ← g.bidirRecur l (coset ^^^ (len - 1)) k ((b.take k).reverse ++ b.drop k)
  pure (b.take k ++ ((b.take len).drop k).reverse ++ b.drop len)

/-! ### The twiddle factors -/

/-- The entry of the table, of a row and a column. -/
def entry (i j : ℕ) : E := g.table.getD (i * g.dimension + j) 0

/-- The twiddle factor of a point. -/
def factor (i u : ℕ) : E := ∑ k ∈ Finset.range g.dimension, if u.testBit k then g.entry i k else 0

/-- The table is a square, and its factors are twiddle factors. -/
structure Valid : Prop where
  size : g.table.length = g.dimension * g.dimension
  twiddles : AdditiveFft.Twiddles g.dimension g.factor

variable {g} {i l coset : ℕ} {k : ℕ} {butterfly : E → E → E → E × E}

theorem wHat_returns (valid : g.Valid) (row : i < g.dimension) {j : ℕ} (column : j < g.dimension) :
    g.wHat i j = (.ok (g.entry i j) : Exec ε E) := by
  have inside : i * g.dimension + j < g.table.length := by
    rw [valid.size]
    have rows := Nat.mul_le_mul_right g.dimension row
    rw [Nat.succ_mul] at rows
    omega
  rw [wHat, getAt_of_lt inside, entry, List.getD_eq_getElem _ _ inside]

theorem factor_two_pow {j : ℕ} (column : j < g.dimension) : g.factor i (2 ^ j) = g.entry i j := by
  rw [factor, Finset.sum_eq_single j]
  · rw [Nat.testBit_two_pow_self, if_pos rfl]
  · intro k _ other
    rw [Nat.testBit_two_pow_of_ne other.symm, if_neg Bool.false_ne_true]
  · exact fun out => absurd (Finset.mem_range.mpr column) out

theorem twiddle_returns (valid : g.Valid) (row : i < g.dimension) {u : ℕ}
    (point : u < 2 ^ g.dimension) : g.twiddle i u = (.ok (g.factor i u) : Exec ε E) := by
  have bits : u.size ≤ g.dimension := Nat.size_le.mpr point
  obtain ⟨t, ran, value⟩ := foldlM_range_returns (ε := ε)
    (f := fun t k => do if u.testBit k then pure (t + (← g.wHat i k)) else pure t)
    (fun n t => t = ∑ k ∈ Finset.range n, if u.testBit k then g.entry i k else 0)
    (n := u.size) (s := 0) (by simp) (by
      rintro k t below rfl
      rw [Finset.sum_range_succ]
      by_cases set : u.testBit k = true
      · rw [if_pos set, if_pos set, wHat_returns valid row (by omega), ok_bind, pure_eq_ok]
        exact ⟨_, rfl, rfl⟩
      · rw [if_neg set, if_neg set, add_zero, pure_eq_ok]
        exact ⟨_, rfl, rfl⟩)
  rw [twiddle, ran, value, factor]
  refine congrArg Except.ok (Finset.sum_subset (Finset.range_mono bits) fun k _ out => ?_)
  have small : u < 2 ^ k := Nat.size_le.mp (not_lt.mp (mt Finset.mem_range.mpr out))
  rw [Nat.testBit_lt_two_pow small, if_neg Bool.false_ne_true]

/-- The twiddle factors of a level: one for every block. -/
def factors (g : Lch14 E) (i l coset : ℕ) : List E :=
  (List.range (2 ^ (l - 1 - i))).map fun m => g.factor i (coset ^^^ m * 2 ^ (i + 1))

theorem two_pow_add_mul {m : ℕ} (small : m < 2 ^ k) (n : ℕ) :
    (2 ^ k + m) * 2 ^ n = 2 ^ (n + k) ^^^ m * 2 ^ n := by
  have shifted : m * 2 ^ n < 2 ^ (n + k) := by
    rw [pow_add, Nat.mul_comm]
    exact Nat.mul_lt_mul_of_pos_left small (Nat.two_pow_pos n)
  rw [← xor_two_pow_add shifted, Nat.add_mul, ← pow_add, Nat.add_comm k n]

theorem twiddles_returns (valid : g.Valid) (row : i < l) (bound : l ≤ g.dimension)
    (point : coset < 2 ^ g.dimension) :
    g.twiddles i l coset = (.ok (g.factors i l coset) : Exec ε (List E)) := by
  obtain ⟨tw, ran, value⟩ := foldlM_range_returns (ε := ε)
    (f := fun tw k => do
      let shift ← g.wHat i (i + 1 + k)
      pure (tw ++ tw.map (· + shift)))
    (fun n tw => tw = (List.range (2 ^ n)).map fun m => g.factor i (coset ^^^ m * 2 ^ (i + 1)))
    (n := l - 1 - i) (s := [g.factor i coset]) (by simp) (by
      rintro k tw below rfl
      have column : i + 1 + k < g.dimension := by omega
      rw [wHat_returns valid (by omega) column, ok_bind, pure_eq_ok,
        AdditiveFft.range_two_pow_succ, List.map_append, List.map_map, List.map_map]
      refine ⟨_, rfl, congrArg _ (List.map_congr_left fun m member => ?_)⟩
      have small := List.mem_range.mp member
      have shifted : m * 2 ^ (i + 1) < 2 ^ g.dimension := by
        have product := Nat.mul_lt_mul_of_pos_right small (Nat.two_pow_pos (i + 1))
        rw [← pow_add] at product
        exact product.trans_le (Nat.pow_le_pow_right (by decide) (by omega))
      have top : 2 ^ (i + 1 + k) < 2 ^ g.dimension := Nat.pow_lt_pow_right (by decide) column
      rw [Function.comp_apply, Function.comp_apply, two_pow_add_mul small,
        Nat.xor_comm (2 ^ (i + 1 + k)), ← Nat.xor_assoc,
        valid.twiddles.xor i (by omega) _ (Nat.xor_lt_two_pow point shifted) _ top,
        factor_two_pow column])
  rw [twiddles, twiddle_returns valid (by omega) point, ok_bind, ran, value, factors]

theorem factors_succ (row : i < l) (coset : ℕ) :
    g.factors i (l + 1) coset = g.factors i l coset ++ g.factors i l (coset ^^^ 2 ^ l) := by
  obtain ⟨n, rfl⟩ : ∃ n, l = i + 1 + n := Nat.exists_eq_add_of_le row
  have first : i + 1 + n + 1 - 1 - i = n + 1 := by omega
  have second : i + 1 + n - 1 - i = n := by omega
  rw [factors, factors, factors, first, second, AdditiveFft.range_two_pow_succ, List.map_append,
    List.map_map]
  refine congrArg _ (List.map_congr_left fun m member => ?_)
  rw [Function.comp_apply, two_pow_add_mul (List.mem_range.mp member), Nat.xor_assoc]

theorem factors_last (g : Lch14 E) (l coset : ℕ) :
    g.factors l (l + 1) coset = [g.factor l coset] := by
  simp [factors]

/-! ### The levels -/

section Levels

variable {s : ℕ}

omit [CommRing E] in
theorem length_level (tw b : List E) : (level butterfly s tw b).length = b.length := by
  induction tw generalizing b with
  | nil => rfl
  | cons twu tw ih =>
    rw [level]
    split
    · simp only [pairs, List.length_append, List.length_zipWith, ih, List.length_take,
        List.length_drop]
      omega
    · rfl

omit [CommRing E] in
theorem level_append {tw tw' b b' : List E} (size : b.length = 2 * s * tw.length) :
    level butterfly s (tw ++ tw') (b ++ b') = level butterfly s tw b ++ level butterfly s tw' b' := by
  induction tw generalizing b with
  | nil =>
    obtain rfl := List.eq_nil_of_length_eq_zero size
    rfl
  | cons twu tw ih =>
    rw [List.length_cons, Nat.mul_succ] at size
    have fits : 2 * s ≤ b.length := by omega
    have rest : (b.drop (2 * s)).length = 2 * s * tw.length := by
      rw [List.length_drop]
      omega
    rw [List.cons_append, level, level, if_pos (by rw [List.length_append]; omega), if_pos fits,
      List.take_append_of_le_length (by omega), List.drop_append_of_le_length (by omega),
      List.take_append_of_le_length (by rw [List.length_drop]; omega),
      List.drop_append_of_le_length fits, ih rest]
    simp only [List.append_assoc]

omit [CommRing E] in
theorem level_single (twu : E) {left right : List E} (sizeL : left.length = s)
    (sizeR : right.length = s) :
    level butterfly s [twu] (left ++ right) =
      (pairs (butterfly twu) left right).1 ++ (pairs (butterfly twu) left right).2 := by
  have whole : (left ++ right).length = 2 * s := by
    rw [List.length_append]
    omega
  rw [level, if_pos whole.ge, List.take_left' sizeL, List.drop_left' sizeL,
    List.take_of_length_le sizeR.le, List.drop_of_length_le whole.le, level, List.append_nil]

end Levels

/-- The levels, with the factors as they are. -/
def run (g : Lch14 E) (butterfly : E → E → E → E × E) (levels : List ℕ) (l coset : ℕ)
    (b : List E) : List E :=
  levels.foldl (fun b i => level butterfly (2 ^ i) (g.factors i l coset) b) b

variable {levels : List ℕ}

/-- **The levels below the last one work on the halves.** -/
theorem run_append (below : ∀ i ∈ levels, i < l) {b b' : List E} (size : b.length = 2 ^ l) :
    g.run butterfly levels (l + 1) coset (b ++ b') =
      g.run butterfly levels l coset b ++ g.run butterfly levels l (coset ^^^ 2 ^ l) b' := by
  induction levels generalizing b b' with
  | nil => rfl
  | cons i levels ih =>
    obtain ⟨row, rest⟩ := List.forall_mem_cons.mp below
    have blocks : b.length = 2 * 2 ^ i * (g.factors i l coset).length := by
      have exponent : l = i + 1 + (l - 1 - i) := by omega
      rw [size, factors, List.length_map, List.length_range, ← pow_succ', ← pow_add, ← exponent]
    have step : ∀ l' coset' (b : List E), g.run butterfly (i :: levels) l' coset' b =
        g.run butterfly levels l' coset' (level butterfly (2 ^ i) (g.factors i l' coset') b) :=
      fun _ _ _ => rfl
    rw [step, step, step, factors_succ row, level_append blocks,
      ih rest ((length_level _ _).trans size)]

/-- **A transform** runs its levels on the first elements. -/
theorem transform_returns (valid : g.Valid) (bound : l ≤ g.dimension)
    (point : coset < 2 ^ g.dimension) (below : ∀ i ∈ levels, i < l) {b : List E}
    (size : 2 ^ l ≤ b.length) :
    g.transform butterfly levels l coset b =
      (.ok (g.run butterfly levels l coset (b.take (2 ^ l)) ++ b.drop (2 ^ l)) :
        Exec ε (List E)) := by
  have ran : ∀ b : List E, levels.foldlM (fun b i => do
      pure (level butterfly (2 ^ i) (← g.twiddles i l coset) b)) b =
        (.ok (g.run butterfly levels l coset b) : Exec ε (List E)) := by
    induction levels with
    | nil => exact fun _ => rfl
    | cons i levels ih =>
      intro b
      obtain ⟨row, rest⟩ := List.forall_mem_cons.mp below
      rw [List.foldlM_cons, twiddles_returns valid row bound point, ok_bind, pure_eq_ok, ok_bind,
        ih rest]
      rfl
  rw [transform, ensure_of bound, ok_bind]
  by_cases some : 0 < l
  · rw [if_pos some]
    dsimp only
    rw [ensure_of size, ok_bind, ran, ok_bind, pure_eq_ok]
  · obtain rfl : l = 0 := by omega
    have none : levels = [] := List.eq_nil_iff_forall_not_mem.mpr fun i member =>
      Nat.not_lt_zero i (below i member)
    rw [if_neg some, pure_eq_ok, none]
    exact congrArg Except.ok (List.take_append_drop _ b).symm

/-! ### The transforms -/

open AdditiveFft

variable {c : List E}

theorem pairs_fwd (w : E) (left right : List E) :
    pairs (butterflyFwdPair w) left right = (lower w left right, upper w left right) := rfl

section

variable {right left : List E} (w : E) (same : left.length = right.length)
include w same

theorem pairs_diag :
    pairs (butterflyDiagPair w) (lower w left right) right = (left, upper w left right) :=
  Prod.ext (zipWith_lower_sub same) (zipWith_lower_add w left right)

theorem pairs_bwd :
    pairs (butterflyBwdPair w) (lower w left right) (upper w left right) = (left, right) :=
  Prod.ext (zipWith_upper_sub_mul same) (zipWith_upper_sub same)

end

omit [CommRing E] in
theorem exists_halves (size : c.length = 2 ^ (l + 1)) :
    ∃ left right, c = left ++ right ∧ left.length = 2 ^ l ∧ right.length = 2 ^ l := by
  rw [pow_succ] at size
  exact ⟨c.take (2 ^ l), c.drop (2 ^ l), (List.take_append_drop _ _).symm, by simp; omega,
    by simp; omega⟩

section

variable (valid : g.Valid) (bound : l ≤ g.dimension) (point : coset < 2 ^ g.dimension)
  (size : c.length = 2 ^ l)
include valid bound point size

theorem run_fwd :
    g.run butterflyFwdPair (List.range l).reverse l coset c = values g.factor l coset c := by
  induction l generalizing coset c with
  | zero => exact (values_zero size).symm
  | succ l ih =>
    obtain ⟨left, right, rfl, sizeL, sizeR⟩ := exists_halves size
    have next : coset ^^^ 2 ^ l < 2 ^ g.dimension :=
      Nat.xor_lt_two_pow point (Nat.pow_lt_pow_right (by decide) bound)
    have first : g.run butterflyFwdPair (l :: (List.range l).reverse) (l + 1) coset
        (left ++ right) = g.run butterflyFwdPair (List.range l).reverse (l + 1) coset
          (lower (g.factor l coset) left right ++ upper (g.factor l coset) left right) := by
      have block : level butterflyFwdPair (2 ^ l) [g.factor l coset] (left ++ right) =
          lower (g.factor l coset) left right ++ upper (g.factor l coset) left right :=
        level_single (g.factor l coset) sizeL sizeR
      rw [run, List.foldl_cons, factors_last, block]
      rfl
    rw [List.range_succ, List.reverse_append, List.reverse_singleton, List.singleton_append, first,
      run_append (fun i member => List.mem_range.mp (List.mem_reverse.mp member))
        (by rw [length_lower, sizeL, sizeR, min_self]),
      ih (by omega) point (by rw [length_lower, sizeL, sizeR, min_self]),
      ih (by omega) next (by rw [length_upper, sizeL, sizeR, min_self]),
      values_succ valid.twiddles bound point sizeL sizeR]

theorem run_bwd :
    g.run butterflyBwdPair (List.range l) l coset (values g.factor l coset c) = c := by
  induction l generalizing coset c with
  | zero => exact values_zero size
  | succ l ih =>
    obtain ⟨left, right, rfl, sizeL, sizeR⟩ := exists_halves size
    have next : coset ^^^ 2 ^ l < 2 ^ g.dimension :=
      Nat.xor_lt_two_pow point (Nat.pow_lt_pow_right (by decide) bound)
    have sizeLow : (lower (g.factor l coset) left right).length = 2 ^ l := by
      rw [length_lower, sizeL, sizeR, min_self]
    have sizeHigh : (upper (g.factor l coset) left right).length = 2 ^ l := by
      rw [length_upper, sizeL, sizeR, min_self]
    have block : level butterflyBwdPair (2 ^ l) [g.factor l coset]
        (lower (g.factor l coset) left right ++ upper (g.factor l coset) left right) =
          left ++ right := by
      rw [level_single (g.factor l coset) sizeLow sizeHigh, pairs_bwd _ (sizeL.trans sizeR.symm)]
    have last : ∀ b : List E, g.run butterflyBwdPair (List.range (l + 1)) (l + 1) coset b =
        level butterflyBwdPair (2 ^ l) (g.factors l (l + 1) coset)
          (g.run butterflyBwdPair (List.range l) (l + 1) coset b) := fun b => by
      rw [run, List.range_succ, List.foldl_append]
      rfl
    rw [last, values_succ valid.twiddles bound point sizeL sizeR,
      run_append (fun i member => List.mem_range.mp member) (length_values _),
      ih (by omega) point sizeLow, ih (by omega) next sizeHigh, factors_last, block]

/-- **The transform** of coefficients to values. -/
theorem fft_returns (rest : List E) :
    g.fft l coset (c ++ rest) = (.ok (values g.factor l coset c ++ rest) : Exec ε (List E)) := by
  rw [fft, transform_returns valid bound point
      (fun i member => List.mem_range.mp (List.mem_reverse.mp member))
      (by rw [List.length_append]; omega),
    List.take_left' size, List.drop_left' size, run_fwd valid bound point size]

/-- **The transform** of values to coefficients. -/
theorem ifft_returns (rest : List E) :
    g.ifft l coset (values g.factor l coset c ++ rest) =
      (.ok (c ++ rest) : Exec ε (List E)) := by
  have same : (values g.factor l coset c).length = 2 ^ l := length_values c
  rw [ifft, transform_returns valid bound point (fun i member => List.mem_range.mp member)
      (by rw [List.length_append]; omega),
    List.take_left' same, List.drop_left' same, run_bwd valid bound point size]

end

/-! ### The bidirectional transform -/

omit [CommRing E] in
theorem exists_parts {n : ℕ} (size : c.length = n) (inside : k ≤ n) :
    ∃ first second, c = first ++ second ∧ first.length = k ∧ k + second.length = n :=
  ⟨c.take k, c.drop k, (List.take_append_drop _ _).symm, by simp; omega, by simp; omega⟩

section Step

variable (valid : g.Valid) (bound : l + 1 ≤ g.dimension) (point : coset < 2 ^ g.dimension)
  {x₁ x₂ y₁ y₂ a₁ a₂ : List E} (sizeX₁ : x₁.length = k) (sizeX₂ : k + x₂.length = 2 ^ l)
  (sizeY₁ : y₁.length = k) (sizeY₂ : k + y₂.length = 2 ^ l) (sizeA₁ : a₁.length = k)
  (rest : List E)

include valid bound point sizeX₁ sizeX₂ sizeY₁ sizeY₂ sizeA₁

/-- A step with fewer points than a half: the second halves are what the first half lacks, and it
gives what they lack. -/
theorem bidirRecur_low (few : k < 2 ^ l)
    (recur : g.bidirRecur l coset k (a₁ ++ lower (g.factor l coset) x₂ y₂) =
      (.ok (lower (g.factor l coset) x₁ y₁ ++ a₂) : Exec ε (List E))) :
    g.bidirRecur (l + 1) coset k (a₁ ++ x₂ ++ (y₁ ++ y₂) ++ rest) =
      (.ok (x₁ ++ a₂ ++ values g.factor l (coset ^^^ 2 ^ l)
        (upper (g.factor l coset) x₁ y₁ ++ upper (g.factor l coset) x₂ y₂) ++ rest) :
          Exec ε (List E)) := by
  have row : l < g.dimension := bound
  have next : coset ^^^ 2 ^ l < 2 ^ g.dimension :=
    Nat.xor_lt_two_pow point (Nat.pow_lt_pow_right (by decide) row)
  have sizeL : (a₁ ++ x₂).length = 2 ^ l := by rw [List.length_append, sizeA₁, sizeX₂]
  have sizeR : (y₁ ++ y₂).length = 2 ^ l := by rw [List.length_append, sizeY₁, sizeY₂]
  have whole : (a₁ ++ x₂ ++ (y₁ ++ y₂)).length = 2 * 2 ^ l := by
    rw [List.length_append, sizeL, sizeR, Nat.two_mul]
  have sliced : slice (a₁ ++ x₂ ++ (y₁ ++ y₂) ++ rest) 0 (2 * 2 ^ l) =
      (.ok (a₁ ++ x₂ ++ (y₁ ++ y₂)) : Exec ε (List E)) := by
    rw [slice_of_le (Nat.zero_le _) (by rw [List.length_append]; omega), List.drop_zero,
      Nat.sub_zero, List.take_left' whole]
  have low : (lower (g.factor l coset) x₁ y₁).length = k := by
    rw [length_lower, sizeX₁, sizeY₁, min_self]
  have high : (upper (g.factor l coset) x₁ y₁ ++ upper (g.factor l coset) x₂ y₂).length =
      2 ^ l := by
    rw [List.length_append, length_upper, length_upper]
    omega
  have transformed := fft_returns (ε := ε) valid row.le next high []
  rw [List.append_nil, List.append_nil] at transformed
  rw [bidirRecur, twiddle_returns valid row point, ok_bind, sliced, ok_bind]
  dsimp only
  rw [if_pos few, List.take_left' sizeL, List.drop_left' sizeL, List.take_left' sizeA₁,
    List.drop_left' sizeA₁, List.take_left' sizeY₁, List.drop_left' sizeY₁, pairs_fwd, recur, ok_bind,
    List.take_left' low, List.drop_left' low, List.take_left' sizeY₁, List.drop_left' sizeY₁,
    pairs_diag _ (sizeX₁.trans sizeY₁.symm), transformed, ok_bind, List.drop_left' whole, pure_eq_ok]

/-- A step with the points of a half at least: the first half is transformed back, and the second
one is what it lacks. -/
theorem bidirRecur_high
    (recur : g.bidirRecur l (coset ^^^ 2 ^ l) k (a₁ ++ upper (g.factor l coset) x₂ y₂) =
      (.ok (upper (g.factor l coset) x₁ y₁ ++ a₂) : Exec ε (List E))) :
    g.bidirRecur (l + 1) coset (2 ^ l + k) (values g.factor l coset
        (lower (g.factor l coset) x₁ y₁ ++ lower (g.factor l coset) x₂ y₂) ++ (a₁ ++ y₂) ++ rest) =
      (.ok (x₁ ++ x₂ ++ (y₁ ++ a₂) ++ rest) : Exec ε (List E)) := by
  have row : l < g.dimension := bound
  have low : (lower (g.factor l coset) x₁ y₁ ++ lower (g.factor l coset) x₂ y₂).length =
      2 ^ l := by
    rw [List.length_append, length_lower, length_lower]
    omega
  have sizeL : (values g.factor l coset (lower (g.factor l coset) x₁ y₁ ++
      lower (g.factor l coset) x₂ y₂)).length = 2 ^ l := length_values _
  have sizeR : (a₁ ++ y₂).length = 2 ^ l := by rw [List.length_append, sizeA₁, sizeY₂]
  have transformed := ifft_returns (ε := ε) valid row.le point low []
  rw [List.append_nil, List.append_nil] at transformed
  generalize values g.factor l coset _ = v at *
  have whole : (v ++ (a₁ ++ y₂)).length = 2 * 2 ^ l := by
    rw [List.length_append, sizeL, sizeR, Nat.two_mul]
  have sliced : slice (v ++ (a₁ ++ y₂) ++ rest) 0 (2 * 2 ^ l) =
      (.ok (v ++ (a₁ ++ y₂)) : Exec ε (List E)) := by
    rw [slice_of_le (Nat.zero_le _) (by rw [List.length_append]; omega), List.drop_zero,
      Nat.sub_zero, List.take_left' whole]
  have lowFirst : (lower (g.factor l coset) x₁ y₁).length = k := by
    rw [length_lower, sizeX₁, sizeY₁, min_self]
  have highFirst : (upper (g.factor l coset) x₁ y₁).length = k := by
    rw [length_upper, sizeX₁, sizeY₁, min_self]
  have same : x₂.length = y₂.length := by omega
  rw [bidirRecur, twiddle_returns valid row point, ok_bind, sliced, ok_bind]
  dsimp only
  rw [if_neg (by omega), List.take_left' sizeL, List.drop_left' sizeL, transformed, ok_bind,
    Nat.add_sub_cancel_left, List.take_left' lowFirst, List.drop_left' lowFirst,
    List.take_left' sizeA₁, List.drop_left' sizeA₁, pairs_diag _ same, recur, ok_bind,
    List.take_left' lowFirst, List.drop_left' lowFirst, List.take_left' highFirst,
    List.drop_left' highFirst, pairs_bwd _ (sizeX₁.trans sizeY₁.symm), List.drop_left' whole,
    pure_eq_ok]

end Step

/-- **The bidirectional transform** exchanges the values and the coefficients. -/
theorem bidirRecur_returns (valid : g.Valid) (bound : l ≤ g.dimension)
    (point : coset < 2 ^ g.dimension) (inside : k ≤ 2 ^ l) (size : c.length = 2 ^ l)
    (rest : List E) :
    g.bidirRecur l coset k (before g.factor l coset k c ++ rest) =
      (.ok (after g.factor l coset k c ++ rest) : Exec ε (List E)) := by
  induction l generalizing coset k c rest with
  | zero =>
    rw [bidirRecur, before, after, values_zero size, pure_eq_ok]
  | succ l ih =>
    obtain ⟨left, right, rfl, sizeL, sizeR⟩ := exists_halves size
    have next : coset ^^^ 2 ^ l < 2 ^ g.dimension :=
      Nat.xor_lt_two_pow point (Nat.pow_lt_pow_right (by decide) bound)
    rw [before, after, values_succ valid.twiddles bound point sizeL sizeR]
    by_cases few : k < 2 ^ l
    · obtain ⟨x₁, x₂, rfl, sizeX₁, sizeX₂⟩ := exists_parts sizeL few.le
      obtain ⟨y₁, y₂, rfl, sizeY₁, sizeY₂⟩ := exists_parts sizeR few.le
      have same : x₁.length = y₁.length := sizeX₁.trans sizeY₁.symm
      have low : (lower (g.factor l coset) x₁ y₁).length = k := by
        rw [length_lower, same, min_self, sizeY₁]
      have recur := ih (by omega) point few.le (c := lower (g.factor l coset) x₁ y₁ ++
        lower (g.factor l coset) x₂ y₂) (by rw [List.length_append, low, length_lower]; omega) []
      rw [List.append_nil, List.append_nil, before, after, List.take_left' low,
        List.drop_left' low] at recur
      rw [lower_append same, upper_append same]
      obtain ⟨a₁, a₂, v, sizeA₁, sizeA₂⟩ := exists_parts
        (c := values g.factor l coset (lower (g.factor l coset) x₁ y₁ ++
          lower (g.factor l coset) x₂ y₂)) (length_values _) few.le
      rw [v, List.take_left' sizeA₁, List.drop_left' sizeA₁] at recur
      have step := bidirRecur_low valid bound point sizeX₁ sizeX₂ sizeY₁ sizeY₂ sizeA₁ rest few recur
      simp only [v, List.append_assoc, List.take_left' sizeA₁, List.drop_left' sizeA₁,
        List.take_left' sizeX₁, List.drop_left' sizeX₁] at step ⊢
      exact step
    · obtain ⟨m, rfl⟩ := Nat.exists_eq_add_of_le (not_lt.mp few)
      have inside' : m ≤ 2 ^ l := by
        rw [pow_succ] at inside
        omega
      obtain ⟨x₁, x₂, rfl, sizeX₁, sizeX₂⟩ := exists_parts sizeL inside'
      obtain ⟨y₁, y₂, rfl, sizeY₁, sizeY₂⟩ := exists_parts sizeR inside'
      have same : x₁.length = y₁.length := sizeX₁.trans sizeY₁.symm
      have high : (upper (g.factor l coset) x₁ y₁).length = m := by
        rw [length_upper, same, min_self, sizeY₁]
      have recur := ih (by omega) next inside' (c := upper (g.factor l coset) x₁ y₁ ++
        upper (g.factor l coset) x₂ y₂) (by rw [List.length_append, high, length_upper]; omega) []
      rw [List.append_nil, List.append_nil, before, after, List.take_left' high,
        List.drop_left' high] at recur
      rw [lower_append same, upper_append same]
      obtain ⟨a₁, a₂, v, sizeA₁, sizeA₂⟩ := exists_parts
        (c := values g.factor l (coset ^^^ 2 ^ l) (upper (g.factor l coset) x₁ y₁ ++
          upper (g.factor l coset) x₂ y₂)) (length_values _) inside'
      rw [v, List.take_left' sizeA₁, List.drop_left' sizeA₁] at recur
      have step := bidirRecur_high valid bound point sizeX₁ sizeX₂ sizeY₁ sizeY₂ sizeA₁
        rest recur
      have sizeV : (values g.factor l coset (lower (g.factor l coset) x₁ y₁ ++
          lower (g.factor l coset) x₂ y₂)).length = 2 ^ l := length_values _
      have taken : ∀ {as bs : List E}, as.length = 2 ^ l →
          (as ++ bs).take (2 ^ l + m) = as ++ bs.take m ∧ (as ++ bs).drop (2 ^ l + m) = bs.drop m := by
        intro as bs size
        rw [← size]
        exact ⟨List.take_length_add_append m, List.drop_length_add_append m⟩
      rw [(taken sizeV).1, (taken sizeV).2, (taken sizeL).1, (taken sizeL).2, v,
        List.take_left' sizeA₁, List.drop_left' sizeA₁, List.take_left' sizeY₁,
        List.drop_left' sizeY₁]
      simpa only [List.append_assoc] using step

/-! ### The entry points -/

section Entries

variable (valid : g.Valid) (bound : l ≤ g.dimension) (point : coset < 2 ^ g.dimension)
  (inside : k ≤ 2 ^ l)

omit [CommRing E] in
include bound point inside in
theorem checkBidirectionalInput_returns {size : ℕ} (fits : 2 ^ l ≤ size) :
    g.checkBidirectionalInput l coset k size = (.ok (2 ^ l) : Exec ε ℕ) := by
  rw [checkBidirectionalInput, ensure_of point, ok_bind, ensure_of bound, ok_bind]
  dsimp only
  rw [ensure_of inside, ok_bind, ensure_of fits, ok_bind, pure_eq_ok]

omit [CommRing E] in
theorem length_parts {first second : List E} (size : c.length = 2 ^ l) (inside : k ≤ 2 ^ l)
    (sizeF : first.length = k) (sizeS : second = c.drop k) (rest : List E) :
    2 ^ l ≤ (first ++ second ++ rest).length := by
  rw [List.length_append, List.length_append, sizeS, List.length_drop]
  omega

include valid bound point inside in
/-- **The transform with the values at the first points.** -/
theorem bidirectionalFftOnCoset_returns (size : c.length = 2 ^ l) (rest : List E) :
    g.bidirectionalFftOnCoset l coset k
        ((values g.factor l coset c).take k ++ c.drop k ++ rest) =
      (.ok (c.take k ++ (values g.factor l coset c).drop k ++ rest) : Exec ε (List E)) := by
  have taken : ((values g.factor l coset c).take k).length = k := by
    rw [List.length_take, length_values]
    omega
  rw [bidirectionalFftOnCoset,
    checkBidirectionalInput_returns bound point inside (length_parts size inside taken rfl rest),
    ok_bind]
  exact bidirRecur_returns valid bound point inside size rest

include valid bound point inside in
/-- **The transform with the values at the last points.** -/
theorem bidirectionalFftSuffixOnCoset_returns (size : c.length = 2 ^ l) (rest : List E) :
    g.bidirectionalFftSuffixOnCoset l coset k
        ((values g.factor l coset c).drop (2 ^ l - k) ++ c.drop k ++ rest) =
      (.ok (c.take k ++ (values g.factor l coset c).take (2 ^ l - k) ++ rest) :
        Exec ε (List E)) := by
  have sizeV : (values g.factor l coset c).length = 2 ^ l := length_values c
  have last : ((values g.factor l coset c).drop (2 ^ l - k)).length = k := by
    rw [List.length_drop, sizeV]
    omega
  have mirrored : coset ^^^ (2 ^ l - 1) < 2 ^ g.dimension := by
    have below := Nat.pow_le_pow_right (n := 2) (by decide) bound
    have some := Nat.two_pow_pos l
    exact Nat.xor_lt_two_pow point (by omega)
  have exchanged := bidirRecur_returns (ε := ε) valid bound mirrored inside size rest
  rw [before, after, values_reverse, List.take_reverse, List.drop_reverse, sizeV] at exchanged
  have firstSize : (c.take k).length = k := by
    rw [List.length_take]
    omega
  have whole : (c.take k ++ ((values g.factor l coset c).take (2 ^ l - k)).reverse).length =
      2 ^ l := by
    rw [List.length_append, firstSize, List.length_reverse, List.length_take, sizeV]
    omega
  rw [bidirectionalFftSuffixOnCoset,
    checkBidirectionalInput_returns bound point inside (length_parts size inside last rfl rest),
    ok_bind, List.append_assoc, List.take_left' last, List.drop_left' last, ← List.append_assoc,
    exchanged, ok_bind, List.take_left' whole, List.drop_left' whole, List.drop_left' firstSize,
    List.reverse_reverse, List.append_assoc (c.take k), List.take_left' firstSize, pure_eq_ok]

end Entries

/-! ### The table -/

/-- The value of a subspace polynomial. -/
def subspace (basis : List E) : ℕ → E → E
  | 0, x => x
  | i + 1, x => subspace basis i x * (subspace basis i x + subspace basis i (basis.getD i 0))

variable {basis : List E}

/-- The row of a subspace polynomial. -/
def rowOf (basis : List E) (i : ℕ) : List E := basis.map (subspace basis i)

/-- **The table**: the rows, each over its diagonal entry. -/
theorem new_returns {invert : E → Exec ε E} (some : basis ≠ [])
    (inverts : ∀ i < basis.length, ∃ scale,
      invert (subspace basis i (basis.getD i 0)) = .ok scale ∧
        scale * subspace basis i (basis.getD i 0) = 1) :
    ∃ scale : ℕ → E, (∀ i < basis.length, scale i * subspace basis i (basis.getD i 0) = 1) ∧
      new invert basis = .ok ⟨basis.length, (List.range basis.length).flatMap fun i =>
        basis.map fun x => subspace basis i x * scale i⟩ := by
  have positive : 0 < basis.length := List.length_pos_of_ne_nil some
  have diagonal : ∀ i < basis.length, getAt (rowOf basis i) i =
      (.ok (subspace basis i (basis.getD i 0)) : Exec ε E) := by
    intro i inside
    rw [rowOf, getAt_of_lt (by rw [List.length_map]; exact inside), List.getElem_map,
      List.getD_eq_getElem _ _ inside]
  obtain ⟨rows, ran, filled⟩ := foldlM_range_returns (ε := ε) (f := nextRow)
    (fun n rows => rows = (List.range (n + 1)).map (rowOf basis))
    (n := basis.length - 1) (s := [basis]) (by simp [rowOf, subspace, List.range_succ]) (by
      rintro i rows below rfl
      have present : getAt ((List.range (i + 1)).map (rowOf basis)) i =
          (.ok (rowOf basis i) : Exec ε (List E)) := by
        rw [getAt_of_lt (by simp)]
        simp
      rw [nextRow, present, ok_bind, diagonal i (by omega), ok_bind, pure_eq_ok]
      refine ⟨_, rfl, ?_⟩
      rw [List.range_succ (n := i + 1), List.map_append, rowOf, List.map_map]
      rfl)
  rw [Nat.sub_add_cancel positive] at filled
  choose! scale returned unit using inverts
  refine ⟨scale, unit, ?_⟩
  have normalized : ∀ i ∈ List.range basis.length, normalize invert rows i =
      .ok (basis.map fun x => subspace basis i x * scale i) := by
    intro i member
    have inside := List.mem_range.mp member
    have present : getAt rows i = (.ok (rowOf basis i) : Exec ε (List E)) := by
      rw [filled, getAt_of_lt (by simpa using inside)]
      simp
    rw [normalize, present, ok_bind, diagonal i inside, ok_bind, returned i inside, ok_bind, rowOf,
      List.map_map, pure_eq_ok]
    rfl
  rw [new, checkedSub_of_le positive, ok_bind, ran, ok_bind, mapM_eq_ok_map normalized, ok_bind,
    pure_eq_ok, List.flatMap]

end Lch14

end Longfellow
