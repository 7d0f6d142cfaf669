/-
**The real Fourier transform** (`runtime/algebra/src/rfft.rs`).

A vector of the base field is transformed in place: its elements are permuted by reversing the bits of
their indices, and then four transforms are merged into one of four times the size, level after level.
The backward transform takes the levels apart again. Every level works on the columns of the four
parts of a chunk; a kernel replaces one column, or two columns at opposite indices together.

* `columns_returns` — **what a level makes of a chunk**, column by column.
-/

import Longfellow.Lib.BitReversal
import Longfellow.Lib.RealDft

namespace Longfellow.Rfft

open Lib Gaussian

variable {ε E : Type} [CommRing E]

/-! ### The extension -/

/-- An element `re + im i` of the quadratic extension. -/
abbrev Fp2Element (E : Type) [CommRing E] := Gaussian E

/-- The product in the extension, with three products in the base field. -/
def mulFp2 (e1 e2 : Fp2Element E) : Fp2Element E :=
  let a01 := e1.re + e1.im
  let b01 := e2.re + e2.im
  let p1 := e1.im * e2.im
  let re := e1.re * e2.re
  ⟨re - p1, a01 * b01 - re - p1⟩

def cmul (xr xi br bi : E) : E × E :=
  let a01 := xr + xi
  let b01 := br + bi
  let p1 := xi * bi
  let xr := xr * br
  (xr - p1, a01 * b01 - xr - p1)

def cmulConj (xr xi br bi : E) : E × E :=
  let a01 := xr + xi
  let b01 := br - bi
  let p1 := xi * bi
  let xr := xr * br
  (xr + p1, a01 * b01 - xr + p1)

/-! ### The roots -/

/-- The orders of a transform and of a root. -/
def assertValidOrders (transformOrder rootOrder : ℕ) : Exec ε Unit := do
  ensure transformOrder.isPowerOfTwo "FFT length must be a nonzero power of two"
  ensure rootOrder.isPowerOfTwo "FFT root order must be a nonzero power of two"
  ensure (transformOrder ≤ rootOrder) "FFT root order must be at least the transform length"

/-- The powers of a root, up to half its order. -/
def twiddleNew (order : ℕ) (omegaOrder : Fp2Element E) : Exec ε (List (Fp2Element E)) := do
  ensure order.isPowerOfTwo "twiddle order must be a nonzero power of two"
  pure ((List.range (order / 2)).foldl (fun s _ => (s.1 ++ [s.2], mulFp2 s.2 omegaOrder))
    ([], (1 : Fp2Element E))).1

/-- Square a root of order `n` while `r` is below. -/
def rerootLoop (n : ℕ) : ℕ → ℕ → Fp2Element E → Exec ε (Fp2Element E)
  | 0, r, omegaR => if r < n then abort "out of fuel" else pure omegaR
  | fuel + 1, r, omegaR =>
    if r < n then rerootLoop n fuel (r + r) (mulFp2 omegaR omegaR) else pure omegaR

def reroot (omegaN : Fp2Element E) (n r : ℕ) : Exec ε (Fp2Element E) := do
  assertValidOrders r n
  rerootLoop n n r omegaN

section Validate

variable [DecidableEq E]

def validateRoot (omega : Fp2Element E) : Exec ε Unit :=
  ensure (mulFp2 omega ⟨omega.re, -omega.im⟩ = 1) "root of unity not on the unit circle"

def validateI (ii : Fp2Element E) : Exec ε Unit :=
  ensure (ii = Gaussian.i) "wrong sign for i(), need the conjugate root"

def validateW8 (w8 : Fp2Element E) : Exec ε Unit :=
  ensure (w8.re = w8.im) "wrong 8-th root of unity"

/-- The table for a transform of `n` elements. -/
def prepare (debug : Bool) (omega : Fp2Element E) (omegaOrder n : ℕ) :
    Exec ε (List (Fp2Element E)) := do
  let omegaN ← reroot omega omegaOrder n
  let roots ← twiddleNew n omegaN
  if debug then validateI (← getAt roots (n / 4))
  if debug && decide (8 ≤ n) then validateW8 (← getAt roots (n / 8))
  pure roots

end Validate

/-! ### Cells -/

/-- Replace some cells of an array, all at once. -/
def onCells {ι : Type} (cells : List ι) (idx : ι → ℕ) (f : (ι → E) → ι → E) (a : List E) :
    Exec ε (List E) := do
  ensure (∀ c ∈ cells, idx c < a.length) "index out of bounds"
  let y := f fun c => a.getD (idx c) 0
  pure (cells.foldl (fun a c => a.set (idx c) (y c)) a)

/-- Replace `a[idx]` and `a[idx + s]`. -/
def onPair (f : (Fin 2 → E) → Fin 2 → E) (idx s : ℕ) (a : List E) : Exec ε (List E) :=
  onCells (List.finRange 2) (fun d => idx + d * s) f a

/-- Replace `a[idx]`, `a[idx + s]`, `a[idx + 2 * s]` and `a[idx + 3 * s]`. -/
def onColumn (f : (Fin 4 → E) → Fin 4 → E) (idx s : ℕ) (a : List E) : Exec ε (List E) :=
  onCells (List.finRange 4) (fun d => idx + d * s) f a

/-- Replace the cells of two columns. -/
def onColumns (f : (Fin 4 → E) → (Fin 4 → E) → (Fin 4 → E) × (Fin 4 → E)) (idxR idxI s : ℕ)
    (a : List E) : Exec ε (List E) :=
  onCells ((List.finRange 4).map .inl ++ (List.finRange 4).map .inr)
    (Sum.elim (fun d : Fin 4 => idxR + d * s) fun d : Fin 4 => idxI + d * s)
    (fun x => Sum.elim (f (x ∘ .inl) (x ∘ .inr)).1 (f (x ∘ .inl) (x ∘ .inr)).2) a

/-- Work on every full chunk of an array. -/
def onChunks (width : ℕ) (work : List E → Exec ε (List E)) (a : List E) : Exec ε (List E) := do
  let done ← (chunksExact width a).mapM work
  pure (done.flatten ++ a.drop (a.length / width * width))

/-- The next index with its bits reversed: the bits are changed from the highest one down, until one
is set. -/
def nextReversed : ℕ → ℕ → ℕ → Exec ε ℕ
  | 0, _, _ => abort "out of fuel"
  | fuel + 1, bit, revi =>
    let bit := bit >>> 1
    let revi := revi ^^^ bit
    if revi &&& bit ≠ 0 then pure revi else nextReversed fuel bit revi

def bitrev (a : List E) : Exec ε (List E) := do
  let n := a.length
  ensure n.isPowerOfTwo "bit reversal length must be a nonzero power of two"
  let s ← (List.range (n - 1)).foldlM (fun (s : List E × ℕ) i => do
    let a ← if i < s.2 then onPair (fun x => ![x 1, x 0]) i (s.2 - i) s.1 else pure s.1
    pure (a, ← nextReversed n n s.2)) (a, 0)
  pure s.1

/-! ### The kernels -/

/-- The cells of four. -/
local instance four_neZero : NeZero 4 := inferInstance

def r2hcI2 (x : Fin 2 → E) : Fin 2 → E := ![x 0 + x 1, x 0 - x 1]

def r2hcI4 (x : Fin 4 → E) : Fin 4 → E :=
  let a0 := x 0 + x 1
  let a1 := x 0 - x 1
  let a3 := x 3 - x 2
  let a2 := x 2 + x 3
  ![a0 + a2, a1, a0 - a2, a3]

/-- The middle column. -/
def r2hcIi4 (w8 : Fp2Element E) (x : Fin 4 → E) : Fin 4 → E :=
  let z0 := (x 2 + x 3) * w8.im
  let z1 := (x 2 - x 3) * w8.re
  ![x 0 + z1, x 0 - z1, x 1 - z0, -(x 1 + z0)]

/-- The columns at opposite indices. -/
def hc2hcF4 (tw1 tw2 tw3 : Fp2Element E) (xr xi : Fin 4 → E) : (Fin 4 → E) × (Fin 4 → E) :=
  let (x1r, x1i) := cmulConj (xr 1) (xi 1) tw2.re tw2.im
  let (x2r, x2i) := cmulConj (xr 2) (xi 2) tw1.re tw1.im
  let (x3r, x3i) := cmulConj (xr 3) (xi 3) tw3.re tw3.im
  let y0r := xr 0 + x1r
  let y0i := xi 0 + x1i
  let y1r := xr 0 - x1r
  let y1i := xi 0 - x1i
  let y2r := x3r + x2r
  let y3r := x3r - x2r
  let y2i := x2i + x3i
  let y3i := x2i - x3i
  (![y0r + y2r, y1r + y3i, y2i - y0i, y3r - y1i], ![y1r - y3i, y0r - y2r, y3r + y1i, y2i + y0i])

def hc2rI2 (x : Fin 2 → E) : Fin 2 → E := ![x 0 + x 1, x 0 - x 1]

def hc2rI4 (x : Fin 4 → E) : Fin 4 → E :=
  let y0 := x 0 + x 2
  let y1 := x 0 - x 2
  let y2 := x 1 + x 1
  let y3 := x 3 + x 3
  ![y0 + y2, y0 - y2, y1 - y3, y1 + y3]

/-- The middle column, backward. -/
def hc2rIii4 (w8 : Fp2Element E) (x : Fin 4 → E) : Fin 4 → E :=
  let x0 := x 0 + x 0
  let x1 := x 1 + x 1
  let x2 := x 2 + x 2
  let x3 := x 3 + x 3
  let z0 := (x0 - x1) * w8.re
  let z1 := (x3 + x2) * w8.im
  ![x0 + x1, x2 - x3, z0 - z1, -(z0 + z1)]

/-- The columns at opposite indices, backward. -/
def hc2hcB4 (tw1 tw2 tw3 : Fp2Element E) (xr xi : Fin 4 → E) : (Fin 4 → E) × (Fin 4 → E) :=
  let z0 := xr 0 + xi 1
  let z1 := xr 0 - xi 1
  let z2 := xr 1 + xi 0
  let z3 := xr 1 - xi 0
  let z4 := xi 3 + xr 2
  let z5 := xi 3 - xr 2
  let z6 := xi 2 + xr 3
  let z7 := xi 2 - xr 3
  let (x1r, x1i) := cmul (z0 - z2) (z5 - z7) tw2.re tw2.im
  let (x2r, x2i) := cmul (z1 - z6) (z4 + z3) tw1.re tw1.im
  let (x3r, x3i) := cmul (z1 + z6) (z4 - z3) tw3.re tw3.im
  (![z0 + z2, x1r, x2r, x3r], ![z5 + z7, x1i, x2i, x3i])

/-! ### The levels -/

/-- The kernels of a level: for the first column, for columns at opposite indices and for the middle
column. -/
structure Kernels (E : Type) [CommRing E] where
  first : (Fin 4 → E) → Fin 4 → E
  both : Fp2Element E → Fp2Element E → Fp2Element E → (Fin 4 → E) → (Fin 4 → E) →
    (Fin 4 → E) × (Fin 4 → E)
  middle : Fp2Element E → (Fin 4 → E) → Fin 4 → E

def forward : Kernels E := ⟨r2hcI4, hc2hcF4, r2hcIi4⟩

def backward : Kernels E := ⟨hc2rI4, hc2hcB4, hc2rIii4⟩

/-- A level on a chunk of four parts of `m` elements. -/
def columns (kernels : Kernels E) (roots : List (Fp2Element E)) (ws m : ℕ) (chunk : List E) :
    Exec ε (List E) := do
  let chunk ← onColumn kernels.first 0 m chunk
  let chunk ← (List.range' 1 (m / 2 - 1)).foldlM (fun chunk j => do
    let tw1 ← getAt roots (j * ws)
    let tw2 ← getAt roots (2 * j * ws)
    let tw3 ← getAt roots (3 * j * ws)
    onColumns (kernels.both tw1 tw2 tw3) j (m - j) m chunk) chunk
  let w8 ← getAt roots (m / 2 * ws)
  onColumn (kernels.middle w8) (m / 2) m chunk

/-- A level on an array of `n` elements. -/
def level (kernels : Kernels E) (roots : List (Fp2Element E)) (n m : ℕ) (a : List E) :
    Exec ε (List E) :=
  onChunks (4 * m) (columns kernels roots (n / (4 * m)) m) a

/-- The size of the first transforms. -/
def baseSize : ℕ → ℕ → ℕ
  | 0, m => m
  | fuel + 1, m => if 4 < m then baseSize fuel (m / 4) else m

def forwardLevels (roots : List (Fp2Element E)) (n : ℕ) : ℕ → ℕ → List E → Exec ε (List E)
  | 0, m, a => if m < n then abort "out of fuel" else pure a
  | fuel + 1, m, a =>
    if m < n then do
      let a ← level forward roots n m a
      forwardLevels roots n fuel (m * 4) a
    else pure a

def backwardLevels (roots : List (Fp2Element E)) (n : ℕ) : ℕ → ℕ → List E → Exec ε (ℕ × List E)
  | 0, m, a => if 4 < m then abort "out of fuel" else pure (m, a)
  | fuel + 1, m, a =>
    if 4 < m then do
      let a ← level backward roots n (m / 4) a
      backwardLevels roots n fuel (m / 4) a
    else pure (m, a)

section Transforms

variable [DecidableEq E] (debug : Bool) (omega : Fp2Element E) (omegaOrder : ℕ)

/-- The transform of a vector to the half-complex form. -/
def r2hc (a : List E) : Exec ε (List E) := do
  let n := a.length
  assertValidOrders n omegaOrder
  if debug then validateRoot omega
  if n = 2 then onPair r2hcI2 0 1 a
  else if 4 ≤ n then do
    let roots ← prepare debug omega omegaOrder n
    let a ← bitrev a
    let m := baseSize n n
    let a ← if m = 2 then onChunks 2 (onPair r2hcI2 0 1) a else onChunks 4 (onColumn r2hcI4 0 1) a
    forwardLevels roots n n (if m = 2 then 2 else 4) a
  else pure a

/-- The transform of a half-complex form to a vector. -/
def hc2r (a : List E) : Exec ε (List E) := do
  let n := a.length
  assertValidOrders n omegaOrder
  if debug then validateRoot omega
  if n = 2 then onPair hc2rI2 0 1 a
  else if 4 ≤ n then do
    let roots ← prepare debug omega omegaOrder n
    let (m, a) ← backwardLevels roots n n n a
    let a ← if m = 2 then onChunks 2 (onPair hc2rI2 0 1) a else onChunks 4 (onColumn hc2rI4 0 1) a
    bitrev a
  else pure a

end Transforms

/-! ### What happens to the cells -/

section Cells

variable {ι : Type} {cells : List ι} {idx : ι → ℕ} {a : List E} {k : ℕ}

omit [CommRing E] in
theorem length_foldl_set (y : ι → E) (cells : List ι) (a : List E) :
    (cells.foldl (fun a c => a.set (idx c) (y c)) a).length = a.length := by
  induction cells generalizing a with
  | nil => rfl
  | cons c cells ih => rw [List.foldl_cons, ih, List.length_set]

theorem getD_foldl_set_other (y : ι → E) (other : ∀ c ∈ cells, idx c ≠ k) :
    (cells.foldl (fun a c => a.set (idx c) (y c)) a).getD k 0 = a.getD k 0 := by
  induction cells generalizing a with
  | nil => rfl
  | cons c cells ih =>
    obtain ⟨head, rest⟩ := List.forall_mem_cons.mp other
    rw [List.foldl_cons, ih rest, List.getD_eq_getElem?_getD, List.getElem?_set_ne head,
      ← List.getD_eq_getElem?_getD]

theorem getD_foldl_set (injective : Function.Injective idx) (y : ι → E) {c : ι}
    (member : c ∈ cells) (inside : idx c < a.length) :
    (cells.foldl (fun a c => a.set (idx c) (y c)) a).getD (idx c) 0 = y c := by
  induction cells generalizing a with
  | nil => cases member
  | cons b cells ih =>
    rw [List.foldl_cons]
    by_cases later : c ∈ cells
    · exact ih later (by rwa [List.length_set])
    · obtain rfl : c = b := (List.mem_cons.mp member).resolve_right later
      rw [getD_foldl_set_other y fun b member same => later (by rwa [injective same] at member),
        List.getD_eq_getElem?_getD, List.getElem?_set_self inside, Option.getD_some]

/-- **Some cells are replaced**, and the others are as they were. -/
theorem onCells_returns (cells : List ι) (idx : ι → ℕ) (all : ∀ c, c ∈ cells) (inside : ∀ c, idx c < a.length)
    (injective : Function.Injective idx) (f : (ι → E) → ι → E) :
    ∃ b, onCells cells idx f a = (.ok b : Exec ε _) ∧ b.length = a.length ∧
      (∀ c, b.getD (idx c) 0 = f (fun c => a.getD (idx c) 0) c) ∧
      ∀ k, (∀ c, idx c ≠ k) → b.getD k 0 = a.getD k 0 := by
  refine ⟨_, by rw [onCells, ensure_of fun c _ => inside c, ok_bind, pure_eq_ok],
    length_foldl_set _ _ _, fun c => getD_foldl_set injective _ (all c) (inside c),
    fun k other => getD_foldl_set_other _ fun c _ => other c⟩

end Cells

/-- The cells of a column. -/
def column (a : List E) (m j : ℕ) (d : Fin 4) : E := a.getD (j + d * m) 0

variable {a : List E} {m j : ℕ}

theorem column_index {j' : ℕ} (small : j < m) (small' : j' < m) {d d' : ℕ}
    (same : j + d * m = j' + d' * m) : j = j' ∧ d = d' := by
  have positive : 0 < m := by omega
  have remainder := congrArg (· % m) same
  simp only [Nat.add_mul_mod_self_right, Nat.mod_eq_of_lt small, Nat.mod_eq_of_lt small'] at remainder
  subst remainder
  exact ⟨rfl, Nat.eq_of_mul_eq_mul_right positive (by omega)⟩

omit [CommRing E] in
theorem column_inside (size : a.length = 4 * m) (small : j < m) (d : Fin 4) :
    j + d * m < a.length := by
  have rows : (d : ℕ) * m ≤ 3 * m := Nat.mul_le_mul_right m (by omega)
  omega

theorem onColumn_returns (size : a.length = 4 * m) (small : j < m) (f : (Fin 4 → E) → Fin 4 → E) :
    ∃ b, onColumn f j m a = (.ok b : Exec ε _) ∧ b.length = 4 * m ∧
      column b m j = f (column a m j) ∧
      ∀ j' < m, j' ≠ j → column b m j' = column a m j' := by
  obtain ⟨b, ran, kept, changed, others⟩ := onCells_returns (ε := ε) (a := a)
    (List.finRange 4) (fun d : Fin 4 => j + d * m) List.mem_finRange
    (column_inside size small)
    (fun d d' same => Fin.ext (column_index small small same).2) f
  refine ⟨b, ran, kept.trans size, funext changed, fun j' small' other => funext fun d' => ?_⟩
  exact others _ fun d same => other (column_index small small' same).1.symm

theorem onColumns_returns {i : ℕ} (size : a.length = 4 * m) (small : j < m) (small' : i < m)
    (apart : j ≠ i) (f : (Fin 4 → E) → (Fin 4 → E) → (Fin 4 → E) × (Fin 4 → E)) :
    ∃ b, onColumns f j i m a = (.ok b : Exec ε _) ∧ b.length = 4 * m ∧
      column b m j = (f (column a m j) (column a m i)).1 ∧
      column b m i = (f (column a m j) (column a m i)).2 ∧
      ∀ j' < m, j' ≠ j → j' ≠ i → column b m j' = column a m j' := by
  let idx : Fin 4 ⊕ Fin 4 → ℕ := Sum.elim (fun d : Fin 4 => j + d * m) fun d : Fin 4 => i + d * m
  have injective : Function.Injective idx := by
    rintro (d | d) (d' | d') same
    · exact congrArg Sum.inl (Fin.ext (column_index small small same).2)
    · exact absurd (column_index small small' same).1 apart
    · exact absurd (column_index small' small same).1.symm apart
    · exact congrArg Sum.inr (Fin.ext (column_index small' small' same).2)
  obtain ⟨b, ran, kept, changed, others⟩ := onCells_returns (ε := ε) (a := a)
    ((List.finRange 4).map .inl ++ (List.finRange 4).map .inr) idx
    (by rintro (d | d) <;> simp)
    (by rintro (d | d); exacts [column_inside size small d, column_inside size small' d])
    injective (fun x => Sum.elim (f (x ∘ .inl) (x ∘ .inr)).1 (f (x ∘ .inl) (x ∘ .inr)).2)
  refine ⟨b, ran, kept.trans size, funext fun d => changed (.inl d), funext fun d =>
    changed (.inr d), fun j' small'' first second => funext fun d' => others _ ?_⟩
  rintro (d | d) same
  · exact first (column_index small small'' same).1.symm
  · exact second (column_index small' small'' same).1.symm

/-! ### A level on a chunk -/

/-- What a level makes of a column, from this column and the one at the opposite index. -/
def merged (kernels : Kernels E) (w : Fp2Element E) (m : ℕ) (x : ℕ → Fin 4 → E) (j : ℕ) :
    Fin 4 → E :=
  if j = 0 then kernels.first (x 0)
  else if 2 * j < m then (kernels.both (w ^ j) (w ^ (2 * j)) (w ^ (3 * j)) (x j) (x (m - j))).1
  else if 2 * j = m then kernels.middle (w ^ j) (x j)
  else (kernels.both (w ^ (m - j)) (w ^ (2 * (m - j))) (w ^ (3 * (m - j))) (x (m - j)) (x j)).2

/-- **A level on a chunk**: every column is replaced once. -/
theorem columns_returns (kernels : Kernels E) {roots : List (Fp2Element E)} {w : Fp2Element E}
    {ws h : ℕ} (some : 0 < h) (table : ∀ k < 4 * h, getAt roots (k * ws) = (.ok (w ^ k) : Exec ε _))
    (size : a.length = 4 * (2 * h)) :
    ∃ b, columns kernels roots ws (2 * h) a = (.ok b : Exec ε _) ∧ b.length = 4 * (2 * h) ∧
      ∀ j < 2 * h, column b (2 * h) j = merged kernels w (2 * h) (column a (2 * h)) j := by
  have middle : 2 * h / 2 = h := by omega
  obtain ⟨first, ran₁, size₁, changed₁, others₁⟩ :=
    onColumn_returns (ε := ε) size (show 0 < 2 * h by omega) kernels.first
  obtain ⟨pairs, ran₂, size₂, done₂⟩ := foldlM_range'_returns (ε := ε) (k := 1) (n := h - 1)
    (f := fun chunk j => do
      let tw1 ← getAt roots (j * ws)
      let tw2 ← getAt roots (2 * j * ws)
      let tw3 ← getAt roots (3 * j * ws)
      onColumns (kernels.both tw1 tw2 tw3) j (2 * h - j) (2 * h) chunk)
    (fun j b => b.length = 4 * (2 * h) ∧ ∀ i < 2 * h, column b (2 * h) i =
      if i < j ∨ 2 * h - i < j then merged kernels w (2 * h) (column a (2 * h)) i
      else column a (2 * h) i)
    (s := first) ⟨size₁, fun i inside => by
      by_cases zero : i = 0
      · rw [if_pos (by omega), zero, changed₁]
        exact (if_pos rfl).symm
      · rw [if_neg (by omega), others₁ i inside zero]⟩ (by
      rintro j b from₁ to₁ ⟨sizeB, done⟩
      have below : j < h := by omega
      obtain ⟨c, ran, sizeC, left, right, others⟩ := onColumns_returns (ε := ε) (m := 2 * h)
        (j := j) (i := 2 * h - j) sizeB (by omega) (by omega) (by omega)
        (kernels.both (w ^ j) (w ^ (2 * j)) (w ^ (3 * j)))
      rw [table j (by omega), ok_bind, table (2 * j) (by omega), ok_bind, table (3 * j) (by omega),
        ok_bind]
      refine ⟨c, ran, sizeC, fun i inside => ?_⟩
      rw [done j (by omega), if_neg (by omega), done (2 * h - j) (by omega), if_neg (by omega)]
        at left right
      by_cases isLeft : i = j
      · rw [isLeft, left, if_pos (by omega), merged, if_neg (by omega), if_pos (by omega)]
      · by_cases isRight : i = 2 * h - j
        · have back : 2 * h - (2 * h - j) = j := by omega
          rw [isRight, right, if_pos (by omega), merged, if_neg (by omega), if_neg (by omega),
            if_neg (by omega), back]
        · rw [others i inside isLeft isRight, done i inside]
          exact if_congr (by omega) rfl rfl)
  obtain ⟨last, ran₃, size₃, changed₃, others₃⟩ :=
    onColumn_returns (ε := ε) size₂ (show h < 2 * h by omega) (kernels.middle (w ^ h))
  refine ⟨last, ?_, size₃, fun j inside => ?_⟩
  · rw [columns, ran₁, ok_bind, middle, ran₂, ok_bind, table h (by omega), ok_bind, ran₃]
  · by_cases isMiddle : j = h
    · rw [isMiddle, changed₃, done₂ h (by omega), if_neg (by omega), merged, if_neg (by omega),
        if_neg (by omega), if_pos rfl]
    · rw [others₃ j inside isMiddle, done₂ j inside, if_pos (by omega)]

/-! ### The permutation -/

theorem nextReversed_returns {l fuel i : ℕ} (enough : l ≤ fuel) (next : i + 1 < 2 ^ l) :
    nextReversed fuel (2 ^ l) (reversed l i) = (.ok (reversed l (i + 1)) : Exec ε ℕ) := by
  induction l generalizing fuel i with
  | zero => omega
  | succ l ih =>
    obtain ⟨fuel, rfl⟩ : ∃ k, fuel = k + 1 := ⟨fuel - 1, by omega⟩
    have half : 2 ^ (l + 1) >>> 1 = 2 ^ l := by
      rw [Nat.shiftRight_one, pow_succ]
      omega
    have low := reversed_lt l (i / 2)
    have clear : reversed l (i / 2) &&& 2 ^ l = 0 := by
      refine Nat.eq_of_testBit_eq fun k => ?_
      rw [Nat.testBit_and, Nat.testBit_two_pow, Nat.zero_testBit]
      by_cases top : l = k
      · rw [← top, Nat.testBit_lt_two_pow low, Bool.false_and]
      · rw [decide_eq_false top, Bool.and_false]
    have set : (2 ^ l + reversed l (i / 2)) &&& 2 ^ l ≠ 0 := by
      rw [xor_two_pow_add low, Nat.and_xor_distrib_right, clear, Nat.and_self, Nat.xor_zero]
      exact (Nat.two_pow_pos l).ne'
    rw [nextReversed, half]
    obtain even | odd := Nat.mod_two_eq_zero_or_one i
    · obtain ⟨now, then'⟩ := reversed_even_succ (l := l) even
      rw [now, then', Nat.xor_comm, ← xor_two_pow_add low, if_pos set, pure_eq_ok]
    · obtain ⟨now, then'⟩ := reversed_odd_succ (l := l) odd
      have toggled : (2 ^ l + reversed l (i / 2)) ^^^ 2 ^ l = reversed l (i / 2) := by
        rw [xor_two_pow_add low, Nat.xor_comm, ← Nat.xor_assoc, Nat.xor_self, Nat.zero_xor]
      rw [now, then', toggled, if_neg (not_not_intro clear)]
      rw [pow_succ] at next
      exact ih (by omega) (by omega)

theorem onPair_returns (f : (Fin 2 → E) → Fin 2 → E) {i s : ℕ} (some : 0 < s)
    (inside : i + s < a.length) :
    ∃ b, onPair f i s a = (.ok b : Exec ε _) ∧ b.length = a.length ∧
      b.getD i 0 = f ![a.getD i 0, a.getD (i + s) 0] 0 ∧
      b.getD (i + s) 0 = f ![a.getD i 0, a.getD (i + s) 0] 1 ∧
      ∀ k, k ≠ i → k ≠ i + s → b.getD k 0 = a.getD k 0 := by
  let idx : Fin 2 → ℕ := fun d => i + d * s
  have zero : idx 0 = i := by simp [idx]
  have one : idx 1 = i + s := by simp [idx]
  have cells : (fun d => a.getD (idx d) 0) = ![a.getD i 0, a.getD (i + s) 0] := by
    funext d
    fin_cases d
    · exact congrArg (a.getD · 0) zero
    · exact congrArg (a.getD · 0) one
  obtain ⟨b, ran, size, changed, others⟩ := onCells_returns (ε := ε) (a := a) (List.finRange 2) idx
    List.mem_finRange (Fin.forall_fin_two.mpr ⟨by omega, by omega⟩) (fun d d' same => by
      fin_cases d <;> fin_cases d'
      · rfl
      · exact absurd (zero.symm.trans (same.trans one)) (by omega)
      · exact absurd (one.symm.trans (same.trans zero)) (by omega)
      · rfl) f
  rw [cells] at changed
  refine ⟨b, ran, size, ?_, ?_, fun k first second => others k (Fin.forall_fin_two.mpr ?_)⟩
  · rw [← changed 0, zero]
  · rw [← changed 1, one]
  · exact ⟨by omega, by omega⟩

/-- **The permutation**: every element goes to the index with the bits reversed. -/
theorem bitrev_returns {l : ℕ} (size : a.length = 2 ^ l) :
    ∃ b, bitrev a = (.ok b : Exec ε _) ∧ b.length = 2 ^ l ∧
      ∀ k < 2 ^ l, b.getD k 0 = a.getD (reversed l k) 0 := by
  obtain ⟨s, ran, sizeS, done, -⟩ := foldlM_range_returns (ε := ε) (n := 2 ^ l - 1)
    (f := fun (s : List E × ℕ) i => do
      let a ← if i < s.2 then onPair (fun x => ![x 1, x 0]) i (s.2 - i) s.1 else pure s.1
      pure (a, ← nextReversed (2 ^ l) (2 ^ l) s.2))
    (fun i s => s.1.length = 2 ^ l ∧ (∀ k < 2 ^ l, s.1.getD k 0 =
      if k < i ∨ reversed l k < i then a.getD (reversed l k) 0 else a.getD k 0) ∧
      s.2 = reversed l i)
    (s := (a, 0)) ⟨size, fun k _ => (if_neg (by omega)).symm, (reversed_zero l).symm⟩ (by
      rintro i ⟨b, revi⟩ below ⟨sizeB, done, rfl⟩
      have here : i < 2 ^ l := by omega
      have back := reversed_reversed here
      have small := reversed_lt l i
      have next := nextReversed_returns (ε := ε) (Nat.lt_two_pow_self (n := l)).le
        (show i + 1 < 2 ^ l by omega)
      dsimp only at sizeB done ⊢
      by_cases swap : i < reversed l i
      · obtain ⟨c, ran, sizeC, first, second, others⟩ := onPair_returns (ε := ε) (a := b)
          (fun x => ![x 1, x 0]) (i := i) (s := reversed l i - i) (by omega) (by omega)
        rw [Nat.add_sub_cancel' swap.le] at first second others
        rw [if_pos swap, ran, ok_bind, next, ok_bind, pure_eq_ok]
        refine ⟨_, rfl, sizeC.trans sizeB, fun k inside => ?_, rfl⟩
        by_cases isFirst : k = i
        · rw [isFirst, first, if_pos (by omega)]
          exact (done _ small).trans (by rw [back, if_neg (by omega)])
        · by_cases isSecond : k = reversed l i
          · rw [isSecond, second, back, if_pos (by omega)]
            exact (done i here).trans (if_neg (by omega))
          · have apart : reversed l k ≠ i := fun same => isSecond (by rw [← same, reversed_reversed inside])
            rw [others k isFirst isSecond, done k inside]
            exact if_congr (by omega) rfl rfl
      · rw [if_neg swap, pure_eq_ok, ok_bind, next, ok_bind, pure_eq_ok]
        refine ⟨_, rfl, sizeB, fun k inside => ?_, rfl⟩
        rw [done k inside]
        by_cases isHere : k = i
        · subst isHere
          by_cases fixed : reversed l k = k
          · rw [fixed, ite_self, ite_self]
          · rw [if_pos (by omega), if_pos (by omega)]
        · by_cases other : reversed l k = i
          · have same : k = reversed l i := by rw [← other, reversed_reversed inside]
            have order : k < i := by omega
            rw [if_pos (by omega), if_pos (by omega)]
          · exact if_congr (by omega) rfl rfl)
  refine ⟨s.1, ?_, sizeS, fun k inside => ?_⟩
  · rw [bitrev, size, ensure_of ⟨l, rfl⟩, ok_bind, ran, ok_bind, pure_eq_ok]
  · rw [done k inside]
    have small := reversed_lt l k
    by_cases last : k < 2 ^ l - 1 ∨ reversed l k < 2 ^ l - 1
    · rw [if_pos last]
    · have fixed : reversed l k = k := by omega
      rw [fixed, ite_self]

/-! ### The table -/

theorem mulFp2_eq (a b : Fp2Element E) : mulFp2 a b = a * b := by
  ext
  · simp only [mulFp2, QuadraticAlgebra.re_mul]
    ring
  · simp only [mulFp2, QuadraticAlgebra.im_mul]
    ring

theorem cmul_eq (x b : Fp2Element E) : cmul x.re x.im b.re b.im = ((x * b).re, (x * b).im) := by
  rw [← mulFp2_eq]
  rfl

theorem cmulConj_eq (x b : Fp2Element E) :
    cmulConj x.re x.im b.re b.im = ((x * star b).re, (x * star b).im) := by
  refine Prod.ext ?_ ?_
  · simp only [cmulConj, QuadraticAlgebra.re_mul, QuadraticAlgebra.re_star,
      QuadraticAlgebra.im_star]
    ring
  · simp only [cmulConj, QuadraticAlgebra.im_mul, QuadraticAlgebra.re_star,
      QuadraticAlgebra.im_star]
    ring

variable {l n : ℕ} {w omega : Fp2Element E}

theorem assertValidOrders_returns (within : l ≤ n) :
    assertValidOrders (2 ^ l) (2 ^ n) = (.ok () : Exec ε Unit) := by
  rw [assertValidOrders, ensure_of ⟨l, rfl⟩, ok_bind, ensure_of ⟨n, rfl⟩, ok_bind,
    ensure_of (Nat.pow_le_pow_right (by decide) within)]

theorem twiddleNew_returns (l : ℕ) (w : Fp2Element E) :
    twiddleNew (2 ^ l) w = (.ok ((List.range (2 ^ l / 2)).map (w ^ ·)) : Exec ε _) := by
  have powers : ∀ k, (List.range k).foldl (fun s _ => (s.1 ++ [s.2], mulFp2 s.2 w))
      (([], 1) : List (Fp2Element E) × Fp2Element E) = ((List.range k).map (w ^ ·), w ^ k) := by
    intro k
    induction k with
    | zero => rw [List.range_zero, List.foldl_nil, List.map_nil, pow_zero]
    | succ k ih =>
      rw [List.range_succ, List.foldl_append, ih, List.map_append, List.foldl_cons, mulFp2_eq,
        ← pow_succ]
      rfl
  rw [twiddleNew, ensure_of ⟨l, rfl⟩, ok_bind, powers, pure_eq_ok]

theorem rerootLoop_returns {fuel : ℕ} (within : l ≤ n) (enough : n - l ≤ fuel) (w : Fp2Element E) :
    rerootLoop (2 ^ n) fuel (2 ^ l) w = (.ok (w ^ 2 ^ (n - l)) : Exec ε _) := by
  induction fuel generalizing l w with
  | zero =>
    obtain rfl : l = n := by omega
    rw [rerootLoop, if_neg (lt_irrefl _), Nat.sub_self, pow_zero, pow_one, pure_eq_ok]
  | succ fuel ih =>
    rw [rerootLoop]
    by_cases done : l = n
    · rw [done, if_neg (lt_irrefl _), Nat.sub_self, pow_zero, pow_one, pure_eq_ok]
    · have double : 2 ^ l + 2 ^ l = 2 ^ (l + 1) := by rw [pow_succ, Nat.mul_two]
      have exponent : 2 * 2 ^ (n - (l + 1)) = 2 ^ (n - l) := by
        rw [← pow_succ']
        congr 1
        omega
      rw [if_pos (Nat.pow_lt_pow_right (by decide) (by omega)), double,
        ih (by omega) (by omega), mulFp2_eq, ← pow_two, ← pow_mul, exponent]

theorem reroot_returns (within : l ≤ n) (w : Fp2Element E) :
    reroot w (2 ^ n) (2 ^ l) = (.ok (w ^ 2 ^ (n - l)) : Exec ε _) := by
  have fuel : n - l ≤ 2 ^ n := (Nat.sub_le n l).trans Nat.lt_two_pow_self.le
  rw [reroot, assertValidOrders_returns within, ok_bind, rerootLoop_returns within fuel]

end Longfellow.Rfft
