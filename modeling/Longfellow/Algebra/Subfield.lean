/-
**Binary subfields** (`runtime/algebra/src/subfield.rs`).

A basis of 8 or 16 elements of GF(2^128) numbers the elements of its span. To find the number of an
element, the basis is reduced once: every row of the reduced basis has a bit of its own, and comes
with the basis elements it is made of.

* `subfield_exact` — **the numbers and the elements of the span correspond**, `contains` is the span,
  and the bytes and the elements of the span correspond.
-/

import Longfellow.Algebra.Gf2128
import Longfellow.Lib.Echelon
import Longfellow.Lib.ByteOrder

namespace Longfellow

open Lib

variable {ε : Type}

/-! ### The reduction -/

/-- The rows, the basis elements they are made of as the bits of a number, the bits of the first
`rnk` rows, and how many rows have one. -/
structure Rref where
  u : List Gf2128
  linv : List Nat
  ldnz : List Nat
  rnk : Nat

/-- Two cells changed places. -/
def swapRows {α : Type} (xs : List α) (i k : Nat) (d : α) : List α :=
  (xs.set i (xs.getD k d)).set k (xs.getD i d)

/-- Take the row `rnk` out of the row `i1`, if that one has the bit `j`. -/
def clearRow (j rnk : Nat) (rnkU : Gf2128) (rnkLinv : Nat) (rows : List Gf2128 × List Nat)
    (i1 : Nat) : List Gf2128 × List Nat :=
  if i1 ≠ rnk ∧ (rows.1.getD i1 0).getLsbD j then
    (rows.1.set i1 (rows.1.getD i1 0 ^^^ rnkU), rows.2.set i1 (rows.2.getD i1 0 ^^^ rnkLinv))
  else rows

/-- Bit `j`: the first row from `rnk` on that has it becomes row `rnk`, and no other row keeps it. -/
def rrefStep (subfieldBits : Nat) (s : Rref) (j : Nat) : Rref :=
  match (List.range' s.rnk (subfieldBits - s.rnk)).find? fun i0 => (s.u.getD i0 0).getLsbD j with
  | none => s
  | some i0 =>
    let u := swapRows s.u s.rnk i0 0
    let linv := swapRows s.linv s.rnk i0 0
    let rows := (List.range subfieldBits).foldl
      (clearRow j s.rnk (u.getD s.rnk 0) (linv.getD s.rnk 0)) (u, linv)
    ⟨rows.1, rows.2, s.ldnz.set s.rnk j, s.rnk + 1⟩

/-- The rows before the reduction: the basis elements. -/
def rrefStart (basis : List Gf2128) (subfieldBits : Nat) : Rref :=
  ⟨basis ++ List.replicate (16 - subfieldBits) 0,
    (List.range subfieldBits).map (2 ^ ·) ++ List.replicate (16 - subfieldBits) 0,
    List.replicate 16 0, 0⟩

def rref (basis : List Gf2128) (subfieldBits : Nat) :
    Exec ε (List Gf2128 × List Nat × List Nat) := do
  let s := (List.range 128).foldl (rrefStep subfieldBits) (rrefStart basis subfieldBits)
  ensure (s.rnk = subfieldBits) "basis must have full rank"
  pure (s.u, s.linv, s.ldnz)

/-! ### The subfield -/

structure BinarySubfield where
  basis : List Gf2128
  u : List Gf2128
  linv : List Nat
  ldnz : List Nat
  len : Nat
  serializedSizeBytes : Nat

namespace BinarySubfield

def new (basis : List Gf2128) : Exec ε BinarySubfield := do
  let subfieldBits := basis.length
  ensure (subfieldBits ≤ 16) "BinarySubfield only supports up to 16 bits"
  ensure (subfieldBits % 8 = 0) "BinarySubfield dimension must be byte-aligned"
  let (u, linv, ldnz) ← rref basis subfieldBits
  pure ⟨basis ++ List.replicate (16 - subfieldBits) 0, u, linv, ldnz, subfieldBits,
    subfieldBits / 8⟩

/-- The lowest bit of what is left of a number, for the basis element `i`. -/
def embedStep (basis : List Gf2128) (s : Gf2128 × Nat) (i : Nat) : Gf2128 × Nat :=
  (if s.2 % 2 ≠ 0 then s.1 ^^^ basis.getD i 0 else s.1, s.2 / 2)

/-- The element of a number of 64 bits. -/
def embed (f : BinarySubfield) (u : Nat) : Exec ε Gf2128 := do
  let s := (List.range f.len).foldl (embedStep f.basis) (0, u)
  ensure (s.2 = 0) "embed(u), too many bits"
  pure s.1

/-- Take the row `rnk` out of what is left of an element, if that has its bit. -/
def solveStep (f : BinarySubfield) (s : Gf2128 × Nat) (rnk : Nat) : Gf2128 × Nat :=
  if s.1.getLsbD (f.ldnz.getD rnk 0) then (s.1 ^^^ f.u.getD rnk 0, s.2 ^^^ f.linv.getD rnk 0)
  else s

/-- What is left of an element without the rows whose bit it has, and the number of these rows. -/
def solve (f : BinarySubfield) (e : Gf2128) : Gf2128 × Nat :=
  (List.range f.len).foldl f.solveStep (e, 0)

def project (f : BinarySubfield) (e : Gf2128) : Exec String Nat :=
  if (f.solve e).1 = 0 then pure (f.solve e).2 else raise "element not in subfield"

def contains (f : BinarySubfield) (e : Gf2128) : Bool := (f.solve e).1 = 0

def toBytes (f : BinarySubfield) (e : Gf2128) : Exec String Bytes := do
  let u ← mapErr (fun _ => abort "element not in subfield") (f.project e)
  pure ((leBytes 8 u).take f.serializedSizeBytes)

def bytesToElement (f : BinarySubfield) (bytes : Bytes) : Exec String Gf2128 := do
  check (bytes.length = f.serializedSizeBytes) "Invalid byte length for subfield element"
  f.embed (leValue (bytes ++ List.replicate (8 - f.serializedSizeBytes) 0))

end BinarySubfield

/-! ### Elements as vectors of bits -/

/-- The bits of an element. -/
def vectorOf (x : Gf2128) (j : ℕ) : ZMod 2 := bitVal (x.getLsbD j)

@[simp] theorem vectorOf_xor (x y : Gf2128) : vectorOf (x ^^^ y) = vectorOf x + vectorOf y := by
  funext j
  rw [vectorOf, BitVec.getLsbD_xor, bitVal_xor]
  rfl

@[simp] theorem vectorOf_zero : vectorOf 0 = 0 := by
  funext j
  simp [vectorOf]

theorem vectorOf_injective : Function.Injective vectorOf := by
  intro x y same
  exact BitVec.eq_of_getLsbD_eq fun j _ => bitVal_injective (congrFun same j)

/-- The bits of a number below `b`. -/
def coefficients (b l : ℕ) (m : Fin b) : ZMod 2 := bitVal (l.testBit m)

@[simp] theorem coefficients_xor (b l l' : ℕ) :
    coefficients b (l ^^^ l') = coefficients b l + coefficients b l' := by
  funext m
  rw [coefficients, Nat.testBit_xor, bitVal_xor]
  rfl

@[simp] theorem coefficients_zero (b : ℕ) : coefficients b 0 = 0 := by
  funext m
  simp [coefficients]

theorem coefficients_injOn {b l l' : ℕ} (small : l < 2 ^ b) (small' : l' < 2 ^ b)
    (same : coefficients b l = coefficients b l') : l = l' := by
  refine Nat.eq_of_testBit_eq fun m => ?_
  by_cases inside : m < b
  · exact bitVal_injective (congrFun same ⟨m, inside⟩)
  · have wide : 2 ^ b ≤ 2 ^ m := Nat.pow_le_pow_right (by decide) (by omega)
    rw [Nat.testBit_lt_two_pow (lt_of_lt_of_le small wide),
      Nat.testBit_lt_two_pow (lt_of_lt_of_le small' wide)]

/-- The coordinates. -/
def bitAt (j : ℕ) : (ℕ → ZMod 2) →ₗ[ZMod 2] ZMod 2 := LinearMap.proj j

/-- The rows of a reduction. -/
def rowsOf (b : ℕ) (u : List Gf2128) (i : Fin b) : ℕ → ZMod 2 := vectorOf (u.getD i 0)

/-- What the rows are made of. -/
def partsOf (b : ℕ) (linv : List Nat) (i : Fin b) : Fin b → ZMod 2 :=
  coefficients b (linv.getD i 0)

/-- The combination of basis elements with some coefficients. -/
noncomputable def combination (basis : List Gf2128) :
    (Fin basis.length → ZMod 2) →ₗ[ZMod 2] ℕ → ZMod 2 :=
  Fintype.linearCombination (ZMod 2) fun i => vectorOf (basis.get i)

/-! ### Cells of the rows -/

section Cells

variable {α : Type} {xs : List α} {d : α} {n : ℕ}

theorem getD_set {i : ℕ} (inside : i < xs.length) (a : α) (m : ℕ) :
    (xs.set i a).getD m d = if m = i then a else xs.getD m d := by
  rw [List.getD_eq_getElem?_getD, List.getD_eq_getElem?_getD]
  by_cases same : m = i
  · subst same
    rw [List.getElem?_set_self inside, if_pos rfl, Option.getD_some]
  · rw [List.getElem?_set_ne (Ne.symm same), if_neg same]

theorem length_swapRows (i k : ℕ) : (swapRows xs i k d).length = xs.length := by
  rw [swapRows, List.length_set, List.length_set]

theorem getD_swapRows {b : ℕ} (i k m : Fin b) (long : b ≤ xs.length) :
    (swapRows xs i k d).getD m d = xs.getD (Equiv.swap i k m) d := by
  have insideI : (i : ℕ) < xs.length := lt_of_lt_of_le i.2 long
  have insideK : (k : ℕ) < (xs.set i (xs.getD k d)).length := by
    rw [List.length_set]
    exact lt_of_lt_of_le k.2 long
  rw [swapRows, getD_set insideK, getD_set insideI, Equiv.swap_apply_def]
  by_cases first : m = i
  · subst first
    by_cases second : m = k
    · rw [if_pos (congrArg Fin.val second), if_pos rfl, second]
    · rw [if_neg fun same => second (Fin.ext same), if_pos rfl, if_pos rfl]
  · by_cases second : m = k
    · subst second
      rw [if_pos rfl, if_neg first, if_pos rfl]
    · rw [if_neg fun same => second (Fin.ext same), if_neg fun same => first (Fin.ext same),
        if_neg first, if_neg second]

theorem getD_alter {ys : List α} {f : α → α} {p : ℕ → Prop} [DecidablePred p]
    (before : ∀ i, ys.getD i d = if i < n ∧ p i then f (xs.getD i d) else xs.getD i d)
    (inside : n < ys.length) (i : ℕ) :
    (if p n then ys.set n (f (ys.getD n d)) else ys).getD i d =
      if i < n + 1 ∧ p i then f (xs.getD i d) else xs.getD i d := by
  have same : ys.getD n d = xs.getD n d := by rw [before, if_neg (by simp)]
  by_cases change : p n
  · rw [if_pos change, getD_set inside, before i, same]
    by_cases here : i = n
    · rw [if_pos here, here, if_pos ⟨by omega, change⟩]
    · rw [if_neg here]
      exact if_congr (and_congr_left' (by omega)) rfl rfl
  · rw [if_neg change, before i]
    refine if_congr (and_congr_left fun changed => ?_) rfl rfl
    have other : i ≠ n := fun here => change (here ▸ changed)
    omega

end Cells

/-- Whether the row `i` is changed when the row `rnk` is taken out of the rows with the bit `j`. -/
def changes (j rnk : ℕ) (u : List Gf2128) (i : ℕ) : Prop :=
  i ≠ rnk ∧ (u.getD i 0).getLsbD j

instance (j rnk : ℕ) (u : List Gf2128) (i : ℕ) : Decidable (changes j rnk u i) :=
  inferInstanceAs (Decidable (_ ∧ _))

/-- The rows after the row `rnk` was taken out of the first `n`. -/
theorem clearRows (j rnk : ℕ) (rnkU : Gf2128) (rnkLinv : ℕ) {u : List Gf2128} {linv : List ℕ}
    (long : n ≤ u.length) (long' : n ≤ linv.length) :
    let rows := (List.range n).foldl (clearRow j rnk rnkU rnkLinv) (u, linv)
    (rows.1.length = u.length ∧ rows.2.length = linv.length) ∧
      (∀ i, rows.1.getD i 0 =
        if i < n ∧ changes j rnk u i then u.getD i 0 ^^^ rnkU else u.getD i 0) ∧
      ∀ i, rows.2.getD i 0 =
        if i < n ∧ changes j rnk u i then linv.getD i 0 ^^^ rnkLinv else linv.getD i 0 := by
  induction n with
  | zero => simp
  | succ n ih =>
    obtain ⟨⟨sizeU, sizeL⟩, rowsU, rowsL⟩ := ih (by omega) (by omega)
    rw [List.range_succ, List.foldl_append]
    generalize (List.range n).foldl (clearRow j rnk rnkU rnkLinv) (u, linv) = rows at *
    have same : rows.1.getD n 0 = u.getD n 0 := by rw [rowsU, if_neg (by simp)]
    have step : clearRow j rnk rnkU rnkLinv rows n =
        (if changes j rnk u n then rows.1.set n (rows.1.getD n 0 ^^^ rnkU) else rows.1,
          if changes j rnk u n then rows.2.set n (rows.2.getD n 0 ^^^ rnkLinv) else rows.2) := by
      by_cases change : changes j rnk u n
      · rw [clearRow, same, if_pos change, if_pos change]
        exact if_pos change
      · rw [clearRow, same, if_neg change, if_neg change]
        exact if_neg change
    rw [List.foldl_cons, List.foldl_nil, step]
    refine ⟨⟨?_, ?_⟩, getD_alter (f := (· ^^^ rnkU)) rowsU (by omega),
      getD_alter (f := (· ^^^ rnkLinv)) rowsL (by omega)⟩
    · rw [apply_ite List.length, List.length_set, ite_self, sizeU]
    · rw [apply_ite List.length, List.length_set, ite_self, sizeL]

/-! ### What the reduction keeps -/

/-- The rows before bit `j`: they are combinations of the basis elements that are no combinations of
each other, the first ones have their bits alone, and the others have no bit below `j`. -/
structure RrefTracks (basis : List Gf2128) (j : ℕ) (s : Rref) : Prop where
  longU : basis.length ≤ s.u.length
  longLinv : basis.length ≤ s.linv.length
  longLdnz : basis.length ≤ s.ldnz.length
  bound : s.rnk ≤ basis.length
  made : ∀ i, rowsOf basis.length s.u i = combination basis (partsOf basis.length s.linv i)
  small : ∀ i : Fin basis.length, s.linv.getD i 0 < 2 ^ basis.length
  independent : LinearIndependent (ZMod 2) (partsOf basis.length s.linv)
  reduced : Reduced bitAt (rowsOf basis.length s.u) (fun i => s.ldnz.getD i 0) {i | i < s.rnk}
  low : ∀ i : Fin basis.length, s.rnk ≤ i → ∀ j' < j, (s.u.getD i 0).getLsbD j' = false

variable {basis : List Gf2128} {j : ℕ} {s : Rref}

theorem RrefTracks.swap (tracks : RrefTracks basis j s) (r i0 : Fin basis.length) (first : r = s.rnk)
    (later : s.rnk ≤ i0) :
    RrefTracks basis j ⟨swapRows s.u r i0 0, swapRows s.linv r i0 0, s.ldnz, s.rnk⟩ := by
  have rows : rowsOf basis.length (swapRows s.u r i0 0) =
      rowsOf basis.length s.u ∘ Equiv.swap r i0 := by
    funext i
    rw [rowsOf, getD_swapRows r i0 i tracks.longU, Function.comp_apply, rowsOf]
  have parts : partsOf basis.length (swapRows s.linv r i0 0) =
      partsOf basis.length s.linv ∘ Equiv.swap r i0 := by
    funext i
    rw [partsOf, getD_swapRows r i0 i tracks.longLinv, Function.comp_apply, partsOf]
  have fixed : ∀ i : Fin basis.length, (i : ℕ) < s.rnk → Equiv.swap r i0 i = i := by
    intro i before
    refine Equiv.swap_apply_of_ne_of_ne (fun same => ?_) (fun same => ?_) <;>
      · have := congrArg Fin.val same
        omega
  have moved : ∀ i : Fin basis.length, s.rnk ≤ i → s.rnk ≤ Equiv.swap r i0 i := by
    intro i after
    rw [Equiv.swap_apply_def]
    split_ifs <;> omega
  exact
    { longU := by rw [length_swapRows]; exact tracks.longU
      longLinv := by rw [length_swapRows]; exact tracks.longLinv
      longLdnz := tracks.longLdnz
      bound := tracks.bound
      made := fun i => by rw [rows, parts]; exact tracks.made _
      small := fun i => by rw [getD_swapRows r i0 i tracks.longLinv]; exact tracks.small _
      independent := parts ▸ tracks.independent.comp _ (Equiv.injective _)
      reduced := rows ▸ tracks.reduced.comp _ fixed
      low := fun i after j' below => by
        rw [getD_swapRows r i0 i tracks.longU]
        exact tracks.low _ (moved i after) j' below }

/-- The row `rnk`, which has the bit `j`, is taken out of the others. -/
theorem RrefTracks.clear (tracks : RrefTracks basis j s) (r : Fin basis.length) (first : r = s.rnk)
    (has : (s.u.getD r 0).getLsbD j = true) :
    let rows := (List.range basis.length).foldl
      (clearRow j s.rnk (s.u.getD s.rnk 0) (s.linv.getD s.rnk 0)) (s.u, s.linv)
    RrefTracks basis (j + 1) ⟨rows.1, rows.2, s.ldnz.set s.rnk j, s.rnk + 1⟩ := by
  obtain ⟨⟨sizeU, sizeL⟩, rowsU, rowsL⟩ := clearRows j s.rnk (s.u.getD s.rnk 0)
    (s.linv.getD s.rnk 0) tracks.longU tracks.longLinv
  intro rows
  have inside : s.rnk < basis.length := first ▸ r.2
  let c : Fin basis.length → ZMod 2 := fun i => if changes j s.rnk s.u i then 1 else 0
  have rowsEq : rowsOf basis.length rows.1 =
      rowsOf basis.length s.u + (c · • rowsOf basis.length s.u r) := by
    funext i
    rw [Pi.add_apply, rowsOf, rowsU i, rowsOf, rowsOf, first]
    by_cases change : changes j s.rnk s.u i
    · rw [if_pos ⟨i.2, change⟩, vectorOf_xor]
      simp [c, change]
    · rw [if_neg fun both => change both.2]
      simp [c, change]
  have partsEq : partsOf basis.length rows.2 =
      partsOf basis.length s.linv + (c · • partsOf basis.length s.linv r) := by
    funext i
    rw [Pi.add_apply, partsOf, rowsL i, partsOf, partsOf, first]
    by_cases change : changes j s.rnk s.u i
    · rw [if_pos ⟨i.2, change⟩, coefficients_xor]
      simp [c, change]
    · rw [if_neg fun both => change both.2]
      simp [c, change]
  have stays : c r = 0 := by
    have same : ¬ changes j s.rnk s.u r := fun change => change.1 first
    simp [c, same]
  have pivots : (s.ldnz.set s.rnk j).getD r 0 = j := by
    rw [getD_set (lt_of_lt_of_le inside tracks.longLdnz), if_pos first]
  have cancels : ∀ i ≠ r, bitAt j (rowsOf basis.length s.u i) + c i = 0 := by
    intro i other
    have apart : (i : ℕ) ≠ s.rnk := fun same => other (Fin.ext (same.trans first.symm))
    have bit : bitAt j (rowsOf basis.length s.u i) = bitVal ((s.u.getD i 0).getLsbD j) := rfl
    have flag : c i = bitVal ((s.u.getD i 0).getLsbD j) := by
      cases value : (s.u.getD i 0).getLsbD j
      · exact if_neg fun change => Bool.false_ne_true (value.symm.trans change.2)
      · exact if_pos ⟨apart, value⟩
    rw [bit, flag, CharTwo.add_self_eq_zero]
  have kept : ∀ i ∈ {i : Fin basis.length | (i : ℕ) < s.rnk},
      (s.ldnz.set s.rnk j).getD i 0 = s.ldnz.getD i 0 := by
    intro i (before : (i : ℕ) < s.rnk)
    rw [getD_set (lt_of_lt_of_le inside tracks.longLdnz), if_neg (by omega)]
  have one : bitAt j (rowsOf basis.length s.u r) = 1 := by
    rw [← bitVal_true, ← has]
    rfl
  have reduced := (tracks.reduced.congr kept).clear
    (fun member => absurd (show (r : ℕ) < s.rnk from member) (by omega)) one pivots stays cancels
  have done : insert r {i : Fin basis.length | (i : ℕ) < s.rnk} =
      {i : Fin basis.length | (i : ℕ) < s.rnk + 1} := by
    ext i
    simp only [Set.mem_insert_iff, Set.mem_ofPred_eq, Fin.ext_iff]
    omega
  exact
    { longU := by rw [sizeU]; exact tracks.longU
      longLinv := by rw [sizeL]; exact tracks.longLinv
      longLdnz := by rw [List.length_set]; exact tracks.longLdnz
      bound := inside
      made := fun i => by
        rw [rowsEq, partsEq, Pi.add_apply, Pi.add_apply, map_add, map_smul, tracks.made,
          tracks.made]
      small := fun i => by
        rw [rowsL]
        have smallR := tracks.small r
        rw [first] at smallR
        split_ifs
        · exact Nat.xor_lt_two_pow (tracks.small i) smallR
        · exact tracks.small i
      independent := partsEq ▸ (linearIndependent_add_smul_iff stays).mpr tracks.independent
      reduced := rowsEq ▸ done ▸ reduced
      low := fun i (after : s.rnk + 1 ≤ i) j' below => by
        have apart : (i : ℕ) ≠ s.rnk := by omega
        rw [rowsU]
        by_cases here : j' = j
        · subst here
          by_cases change : changes j' s.rnk s.u i
          · rw [if_pos ⟨i.2, change⟩, BitVec.getLsbD_xor, change.2, ← first, has, Bool.xor_self]
          · rw [if_neg fun both => change both.2]
            exact Bool.eq_false_iff.mpr fun bit => change ⟨apart, bit⟩
        · have oldR := tracks.low r first.ge j' (by omega)
          have oldI := tracks.low i (by omega) j' (by omega)
          rw [first] at oldR
          split_ifs
          · rw [BitVec.getLsbD_xor, oldI, oldR, Bool.xor_self]
          · exact oldI }

/-- **One bit**. -/
theorem RrefTracks.step (tracks : RrefTracks basis j s) :
    RrefTracks basis (j + 1) (rrefStep basis.length s j) := by
  rw [rrefStep]
  cases found : (List.range' s.rnk (basis.length - s.rnk)).find?
      fun i0 => (s.u.getD i0 0).getLsbD j with
  | none =>
    refine { tracks with low := fun i (after : s.rnk ≤ i) j' below => ?_ }
    by_cases here : j' = j
    · have listed : (i : ℕ) ∈ List.range' s.rnk (basis.length - s.rnk) := by
        rw [List.mem_range'_1]
        omega
      rw [here]
      exact Bool.eq_false_iff.mpr (List.find?_eq_none.mp found i listed)
    · exact tracks.low i after j' (by omega)
  | some i0 =>
    have listed := List.mem_range'_1.mp (List.mem_of_find?_eq_some found)
    have inside : s.rnk < basis.length := by omega
    have swapped := tracks.swap ⟨s.rnk, inside⟩ ⟨i0, by omega⟩ rfl listed.1
    refine swapped.clear ⟨s.rnk, inside⟩ rfl ?_
    rw [getD_swapRows ⟨s.rnk, inside⟩ ⟨i0, by omega⟩ ⟨s.rnk, inside⟩ tracks.longU,
      Equiv.swap_apply_left]
    exact (List.find?_some found :)

theorem tracks_start (small : basis.length ≤ 16) :
    RrefTracks basis 0 (rrefStart basis basis.length) := by
  have row : ∀ i : Fin basis.length,
      (basis ++ List.replicate (16 - basis.length) 0).getD i 0 = basis.get i := fun i => by
    rw [List.getD_append _ _ _ _ i.2, List.getD_eq_getElem _ _ i.2, List.get_eq_getElem]
  have part : ∀ i : Fin basis.length,
      ((List.range basis.length).map (2 ^ ·) ++ List.replicate (16 - basis.length) 0).getD i 0 =
        2 ^ (i : ℕ) := fun i => by
    rw [List.getD_append _ _ _ _ (by simp), List.getD_eq_getElem _ _ (by simp)]
    simp
  have unit : partsOf basis.length (rrefStart basis basis.length).linv =
      fun i => Pi.single i 1 := by
    funext i m
    rw [partsOf, rrefStart, part, coefficients, Nat.testBit_two_pow, Pi.single_apply]
    by_cases same : m = i
    · simp [same]
    · have apart : (i : ℕ) ≠ m := fun equal => same (Fin.ext equal.symm)
      simp [same, apart]
  exact
    { longU := by simp [rrefStart]
      longLinv := by simp [rrefStart]
      longLdnz := by simp [rrefStart, small]
      bound := Nat.zero_le _
      made := fun i => by
        rw [unit, rowsOf, rrefStart, row, combination, Fintype.linearCombination_apply_single, one_smul]
      small := fun i => by
        rw [rrefStart, part]
        exact Nat.pow_lt_pow_right (by decide) i.2
      independent := by
        rw [unit]
        exact Pi.linearIndependent_single_one (Fin basis.length) (ZMod 2)
      reduced := by
        have none : {i : Fin basis.length | (i : ℕ) < (rrefStart basis basis.length).rnk} = ∅ :=
          Set.eq_empty_of_forall_notMem fun _ before => Nat.not_lt_zero _ before
        rw [none]
        exact reduced_empty
      low := fun _ _ j' below => absurd below (Nat.not_lt_zero _) }

theorem tracks_rows (small : basis.length ≤ 16) (n : ℕ) :
    RrefTracks basis n ((List.range n).foldl (rrefStep basis.length)
      (rrefStart basis basis.length)) := by
  induction n with
  | zero => exact tracks_start small
  | succ n ih =>
    rw [List.range_succ, List.foldl_append]
    exact ih.step

/-- The elements of a basis are no combinations of each other. -/
def FullRank (basis : List Gf2128) : Prop :=
  LinearIndependent (ZMod 2) fun i => vectorOf (basis.get i)

theorem combination_injective (fullRank : FullRank basis) : Function.Injective (combination basis) :=
  linearIndependent_iff_injective_fintypeLinearCombination.mp fullRank

/-- **A basis of full rank is reduced.** -/
theorem rref_returns (small : basis.length ≤ 16) (fullRank : FullRank basis) :
    ∃ s : Rref, rref basis basis.length = (.ok (s.u, s.linv, s.ldnz) : Exec ε _) ∧
      RrefTracks basis 128 s ∧ s.rnk = basis.length := by
  have tracks := tracks_rows small 128
  rw [rref]
  generalize (List.range 128).foldl (rrefStep basis.length) (rrefStart basis basis.length) = s
    at tracks
  have all : s.rnk = basis.length := by
    by_contra missing
    have inside : s.rnk < basis.length := lt_of_le_of_ne tracks.bound missing
    let i : Fin basis.length := ⟨s.rnk, inside⟩
    -- the row has no bit, but it is a combination
    have empty : rowsOf basis.length s.u i = 0 := by
      funext j
      by_cases below : j < 128
      · rw [rowsOf, vectorOf, tracks.low i le_rfl j below]
        rfl
      · rw [rowsOf, vectorOf, BitVec.getLsbD_of_ge _ _ (by omega)]
        rfl
    have parts : partsOf basis.length s.linv i = 0 := by
      refine combination_injective fullRank ?_
      rw [← tracks.made, empty, map_zero]
    exact tracks.independent.ne_zero i parts
  exact ⟨s, by rw [ensure_of all, ok_bind, pure_eq_ok], tracks, all⟩

/-! ### What a subfield holds -/

/-- The reduced basis of a subfield. -/
structure BinarySubfield.Holds (basis : List Gf2128) (f : BinarySubfield) : Prop where
  elements : f.basis = basis ++ List.replicate (16 - basis.length) 0
  len : f.len = basis.length
  size : f.serializedSizeBytes = basis.length / 8
  made : ∀ i, rowsOf basis.length f.u i = combination basis (partsOf basis.length f.linv i)
  small : ∀ i : Fin basis.length, f.linv.getD i 0 < 2 ^ basis.length
  reduced : Reduced bitAt (rowsOf basis.length f.u) (fun i => f.ldnz.getD i 0) Set.univ

namespace BinarySubfield

theorem new_returns (width : basis.length ≤ 16) (aligned : basis.length % 8 = 0)
    (fullRank : FullRank basis) :
    ∃ f, new basis = (.ok f : Exec ε _) ∧ Holds basis f := by
  obtain ⟨s, ran, tracks, all⟩ := rref_returns (ε := ε) width fullRank
  have done : {i : Fin basis.length | (i : ℕ) < s.rnk} = Set.univ :=
    Set.eq_univ_of_forall fun i => lt_of_lt_of_eq i.2 all.symm
  refine ⟨_, by rw [new, ensure_of width, ok_bind, ensure_of aligned, ok_bind, ran]; rfl, ?_⟩
  exact ⟨rfl, rfl, rfl, tracks.made, tracks.small, done ▸ tracks.reduced⟩

variable {f : BinarySubfield}

/-- The basis elements of the first `n` bits. -/
theorem embedSteps (bs : List Gf2128) (u n : ℕ) :
    let s := (List.range n).foldl (embedStep bs) (0, u)
    vectorOf s.1 = ∑ i ∈ Finset.range n, bitVal (u.testBit i) • vectorOf (bs.getD i 0) ∧
      s.2 = u / 2 ^ n := by
  induction n with
  | zero => exact ⟨vectorOf_zero, (Nat.div_one u).symm⟩
  | succ n ih =>
    obtain ⟨sum, rest⟩ := ih
    rw [List.range_succ, List.foldl_append]
    generalize (List.range n).foldl (embedStep bs) (0, u) = s at *
    have bit : s.2 % 2 ≠ 0 ↔ u.testBit n = true := by
      rw [rest, Nat.testBit_eq_decide_div_mod_eq, decide_eq_true_iff]
      omega
    rw [List.foldl_cons, List.foldl_nil, embedStep, Finset.sum_range_succ, ← sum, pow_succ,
      ← Nat.div_div_eq_div_mul, ← rest]
    refine ⟨?_, rfl⟩
    by_cases set : u.testBit n = true
    · rw [if_pos (bit.mpr set), set, bitVal_true, one_smul, vectorOf_xor]
    · rw [if_neg (mt bit.mp set), Bool.eq_false_iff.mpr set, bitVal_false, zero_smul, add_zero]

/-- **The element of a number** is the combination of basis elements with its bits. -/
theorem Holds.embed (holds : Holds basis f) {u : ℕ} (small : u < 2 ^ basis.length) :
    ∃ e, f.embed u = (.ok e : Exec ε _) ∧
      vectorOf e = combination basis (coefficients basis.length u) := by
  obtain ⟨sum, rest⟩ := embedSteps f.basis u f.len
  have fits : ((List.range f.len).foldl (embedStep f.basis) (0, u)).2 = 0 := by
    rw [rest, holds.len, Nat.div_eq_of_lt small]
  refine ⟨_, by rw [BinarySubfield.embed, ensure_of fits, ok_bind, pure_eq_ok], ?_⟩
  rw [sum, holds.len, holds.elements, Finset.sum_range, combination,
    Fintype.linearCombination_apply]
  refine Finset.sum_congr rfl fun i _ => ?_
  rw [List.getD_append _ _ _ _ i.2, List.getD_eq_getElem _ _ i.2]
  rfl

/-- Which rows an element is made of, by its bits. -/
def picked (f : BinarySubfield) (e : Gf2128) (i : ℕ) : ZMod 2 := vectorOf e (f.ldnz.getD i 0)

/-- The rows that were taken out of an element before row `n`. -/
theorem Holds.solveSteps (holds : Holds basis f) (e : Gf2128) (inside : n ≤ basis.length) :
    let s := (List.range n).foldl f.solveStep (e, 0)
    vectorOf s.1 = vectorOf e + ∑ i ∈ Finset.range n, f.picked e i • vectorOf (f.u.getD i 0) ∧
      coefficients basis.length s.2 =
        ∑ i ∈ Finset.range n, f.picked e i • coefficients basis.length (f.linv.getD i 0) ∧
      s.2 < 2 ^ basis.length := by
  induction n with
  | zero => simp
  | succ n ih =>
    obtain ⟨left, made, small⟩ := ih (by omega)
    rw [List.range_succ, List.foldl_append]
    generalize (List.range n).foldl f.solveStep (e, 0) = s at *
    -- the rows before have no bit here
    have bit : bitVal (s.1.getLsbD (f.ldnz.getD n 0)) = f.picked e n := by
      have value : bitVal (s.1.getLsbD (f.ldnz.getD n 0)) = vectorOf s.1 (f.ldnz.getD n 0) := rfl
      rw [value, left, Pi.add_apply, Finset.sum_apply, Finset.sum_eq_zero, add_zero, picked]
      intro i before
      have below := Finset.mem_range.mp before
      have apart : (⟨i, by omega⟩ : Fin basis.length) ≠ ⟨n, inside⟩ := fun same =>
        absurd (congrArg Fin.val same) (by simp only; omega)
      have zero := holds.reduced.others ⟨n, inside⟩ (Set.mem_univ _) _ apart
      rw [Pi.smul_apply]
      exact (congrArg _ zero).trans (smul_zero _)
    rw [List.foldl_cons, List.foldl_nil, Finset.sum_range_succ, Finset.sum_range_succ, ← bit,
      solveStep]
    cases s.1.getLsbD (f.ldnz.getD n 0) with
    | true =>
      rw [if_pos rfl, bitVal_true, one_smul, one_smul]
      refine ⟨?_, ?_, Nat.xor_lt_two_pow small (holds.small ⟨n, inside⟩)⟩
      · rw [vectorOf_xor, left, add_assoc]
      · rw [coefficients_xor, made]
    | false =>
      rw [if_neg Bool.false_ne_true, bitVal_false, zero_smul, zero_smul, add_zero, add_zero]
      exact ⟨left, made, small⟩

/-- The span of a basis. -/
def spanOf (basis : List Gf2128) : Submodule (ZMod 2) (ℕ → ZMod 2) :=
  Submodule.span (ZMod 2) (Set.range fun i => vectorOf (basis.get i))

theorem combination_mem (c : Fin basis.length → ZMod 2) : combination basis c ∈ spanOf basis :=
  (Submodule.mem_span_range_iff_exists_fun (ZMod 2)).mpr ⟨c, rfl⟩

theorem Holds.span_rows (holds : Holds basis f) :
    Submodule.span (ZMod 2) (Set.range (rowsOf basis.length f.u)) = spanOf basis := by
  refine holds.reduced.span_eq fun i => ?_
  rw [holds.made i]
  exact combination_mem _

/-- **What the reduced basis finds out about an element**: nothing is left of it if and only if it is
in the span, and then it is the combination with the number that was found. -/
theorem Holds.solve (holds : Holds basis f) (e : Gf2128) :
    ((f.solve e).1 = 0 ↔ vectorOf e ∈ spanOf basis) ∧
      ((f.solve e).1 = 0 →
        combination basis (coefficients basis.length (f.solve e).2) = vectorOf e) ∧
      (f.solve e).2 < 2 ^ basis.length := by
  obtain ⟨left, made, small⟩ := holds.solveSteps e le_rfl
  have same : (List.range basis.length).foldl f.solveStep (e, 0) = f.solve e := by
    rw [BinarySubfield.solve, holds.len]
  rw [same] at left made small
  have rows : ∑ i ∈ Finset.range basis.length, f.picked e i • vectorOf (f.u.getD i 0) =
      ∑ i : Fin basis.length, bitAt (f.ldnz.getD i 0) (vectorOf e) • rowsOf basis.length f.u i := by
    rw [Finset.sum_range]
    rfl
  have nothing : (f.solve e).1 = 0 ↔
      ∑ i : Fin basis.length, bitAt (f.ldnz.getD i 0) (vectorOf e) • rowsOf basis.length f.u i =
        vectorOf e := by
    rw [← rows, ← vectorOf_injective.eq_iff, left, vectorOf_zero, add_eq_zero_iff_eq_neg,
      ZModModule.neg_eq_self, eq_comm]
  have combined : combination basis (coefficients basis.length (f.solve e).2) =
      ∑ i : Fin basis.length, bitAt (f.ldnz.getD i 0) (vectorOf e) • rowsOf basis.length f.u i := by
    rw [made, Finset.sum_range, map_sum]
    refine Finset.sum_congr rfl fun i _ => ?_
    rw [map_smul, holds.made i]
    rfl
  refine ⟨?_, fun zero => combined.trans (nothing.mp zero), small⟩
  rw [nothing, ← holds.reduced.mem_span_iff, holds.span_rows]

theorem Holds.contains_iff (holds : Holds basis f) (e : Gf2128) :
    f.contains e = true ↔ vectorOf e ∈ spanOf basis := by
  rw [contains, decide_eq_true_iff]
  exact (holds.solve e).1

variable {e : Gf2128}

/-- **The number of an element** of the span. -/
theorem Holds.project (holds : Holds basis f) (member : f.contains e = true) :
    ∃ u, f.project e = .ok u ∧ u < 2 ^ basis.length ∧
      combination basis (coefficients basis.length u) = vectorOf e := by
  have zero : (f.solve e).1 = 0 := of_decide_eq_true member
  obtain ⟨-, combined, small⟩ := holds.solve e
  exact ⟨_, by rw [BinarySubfield.project, if_pos zero, pure_eq_ok], small, combined zero⟩

theorem Holds.embed_project (holds : Holds basis f) (member : f.contains e = true) :
    ∃ u, f.project e = .ok u ∧ u < 2 ^ basis.length ∧ f.embed u = (.ok e : Exec ε _) := by
  obtain ⟨u, ran, small, combined⟩ := holds.project member
  obtain ⟨e', ran', value⟩ := holds.embed (ε := ε) small
  rw [vectorOf_injective (value.trans combined)] at ran'
  exact ⟨u, ran, small, ran'⟩

theorem Holds.project_embed (holds : Holds basis f) (fullRank : FullRank basis) {u : ℕ}
    (small : u < 2 ^ basis.length) :
    ∃ e, f.embed u = (.ok e : Exec ε _) ∧ f.contains e = true ∧ f.project e = .ok u := by
  obtain ⟨e, ran, value⟩ := holds.embed (ε := ε) small
  have member : f.contains e = true := (holds.contains_iff e).mpr (value ▸ combination_mem _)
  obtain ⟨u', ran', small', combined⟩ := holds.project member
  have same := combination_injective fullRank (combined.trans value)
  rw [coefficients_injOn small' small same] at ran'
  exact ⟨e, ran, member, ran'⟩

/-! ### Bytes -/

theorem take_leBytes {width : ℕ} (short : n ≤ width) (u : ℕ) :
    (leBytes width u).take n = leBytes n u := by
  induction n generalizing width u with
  | zero => rw [List.take_zero, leBytes]
  | succ n ih =>
    obtain ⟨width, rfl⟩ : ∃ w, width = w + 1 := ⟨width - 1, by omega⟩
    rw [leBytes, leBytes, List.take_succ_cons, ih (by omega)]

theorem leValue_replicate_zero (n : ℕ) : leValue (List.replicate n 0) = 0 := by
  induction n with
  | zero => rfl
  | succ n ih =>
    rw [List.replicate_succ, leValue, ih]
    rfl

theorem leValue_padded (bytes : Bytes) (n : ℕ) :
    leValue (bytes ++ List.replicate n 0) = leValue bytes := by
  rw [leValue_append, leValue_replicate_zero, Nat.mul_zero, Nat.add_zero]

variable (aligned : basis.length % 8 = 0) (short : basis.length ≤ 16)

include aligned in
theorem Holds.numbers (holds : Holds basis f) :
    256 ^ f.serializedSizeBytes = 2 ^ basis.length := by
  have eight : (256 : ℕ) = 2 ^ 8 := rfl
  rw [holds.size, eight, ← pow_mul]
  congr 1
  omega

include short in
theorem Holds.toBytes_eq (holds : Holds basis f) {u : ℕ} (ran : f.project e = .ok u) :
    f.toBytes e = .ok (leBytes f.serializedSizeBytes u) := by
  have size : f.serializedSizeBytes ≤ 8 := by
    rw [holds.size]
    omega
  rw [BinarySubfield.toBytes, ran, mapErr_ok, ok_bind, take_leBytes size, pure_eq_ok]

theorem bytesToElement_eq {bytes : Bytes} (size : bytes.length = f.serializedSizeBytes) :
    f.bytesToElement bytes = f.embed (leValue bytes) := by
  rw [BinarySubfield.bytesToElement, check_of size, ok_bind, leValue_padded]

include aligned short in
/-- **The bytes of an element** of the span are read back as it. -/
theorem Holds.bytes_element (holds : Holds basis f) (member : f.contains e = true) :
    ∃ bytes, f.toBytes e = .ok bytes ∧ bytes.length = f.serializedSizeBytes ∧
      f.bytesToElement bytes = .ok e := by
  obtain ⟨u, ran, small, back⟩ := holds.embed_project (ε := String) member
  refine ⟨_, holds.toBytes_eq short ran, length_leBytes _ _, ?_⟩
  rw [bytesToElement_eq (length_leBytes _ _),
    leValue_leBytes (by rw [holds.numbers aligned]; exact small), back]

include aligned short in
/-- **Bytes of the right length** are those of an element of the span. -/
theorem Holds.element_bytes (holds : Holds basis f) (fullRank : FullRank basis) {bytes : Bytes}
    (size : bytes.length = f.serializedSizeBytes) :
    ∃ e, f.bytesToElement bytes = .ok e ∧ f.contains e = true ∧ f.toBytes e = .ok bytes := by
  have small : leValue bytes < 2 ^ basis.length := by
    rw [← holds.numbers aligned, ← size]
    exact leValue_lt bytes
  obtain ⟨e, ran, member, back⟩ := holds.project_embed (ε := String) fullRank small
  refine ⟨e, by rw [bytesToElement_eq size, ran], member, ?_⟩
  rw [holds.toBytes_eq short back, ← size, leBytes_leValue]

end BinarySubfield

/-- **The numbers and the elements of a subfield correspond**, `contains` is the span of the basis,
and bytes and elements correspond. -/
theorem subfield_exact (basis : List Gf2128) (width : basis.length = 8 ∨ basis.length = 16)
    (fullRank : FullRank basis) :
    ∃ f : BinarySubfield, BinarySubfield.new basis = (.ok f : Exec ε _) ∧
      (∀ x < 2 ^ basis.length, ∃ e, f.embed x = (.ok e : Exec ε _) ∧ f.project e = .ok x) ∧
      (∀ y, f.contains y = true →
        ∃ x < 2 ^ basis.length, f.project y = .ok x ∧ f.embed x = (.ok y : Exec ε _)) ∧
      (∀ y, f.contains y = true ↔
        vectorOf y ∈ Submodule.span (ZMod 2) (Set.range fun i => vectorOf (basis.get i))) ∧
      (∀ y, f.contains y = true → ∃ bytes, f.toBytes y = .ok bytes ∧
        bytes.length = f.serializedSizeBytes ∧ f.bytesToElement bytes = .ok y) ∧
      ∀ bytes : Bytes, bytes.length = f.serializedSizeBytes →
        ∃ y, f.bytesToElement bytes = .ok y ∧ f.contains y = true ∧ f.toBytes y = .ok bytes := by
  have aligned : basis.length % 8 = 0 := by omega
  have short : basis.length ≤ 16 := by omega
  obtain ⟨f, ran, holds⟩ := BinarySubfield.new_returns (ε := ε) short aligned fullRank
  refine ⟨f, ran, fun x small => ?_, fun y member => ?_, holds.contains_iff,
    fun y member => holds.bytes_element aligned short member,
    fun bytes size => holds.element_bytes aligned short fullRank size⟩
  · obtain ⟨e, embedded, -, projected⟩ := holds.project_embed (ε := ε) fullRank small
    exact ⟨e, embedded, projected⟩
  · obtain ⟨x, projected, small, embedded⟩ := holds.embed_project (ε := ε) member
    exact ⟨x, small, projected, embedded⟩

/-- The first eight powers of the variable. -/
def monomialBasis : List Gf2128 := [1, 2, 4, 8, 16, 32, 64, 128]

theorem fullRank_monomials : FullRank monomialBasis := by
  have bits : ∀ i i' : Fin monomialBasis.length,
      (monomialBasis.get i').getLsbD i = decide (i' = i) := by decide
  have reduced : Reduced bitAt (fun i => vectorOf (monomialBasis.get i)) (fun i => (i : ℕ))
      Set.univ := by
    refine ⟨fun i _ => ?_, fun i _ i' other => ?_⟩
    · exact congrArg bitVal ((bits i i).trans (decide_eq_true rfl))
    · exact congrArg bitVal ((bits i i').trans (decide_eq_false other))
  exact reduced.linearIndependent

/-- The correspondence for the elements of one byte. -/
theorem subfield_exact_monomials :
    ∃ f : BinarySubfield, BinarySubfield.new monomialBasis = (.ok f : Exec String _) ∧
      (∀ x < 2 ^ 8, ∃ e, f.embed x = (.ok e : Exec String _) ∧ f.project e = .ok x) ∧
      (∀ y, f.contains y = true →
        ∃ x < 2 ^ 8, f.project y = .ok x ∧ f.embed x = (.ok y : Exec String _)) ∧
      (∀ y, f.contains y = true ↔
        vectorOf y ∈ Submodule.span (ZMod 2) (Set.range fun i => vectorOf (monomialBasis.get i))) ∧
      (∀ y, f.contains y = true → ∃ bytes, f.toBytes y = .ok bytes ∧
        bytes.length = f.serializedSizeBytes ∧ f.bytesToElement bytes = .ok y) ∧
      ∀ bytes : Bytes, bytes.length = f.serializedSizeBytes →
        ∃ y, f.bytesToElement bytes = .ok y ∧ f.contains y = true ∧ f.toBytes y = .ok bytes :=
  subfield_exact monomialBasis (Or.inl rfl) fullRank_monomials

end Longfellow
