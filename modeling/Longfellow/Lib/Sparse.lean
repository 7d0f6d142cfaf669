/-
**Sparse affine systems.**

A system of affine equations `A x + b` as a list of entries, each with its row, its column and its
coefficient; entries of one place add up. `rowValue` is the value of a row, and the rules say how it
follows the way such a system is written, one row after the other:

* `RowIs.append`, `RowIs.systemIs`, `SystemIs.append` — **entries added to a row, and rows written one
  after the other**.
-/

import Longfellow.Lib.Affine
import Mathlib.Data.List.GetD

namespace Lib

variable {P R ε : Type}

/-- An entry of the matrix: row `c`, column `w`, coefficient `k`. -/
structure SparseTerm (R : Type) where
  c : Nat
  w : Nat
  k : R
  deriving DecidableEq, Repr

variable [CommRing R]

/-- The sum of the products of entries with their columns. -/
def entriesValue (x : List R) (entries : List (SparseTerm R)) : R :=
  (entries.map fun entry => entry.k * x.getD entry.w 0).sum

/-- The value of row `c` of the matrix. -/
def rowValue (a : List (SparseTerm R)) (x : List R) (c : Nat) : R :=
  entriesValue x (a.filter fun entry => entry.c = c)

theorem entriesValue_append (x : List R) (first second : List (SparseTerm R)) :
    entriesValue x (first ++ second) = entriesValue x first + entriesValue x second := by
  rw [entriesValue, List.map_append, List.sum_append]
  rfl

theorem rowValue_append (a a' : List (SparseTerm R)) (x : List R) (c : Nat) :
    rowValue (a ++ a') x c = rowValue a x c + rowValue a' x c := by
  rw [rowValue, List.filter_append, entriesValue_append]
  rfl

variable {a : List (SparseTerm R)} {c : Nat}

theorem rowValue_of_row (x : List R) (row : ∀ entry ∈ a, entry.c = c) :
    rowValue a x c = entriesValue x a := by
  rw [rowValue, List.filter_eq_self.mpr fun entry member => decide_eq_true (row entry member)]

theorem rowValue_of_other (x : List R) (row : ∀ entry ∈ a, entry.c ≠ c) : rowValue a x c = 0 := by
  have none : (a.filter fun entry => entry.c = c) = [] :=
    List.filter_eq_nil_iff.mpr fun entry member => by simpa using row entry member
  rw [rowValue, none, entriesValue, List.map_nil, List.sum_nil]

/-- The entries stand in the rows from `low` up to `high`. -/
def InRows (low high : Nat) (a : List (SparseTerm R)) : Prop :=
  ∀ entry ∈ a, low ≤ entry.c ∧ entry.c < high

/-- The values `A x + b` of the rows from `c` on. -/
def systemFrom (a : List (SparseTerm R)) (b x : List R) (c : Nat) : List R :=
  (b.zipIdx c).map fun (constant, row) => rowValue a x row + constant

/-- The values `A x + b`. -/
def systemValue (a : List (SparseTerm R)) (b x : List R) : List R := systemFrom a b x 0

variable {a' : List (SparseTerm R)}

theorem systemFrom_append {b b' : List R} (x : List R) {high : Nat}
    (first : InRows c (c + b.length) a) (second : InRows (c + b.length) high a') :
    systemFrom (a ++ a') (b ++ b') x c =
      systemFrom a b x c ++ systemFrom a' b' x (c + b.length) := by
  rw [systemFrom, List.zipIdx_append, List.map_append]
  congr 1
  · refine List.map_congr_left fun (constant, row) member => ?_
    obtain ⟨_, below, _⟩ := List.mem_zipIdx member
    have none : rowValue a' x row = 0 :=
      rowValue_of_other x fun entry isEntry => by have := second entry isEntry; omega
    simp only [rowValue_append, none, add_zero]
  · refine List.map_congr_left fun (constant, row) member => ?_
    obtain ⟨above, _, _⟩ := List.mem_zipIdx member
    have none : rowValue a x row = 0 :=
      rowValue_of_other x fun entry isEntry => by have := first entry isEntry; omega
    simp only [rowValue_append, none, zero_add]

theorem systemFrom_singleton (constant : R) (x : List R) (row : ∀ entry ∈ a, entry.c = c) :
    systemFrom a [constant] x c = [entriesValue x a + constant] := by
  rw [systemFrom, List.zipIdx_singleton, List.map_singleton, ← rowValue_of_row x row]

/-- Entries of row `c` that, with a constant, have a value. -/
structure RowIs (entries : List (SparseTerm R)) (constant : R) (x : List R) (c : Nat) (value : R) :
    Prop where
  inside : ∀ entry ∈ entries, entry.c = c ∧ entry.w < x.length
  value_eq : entriesValue x entries + constant = value

/-- Entries of the rows from `c` on that, with the constants, have the values. -/
structure SystemIs (a : List (SparseTerm R)) (b x : List R) (c : Nat) (values : List R) : Prop where
  size : b.length = values.length
  columns : ∀ entry ∈ a, entry.w < x.length
  rows : InRows c (c + b.length) a
  system : systemFrom a b x c = values

theorem systemIs_nil (x : List R) (c : Nat) : SystemIs [] [] x c [] :=
  ⟨rfl, by simp, fun _ member => by simp at member, rfl⟩

variable {x : List R}

variable {entries : List (SparseTerm R)} {value : R}

theorem RowIs.append {entries' : List (SparseTerm R)} {constant constant' value' : R}
    (first : RowIs entries constant x c value) (second : RowIs entries' constant' x c value') :
    RowIs (entries ++ entries') (constant + constant') x c (value + value') := by
  refine ⟨fun entry member => ?_, ?_⟩
  · rcases List.mem_append.mp member with old | new
    · exact first.inside entry old
    · exact second.inside entry new
  · rw [entriesValue_append, ← first.value_eq, ← second.value_eq]
    ring

theorem rowIs_singleton {w : Nat} {v : R} (content : x[w]? = some v) (c : Nat) (k : R) :
    RowIs [⟨c, w, k⟩] 0 x c (k * v) := by
  obtain ⟨bound, _⟩ := List.getElem?_eq_some_iff.mp content
  refine ⟨fun entry member => ?_, ?_⟩
  · obtain rfl := List.mem_singleton.mp member
    exact ⟨rfl, bound⟩
  · simp [entriesValue, content]

theorem RowIs.systemIs {constant : R} (row : RowIs entries constant x c value) :
    SystemIs entries [constant] x c [value] := by
  refine ⟨rfl, fun entry member => (row.inside entry member).2, fun entry member => ?_, ?_⟩
  · have := (row.inside entry member).1
    rw [List.length_singleton]
    omega
  · rw [systemFrom_singleton constant x fun entry member => (row.inside entry member).1,
      row.value_eq]

/-- **Rows written after other rows.** -/
theorem SystemIs.append {b b' values values' : List R} {c' : Nat} (first : SystemIs a b x c values)
    (second : SystemIs a' b' x c' values') (next : c' = c + b.length) :
    SystemIs (a ++ a') (b ++ b') x c (values ++ values') := by
  subst next
  refine ⟨?_, fun entry member => ?_, fun entry member => ?_, ?_⟩
  · rw [List.length_append, List.length_append, first.size, second.size]
  · rcases List.mem_append.mp member with old | new
    · exact first.columns entry old
    · exact second.columns entry new
  · rw [List.length_append]
    rcases List.mem_append.mp member with old | new
    · have := first.rows entry old
      omega
    · have := second.rows entry new
      omega
  · rw [systemFrom_append x first.rows second.rows, first.system, second.system]

theorem entriesValue_dense (g : R → R) (ks : List R) (c start : Nat)
    (bound : start + ks.length ≤ x.length) :
    entriesValue x ((ks.zipIdx start).map fun (k, w) => ⟨c, w, g k⟩) =
      dot (ks.map g) (x.drop start) := by
  induction ks generalizing start with
  | nil => simp [entriesValue]
  | cons k ks ih =>
    rw [List.length_cons] at bound
    have here : start < x.length := by omega
    rw [List.zipIdx_cons, List.map_cons, List.map_cons, entriesValue, List.map_cons,
      List.sum_cons, ← List.cons_getElem_drop_succ (h := here), dot_cons,
      List.getD_eq_getElem _ _ here]
    congr 1
    exact ih (start + 1) (by omega)

/-- Coefficients in the columns `0, 1, …`. -/
theorem rowIs_dense (g : R → R) {ks : List R} (c : Nat) (known : R) (bound : ks.length ≤ x.length) :
    RowIs (ks.zipIdx.map fun (k, w) => ⟨c, w, g k⟩) known x c (dot (ks.map g) x + known) := by
  refine ⟨fun entry member => ?_, ?_⟩
  · obtain ⟨⟨k, w⟩, isEntry, rfl⟩ := List.mem_map.mp member
    obtain ⟨_, below, _⟩ := List.mem_zipIdx isEntry
    exact ⟨rfl, by simp only; omega⟩
  · rw [entriesValue_dense g ks c 0 (by omega), List.drop_zero]

/-- Write a term to row `c`, the unknown in its column. -/
def placeTerm (missing : ε) (position : P → Option Nat) (c : Nat) (term : P × R) :
    Exec ε (SparseTerm R) :=
  match position term.1 with
  | some w => pure ⟨c, w, term.2⟩
  | none => raise missing

/-- Write the terms of an affine expression to row `c`. -/
def place (missing : ε) (position : P → Option Nat) (c : Nat) (expr : Affine P R) :
    Exec ε (List (SparseTerm R)) := expr.terms.mapM (placeTerm missing position c)

/-- **An affine expression written as a row** has the value it denotes. -/
theorem place_of_denotes {missing : ε} {position : P → Option Nat} {assignment : P → Option R}
    {expr : Affine P R} (c : Nat)
    (agrees : ∀ {p v}, assignment p = some v → ∃ w, position p = some w ∧ x[w]? = some v)
    (denotes : expr.Denotes assignment value) :
    ∃ entries, place missing position c expr = .ok entries ∧
      RowIs entries expr.constant x c value := by
  obtain ⟨ps, found, rfl⟩ := denotes.resolves
  obtain ⟨constant, terms⟩ := expr
  suffices placed : ∃ entries, terms.mapM (placeTerm missing position c) = .ok entries ∧
      (∀ entry ∈ entries, entry.c = c ∧ entry.w < x.length) ∧
      entriesValue x entries = dot (terms.map Prod.snd) ps by
    obtain ⟨entries, ran, inside, same⟩ := placed
    exact ⟨entries, ran, inside, by rw [same, add_comm]⟩
  clear denotes
  simp only at found
  induction found with
  | nil => exact ⟨[], rfl, by simp, by simp [entriesValue]⟩
  | @cons term p terms ps here _ ih =>
    obtain ⟨entries, ran, inside, same⟩ := ih
    obtain ⟨w, located, content⟩ := agrees here
    obtain ⟨bound, _⟩ := List.getElem?_eq_some_iff.mp content
    refine ⟨⟨c, w, term.2⟩ :: entries, ?_, ?_, ?_⟩
    · have first : placeTerm missing position c term = .ok ⟨c, w, term.2⟩ := by
        rw [placeTerm, located]
        rfl
      rw [List.mapM_cons, first, ok_bind, ran, ok_bind, pure_eq_ok]
    · exact List.forall_mem_cons.mpr ⟨⟨rfl, bound⟩, inside⟩
    · rw [List.map_cons, dot_cons, ← same, entriesValue, List.map_cons, List.sum_cons,
        List.getD_eq_getElem?_getD, content, Option.getD_some]
      rfl

/-! ### Weighted sums of rows -/

/-- The entries, each with the weight of its row. -/
def weightedValue (alpha x : List R) (a : List (SparseTerm R)) : R :=
  (a.map fun entry => entry.k * alpha.getD entry.c 0 * x.getD entry.w 0).sum

theorem rowValue_cons (entry : SparseTerm R) (a : List (SparseTerm R)) (x : List R) (c : Nat) :
    rowValue (entry :: a) x c =
      (if entry.c = c then entry.k * x.getD entry.w 0 else 0) + rowValue a x c := by
  rw [rowValue, List.filter_cons]
  by_cases here : entry.c = c
  · simp [here, entriesValue, rowValue]
  · simp [here, rowValue]

/-- **A loop that adds each entry, with the weight of its row, to its column.** -/
theorem foldlM_weighted {step : List R → SparseTerm R → Exec ε (List R)} {alpha z y : List R}
    (size : z.length = y.length)
    (each : ∀ entry ∈ a, ∀ z, step z entry = addAt z entry.w (entry.k * alpha.getD entry.c 0))
    (located : ∀ entry ∈ a, y[entry.w]? = some (x.getD entry.w 0)) :
    ∃ z', a.foldlM step z = .ok z' ∧ z'.length = y.length ∧
      dot z' y = dot z y + weightedValue alpha x a := by
  induction a generalizing z with
  | nil => exact ⟨z, rfl, size, by simp [weightedValue]⟩
  | cons entry a ih =>
    obtain ⟨next, added, size', grown⟩ := addAt_returns (ε := ε)
      (entry.k * alpha.getD entry.c 0) size (located entry (List.mem_cons_self ..))
    obtain ⟨z', ran, final, sum⟩ := ih size'
      (fun other member => each other (List.mem_cons_of_mem _ member))
      fun other member => located other (List.mem_cons_of_mem _ member)
    refine ⟨z', ?_, final, ?_⟩
    · rw [List.foldlM_cons, each entry (List.mem_cons_self ..), added, ok_bind, ran]
    · rw [sum, grown, weightedValue, weightedValue, List.map_cons, List.sum_cons]
      ring

end Lib
