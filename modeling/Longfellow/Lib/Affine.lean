/-
**Affine expressions in unknowns.**

A constant and a list of unknowns with coefficients, built by a protocol step by step and evaluated
when the unknowns are revealed. `Denotes` is the value under an assignment, and the rules follow how
such expressions are built:

* `Denotes.scale`, `Denotes.neg`, `Denotes.addConstant`, `Denotes.subConstant`, `Denotes.addTerm` —
  **what each step does to the value**.
-/

import Longfellow.Lib.Dot

namespace Lib

variable {P R ε : Type}

/-- An affine expression in unknowns `P`. -/
structure Affine (P R : Type) where
  constant : R
  terms : List (P × R)
  deriving DecidableEq, Repr

namespace Affine

variable [CommRing R]

/-- Multiply by a constant. -/
def scale (expr : Affine P R) (c : R) : Affine P R where
  constant := expr.constant * c
  terms := expr.terms.map fun (p, k) => (p, k * c)

/-- Add a constant. -/
def addConstant (expr : Affine P R) (c : R) : Affine P R := { expr with constant := expr.constant + c }

/-- Add an unknown with a coefficient, at the end. -/
def addTerm (expr : Affine P R) (p : P) (k : R) : Affine P R :=
  { expr with terms := expr.terms ++ [(p, k)] }

/-- Subtract a constant. -/
def subConstant (expr : Affine P R) (c : R) : Affine P R := { expr with constant := expr.constant - c }

/-- Change the sign. -/
def neg (expr : Affine P R) : Affine P R where
  constant := -expr.constant
  terms := expr.terms.map fun (p, k) => (p, -k)

/-- Add one term with its unknown substituted. -/
def substitute (missing : ε) (assignment : P → Option R) (value : R) (term : P × R) : Exec ε R :=
  match assignment term.1 with
  | some p => pure (value + term.2 * p)
  | none => raise missing

/-- Substitute the unknowns, or raise an error for one that is not assigned. -/
def evaluate (missing : ε) (expr : Affine P R) (assignment : P → Option R) : Exec ε R :=
  expr.terms.foldlM (substitute missing assignment) expr.constant

/-- The value of an expression under an assignment. -/
structure Denotes (expr : Affine P R) (assignment : P → Option R) (value : R) : Prop where
  resolves : ∃ ps, List.Forall₂ (fun term p => assignment term.1 = some p) expr.terms ps ∧
    value = expr.constant + dot (expr.terms.map Prod.snd) ps

variable {expr : Affine P R} {assignment : P → Option R} {value : R}

theorem denotes_constant (assignment : P → Option R) (c : R) :
    (⟨c, []⟩ : Affine P R).Denotes assignment c := ⟨[], .nil, by simp⟩

section

variable (denotes : expr.Denotes assignment value)
include denotes

theorem Denotes.scale (c : R) :
    (expr.scale c).Denotes assignment (value * c) := by
  obtain ⟨ps, found, rfl⟩ := denotes.resolves
  refine ⟨ps, List.forall₂_map_left_iff.mpr found, ?_⟩
  have scaled : (expr.terms.map fun (p, k) => (p, k * c)).map Prod.snd =
      (expr.terms.map Prod.snd).map (· * c) := by
    rw [List.map_map, List.map_map]
    rfl
  rw [Affine.scale, scaled, dot_map_mul, add_mul]

theorem Denotes.addConstant (c : R) :
    (expr.addConstant c).Denotes assignment (value + c) := by
  obtain ⟨ps, found, rfl⟩ := denotes.resolves
  exact ⟨ps, found, add_right_comm _ _ _⟩

theorem Denotes.subConstant (c : R) :
    (expr.subConstant c).Denotes assignment (value - c) := by
  rw [sub_eq_add_neg]
  convert denotes.addConstant (-c) using 1
  rw [Affine.subConstant, Affine.addConstant, sub_eq_add_neg]

theorem Denotes.neg :
    expr.neg.Denotes assignment (-value) := by
  convert denotes.scale (-1) using 1
  · simp [Affine.neg, Affine.scale]
  · ring

theorem Denotes.addTerm {p : P} {x : R} (found : assignment p = some x) (k : R) :
    (expr.addTerm p k).Denotes assignment (value + k * x) := by
  obtain ⟨ps, before, rfl⟩ := denotes.resolves
  refine ⟨ps ++ [x], List.rel_append before (.cons found .nil), ?_⟩
  rw [Affine.addTerm, List.map_append, dot_append (by simp [before.length_eq]), add_assoc]
  simp

end

theorem foldlM_substitute (missing : ε) {terms : List (P × R)} {ps : List R}
    (found : List.Forall₂ (fun term p => assignment term.1 = some p) terms ps) (start : R) :
    terms.foldlM (substitute missing assignment) start =
      .ok (start + dot (terms.map Prod.snd) ps) := by
  induction found generalizing start with
  | nil => simp
  | @cons term p terms ps here _ ih =>
    have stepped : substitute missing assignment start term = .ok (start + term.2 * p) := by
      rw [substitute, here]
      rfl
    rw [List.foldlM_cons, stepped, ok_bind, ih, List.map_cons, dot_cons, add_assoc]

theorem Denotes.evaluate_eq (denotes : expr.Denotes assignment value) (missing : ε) :
    expr.evaluate missing assignment = .ok value := by
  obtain ⟨ps, found, rfl⟩ := denotes.resolves
  exact foldlM_substitute missing found expr.constant

end Affine

end Lib
