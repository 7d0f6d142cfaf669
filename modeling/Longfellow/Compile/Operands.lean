/-
**Operands of simplified expressions** (`compile/compiler/src/algsimp.rs`).

The rewriter folds constants into what they are an operand of. A constant that stays an operand is
a term of a sum, and it is not zero.

* `ensures_run` — **every constructor of the rewriter keeps it so.**
-/

import Longfellow.Compile.Termination

set_option linter.unusedSectionVars false

namespace Longfellow.Compile

open Lib

variable {ε E : Type} [CommRing E] [DecidableEq E] {arena arena' : Arena E}

/-- A node that is not the constant zero. -/
def Arena.Nonzero (arena : Arena E) (x : NodeId) : Prop :=
  ∃ v, arena.nodes[x]? = some v ∧ v ≠ .constant 0

/-- An expression that an assertion is attached to. -/
def Expr.IsWrapper : Expr E → Prop
  | .withAssertions _ _ => True
  | _ => False

/-- A well formed arena where no operand is the constant zero, and no assertion is attached. -/
structure Arena.NonzeroOperands (arena : Arena E) : Prop where
  formed : arena.WellFormed
  nonzero : ∀ v ∈ arena.nodes, ∀ c ∈ v.children, arena.Nonzero c
  plain : ∀ v ∈ arena.nodes, ¬v.IsWrapper

namespace Algsimp

/-- A program that leaves no operand zero, and attaches no assertion. -/
abbrev Retains {α : Type} (ε : Type) (arena : Arena E) (program : Build ε E α) : Prop :=
  Ensures Arena.NonzeroOperands arena program fun _ _ => True

theorem nonzero_mono (grown : arena ≤ arena') {x : NodeId} (nonzero : arena.Nonzero x) :
    arena'.Nonzero x := by
  obtain ⟨v, found, differs⟩ := nonzero
  exact ⟨v, getElem?_mono grown found, differs⟩

theorem bound_of_nonzero {x : NodeId} (nonzero : arena.Nonzero x) : x < arena.nodes.length := by
  obtain ⟨v, found, -⟩ := nonzero
  exact (List.getElem?_eq_some_iff.mp found).1

/-! ### Constructors that call no other -/

theorem ensures_append (operands : arena.NonzeroOperands) {v : Expr E}
    (children : ∀ x ∈ v.children, arena.Nonzero x) (nonempty : ∀ precious, v ≠ .sum [] precious)
    (plain : ¬v.IsWrapper) :
    Ensures Arena.NonzeroOperands arena (memoExpr v : Build ε E NodeId) fun arena' x =>
      arena'.nodes[x]? = some v := by
  have grown : arena ≤ ⟨arena.nodes ++ [v], arena.discarded⟩ :=
    ⟨List.prefix_append .., List.prefix_rfl⟩
  refine ensures_memo operands ⟨operands.formed.append
    (fun x member => bound_of_nonzero (children x member)) nonempty, ?_, ?_⟩
  · intro w member c child
    rcases List.mem_append.mp member with old | new
    · exact nonzero_mono grown (operands.nonzero w old c child)
    · exact nonzero_mono grown (children c (List.mem_singleton.mp new ▸ child))
  · intro w member
    rcases List.mem_append.mp member with old | new
    · exact operands.plain w old
    · exact List.mem_singleton.mp new ▸ plain

theorem ensures_constant_operands (operands : arena.NonzeroOperands) (e : E) :
    Ensures Arena.NonzeroOperands arena (constant e : Build ε E NodeId) fun arena' x =>
      arena'.nodes[x]? = some (.constant e) :=
  ensures_append operands (by simp [Expr.children]) (by simp) id

theorem ensures_discarded_operands (operands : arena.NonzeroOperands) {xs : List NodeId}
    (bounds : ∀ x ∈ xs, x < arena.nodes.length) (e : E) :
    Retains ε arena (do discard xs; constant e) := by
  have noted : Retains ε arena (discard xs) := by
    refine ⟨fun ran => ?_⟩
    obtain ⟨later, formed, -⟩ := (ensures_discard operands.formed bounds).ran ran
    obtain ⟨rfl, rfl⟩ := Prod.mk.inj (Except.ok.inj ran)
    exact ⟨later, ⟨formed, operands.nonzero, operands.plain⟩, trivial⟩
  exact noted.bind fun _ operands' _ =>
    (ensures_constant_operands operands' e).mono fun _ _ _ => trivial

variable {a : NodeId} {b : NodeId} {e : E}

theorem ensures_groundLinear_operands (operands : arena.NonzeroOperands) (e : E)
    (nonzero : arena.Nonzero a) :
    Retains ε arena (groundLinear e a) :=
  ensures_lift_bind fun _ => (ensures_append operands (by simpa [Expr.children] using nonzero)
    (by simp) id).mono fun _ _ _ => trivial

theorem ensures_groundQuadratic_operands (operands : arena.NonzeroOperands) (e : E)
    (first : arena.Nonzero a) (second : arena.Nonzero b) :
    Retains ε arena (groundQuadratic e a b) := by
  refine ensures_lift_bind fun _ => ?_
  unfold Cse.quadratic
  split
  · exact (ensures_append operands (by simpa [Expr.children] using ⟨first, second⟩) (by simp)
      id).mono fun _ _ _ => trivial
  · exact (ensures_append operands (by simpa [Expr.children] using ⟨second, first⟩) (by simp)
      id).mono fun _ _ _ => trivial

theorem ensures_linear0_operands (fuel : Nat) (operands : arena.NonzeroOperands) :
    Retains ε arena (linear0 fuel e a) := by
  induction fuel generalizing e a with
  | zero => exact ⟨fun ran => by cases ran⟩
  | succ fuel ih =>
    refine ensures_nodeAt_bind fun {v} found => ?_
    have bound := (List.getElem?_eq_some_iff.mp found).1
    split
    · exact ensures_discarded_operands operands (by simpa using bound) e
    · split
      · exact ensures_pure operands trivial
      · have member := List.mem_of_getElem? found
        cases v with
        | constant e1 => exact (ensures_constant_operands operands _).mono fun _ _ _ => trivial
        | linear e1 x => exact ih
        | quadratic e1 x y =>
          exact ensures_groundQuadratic_operands operands _
            (operands.nonzero _ member x (by simp [Expr.children]))
            (operands.nonzero _ member y (by simp [Expr.children]))
        | input _ | sum _ _ | one | withAssertions _ _ =>
          exact ensures_groundLinear_operands operands e ⟨_, found, by simp⟩

theorem ensures_each {α β : Type} {inv : Arena E → Prop} {f : α → Build ε E β} {xs : List α}
    (holds : inv arena)
    (each : ∀ x ∈ xs, ∀ {arena'}, inv arena' → Ensures inv arena' (f x) fun _ _ => True) :
    Ensures inv arena (xs.mapM f) fun _ _ => True :=
  (ensures_mapM (fun _ _ _ => True) (fun _ _ _ => trivial) holds
    fun x member _ _ holds' => each x member holds').mono fun _ _ _ => trivial

theorem ensures_nodeAt_operands (operands : arena.NonzeroOperands) (x : NodeId) :
    Retains ε arena (nodeAt x) := by
  rw [← bind_pure (nodeAt x)]
  exact ensures_nodeAt_bind fun _ => ensures_pure operands trivial

theorem ensures_flattenSum_operands (operands : arena.NonzeroOperands) (l : List NodeId) :
    Retains ε arena (flattenSum l) :=
  (ensures_each operands fun x _ _ operands' => ensures_nodeAt_operands operands' x).bind
    fun _ operands' _ => ensures_pure operands' trivial

theorem ensures_unquadratic_operands (operands : arena.NonzeroOperands) (n : NodeId) :
    Retains ε arena (unquadratic n) := by
  refine ensures_nodeAt_bind fun {v} _ => ?_
  have multiple : ∀ f : NodeId → Triple E, Retains ε arena (do let unit ← one; pure (f unit)) := fun f =>
    (ensures_constant_operands operands 1).bind fun _ operands' _ => ensures_pure operands' trivial
  cases v with
  | quadratic _ _ _ => exact ensures_pure operands trivial
  | linear e x => exact multiple _
  | constant e => exact multiple _
  | input _ | sum _ _ | one | withAssertions _ _ => exact multiple _

variable {l : List NodeId}

theorem ensures_sumOf_operands (operands : arena.NonzeroOperands)
    (nonzero : ∀ x ∈ l, arena.Nonzero x) (precious : Bool) :
    Retains ε arena (sumOf l precious) := by
  match l with
  | [] => exact (ensures_constant_operands operands 0).mono fun _ _ _ => trivial
  | [x] => exact ensures_pure operands trivial
  | x :: y :: l =>
    have sorted := List.mergeSort_perm (x :: y :: l) fun a b => decide (a ≤ b)
    refine (ensures_append (v := .sum ((x :: y :: l).mergeSort (· ≤ ·)) precious) operands
      (fun z member => nonzero z (sorted.mem_iff.mp member)) (fun precious' same => ?_)
      id).mono fun _ _ _ => trivial
    have empty := (Expr.sum.inj same).1
    simpa [empty] using sorted.length_eq

theorem ensures_assemble_operands (operands : arena.NonzeroOperands)
    {terms : List (NodeId × Expr E)}
    (found : ∀ term ∈ terms, arena.nodes[term.1]? = some term.2) (precious : Bool) :
    Retains ε arena (assemble terms precious) := by
  have nonzero : ∀ x ∈ (terms.filter fun term => (constant? term.2).isNone).map Prod.fst,
      arena.Nonzero x := by
    intro x member
    obtain ⟨term, isTerm, rfl⟩ := List.mem_map.mp member
    obtain ⟨listed, notConstant⟩ := List.mem_filter.mp isTerm
    refine ⟨term.2, found term listed, fun zero => ?_⟩
    rw [zero] at notConstant
    cases notConstant
  unfold assemble
  simp only
  split
  · rw [pure_bind]
    exact ensures_sumOf_operands operands nonzero precious
  · rename_i differs
    rw [bind_assoc]
    refine (ensures_constant_operands operands _).bind fun {k arena₁} grown operands₁ isConstant => ?_
    rw [pure_bind]
    refine ensures_sumOf_operands operands₁ (fun x member => ?_) precious
    rcases List.mem_append.mp member with old | new
    · exact nonzero_mono grown (nonzero x old)
    · refine ⟨_, List.mem_singleton.mp new ▸ isConstant, fun same => differs ?_⟩
      exact Expr.constant.inj same

/-! ### Constructors that call each other -/

/-- The constructors with some fuel make no operand the constant zero. -/
structure KeepsNonzero (ε : Type) (cmp : E → E → Ordering) (fuel : Nat) : Prop where
  sum : ∀ {arena : Arena E} {l : List NodeId} {precious : Bool}, arena.NonzeroOperands →
    Retains ε arena (sum cmp fuel l precious)
  linear : ∀ {arena : Arena E} {e : E} {a : NodeId}, arena.NonzeroOperands →
    Retains ε arena (linear cmp fuel e a)
  quadratic : ∀ {arena : Arena E} {e : E} {a b : NodeId}, arena.NonzeroOperands →
    Retains ε arena (quadratic cmp fuel e a b)
  distribute : ∀ {arena : Arena E} {e : E} {a b other : NodeId} {l : List NodeId},
    arena.NonzeroOperands → arena.Nonzero a → arena.Nonzero b →
    Retains ε arena (distribute cmp fuel e a b l other)

variable {cmp : E → E → Ordering} {fuel : Nat}

section

variable (keeps : KeepsNonzero ε cmp fuel) (operands : arena.NonzeroOperands)
include keeps operands

theorem KeepsNonzero.sum_succ {precious : Bool} :
    Retains ε arena (Algsimp.sum cmp (fuel + 1) l precious) := by
  unfold Algsimp.sum
  refine (ensures_flattenSum_operands operands l).bind fun {flat arena₁} _ operands₁ _ => ?_
  refine (ensures_each operands₁ fun n _ _ operands' =>
    ensures_unquadratic_operands operands' n).bind fun {triples arena₂} _ operands₂ _ => ?_
  -- The terms are read back, so none of them is outside the arena.
  refine (ensures_mapM (fun arena' _ (term : NodeId × Expr E) =>
      arena'.nodes[term.1]? = some term.2) (fun grown _ => getElem?_mono grown) operands₂
    fun t _ _ _ operands' => ?_).bind fun {terms arena₃} _ operands₃ made => ?_
  · exact (keeps.quadratic operands').bind fun _ operands'' _ =>
      ensures_nodeAt_bind fun found => ensures_pure operands'' found
  · refine ensures_assemble_operands operands₃ (fun term member => ?_) precious
    obtain ⟨_, _, found⟩ := exists_of_mem_right made member
    exact found

theorem KeepsNonzero.linear_succ :
    Retains ε arena (Algsimp.linear cmp (fuel + 1) e a) := by
  unfold Algsimp.linear
  refine ensures_nodeAt_bind fun {v} _ => ?_
  split
  · exact (ensures_each operands fun x _ _ operands' =>
      ensures_linear0_operands fuel operands').bind fun _ operands' _ => keeps.sum operands'
  · exact ensures_linear0_operands fuel operands

theorem KeepsNonzero.distribute_succ {other : NodeId} (first : arena.Nonzero a)
    (second : arena.Nonzero b) :
    Retains ε arena (Algsimp.distribute cmp (fuel + 1) e a b l other) := by
  unfold Algsimp.distribute
  refine (ensures_each operands fun x _ _ operands' => ?_).bind fun {low arena₁} grown operands₁ _ => ?_
  · exact ensures_nodeAt_bind fun _ => ensures_pure operands' trivial
  · split
    · exact (ensures_each operands₁ fun _ _ _ operands' => keeps.quadratic operands').bind
        fun _ operands' _ => keeps.sum operands'
    · exact ensures_groundQuadratic_operands operands₁ e (nonzero_mono grown first)
        (nonzero_mono grown second)

theorem KeepsNonzero.quadratic_succ :
    Retains ε arena (Algsimp.quadratic cmp (fuel + 1) e a b) := by
  unfold Algsimp.quadratic
  refine ensures_nodeAt_bind fun {va} foundA => ensures_nodeAt_bind fun {vb} foundB => ?_
  have bounds : ∀ x ∈ [a, b], x < arena.nodes.length := by
    simpa using ⟨(List.getElem?_eq_some_iff.mp foundA).1, (List.getElem?_eq_some_iff.mp foundB).1⟩
  -- Where the product stays a product, neither operand is a constant.
  have nonzero : (∀ e1, va ≠ .constant e1) → (∀ e1, vb ≠ .constant e1) →
      arena.Nonzero a ∧ arena.Nonzero b := fun first second =>
    ⟨⟨va, foundA, first 0⟩, ⟨vb, foundB, second 0⟩⟩
  split
  · exact ensures_discarded_operands operands bounds e
  · rcases va with _ | ⟨_, _ | _⟩ | _ | _ | _ | _ | _ <;>
      rcases vb with _ | ⟨_, _ | _⟩ | _ | _ | _ | _ | _ <;>
      first
        | exact keeps.linear operands
        | exact keeps.quadratic operands
        | exact keeps.distribute operands (nonzero (by simp) (by simp)).1
            (nonzero (by simp) (by simp)).2
        | exact ensures_groundQuadratic_operands operands e (nonzero (by simp) (by simp)).1
            (nonzero (by simp) (by simp)).2

end

theorem keepsNonzero (ε : Type) (cmp : E → E → Ordering) (fuel : Nat) :
    KeepsNonzero ε cmp fuel := by
  induction fuel with
  | zero =>
    refine ⟨fun _ => ⟨fun ran => ?_⟩, fun _ => ⟨fun ran => ?_⟩, fun _ => ⟨fun ran => ?_⟩,
      fun _ _ _ => ⟨fun ran => ?_⟩⟩
    all_goals
      simp only [sum, linear, quadratic, distribute] at ran
      cases ran
  | succ fuel ih =>
    exact ⟨fun operands => ih.sum_succ operands, fun operands => ih.linear_succ operands,
      fun operands => ih.quadratic_succ operands,
      fun operands first second => ih.distribute_succ operands first second⟩

/-- **No constructor makes an operand the constant zero.** -/
theorem ensures_run (fuel : Nat) {call : Call E} (operands : arena.NonzeroOperands) :
    Retains ε arena (call.run cmp fuel) := by
  cases call with
  | sum l precious => exact (keepsNonzero ε cmp fuel).sum operands
  | constant elt => exact (ensures_constant_operands operands elt).mono fun _ _ _ => trivial
  | linear elt x => exact (keepsNonzero ε cmp fuel).linear operands
  | quadratic elt a b => exact (keepsNonzero ε cmp fuel).quadratic operands

end Algsimp

end Longfellow.Compile
