/-
**The algebraic rewriter terminates** (`compile/compiler/src/algsimp.rs`).

The constructors call each other, and the results of some calls are the operands of others. The
measure is a weight that no constructor increases: a constant weighs one, a multiple as much as what
it is a multiple of, a product the product of its operands, and a sum one more than its terms. A
product distributed over a sum, and the terms of a sum that is multiplied by a coefficient, weigh
less than the sum did.

* `constructors_preserve` — **the node a constructor returns has the value that was asked for.**
-/

import Longfellow.Compile.Algsimp
import Longfellow.Compile.Walk
import Mathlib.Algebra.Order.BigOperators.Group.List

set_option linter.unusedSectionVars false

namespace Longfellow.Compile

open Lib

variable {ε E : Type}

/-! ### Weights -/

/-- The weight of an expression from the weights of the nodes below. -/
def Expr.weight (below : NodeId → Nat) : Expr E → Nat
  | .sum elements _ => (elements.map below).sum + 1
  | .linear _ x => below x
  | .quadratic _ x y => below x * below y
  | .input _ | .one | .constant _ | .withAssertions _ _ => 1

/-- The weight of a node. -/
def Arena.weight (arena : Arena E) : NodeId → Nat := arena.fold 1 Expr.weight

/-- The weight of some nodes. -/
def Arena.weights (arena : Arena E) (l : List NodeId) : Nat := (l.map arena.weight).sum

variable {arena arena' : Arena E} {x : NodeId} {l : List NodeId} {bound : Nat}

theorem Arena.WellFormed.weight_eq (formed : arena.WellFormed) {expr : Expr E}
    (found : arena.nodes[x]? = some expr) : arena.weight x = expr.weight arena.weight := by
  refine formed.fold_eq 1 found fun {below below'} same => ?_
  cases expr with
  | input _ | one | constant _ | withAssertions _ _ => rfl
  | sum elements precious => exact congrArg (·.sum + 1) (List.map_congr_left same)
  | linear elt y => exact same y (by simp [Expr.children])
  | quadratic elt y z =>
    have first := same y (by simp [Expr.children])
    have second := same z (by simp [Expr.children])
    exact congrArg₂ (· * ·) first second

theorem weight_mono (grown : arena ≤ arena') (bound : x < arena.nodes.length) :
    arena'.weight x = arena.weight x := fold_mono 1 Expr.weight grown bound

theorem weights_mono (grown : arena ≤ arena')
    (bounds : ∀ x ∈ l, x < arena.nodes.length) : arena'.weights l = arena.weights l :=
  congrArg List.sum (List.map_congr_left fun x member => weight_mono grown (bounds x member))

theorem Arena.WellFormed.weight_pos (formed : arena.WellFormed) (x : NodeId) :
    0 < arena.weight x := by
  induction x using Nat.strong_induction_on with
  | _ x ih =>
    rcases found : arena.nodes[x]? with _ | expr
    · have outside : arena.nodes.length ≤ x := List.getElem?_eq_none_iff.mp found
      rw [Arena.weight, Arena.fold, List.getD_eq_default _ _ (by rwa [length_tabulate])]
      exact Nat.one_pos
    · have below : ∀ c ∈ expr.children, 0 < arena.weight c := fun c member =>
        ih c (formed.descends found c member)
      rw [formed.weight_eq found]
      cases expr with
      | input _ | one | constant _ | withAssertions _ _ => exact Nat.one_pos
      | sum elements precious => exact Nat.succ_pos _
      | linear elt y => exact below y (by simp [Expr.children])
      | quadratic elt y z =>
        exact Nat.mul_pos (below y (by simp [Expr.children])) (below z (by simp [Expr.children]))

@[simp] theorem Arena.weights_nil : arena.weights [] = 0 := rfl

@[simp] theorem Arena.weights_cons (x : NodeId) (l : List NodeId) :
    arena.weights (x :: l) = arena.weight x + arena.weights l := rfl

@[simp] theorem Arena.weights_append (l l' : List NodeId) :
    arena.weights (l ++ l') = arena.weights l + arena.weights l' := by
  rw [Arena.weights, List.map_append, List.sum_append]
  rfl

/-- A node of the arena of at most some weight. -/
structure Weighs (arena : Arena E) (bound : Nat) (x : NodeId) : Prop where
  inArena : x < arena.nodes.length
  weight : arena.weight x ≤ bound

theorem Weighs.mono (weighs : Weighs arena bound x) (grown : arena ≤ arena') :
    Weighs arena' bound x :=
  ⟨lt_of_lt_of_le weighs.inArena grown.1.length_le,
    (weight_mono grown weighs.inArena).trans_le weighs.weight⟩

theorem Weighs.weaken {bound' : Nat} (weighs : Weighs arena bound x) (more : bound ≤ bound') :
    Weighs arena bound' x := ⟨weighs.inArena, weighs.weight.trans more⟩

theorem weights_le_of_forall₂ {α : Type} {bound : α → Nat} {xs : List α}
    (each : List.Forall₂ (fun a x => Weighs arena (bound a) x) xs l) :
    arena.weights l ≤ (xs.map bound).sum := by
  induction each with
  | nil => exact le_rfl
  | cons head _ ih =>
    rw [Arena.weights_cons, List.map_cons, List.sum_cons]
    exact Nat.add_le_add head.weight ih

/-! ### Arenas without products of coefficient zero -/

variable [CommRing E]

/-- A well formed arena, where a product of coefficient zero has an excuse. -/
structure Arena.Sound (excuse : Prop) (arena : Arena E) : Prop where
  formed : arena.WellFormed
  coefficients : ∀ {x y}, Expr.quadratic 0 x y ∈ arena.nodes → excuse

/-- The assertion that a coefficient is not zero fails, with an excuse. -/
def ZeroCoefficient (excuse : Prop) (fault : Fault ε) : Prop :=
  fault = .panic "assertion failed: !self.f.is_zero(e)" ∧ excuse

namespace Algsimp

variable [DecidableEq E] {excuse : Prop} {allowed : Fault ε → Prop}

variable {v : Expr E}

theorem settles_memoExpr (sound : arena.Sound excuse)
    (children : ∀ x ∈ v.children, x < arena.nodes.length)
    (nonempty : ∀ precious, v ≠ .sum [] precious) (nonzero : ∀ x y, v ≠ .quadratic 0 x y) :
    Settles (Arena.Sound excuse) allowed arena (fun _ => (memoExpr v : Build ε E NodeId))
      fun arena' x => arena'.nodes[x]? = some v := by
  refine settles_memo sound ⟨sound.formed.append children nonempty, fun {y z} member => ?_⟩
  rcases List.mem_append.mp member with old | new
  · exact sound.coefficients old
  · exact absurd (List.mem_singleton.mp new).symm (nonzero y z)

theorem settles_discard (sound : arena.Sound excuse) {xs : List NodeId}
    (bounds : ∀ x ∈ xs, x < arena.nodes.length) :
    Settles (Arena.Sound excuse) allowed arena (fun _ => (discard xs : Build ε E Unit))
      fun _ _ => True := by
  refine .returns () { arena with discarded := arena.discarded ++ xs } 0
    (fun _ _ => rfl) ⟨List.prefix_rfl, List.prefix_append ..⟩ ⟨⟨?_, ?_, ?_⟩, ?_⟩ trivial
  · exact sound.formed.descends
  · exact sound.formed.nonempty
  · intro x member
    rcases List.mem_append.mp member with old | new
    · exact sound.formed.discarded x old
    · exact bounds x new
  · exact sound.coefficients

/-! ### Constructors that call no other -/

theorem weighs_of_found (sound : arena.Sound excuse) (found : arena.nodes[x]? = some v) :
    Weighs arena (v.weight arena.weight) x :=
  ⟨(List.getElem?_eq_some_iff.mp found).1, (sound.formed.weight_eq found).le⟩

theorem settles_constant (sound : arena.Sound excuse) (e : E) :
    Settles (Arena.Sound excuse) allowed arena (fun _ => (constant e : Build ε E NodeId))
      fun arena' x => arena'.nodes[x]? = some (.constant e) :=
  settles_memoExpr sound (by simp [Expr.children]) (by simp) (by simp)

variable {e : E} {a : NodeId}

theorem settles_groundLinear (sound : arena.Sound excuse) (nonzero : e ≠ 0)
    (bound : a < arena.nodes.length) :
    Settles (Arena.Sound excuse) allowed arena (fun _ => (groundLinear e a : Build ε E NodeId))
      fun arena' => Weighs arena' (arena.weight a) := by
  unfold groundLinear
  refine settles_lift_bind (f := fun _ _ => _) (fun _ => ?_) fun stopped => ?_
  · refine (settles_memoExpr sound (by simpa [Expr.children] using bound) (by simp)
      (by simp)).mono fun grown sound' found => ?_
    exact (weighs_of_found sound' found).weaken (weight_mono grown bound).le
  · rw [ensure, if_pos nonzero] at stopped
    cases stopped

variable {b : NodeId}

theorem settles_groundQuadratic (sound : arena.Sound excuse) (zero : e = 0 → excuse)
    (first : a < arena.nodes.length) (second : b < arena.nodes.length) :
    Settles (Arena.Sound excuse) (ZeroCoefficient excuse) arena
      (fun _ => (groundQuadratic e a b : Build ε E NodeId))
      fun arena' => Weighs arena' (arena.weight a * arena.weight b) := by
  unfold groundQuadratic
  by_cases isZero : e = 0
  · refine settles_lift_bind (f := fun _ _ => _) (fun passed => ?_) fun stopped => ?_
    · rw [ensure, if_neg (not_not.mpr isZero)] at passed
      cases passed
    · rw [ensure, if_neg (not_not.mpr isZero)] at stopped
      exact ⟨(Except.error.inj stopped).symm, zero isZero⟩
  refine settles_lift_bind (f := fun _ _ => _) (fun _ => ?_) fun stopped => ?_
  · have weights : ∀ {arena' : Arena E}, arena ≤ arena' →
        arena'.weight a * arena'.weight b = arena.weight a * arena.weight b := fun grown => by
      rw [weight_mono grown first, weight_mono grown second]
    unfold Cse.quadratic
    split
    · refine (settles_memoExpr sound (by simpa [Expr.children] using ⟨first, second⟩) (by simp)
        (by simpa using isZero)).mono fun grown sound' found => ?_
      exact (weighs_of_found sound' found).weaken (weights grown).le
    · refine (settles_memoExpr sound (by simpa [Expr.children] using ⟨second, first⟩) (by simp)
        (by simpa using isZero)).mono fun grown sound' found => ?_
      exact (weighs_of_found sound' found).weaken ((mul_comm _ _).trans (weights grown)).le
  · rw [ensure, if_pos isZero] at stopped
    cases stopped

theorem settles_discarded (sound : arena.Sound excuse) (xs : List NodeId)
    (bounds : ∀ x ∈ xs, x < arena.nodes.length) (e : E) (pos : 0 < bound) :
    Settles (Arena.Sound excuse) allowed arena
      (fun _ => (do discard xs; constant e : Build ε E NodeId)) fun arena' => Weighs arena' bound := by
  refine (settles_discard sound bounds).bind (f := fun _ _ => _) fun _ sound₁ _ => ?_
  refine (settles_constant sound₁ e).mono fun _ sound₂ found => ?_
  exact (weighs_of_found sound₂ found).weaken pos

/-! ### The terms of a sum -/

/-- A product of two nodes that weighs at most as much as a node. -/
structure SplitWeighs (arena : Arena E) (n : NodeId) (t : Triple E) : Prop where
  inArena : n < arena.nodes.length
  first : t.2.1 < arena.nodes.length
  second : t.2.2 < arena.nodes.length
  weight : arena.weight t.2.1 * arena.weight t.2.2 ≤ arena.weight n

variable {n : NodeId}

theorem SplitWeighs.mono {t : Triple E} (splits : SplitWeighs arena n t) (grown : arena ≤ arena') :
    SplitWeighs arena' n t where
  inArena := lt_of_lt_of_le splits.inArena grown.1.length_le
  first := lt_of_lt_of_le splits.first grown.1.length_le
  second := lt_of_lt_of_le splits.second grown.1.length_le
  weight := by
    rw [weight_mono grown splits.first, weight_mono grown splits.second,
      weight_mono grown splits.inArena]
    exact splits.weight

theorem splitWeighs_canonical {y : NodeId} (splits : SplitWeighs arena n (e, x, y)) :
    SplitWeighs arena n (canonical e x y) := by
  unfold canonical
  split
  · exact splits
  · exact ⟨splits.inArena, splits.second, splits.first, (mul_comm _ _).trans_le splits.weight⟩

theorem settles_unquadratic (sound : arena.Sound excuse) (bound : n < arena.nodes.length) :
    Settles (Arena.Sound excuse) allowed arena (fun _ => (unquadratic n : Build ε E (Triple E)))
      fun arena' => SplitWeighs arena' n := by
  obtain ⟨v, found⟩ : ∃ v, arena.nodes[n]? = some v := ⟨_, List.getElem?_eq_getElem bound⟩
  have weight := sound.formed.weight_eq found
  -- Multiples of the constant one.
  have multiple : ∀ (e : E) (x : NodeId), x < arena.nodes.length → arena.weight x ≤ arena.weight n →
      Settles (Arena.Sound excuse) allowed arena (fun _ => (do
        let unit ← one
        pure (canonical e unit x) : Build ε E (Triple E))) fun arena' => SplitWeighs arena' n := by
    intro e x below lighter
    refine (settles_constant sound 1).bind (f := fun _ _ => _) fun {unit _} grown sound₁ isOne => ?_
    have unitWeighs := weighs_of_found sound₁ isOne
    refine settles_pure sound₁ (splitWeighs_canonical ⟨?_, unitWeighs.inArena, ?_, ?_⟩)
    · exact lt_of_lt_of_le bound grown.1.length_le
    · exact lt_of_lt_of_le below grown.1.length_le
    · rw [weight_mono grown bound, weight_mono grown below]
      exact (Nat.mul_le_mul_right _ unitWeighs.weight).trans (by simpa [Expr.weight] using lighter)
  unfold unquadratic
  refine settles_nodeAt_bind (f := fun _ _ => _) found ?_
  cases v with
  | quadratic e x y =>
    refine settles_pure sound (splitWeighs_canonical ⟨bound, ?_, ?_, weight.ge⟩)
    · exact (sound.formed.descends found x (by simp [Expr.children])).trans bound
    · exact (sound.formed.descends found y (by simp [Expr.children])).trans bound
  | linear e x =>
    refine multiple e x ?_ weight.ge
    exact (sound.formed.descends found x (by simp [Expr.children])).trans bound
  | constant e =>
    refine (settles_constant sound 1).bind (f := fun _ _ => _) fun {unit _} grown sound₁ isOne => ?_
    have unitWeighs := weighs_of_found sound₁ isOne
    refine settles_pure sound₁ ⟨lt_of_lt_of_le bound grown.1.length_le, unitWeighs.inArena,
      unitWeighs.inArena, ?_⟩
    exact (Nat.mul_le_mul unitWeighs.weight unitWeighs.weight).trans (sound₁.formed.weight_pos n)
  | input _ | sum _ _ | one | withAssertions _ _ => exact multiple 1 n bound le_rfl

theorem weights_flatten_le (formed : arena.WellFormed) (ordinarySums : List (List NodeId))
    (found : arena.nodes[x]? = some v) :
    arena.weights (flatten ordinarySums x v) ≤ arena.weight x := by
  have whole : arena.weights [x] ≤ arena.weight x := by simp
  have inside : ∀ {inner : List NodeId} {precious : Bool}, v = .sum inner precious →
      arena.weights inner ≤ arena.weight x := by
    rintro inner precious rfl
    rw [formed.weight_eq found]
    exact Nat.le_succ _
  unfold flatten
  split
  · exact inside rfl
  · split
    · exact inside rfl
    · exact whole
  · exact whole

theorem settles_flattenSum (sound : arena.Sound excuse) (bounds : ∀ x ∈ l, x < arena.nodes.length) :
    Settles (Arena.Sound excuse) allowed arena
      (fun _ => (flattenSum l : Build ε E (List NodeId))) fun arena' flat =>
        (∀ x ∈ flat, x < arena'.nodes.length) ∧ arena'.weights flat ≤ arena.weights l := by
  unfold flattenSum
  have reads : Settles (Arena.Sound excuse) allowed arena
      (fun _ => (l.mapM nodeAt : Build ε E (List (Expr E)))) fun arena' exprs =>
        List.Forall₂ (fun x v => arena'.nodes[x]? = some v) l exprs := by
    refine settles_mapM (fun arena' x v => arena'.nodes[x]? = some v)
      (fun grown _ found => getElem?_mono grown found) sound fun x member {arena'} grown sound' => ?_
    obtain ⟨v, found⟩ : ∃ v, arena'.nodes[x]? = some v :=
      ⟨_, List.getElem?_eq_getElem (lt_of_lt_of_le (bounds x member) grown.1.length_le)⟩
    refine Settles.congr (fun _ => by rw [← bind_pure (nodeAt x)]) ?_
    exact settles_nodeAt_bind (f := fun _ => pure) found (settles_pure sound' found)
  refine reads.bind (f := fun _ _ => _) fun {exprs _} grown sound₁ found => ?_
  refine settles_pure sound₁ ?_
  rw [← weights_mono grown bounds]
  generalize exprs.filterMap ordinarySum? = ordinarySums
  clear reads bounds grown
  induction found with
  | nil => exact ⟨by simp, le_rfl⟩
  | cons head _ ih =>
    obtain ⟨inside, _⟩ := flatten_spec (fun _ => 0) sound₁.formed ordinarySums head
    have lighter := weights_flatten_le sound₁.formed ordinarySums head
    rw [List.zipWith_cons_cons, List.flatten_cons, Arena.weights_append, Arena.weights_cons]
    exact ⟨fun y member => (List.mem_append.mp member).elim (inside y) (ih.1 y),
      Nat.add_le_add lighter ih.2⟩

theorem sum_foldTriple_le (g : NodeId × NodeId → Nat) (ts acc : List (Triple E)) :
    ((ts.foldl foldTriple acc).map fun t => g t.2).sum ≤
      (acc.map fun t => g t.2).sum + (ts.map fun t => g t.2).sum := by
  induction ts generalizing acc with
  | nil => simp
  | cons t ts ih =>
    refine (ih _).trans ?_
    have step : ((foldTriple acc t).map fun t => g t.2).sum ≤
        (acc.map fun t => g t.2).sum + g t.2 := by
      unfold foldTriple
      split
      · rename_i last isLast
        obtain ⟨front, rfl⟩ := List.getLast?_eq_some_iff.mp isLast
        split <;> simp [add_assoc]
      · simp
    rw [List.map_cons, List.sum_cons]
    omega

variable {terms : List (NodeId × Expr E)}

theorem weights_partition_le (formed : arena.WellFormed)
    (found : ∀ term ∈ terms, arena.nodes[term.1]? = some term.2) :
    arena.weights ((terms.filter fun term => (constant? term.2).isNone).map Prod.fst) +
      (terms.filterMap fun term => constant? term.2).length ≤
        arena.weights (terms.map Prod.fst) := by
  induction terms with
  | nil => simp
  | cons term terms ih =>
    obtain ⟨_, later⟩ := List.forall_mem_cons.mp found
    have rest := ih later
    have pos := formed.weight_pos term.1
    rw [List.filter_cons, List.filterMap_cons, List.map_cons, Arena.weights_cons]
    cases constant? term.2 with
    | none =>
      simp only [Option.isNone_none, if_true, List.map_cons, Arena.weights_cons]
      omega
    | some e =>
      simp only [Option.isNone_some, Bool.false_eq_true, if_false, List.length_cons]
      omega

theorem settles_sumOf (sound : arena.Sound excuse) (bounds : ∀ x ∈ l, x < arena.nodes.length)
    (precious : Bool) :
    Settles (Arena.Sound excuse) allowed arena (fun _ => (sumOf l precious : Build ε E NodeId))
      fun arena' => Weighs arena' (arena.weights l + 1) := by
  match l with
  | [] =>
    refine (settles_constant sound 0).mono fun _ sound' found => ?_
    exact weighs_of_found sound' found
  | [x] =>
    exact settles_pure sound ⟨bounds x (List.mem_singleton_self x), Nat.le_succ _⟩
  | x :: y :: l =>
    have sorted := List.mergeSort_perm (x :: y :: l) fun a b => decide (a ≤ b)
    have children : ∀ z ∈ (x :: y :: l).mergeSort (· ≤ ·), z < arena.nodes.length :=
      fun z member => bounds z (sorted.mem_iff.mp member)
    refine (settles_memoExpr (v := .sum _ precious) sound children (fun precious' same => ?_) (by simp)).mono
      fun grown sound' found => (weighs_of_found sound' found).weaken ?_
    · have empty := (Expr.sum.inj same).1
      simpa [empty] using sorted.length_eq
    · rw [Expr.weight, (sorted.map _).sum_eq]
      exact (congrArg (· + 1) (weights_mono grown bounds)).le

theorem settles_assemble (sound : arena.Sound excuse)
    (found : ∀ term ∈ terms, arena.nodes[term.1]? = some term.2) (precious : Bool) :
    Settles (Arena.Sound excuse) allowed arena
      (fun _ => (assemble terms precious : Build ε E NodeId))
      fun arena' => Weighs arena' (arena.weights (terms.map Prod.fst) + 1) := by
  have lighter := weights_partition_le sound.formed found
  have bounds := lt_of_found found
  unfold assemble
  simp only
  generalize (terms.filter fun term => (constant? term.2).isNone).map Prod.fst = others at *
  generalize (terms.filterMap fun term => constant? term.2) = constants at *
  split
  · simp only [pure_bind]
    exact (settles_sumOf sound bounds precious).mono fun _ _ weighs => weighs.weaken (by omega)
  · rename_i nonzero
    -- A sum that is not zero is the sum of at least one constant.
    have some : constants.length ≠ 0 := by
      rintro empty
      rw [List.length_eq_zero_iff.mp empty] at nonzero
      exact nonzero List.sum_nil
    simp only [bind_assoc, pure_bind]
    refine (settles_constant sound _).bind (f := fun _ _ => _) fun {k _} grown sound₁ isConstant => ?_
    have weighs := weighs_of_found sound₁ isConstant
    refine (settles_sumOf sound₁ ?_ precious).mono fun _ _ weighs' => weighs'.weaken ?_
    · intro x member
      rcases List.mem_append.mp member with old | new
      · exact lt_of_lt_of_le (bounds x old) grown.1.length_le
      · rw [List.mem_singleton.mp new]
        exact weighs.inArena
    · have unit : _ ≤ 1 := weighs.weight
      rw [Arena.weights_append, weights_mono grown bounds, Arena.weights_cons, Arena.weights_nil]
      omega

/-! ### Multiples -/

variable [NoZeroDivisors E]

/-- **A multiple of a node** weighs at most as much as the node. -/
theorem settles_linear0 (sound : arena.Sound excuse) (bound : a < arena.nodes.length) :
    Settles (Arena.Sound excuse) (ZeroCoefficient excuse) arena
      (fun fuel => (linear0 fuel e a : Build ε E NodeId))
      fun arena' => Weighs arena' (arena.weight a) := by
  induction a using Nat.strong_induction_on generalizing e with
  | _ a ih =>
    obtain ⟨v, found⟩ : ∃ v, arena.nodes[a]? = some v := ⟨_, List.getElem?_eq_getElem bound⟩
    have weight := sound.formed.weight_eq found
    refine Settles.succ (fun fuel => rfl) ?_
    simp only [linear0]
    refine settles_nodeAt_bind found ?_
    by_cases zero : e = 0
    · simp only [if_pos zero]
      exact settles_discarded sound [a] (by simpa using bound) e (sound.formed.weight_pos a)
    · by_cases one : e = 1
      · simp only [if_neg zero, if_pos one]
        exact settles_pure sound ⟨bound, le_rfl⟩
      · simp only [if_neg zero, if_neg one]
        cases v with
        | constant e1 =>
          refine (settles_constant sound (e * e1)).mono fun _ sound' found' => ?_
          exact (weighs_of_found sound' found').weaken (sound.formed.weight_pos a)
        | linear e1 x =>
          have below := sound.formed.descends found x (by simp [Expr.children])
          refine (ih x below (below.trans bound)).mono fun _ _ weighs => ?_
          exact weighs.weaken weight.ge
        | quadratic e1 x y =>
          have first := (sound.formed.descends found x (by simp [Expr.children])).trans bound
          have second := (sound.formed.descends found y (by simp [Expr.children])).trans bound
          refine (settles_groundQuadratic sound (fun product => ?_) first second).mono
            fun _ _ weighs => weighs.weaken weight.ge
          -- A coefficient that is not zero is multiplied to zero by zero only.
          have isZero : e1 = 0 := (mul_eq_zero.mp product).resolve_left zero
          exact sound.coefficients (isZero ▸ List.mem_of_getElem? found)
        | input _ | sum _ _ | one | withAssertions _ _ =>
          exact settles_groundLinear sound zero bound

/-! ### Constructors that call each other -/

/-- The constructors settle on operands of at most some weight, and gain none. -/
structure Terminates (ε : Type) (cmp : E → E → Ordering) (excuse : Prop) (bound : Nat) : Prop where
  sum : ∀ {arena : Arena E} {l : List NodeId} {precious : Bool}, arena.Sound excuse →
    (∀ x ∈ l, x < arena.nodes.length) → arena.weights l ≤ bound →
    Settles (Arena.Sound excuse) (ZeroCoefficient excuse) arena
      (fun fuel => (Algsimp.sum cmp fuel l precious : Build ε E NodeId))
      fun arena' => Weighs arena' (arena.weights l + 1)
  quadratic : ∀ {arena : Arena E} {e : E} {a b : NodeId}, arena.Sound excuse →
    a < arena.nodes.length → b < arena.nodes.length → arena.weight a * arena.weight b ≤ bound →
    Settles (Arena.Sound excuse) (ZeroCoefficient excuse) arena
      (fun fuel => (Algsimp.quadratic cmp fuel e a b : Build ε E NodeId))
      fun arena' => Weighs arena' (arena.weight a * arena.weight b)

variable {cmp : E → E → Ordering}

theorem settles_linear (smaller : ∀ bound < arena.weight a, Terminates ε cmp excuse bound)
    (sound : arena.Sound excuse) (inArena : a < arena.nodes.length) :
    Settles (Arena.Sound excuse) (ZeroCoefficient excuse) arena
      (fun fuel => (Algsimp.linear cmp fuel e a : Build ε E NodeId))
      fun arena' => Weighs arena' (arena.weight a) := by
  obtain ⟨v, found⟩ : ∃ v, arena.nodes[a]? = some v := ⟨_, List.getElem?_eq_getElem inArena⟩
  refine Settles.succ (fun fuel => rfl) ?_
  simp only [Algsimp.linear]
  refine settles_nodeAt_bind found ?_
  rcases v with _ | ⟨l, _ | _⟩ | _ | _ | _ | _ | _
  case sum.false =>
    have weight : arena.weight a = arena.weights l + 1 := sound.formed.weight_eq found
    have below : ∀ x ∈ l, x < arena.nodes.length := fun x member =>
      (sound.formed.descends found x member).trans inArena
    refine (settles_mapM (fun arena' x => Weighs arena' (arena.weight x))
      (fun grown _ weighs => weighs.mono grown) sound fun x member {_} grown sound' => ?_).bind
      fun {mapped arena₁} grown sound₁ each => ?_
    · refine (settles_linear0 sound' (lt_of_lt_of_le (below x member) grown.1.length_le)).mono
        fun _ _ weighs => weighs.weaken (weight_mono grown (below x member)).le
    · have lighter : arena₁.weights mapped ≤ arena.weights l := weights_le_of_forall₂ each
      refine ((smaller (arena₁.weights mapped) (by omega)).sum sound₁ ?_ le_rfl).mono
        fun _ _ weighs => weighs.weaken (by omega)
      intro x member
      obtain ⟨_, _, weighs⟩ := exists_of_mem_right each member
      exact weighs.inArena
  all_goals exact settles_linear0 sound inArena

section

variable (smaller : ∀ bound < arena.weight a * arena.weight b, Terminates ε cmp excuse bound)
  (sound : arena.Sound excuse)
include smaller sound

theorem settles_distribute {whole other : NodeId} (nonzero : e ≠ 0)
    (found : arena.nodes[whole]? = some (.sum l false)) (inArena : other < arena.nodes.length)
    (operands : a = whole ∧ b = other ∨ a = other ∧ b = whole) :
    Settles (Arena.Sound excuse) (ZeroCoefficient excuse) arena
      (fun fuel => (distribute cmp fuel e a b l other : Build ε E NodeId))
      fun arena' => Weighs arena' (arena.weight a * arena.weight b) := by
  have wholeBound := (List.getElem?_eq_some_iff.mp found).1
  have below : ∀ x ∈ l, x < arena.nodes.length := fun x member =>
    (sound.formed.descends found x member).trans wholeBound
  have weight : arena.weight a * arena.weight b =
      (arena.weights l + 1) * arena.weight other := by
    have sumWeight : arena.weight whole = arena.weights l + 1 := sound.formed.weight_eq found
    rcases operands with ⟨rfl, rfl⟩ | ⟨rfl, rfl⟩
    · rw [sumWeight]
    · rw [sumWeight, mul_comm]
  have pos := sound.formed.weight_pos other
  have bounds : a < arena.nodes.length ∧ b < arena.nodes.length := by
    rcases operands with ⟨rfl, rfl⟩ | ⟨rfl, rfl⟩
    · exact ⟨wholeBound, inArena⟩
    · exact ⟨inArena, wholeBound⟩
  refine Settles.succ (fun fuel => rfl) ?_
  simp only [distribute]
  have reads : Settles (Arena.Sound excuse) (ZeroCoefficient excuse) arena
      (fun _ => (l.mapM lowDegree : Build ε E (List Bool))) fun _ _ => True := by
    refine (settles_mapM (fun _ _ _ => True) (fun _ _ _ => trivial) sound
      fun x member {arena'} grown sound' => ?_).mono fun _ _ _ => trivial
    obtain ⟨v, isNode⟩ : ∃ v, arena'.nodes[x]? = some v :=
      ⟨_, List.getElem?_eq_getElem (lt_of_lt_of_le (below x member) grown.1.length_le)⟩
    exact settles_nodeAt_bind (f := fun _ _ => _) isNode (settles_pure sound' trivial)
  refine reads.bind fun {low arena₁} grown₁ sound₁ _ => ?_
  by_cases all : low.all id = true
  · simp only [if_pos all]
    refine (settles_mapM (fun arena' x => Weighs arena' (arena.weight x * arena.weight other))
      (fun grown _ weighs => weighs.mono grown) sound₁ fun x member {arena'} grown sound' => ?_).bind
      fun {mapped arena₂} grown₂ sound₂ each => ?_
    · have later := grown₁.trans grown
      have weights : arena'.weight x * arena'.weight other =
          arena.weight x * arena.weight other := by
        rw [weight_mono later (below x member), weight_mono later inArena]
      have lighter : arena.weight x * arena.weight other < arena.weight a * arena.weight b := by
        rw [weight]
        refine Nat.mul_lt_mul_of_pos_right (Nat.lt_succ_of_le ?_) pos
        exact List.le_sum_of_mem (List.mem_map_of_mem member)
      refine ((smaller _ lighter).quadratic sound' ?_ ?_ weights.le).mono fun _ _ weighs =>
        weighs.weaken weights.le
      · exact lt_of_lt_of_le (below x member) later.1.length_le
      · exact lt_of_lt_of_le inArena later.1.length_le
    · have total : arena₂.weights mapped ≤ arena.weights l * arena.weight other := by
        refine (weights_le_of_forall₂ each).trans_eq ?_
        rw [List.sum_map_mul_right]
        rfl
      have lighter : arena₂.weights mapped < arena.weight a * arena.weight b := by
        rw [weight, Nat.add_mul, Nat.one_mul]
        omega
      refine ((smaller _ lighter).sum sound₂ ?_ le_rfl).mono fun _ _ weighs =>
        weighs.weaken lighter
      intro x member
      obtain ⟨_, _, weighs⟩ := exists_of_mem_right each member
      exact weighs.inArena
  · simp only [if_neg all]
    have weights : arena₁.weight a * arena₁.weight b = arena.weight a * arena.weight b := by
      rw [weight_mono grown₁ bounds.1, weight_mono grown₁ bounds.2]
    refine (settles_groundQuadratic sound₁ (fun zero => absurd zero nonzero)
      (lt_of_lt_of_le bounds.1 grown₁.1.length_le)
      (lt_of_lt_of_le bounds.2 grown₁.1.length_le)).mono fun _ _ weighs =>
        weighs.weaken weights.le

/-- A product settles when products and sums of less weight do; a multiple is taken out of an
operand that lies behind it in the arena. -/
theorem settles_quadratic (first : a < arena.nodes.length) (second : b < arena.nodes.length) :
    Settles (Arena.Sound excuse) (ZeroCoefficient excuse) arena
      (fun fuel => (Algsimp.quadratic cmp fuel e a b : Build ε E NodeId))
      fun arena' => Weighs arena' (arena.weight a * arena.weight b) := by
  induction together : a + b using Nat.strong_induction_on generalizing a b e with
  | _ size ih =>
  obtain ⟨va, foundA⟩ : ∃ va, arena.nodes[a]? = some va := ⟨_, List.getElem?_eq_getElem first⟩
  obtain ⟨vb, foundB⟩ : ∃ vb, arena.nodes[b]? = some vb := ⟨_, List.getElem?_eq_getElem second⟩
  have weightA := sound.formed.weight_eq foundA
  have weightB := sound.formed.weight_eq foundB
  have posA := sound.formed.weight_pos a
  have posB := sound.formed.weight_pos b
  refine Settles.succ (fun fuel => rfl) ?_
  simp only [Algsimp.quadratic]
  refine settles_nodeAt_bind foundA (settles_nodeAt_bind foundB ?_)
  by_cases zero : e = 0
  · simp only [if_pos zero]
    exact settles_discarded sound [a, b] (by simpa using ⟨first, second⟩) e (Nat.mul_pos posA posB)
  simp only [if_neg zero]
  -- What the operands can be, in the order in which they are looked at.
  have constantA : ∀ e1, va = .constant e1 → Settles (Arena.Sound excuse) (ZeroCoefficient excuse)
      arena (fun fuel => (Algsimp.linear cmp fuel (e * e1) b : Build ε E NodeId))
      fun arena' => Weighs arena' (arena.weight a * arena.weight b) := by
    rintro e1 rfl
    have weight : arena.weight a * arena.weight b = arena.weight b := by
      rw [weightA, Expr.weight, Nat.one_mul]
    rw [weight] at smaller ⊢
    exact settles_linear smaller sound second
  have constantB : ∀ e1, vb = .constant e1 → Settles (Arena.Sound excuse) (ZeroCoefficient excuse)
      arena (fun fuel => (Algsimp.linear cmp fuel (e * e1) a : Build ε E NodeId))
      fun arena' => Weighs arena' (arena.weight a * arena.weight b) := by
    rintro e1 rfl
    have weight : arena.weight a * arena.weight b = arena.weight a := by
      rw [weightB, Expr.weight, Nat.mul_one]
    rw [weight] at smaller ⊢
    exact settles_linear smaller sound first
  have linearA : ∀ e1 x, va = .linear e1 x → Settles (Arena.Sound excuse) (ZeroCoefficient excuse)
      arena (fun fuel => (Algsimp.quadratic cmp fuel (e * e1) x b : Build ε E NodeId))
      fun arena' => Weighs arena' (arena.weight a * arena.weight b) := by
    rintro e1 x rfl
    have below := sound.formed.descends foundA x (by simp [Expr.children])
    have weight : arena.weight a = arena.weight x := weightA
    rw [weight] at smaller ⊢
    exact ih (x + b) (together ▸ Nat.add_lt_add_right below b) smaller (below.trans first) second
      rfl
  have linearB : ∀ e1 x, vb = .linear e1 x → Settles (Arena.Sound excuse) (ZeroCoefficient excuse)
      arena (fun fuel => (Algsimp.quadratic cmp fuel (e * e1) x a : Build ε E NodeId))
      fun arena' => Weighs arena' (arena.weight a * arena.weight b) := by
    rintro e1 x rfl
    have below := sound.formed.descends foundB x (by simp [Expr.children])
    have weight : arena.weight b = arena.weight x := weightB
    rw [weight, mul_comm (arena.weight a)] at smaller ⊢
    exact ih (x + a) (together ▸ Nat.add_comm a b ▸ Nat.add_lt_add_right below a) smaller
      (below.trans second) first rfl
  have sumB : ∀ l, vb = .sum l false → Settles (Arena.Sound excuse) (ZeroCoefficient excuse)
      arena (fun fuel => (distribute cmp fuel e a b l a : Build ε E NodeId))
      fun arena' => Weighs arena' (arena.weight a * arena.weight b) := by
    rintro l rfl
    exact settles_distribute smaller sound zero foundB first (.inr ⟨rfl, rfl⟩)
  have sumA : ∀ l, va = .sum l false → Settles (Arena.Sound excuse) (ZeroCoefficient excuse)
      arena (fun fuel => (distribute cmp fuel e a b l b : Build ε E NodeId))
      fun arena' => Weighs arena' (arena.weight a * arena.weight b) := by
    rintro l rfl
    exact settles_distribute smaller sound zero foundA second (.inl ⟨rfl, rfl⟩)
  have ground : Settles (Arena.Sound excuse) (ZeroCoefficient excuse)
      arena (fun _ => (groundQuadratic e a b : Build ε E NodeId))
      fun arena' => Weighs arena' (arena.weight a * arena.weight b) :=
    settles_groundQuadratic sound (fun isZero => absurd isZero zero) first second
  rcases va with _ | ⟨_, _ | _⟩ | _ | _ | _ | _ | _ <;>
    rcases vb with _ | ⟨_, _ | _⟩ | _ | _ | _ | _ | _ <;>
    first
      | exact ground
      | exact constantA _ rfl
      | exact constantB _ rfl
      | exact linearA _ _ rfl
      | exact linearB _ _ rfl
      | exact sumB _ rfl
      | exact sumA _ rfl

end

theorem splitWeighs_total {flat : List NodeId} {triples : List (Triple E)}
    (splits : List.Forall₂ (SplitWeighs arena) flat triples) :
    (triples.map fun t => arena.weight t.2.1 * arena.weight t.2.2).sum ≤ arena.weights flat := by
  induction splits with
  | nil => exact le_rfl
  | cons head _ ih =>
    rw [List.map_cons, List.sum_cons, Arena.weights_cons]
    exact Nat.add_le_add head.weight ih

theorem settles_sum (products : ∀ {arena' : Arena E} {e : E} {a b : NodeId}, arena'.Sound excuse →
      a < arena'.nodes.length → b < arena'.nodes.length →
      arena'.weight a * arena'.weight b ≤ arena.weights l →
      Settles (Arena.Sound excuse) (ZeroCoefficient excuse) arena'
        (fun fuel => (Algsimp.quadratic cmp fuel e a b : Build ε E NodeId))
        fun arena'' => Weighs arena'' (arena'.weight a * arena'.weight b))
    (sound : arena.Sound excuse) (bounds : ∀ x ∈ l, x < arena.nodes.length) {precious : Bool} :
    Settles (Arena.Sound excuse) (ZeroCoefficient excuse) arena
      (fun fuel => (Algsimp.sum cmp fuel l precious : Build ε E NodeId))
      fun arena' => Weighs arena' (arena.weights l + 1) := by
  refine Settles.succ (fun fuel => rfl) ?_
  simp only [Algsimp.sum]
  refine (settles_flattenSum sound bounds).bind fun {flat arena₁} grown₁ sound₁ flattened => ?_
  obtain ⟨inside, lighter⟩ := flattened
  refine (settles_mapM SplitWeighs (fun grown _ splits => splits.mono grown) sound₁
    fun x member {_} grown sound' => settles_unquadratic sound'
      (lt_of_lt_of_le (inside x member) grown.1.length_le)).bind
    fun {triples arena₂} grown₂ sound₂ splits => ?_
  have order := List.mergeSort_perm triples fun a b => (compareTriples cmp a b).isLE
  have product : (((triples.mergeSort fun a b => (compareTriples cmp a b).isLE).foldl
      foldTriple []).map fun t => arena₂.weight t.2.1 * arena₂.weight t.2.2).sum ≤
        arena.weights l := by
    refine (sum_foldTriple_le (fun p => arena₂.weight p.1 * arena₂.weight p.2) _ []).trans ?_
    rw [List.map_nil, List.sum_nil, Nat.zero_add, (order.map _).sum_eq]
    refine (splitWeighs_total splits).trans ?_
    rw [weights_mono grown₂ inside]
    exact lighter
  have operands : ∀ t ∈ (triples.mergeSort fun a b => (compareTriples cmp a b).isLE).foldl
      foldTriple [], t.2.1 < arena₂.nodes.length ∧ t.2.2 < arena₂.nodes.length := by
    intro t member
    obtain ⟨_, same⟩ := foldl_foldTriple (fun _ => (0 : E))
      (triples.mergeSort fun a b => (compareTriples cmp a b).isLE) []
    have listed := (same t.2).mp (List.mem_map_of_mem member)
    rw [List.map_nil, List.mem_nil_iff, false_or] at listed
    obtain ⟨t', isTriple, sameOperands⟩ := List.mem_map.mp listed
    obtain ⟨_, _, splits⟩ := exists_of_mem_right splits (order.mem_iff.mp isTriple)
    rw [← sameOperands]
    exact ⟨splits.first, splits.second⟩
  generalize (triples.mergeSort fun a b => (compareTriples cmp a b).isLE).foldl foldTriple []
    = folded at *
  refine (settles_mapM (fun arena' t (term : NodeId × Expr E) =>
      Weighs arena' (arena₂.weight t.2.1 * arena₂.weight t.2.2) term.1 ∧
        arena'.nodes[term.1]? = some term.2)
    (fun grown _ made => made.imp (fun weighs => weighs.mono grown) (getElem?_mono grown)) sound₂
    fun t member {arena'} grown sound' => ?_).bind fun {terms arena₃} grown₃ sound₃ made => ?_
  · obtain ⟨first, second⟩ := operands t member
    have weights : arena'.weight t.2.1 * arena'.weight t.2.2 =
        arena₂.weight t.2.1 * arena₂.weight t.2.2 := by
      rw [weight_mono grown first, weight_mono grown second]
    have lighter : arena'.weight t.2.1 * arena'.weight t.2.2 ≤ arena.weights l := by
      rw [weights]
      exact (List.le_sum_of_mem (List.mem_map_of_mem member)).trans product
    refine (products sound' (lt_of_lt_of_le first grown.1.length_le)
      (lt_of_lt_of_le second grown.1.length_le) lighter).bind fun {x arena₄} _ sound₄ weighs => ?_
    obtain ⟨v, found⟩ : ∃ v, arena₄.nodes[x]? = some v :=
      ⟨_, List.getElem?_eq_getElem weighs.inArena⟩
    exact settles_nodeAt_bind (f := fun _ _ => _) found
      (settles_pure sound₄ ⟨weighs.weaken weights.le, found⟩)
  · have found : ∀ term ∈ terms, arena₃.nodes[term.1]? = some term.2 := by
      intro term isTerm
      obtain ⟨t, _, made⟩ := exists_of_mem_right made isTerm
      exact made.2
    have total : arena₃.weights (terms.map Prod.fst) ≤ arena.weights l :=
      (weights_le_of_forall₂ (List.forall₂_map_right_iff.mpr
        (made.imp fun _ _ made => made.1))).trans product
    exact (settles_assemble sound₃ found precious).mono fun _ _ weighs =>
      weighs.weaken (by omega)

/-- **The constructors terminate**, on operands of every weight. -/
theorem terminates (ε : Type) (cmp : E → E → Ordering) (excuse : Prop) (bound : Nat) :
    Terminates ε cmp excuse bound := by
  induction bound using Nat.strong_induction_on with
  | _ bound ih =>
    have products : ∀ {arena : Arena E} {e : E} {a b : NodeId}, arena.Sound excuse →
        a < arena.nodes.length → b < arena.nodes.length →
        arena.weight a * arena.weight b ≤ bound →
        Settles (Arena.Sound excuse) (ZeroCoefficient excuse) arena
          (fun fuel => (Algsimp.quadratic cmp fuel e a b : Build ε E NodeId))
          fun arena' => Weighs arena' (arena.weight a * arena.weight b) :=
      fun sound first second lighter => settles_quadratic
        (fun less isLess => ih less (lt_of_lt_of_le isLess lighter)) sound first second
    exact ⟨fun sound bounds lighter => settles_sum
      (fun sound' first second less => products sound' first second (less.trans lighter)) sound
      bounds, products⟩

/-! ### All constructors -/

/-- A call of a constructor. -/
inductive Call (E : Type) where
  | sum (l : List NodeId) (precious : Bool)
  | constant (elt : E)
  | linear (elt : E) (x : NodeId)
  | quadratic (elt : E) (a b : NodeId)
  deriving DecidableEq, Repr

/-- The nodes a call is given. -/
def Call.operands : Call E → List NodeId
  | .sum l _ => l
  | .constant _ => []
  | .linear _ x => [x]
  | .quadratic _ a b => [a, b]

/-- Run a call with some fuel. -/
def Call.run (cmp : E → E → Ordering) (fuel : Nat) : Call E → Build ε E NodeId
  | .sum l precious => Algsimp.sum cmp fuel l precious
  | .constant elt => Algsimp.constant elt
  | .linear elt x => Algsimp.linear cmp fuel elt x
  | .quadratic elt a b => Algsimp.quadratic cmp fuel elt a b

/-- The value a call asks for, from the values of its operands. -/
def Call.value (inputs : Nat → E) (arena : Arena E) : Call E → E
  | .sum l _ => (l.map (arena.value inputs)).sum
  | .constant elt => elt
  | .linear elt x => elt * arena.value inputs x
  | .quadratic elt a b => elt * (arena.value inputs a * arena.value inputs b)

/-- A product of coefficient zero is in the arena. No constructor makes one. -/
def HasZero (arena : Arena E) : Prop := ∃ x y, Expr.quadratic 0 x y ∈ arena.nodes

variable (cmp) in
theorem settles_call {call : Call E} (sound : arena.Sound excuse)
    (operands : ∀ x ∈ call.operands, x < arena.nodes.length) :
    Settles (Arena.Sound excuse) (ZeroCoefficient excuse) arena
      (fun fuel => (call.run cmp fuel : Build ε E NodeId)) fun _ _ => True := by
  cases call with
  | sum l precious =>
    exact ((terminates ε cmp excuse _).sum sound operands le_rfl).mono fun _ _ _ => trivial
  | constant elt => exact (settles_constant sound elt).mono fun _ _ _ => trivial
  | linear elt x =>
    exact (settles_linear (fun bound _ => terminates ε cmp excuse bound) sound
      (operands x (List.mem_singleton_self x))).mono fun _ _ _ => trivial
  | quadratic elt a b =>
    exact ((terminates ε cmp excuse _).quadratic sound (operands a (by simp [Call.operands]))
      (operands b (by simp [Call.operands])) le_rfl).mono fun _ _ _ => trivial

theorem ensures_call (inputs : Nat → E) (fuel : Nat) {call : Call E} (formed : arena.WellFormed)
    (operands : ∀ x ∈ call.operands, x < arena.nodes.length) :
    Ensures Arena.WellFormed arena (call.run cmp fuel : Build ε E NodeId) fun arena' x =>
      x < arena'.nodes.length ∧ arena'.value inputs x = call.value inputs arena := by
  have denoted : ∀ {arena' : Arena E} {x : NodeId} {v : E} {kept : NodeId → Prop},
      Denotes inputs arena' x v kept → x < arena'.nodes.length ∧ arena'.value inputs x = v :=
    fun denotes => ⟨denotes.bound, denotes.value⟩
  cases call with
  | sum l precious =>
    exact ((correct ε cmp inputs fuel).sum formed operands).mono fun _ _ => denoted
  | constant elt => exact (ensures_constant inputs formed elt).mono fun _ _ => denoted
  | linear elt x =>
    exact ((correct ε cmp inputs fuel).linear formed
      (operands x (List.mem_singleton_self x))).mono fun _ _ => denoted
  | quadratic elt a b =>
    exact ((correct ε cmp inputs fuel).quadratic formed (operands a (by simp [Call.operands]))
      (operands b (by simp [Call.operands]))).mono fun _ _ => denoted

/-- **Every constructor terminates, and the node it returns has the value that was asked for**, on
every input. It ends in a panic only if a product of coefficient zero was in the arena before, and
makes no such product. -/
theorem constructors_preserve {ε E : Type} [Field E] [DecidableEq E] (cmp : E → E → Ordering)
    {arena : Arena E} (formed : arena.WellFormed) (call : Call E)
    (operands : ∀ x ∈ call.operands, x < arena.nodes.length) :
    ∃ enough, (∀ fuel, enough ≤ fuel →
        (call.run cmp fuel : Build ε E NodeId).run arena = (call.run cmp enough).run arena) ∧
      ((∃ x arena', (call.run cmp enough : Build ε E NodeId).run arena = .ok (x, arena') ∧
          x < arena'.nodes.length ∧ (∀ inputs, arena'.value inputs x = call.value inputs arena) ∧
          arena ≤ arena' ∧ arena'.WellFormed ∧ (HasZero arena' → HasZero arena)) ∨
        ((call.run cmp enough : Build ε E NodeId).run arena =
          .error (.panic "assertion failed: !self.f.is_zero(e)") ∧ HasZero arena)) := by
  have sound : arena.Sound (HasZero arena) := ⟨formed, fun {x y} member => ⟨x, y, member⟩⟩
  rcases settles_call (ε := ε) cmp sound operands with
    ⟨x, arena', enough, ran, grown, sound', _⟩ | ⟨enough, ran, rfl, excused⟩
  · refine ⟨enough, fun fuel more => by rw [ran fuel more, ran enough le_rfl], .inl ?_⟩
    have ends := ran enough le_rfl
    obtain ⟨_, _, bound, _⟩ := (ensures_call (fun _ => 0) enough formed operands).ran ends
    refine ⟨x, arena', ends, bound, fun inputs => ?_, grown, sound'.formed, ?_⟩
    · exact ((ensures_call inputs enough formed operands).ran ends).2.2.2
    · rintro ⟨y, z, member⟩
      exact sound'.coefficients member
  · exact ⟨enough, fun fuel more => by rw [ran fuel more, ran enough le_rfl],
      .inr ⟨ran enough le_rfl, excused⟩⟩

/-- Two inputs, their sum and twice their product. -/
def sampleArena : Arena ℚ := ⟨[.input 0, .input 1, .sum [0, 1] false, .quadratic 2 0 1], []⟩

theorem wellFormed_sampleArena : sampleArena.WellFormed := by
  have first : (⟨[.input 0], []⟩ : Arena ℚ).WellFormed :=
    wellFormed_new.append (v := .input 0) (by simp [Expr.children]) (by simp)
  have second : (⟨[.input 0, .input 1], []⟩ : Arena ℚ).WellFormed :=
    first.append (v := .input 1) (by simp [Expr.children]) (by simp)
  have third : (⟨[.input 0, .input 1, .sum [0, 1] false], []⟩ : Arena ℚ).WellFormed :=
    second.append (v := .sum [0, 1] false) (by simp [Expr.children]) (by simp)
  exact third.append (v := .quadratic 2 0 1) (by simp [Expr.children]) (by simp)

/-- The product distributes over the sum. -/
theorem constructors_preserve_sample :
    ∃ enough, (∀ fuel, enough ≤ fuel →
        ((Call.quadratic 3 3 2).run compare fuel : Build Unit ℚ NodeId).run sampleArena =
          ((Call.quadratic 3 3 2).run compare enough).run sampleArena) ∧
      ((∃ x arena', ((Call.quadratic 3 3 2).run compare enough : Build Unit ℚ NodeId).run
            sampleArena = .ok (x, arena') ∧ x < arena'.nodes.length ∧
          (∀ inputs, arena'.value inputs x = (Call.quadratic 3 3 2).value inputs sampleArena) ∧
          sampleArena ≤ arena' ∧ arena'.WellFormed ∧ (HasZero arena' → HasZero sampleArena)) ∨
        (((Call.quadratic 3 3 2).run compare enough : Build Unit ℚ NodeId).run sampleArena =
          .error (.panic "assertion failed: !self.f.is_zero(e)") ∧ HasZero sampleArena)) :=
  constructors_preserve compare wellFormed_sampleArena (.quadratic 3 3 2) (by decide)

end Algsimp

end Longfellow.Compile
