/-
**The expression graph of the compiler** (`compile/compiler/src/ir.rs`, `node.rs`, `arena.rs`,
`cse.rs`).

Expressions are nodes of an arena, referred to by number, each behind the nodes it refers to. The
arena is built through a memo table: an expression that is in the arena is not added again. A node
may carry assertions that its value alone does not show; they are attached to every node above it.

* `Denotes` — a node with a known value that keeps given assertions; `Denotes.mono`: it stays so.
-/

import Longfellow.Compile.Eval
import Longfellow.Lib.Grow
import Longfellow.Lib.Tabulate

set_option linter.unusedSectionVars false

namespace Longfellow.Compile

open Lib

/-! ### Expressions -/

/-- The number of a node, in the order of allocation. -/
abbrev NodeId := Nat

/-- An assertion that a node is zero. -/
structure AssertionItem where
  expr : NodeId
  id : AssertionId
  deriving DecidableEq, Repr

/-- An expression over the nodes of an arena. -/
inductive Expr (E : Type) where
  | input (positionInInputArray : Nat)
  | sum (elements : List NodeId) (precious : Bool)
  | one
  | constant (elt : E)
  | linear (elt : E) (x : NodeId)
  | quadratic (elt : E) (x y : NodeId)
  | withAssertions (assertions : List AssertionItem) (x : NodeId)
  deriving DecidableEq, Repr

variable {ε E : Type}

/-- The nodes an expression refers to. -/
def Expr.children : Expr E → List NodeId
  | .input _ | .one | .constant _ => []
  | .sum elements _ => elements
  | .linear _ x => [x]
  | .quadratic _ x y => [x, y]
  | .withAssertions assertions x => x :: assertions.map AssertionItem.expr

/-- The nodes allocated so far. `discarded` is a ghost that no code reads: the operands that were
multiplied by a coefficient of zero, and are in no product any more. -/
structure Arena (E : Type) where
  nodes : List (Expr E)
  discarded : List NodeId
  deriving DecidableEq, Repr

/-- An arena without nodes. -/
def Arena.new : Arena E := ⟨[], []⟩

/-- Code that builds expressions. -/
abbrev Build (ε E : Type) := StateT (Arena E) (Exec ε)

/-- The expression of a node. -/
def nodeAt (x : NodeId) : Build ε E (Expr E) := do
  let arena ← get
  liftM (getAt arena.nodes x : Exec ε (Expr E))

/-- Note operands that go out of use. -/
def discard (xs : List NodeId) : Build ε E Unit :=
  modify fun arena => { arena with discarded := arena.discarded ++ xs }

/-! ### Common subexpressions -/

variable [DecidableEq E]

/-- The node of an expression, allocated if there is none. -/
def memoExpr (v : Expr E) : Build ε E NodeId := do
  let arena ← get
  match arena.nodes.idxOf? v with
  | some node => pure node
  | none => do
    set { arena with nodes := arena.nodes ++ [v] }
    pure arena.nodes.length

namespace Cse

def assert0 (x : NodeId) : List NodeId := [x]

def input (positionInInputArray : Nat) : Build ε E NodeId := memoExpr (.input positionInInputArray)

def sum (elements : List NodeId) (precious : Bool) : Build ε E NodeId :=
  memoExpr (.sum (elements.mergeSort (· ≤ ·)) precious)

def constant (elt : E) : Build ε E NodeId := memoExpr (.constant elt)

def linear (elt : E) (x : NodeId) : Build ε E NodeId := memoExpr (.linear elt x)

def quadratic (elt : E) (x y : NodeId) : Build ε E NodeId :=
  memoExpr (if x < y then .quadratic elt x y else .quadratic elt y x)

def withAssertions (assertions : List AssertionItem) (x : NodeId) : Build ε E NodeId :=
  memoExpr (.withAssertions assertions x)

end Cse

/-! ### Meaning -/

variable [CommRing E] (inputs : Nat → E)

/-- The value of an expression from the values of the nodes below. -/
def Expr.value (values : NodeId → E) : Expr E → E
  | .input positionInInputArray => inputs positionInInputArray
  | .sum elements _ => (elements.map values).sum
  | .one => 1
  | .constant elt => elt
  | .linear elt x => elt * values x
  | .quadratic elt x y => elt * (values x * values y)
  | .withAssertions _ x => values x

/-- The assertions at an expression and below, from those at the nodes below. -/
def Expr.attached (below : NodeId → List NodeId) : Expr E → List NodeId
  | .withAssertions assertions x =>
    (assertions.flatMap fun item => item.expr :: below item.expr) ++ below x
  | expr => expr.children.flatMap below

/-- What `step` makes of a node from what it makes of the nodes below, `d` outside the arena. -/
def Arena.fold {E α : Type} (d : α) (step : (NodeId → α) → Expr E → α) (arena : Arena E)
    (x : NodeId) : α :=
  (tabulate (fun below expr => step (fun x => below.getD x d) expr) arena.nodes).getD x d

/-- The value of a node. -/
def Arena.value (arena : Arena E) (x : NodeId) : E :=
  (tabulate (fun values expr => Expr.value inputs (fun x => values.getD x 0) expr)
    arena.nodes).getD x 0

/-- The nodes of the assertions that are attached to a node or to a node below. -/
def Arena.attachedTo (arena : Arena E) (x : NodeId) : List NodeId :=
  (tabulate (fun below expr => Expr.attached (fun x => below.getD x []) expr) arena.nodes).getD x []

/-! ### Arenas grow -/

instance : Preorder (Arena E) where
  le arena arena' := arena.nodes <+: arena'.nodes ∧ arena.discarded <+: arena'.discarded
  le_refl _ := ⟨List.prefix_rfl, List.prefix_rfl⟩
  le_trans _ _ _ first second := ⟨first.1.trans second.1, first.2.trans second.2⟩

/-- Nodes refer to nodes before them, sums are not empty, and what was discarded is a node. -/
structure Arena.WellFormed (arena : Arena E) : Prop where
  descends : ∀ {i : NodeId} {expr : Expr E}, arena.nodes[i]? = some expr →
    ∀ x ∈ expr.children, x < i
  nonempty : ∀ {i : NodeId} {precious : Bool}, arena.nodes[i]? ≠ some (Expr.sum [] precious)
  discarded : ∀ x ∈ arena.discarded, x < arena.nodes.length

/-- Nothing that was discarded had an assertion attached to it. -/
def Arena.Clean (arena : Arena E) : Prop := ∀ x ∈ arena.discarded, arena.attachedTo x = []

instance (arena : Arena E) : Decidable arena.Clean :=
  inferInstanceAs (Decidable (∀ x ∈ arena.discarded, _))

variable {inputs} {arena arena' : Arena E}

section Grows

omit [DecidableEq E]

variable {α : Type} {x : NodeId}

theorem getD_prefix {xs ys : List α} (grown : xs <+: ys) {i : Nat} (bound : i < xs.length) (d : α) :
    ys.getD i d = xs.getD i d := by
  have found := List.getElem?_eq_getElem bound
  rw [List.getD_eq_getElem?_getD, List.getD_eq_getElem?_getD, found,
    getElem?_of_prefixed grown found]

omit [CommRing E] in
theorem fold_mono (d : α) (step : (NodeId → α) → Expr E → α) (grown : arena ≤ arena')
    (bound : x < arena.nodes.length) :
    arena'.fold d step x = arena.fold d step x :=
  getD_prefix ( tabulate_prefix grown.1) (by rwa [length_tabulate]) d

theorem value_mono (grown : arena ≤ arena') (bound : x < arena.nodes.length) :
    arena'.value inputs x = arena.value inputs x :=
  fold_mono 0 (Expr.value inputs) grown bound

theorem values_mono (grown : arena ≤ arena') {xs : List NodeId}
    (bounds : ∀ x ∈ xs, x < arena.nodes.length) :
    xs.map (arena'.value inputs) = xs.map (arena.value inputs) :=
  List.map_congr_left fun x member => value_mono grown (bounds x member)

theorem attachedTo_mono (grown : arena ≤ arena') (bound : x < arena.nodes.length) :
    arena'.attachedTo x = arena.attachedTo x :=
  fold_mono [] Expr.attached grown bound

variable {expr : Expr E}

theorem getElem?_mono (grown : arena ≤ arena') (found : arena.nodes[x]? = some expr) :
    arena'.nodes[x]? = some expr :=
  getElem?_of_prefixed grown.1 found

theorem Arena.WellFormed.clean_anti (formed : arena.WellFormed) (grown : arena ≤ arena')
    (clean : arena'.Clean) : arena.Clean := by
  intro x member
  rw [← attachedTo_mono grown (formed.discarded x member)]
  exact clean x (grown.2.subset member)

theorem getD_take (xs : List α) {i c : Nat} (below : c < i) (d : α) :
    (xs.take i).getD c d = xs.getD c d := by
  rw [List.getD_eq_getElem?_getD, List.getElem?_take_of_lt below, ← List.getD_eq_getElem?_getD]

variable {step : (NodeId → α) → Expr E → α}

omit [CommRing E] in
theorem fold_eq (d : α) (found : arena.nodes[x]? = some expr)
    (descends : ∀ c ∈ expr.children, c < x)
    (looks : ∀ {below below' : NodeId → α}, (∀ c ∈ expr.children, below c = below' c) →
      step below expr = step below' expr) :
    arena.fold d step x = step (arena.fold d step) expr := by
  rw [Arena.fold, List.getD_eq_getElem?_getD, getElem?_tabulate found, Option.getD_some]
  exact looks fun c member => getD_take _ (descends c member) d

omit [CommRing E] in
theorem Arena.WellFormed.fold_eq (d : α) (formed : arena.WellFormed)
    (found : arena.nodes[x]? = some expr)
    (looks : ∀ {below below' : NodeId → α}, (∀ c ∈ expr.children, below c = below' c) →
      step below expr = step below' expr) :
    arena.fold d step x = step (arena.fold d step) expr :=
  Compile.fold_eq d found (formed.descends found) looks

theorem value_eq (inputs : Nat → E) (found : arena.nodes[x]? = some expr)
    (descends : ∀ c ∈ expr.children, c < x) :
    arena.value inputs x = expr.value inputs (arena.value inputs) := by
  refine fold_eq 0 found descends fun {below below'} same => ?_
  cases expr with
  | input _ | one | constant _ => rfl
  | sum elements precious => exact congrArg List.sum (List.map_congr_left same)
  | linear elt y => exact congrArg (elt * ·) (same y (by simp [Expr.children]))
  | quadratic elt y z =>
    have first := same y (by simp [Expr.children])
    have second := same z (by simp [Expr.children])
    exact congrArg₂ (fun a b => elt * (a * b)) first second
  | withAssertions assertions y => exact same y (by simp [Expr.children])

theorem Arena.WellFormed.value_eq (inputs : Nat → E) (formed : arena.WellFormed)
    (found : arena.nodes[x]? = some expr) :
    arena.value inputs x = expr.value inputs (arena.value inputs) :=
  Compile.value_eq inputs found (formed.descends found)

theorem Arena.WellFormed.attachedTo_eq (formed : arena.WellFormed)
    (found : arena.nodes[x]? = some expr) :
    arena.attachedTo x = expr.attached arena.attachedTo := by
  refine formed.fold_eq [] found fun {below below'} same => ?_
  cases expr with
  | withAssertions assertions y =>
    refine congrArg₂ (· ++ ·) (List.flatMap_congr fun item member => ?_)
      (same y (by simp [Expr.children]))
    exact congrArg _ (same item.expr (List.mem_cons_of_mem _ (List.mem_map_of_mem member)))
  | input _ | one | constant _ => rfl
  | sum elements precious => exact List.flatMap_congr same
  | linear elt y => exact List.flatMap_congr same
  | quadratic elt y z => exact List.flatMap_congr same

end Grows

variable {inv : Arena E → Prop} {v : Expr E}

theorem ensures_nodeAt_bind {α : Type} {f : Expr E → Build ε E α}
    {post : Arena E → α → Prop}
    (next : ∀ {expr}, arena.nodes[x]? = some expr → Ensures inv arena (f expr) post) :
    Ensures inv arena (nodeAt x >>= f) post := by
  rw [nodeAt, bind_assoc]
  refine ensures_get_bind (ensures_lift_bind fun read => ?_)
  exact next (getAt_eq_ok.mp read)

theorem ensures_nodeAt (formed : arena.WellFormed) (x : NodeId) :
    Ensures Arena.WellFormed arena (nodeAt x : Build ε E (Expr E)) fun arena' v =>
      arena'.nodes[x]? = some v := by
  rw [← bind_pure (nodeAt x)]
  exact ensures_nodeAt_bind fun found => ensures_pure formed found

theorem ensures_mapM_nodeAt (formed : arena.WellFormed) (l : List NodeId) :
    Ensures Arena.WellFormed arena (l.mapM nodeAt : Build ε E (List (Expr E))) fun arena' exprs =>
      List.Forall₂ (fun x v => arena'.nodes[x]? = some v) l exprs :=
  ensures_mapM (fun arena' x v => arena'.nodes[x]? = some v)
    (fun grown _ found => getElem?_mono grown found) formed
    fun x _ _ _ formed' => ensures_nodeAt formed' x

theorem wellFormed_new : (Arena.new : Arena E).WellFormed :=
  ⟨by simp [Arena.new], by simp [Arena.new], by simp [Arena.new]⟩

theorem Arena.WellFormed.append (formed : arena.WellFormed)
    (children : ∀ x ∈ v.children, x < arena.nodes.length)
    (nonempty : ∀ precious, v ≠ .sum [] precious) :
    (⟨arena.nodes ++ [v], arena.discarded⟩ : Arena E).WellFormed := by
  have split : ∀ {i : NodeId} {expr : Expr E}, (arena.nodes ++ [v])[i]? = some expr →
      arena.nodes[i]? = some expr ∨ i = arena.nodes.length ∧ expr = v := by
    intro i expr found
    rcases Nat.lt_trichotomy i arena.nodes.length with below | rfl | above
    · rw [List.getElem?_append_left below] at found
      exact .inl found
    · rw [List.getElem?_concat_length] at found
      exact .inr ⟨rfl, (Option.some.inj found).symm⟩
    · rw [List.getElem?_eq_none (by rw [List.length_append, List.length_singleton]; omega)] at found
      cases found
  refine ⟨fun {i expr} found x member => ?_, fun {i precious} found => ?_, fun x member => ?_⟩
  · rcases split found with old | ⟨rfl, rfl⟩
    · exact formed.descends old x member
    · exact children x member
  · rcases split found with old | ⟨_, same⟩
    · exact formed.nonempty old
    · exact nonempty precious same.symm
  · exact lt_of_lt_of_le (formed.discarded x member) (List.prefix_append ..).length_le

theorem ensures_memo (holds : inv arena)
    (appended : inv ⟨arena.nodes ++ [v], arena.discarded⟩) :
    Ensures inv arena (memoExpr v : Build ε E NodeId) fun arena' x =>
      arena'.nodes[x]? = some v := by
  refine ensures_get_bind ?_
  split
  · rename_i node found
    obtain ⟨bound, here, _⟩ := List.idxOf?_eq_some_iff.mp found
    exact ensures_pure holds (by rw [List.getElem?_eq_getElem bound, here])
  · refine ⟨fun ran => ?_⟩
    obtain ⟨rfl, rfl⟩ := Prod.mk.inj (Except.ok.inj ran)
    exact ⟨⟨List.prefix_append .., List.prefix_rfl⟩, appended, List.getElem?_concat_length⟩

/-- **A memoized expression is in the arena.** -/
theorem ensures_memoExpr (formed : arena.WellFormed)
    (children : ∀ x ∈ v.children, x < arena.nodes.length)
    (nonempty : ∀ precious, v ≠ .sum [] precious) :
    Ensures Arena.WellFormed arena (memoExpr v : Build ε E NodeId) fun arena' x =>
      arena'.nodes[x]? = some v :=
  ensures_memo formed (formed.append children nonempty)

theorem ensures_discard (formed : arena.WellFormed) {xs : List NodeId}
    (bounds : ∀ x ∈ xs, x < arena.nodes.length) :
    Ensures Arena.WellFormed arena (discard xs : Build ε E Unit) fun arena' _ =>
      ∀ x ∈ xs, x ∈ arena'.discarded := by
  refine ⟨fun ran => ?_⟩
  obtain ⟨rfl, rfl⟩ := Prod.mk.inj (Except.ok.inj ran)
  refine ⟨⟨List.prefix_rfl, List.prefix_append ..⟩, ?_, fun x member => ?_⟩
  · refine ⟨formed.descends, formed.nonempty, fun x member => ?_⟩
    rcases List.mem_append.mp member with old | new
    · exact formed.discarded x old
    · exact bounds x new
  · exact List.mem_append_right _ member

/-! ### What a node denotes -/

/-- A node with a value, to which the given assertions are attached, unless something with an
assertion was discarded. -/
structure Denotes (inputs : Nat → E) (arena : Arena E) (x : NodeId) (v : E)
    (kept : NodeId → Prop) : Prop where
  bound : x < arena.nodes.length
  value : arena.value inputs x = v
  keeps : arena.Clean → ∀ {a}, kept a → a ∈ arena.attachedTo x

variable {v : E} {kept : NodeId → Prop}

theorem Denotes.mono (denotes : Denotes inputs arena x v kept) (formed : arena.WellFormed)
    (grown : arena ≤ arena') : Denotes inputs arena' x v kept where
  bound := lt_of_lt_of_le denotes.bound grown.1.length_le
  value := by rw [value_mono grown denotes.bound, denotes.value]
  keeps clean a isKept := by
    rw [attachedTo_mono grown denotes.bound]
    exact denotes.keeps (formed.clean_anti grown clean) isKept

theorem denotes_self (bound : x < arena.nodes.length) :
    Denotes inputs arena x (arena.value inputs x) fun a => a ∈ arena.attachedTo x :=
  ⟨bound, rfl, fun _ _ isKept => isKept⟩

theorem Denotes.weaken {kept' : NodeId → Prop} {v' : E} (denotes : Denotes inputs arena x v kept)
    (same : v = v') (weaker : arena.Clean → ∀ {a}, kept' a → kept a) :
    Denotes inputs arena x v' kept' :=
  ⟨denotes.bound, denotes.value.trans same,
    fun clean _ isKept => denotes.keeps clean (weaker clean isKept)⟩

theorem Arena.WellFormed.denotes (formed : arena.WellFormed) {expr : Expr E}
    (found : arena.nodes[x]? = some expr) :
    Denotes inputs arena x (expr.value inputs (arena.value inputs)) fun a =>
      a ∈ expr.attached arena.attachedTo where
  bound := (List.getElem?_eq_some_iff.mp found).1
  value := formed.value_eq inputs found
  keeps _ a isKept := by rwa [formed.attachedTo_eq found]

end Longfellow.Compile
