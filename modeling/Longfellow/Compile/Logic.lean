/-
**Circuits as programs** (`compile/logic/src/logic.rs`, `eval.rs`, `compile/compiler/src/
logic_impl.rs`).

A circuit is a program against the interface `Logic`: arithmetic on wires, assertions that a wire
is zero, and wires that carry assertions. The same program is evaluated directly, where a wire is a
value with the fates of the assertions it carries, and compiled, where a wire is a node of the
expression graph.

* `Op`, `runOps` — the steps of a program, over the wires and assertions made so far.
-/

import Longfellow.Compile.Algsimp
import Longfellow.Compile.Scope

namespace Longfellow.Compile

open Lib

variable {ε E : Type}

/-! ### The interface -/

/-- The operations on wires `W` and assertions `A`. -/
structure Logic (m : Type → Type) (E W A : Type) where
  zero : m W
  one : m W
  konst : E → m W
  precious : W → m W
  sum : List W → m W
  neg : W → m W
  add : W → W → m W
  sub : W → W → m W
  mul : W → W → m W
  mulk : E → W → m W
  quadratic : E → W → W → m W
  ok : m A
  assert0 : String → W → m A
  assertAll : String → List A → m A
  withAssertions : A → W → m W

/-- A call of an operation. Wires and assertions are referred to by the order they were made in. -/
inductive Op (E : Type) where
  | zero
  | one
  | konst (x : E)
  | precious (x : Nat)
  | sum (xs : List Nat)
  | neg (x : Nat)
  | add (x y : Nat)
  | sub (x y : Nat)
  | mul (x y : Nat)
  | mulk (e : E) (y : Nat)
  | quadratic (e : E) (x y : Nat)
  | ok
  | assert0 (name : String) (x : Nat)
  | assertAll (name : String) (assertions : List Nat)
  | withAssertions (assertions x : Nat)
  deriving DecidableEq, Repr

/-- The wires and assertions made so far. -/
structure Env (W A : Type) where
  wires : List W
  assertions : List A

section Programs

variable {m : Type → Type} [Monad m] [MonadLiftT (Exec ε) m] {W A : Type}

def Env.wire (env : Env W A) (i : Nat) : m W := liftM (getAt env.wires i : Exec ε W)

def Env.assertion (env : Env W A) (i : Nat) : m A := liftM (getAt env.assertions i : Exec ε A)

/-- The wire that an operation makes, or the assertions. -/
def Logic.call (l : Logic m E W A) (env : Env W A) : Op E → m (W ⊕ A)
  | .zero => .inl <$> l.zero
  | .one => .inl <$> l.one
  | .konst x => .inl <$> l.konst x
  | .precious x => do
    let x ← env.wire (ε := ε) x
    .inl <$> l.precious x
  | .sum xs => do
    let xs ← xs.mapM (env.wire (ε := ε))
    .inl <$> l.sum xs
  | .neg x => do
    let x ← env.wire (ε := ε) x
    .inl <$> l.neg x
  | .add x y => do
    let x ← env.wire (ε := ε) x
    let y ← env.wire (ε := ε) y
    .inl <$> l.add x y
  | .sub x y => do
    let x ← env.wire (ε := ε) x
    let y ← env.wire (ε := ε) y
    .inl <$> l.sub x y
  | .mul x y => do
    let x ← env.wire (ε := ε) x
    let y ← env.wire (ε := ε) y
    .inl <$> l.mul x y
  | .mulk e y => do
    let y ← env.wire (ε := ε) y
    .inl <$> l.mulk e y
  | .quadratic e x y => do
    let x ← env.wire (ε := ε) x
    let y ← env.wire (ε := ε) y
    .inl <$> l.quadratic e x y
  | .ok => .inr <$> l.ok
  | .assert0 name x => do
    let x ← env.wire (ε := ε) x
    .inr <$> l.assert0 name x
  | .assertAll name assertions => do
    let assertions ← assertions.mapM (env.assertion (ε := ε))
    .inr <$> l.assertAll name assertions
  | .withAssertions assertions x => do
    let assertions ← env.assertion (ε := ε) assertions
    let x ← env.wire (ε := ε) x
    .inl <$> l.withAssertions assertions x

/-- One more wire, or one more group of assertions. -/
def Env.push (env : Env W A) : W ⊕ A → Env W A
  | .inl wire => { env with wires := env.wires ++ [wire] }
  | .inr assertions => { env with assertions := env.assertions ++ [assertions] }

/-- Run a program and return one group of the assertions it makes. -/
def Logic.runOps (l : Logic m E W A) (wires : List W) (ops : List (Op E)) (result : Nat) :
    m A := do
  let env ← ops.foldlM (fun env op => do
    let made ← l.call (ε := ε) env op
    pure (env.push made)) ⟨wires, []⟩
  env.assertion (ε := ε) result

/-- A call that reads and writes the scope. -/
def onScope {α : Type} (f : AssertionScope → Exec ε (α × AssertionScope)) :
    StateT AssertionScope m α := fun scope => liftM (f scope)

def newLeaf (name : String) : StateT AssertionScope m AssertionId :=
  onScope (ε := ε) fun scope => pure (scope.newLeaf name)

def prependScope (id : AssertionId) (name : String) : StateT AssertionScope m Unit :=
  onScope (ε := ε) fun scope => do
    let scope ← scope.prependScope id name
    pure ((), scope)

def find (id : AssertionId) : StateT AssertionScope m AssertionId :=
  onScope (ε := ε) fun scope => scope.find id

end Programs

/-! ### Direct evaluation -/

/-- A value, and the fates of the assertions the wire carries. -/
structure EvalWire (E : Type) where
  value : E
  assertions : Fates

/-- A wire without assertions. -/
def EvalWire.ok (value : E) : EvalWire E := ⟨value, ∅⟩

/-- Assertions of the program, and assertions that the asserted wires carry. -/
structure EvalAssertions where
  scopedItems : Fates
  unscopedItems : Fates

/-- The assertions of both, those of `right` where both have one. -/
def mergeAssertions (left right : Fates) : Fates :=
  if left.entries = [] then right
  else if right.entries = [] then left
  else right ∪ left

def EvalAssertions.allItems (assertions : EvalAssertions) : Fates :=
  mergeAssertions assertions.scopedItems assertions.unscopedItems

/-- Some assertion failed. -/
def EvalAssertions.isErr (assertions : EvalAssertions) : Bool := !assertions.allItems.isOk

/-- Code that evaluates in a scope. -/
abbrev Evaluating (ε : Type) := StateT AssertionScope (Exec ε)

namespace EvalLogic

variable [CommRing E] [DecidableEq E]

def combine (x y : EvalWire E) (value : E) : EvalWire E :=
  ⟨value, mergeAssertions x.assertions y.assertions⟩

def sum (xs : List (EvalWire E)) : EvalWire E :=
  xs.foldl (fun acc x => ⟨acc.value + x.value, mergeAssertions acc.assertions x.assertions⟩)
    (EvalWire.ok 0)

def assert0 (debug : E → String) (name : String) (x : EvalWire E) :
    Evaluating ε EvalAssertions := do
  liftM (ensure (name ≠ "") "assert0 requires a non-empty name" : Exec ε Unit)
  let status := if x.value = 0 then AssertionStatus.passed
    else .failed ("expected zero, got " ++ debug x.value)
  let id ← newLeaf (ε := ε) name
  pure ⟨AList.insert id status ∅, x.assertions⟩

/-- The assertions of some groups, together. -/
def mergeAll (assertions : List EvalAssertions) : EvalAssertions :=
  assertions.foldl (fun acc a => ⟨mergeAssertions acc.scopedItems a.scopedItems,
    mergeAssertions acc.unscopedItems a.unscopedItems⟩) ⟨∅, ∅⟩

def assertAll (name : String) (assertions : List EvalAssertions) :
    Evaluating ε EvalAssertions := do
  liftM (ensure (name ≠ "") "assert_all requires a non-empty name" : Exec ε Unit)
  let merged := mergeAll assertions
  merged.scopedItems.keys.forM fun id => prependScope (ε := ε) id name
  pure merged

def withAssertions (assertions : EvalAssertions) (x : EvalWire E) : EvalWire E :=
  ⟨x.value, mergeAssertions x.assertions
    (mergeAssertions assertions.scopedItems assertions.unscopedItems)⟩

end EvalLogic

/-- Direct evaluation. -/
def evalLogic [CommRing E] [DecidableEq E] (debug : E → String) :
    Logic (Evaluating ε) E (EvalWire E) EvalAssertions where
  zero := pure (.ok 0)
  one := pure (.ok 1)
  konst x := pure (.ok x)
  precious x := pure x
  sum xs := pure (EvalLogic.sum xs)
  neg x := pure ⟨-x.value, x.assertions⟩
  add x y := pure (EvalLogic.combine x y (x.value + y.value))
  sub x y := pure (EvalLogic.combine x y (x.value - y.value))
  mul x y := pure (EvalLogic.combine x y (x.value * y.value))
  mulk e y := pure ⟨e * y.value, y.assertions⟩
  quadratic e x y := pure (EvalLogic.combine x y (e * (x.value * y.value)))
  ok := pure ⟨∅, ∅⟩
  assert0 := EvalLogic.assert0 debug
  assertAll := EvalLogic.assertAll
  withAssertions assertions x := pure (EvalLogic.withAssertions assertions x)

/-! ### Compilation -/

variable [CommRing E] [DecidableEq E]

/-- The assertions around a node, outermost first, and the node inside. -/
def extractAssertions : Nat → NodeId → Build ε E (List (List AssertionItem) × NodeId)
  | 0, _ => liftM (abort "out of fuel" : Exec ε _)
  | fuel + 1, x => do
    let v ← nodeAt x
    match v with
    | .withAssertions assertions y => do
      let (more, inner) ← extractAssertions fuel y
      pure (assertions :: more, inner)
    | _ => pure ([], x)

def promoteSumToPrecious (cmp : E → E → Ordering) (fuel : Nat) (x : NodeId) :
    Build ε E NodeId := do
  let (assertions, inner) ← extractAssertions fuel x
  let v ← nodeAt inner
  match v with
  | .sum elements _ => do
    let promoted ← Algsimp.sum cmp fuel elements true
    assertions.reverse.foldlM (fun acc a => Algsimp.withAssertions a acc) promoted
  | _ => pure x

/-- Code that compiles in a scope. -/
abbrev Compiling (ε E : Type) := StateT AssertionScope (Build ε E)

namespace CompilerLogic

def assert0 (fuel : Nat) (name : String) (x : NodeId) : Compiling ε E (List AssertionItem) := do
  liftM (ensure (name ≠ "") "assert0 requires a non-empty name" : Exec ε Unit)
  let id ← newLeaf (ε := ε) name
  let ownRaw ← liftM (Algsimp.assert0 fuel x : Build ε E (List NodeId))
  pure (ownRaw.map fun expr => ⟨expr, id⟩)

/-- The items taken over, the items seen, and the classes renamed. -/
structure Grouping where
  items : List AssertionItem
  seen : List (NodeId × AssertionId)
  seenRoots : List AssertionId

/-- Take over an item that was not seen before, and put a name in front of its class. -/
def takeItem (name : String) (state : Grouping) (item : AssertionItem) :
    Compiling ε E Grouping :=
  if (item.expr, item.id) ∈ state.seen then pure state
  else do
    let root ← find (ε := ε) item.id
    if root ∈ state.seenRoots then
      pure ⟨state.items ++ [item], state.seen ++ [(item.expr, item.id)], state.seenRoots⟩
    else do
      prependScope (ε := ε) item.id name
      pure ⟨state.items ++ [item], state.seen ++ [(item.expr, item.id)], state.seenRoots ++ [root]⟩

def assertAll (name : String) (assertions : List (List AssertionItem)) :
    Compiling ε E (List AssertionItem) := do
  liftM (ensure (name ≠ "") "assert_all requires a non-empty name" : Exec ε Unit)
  let state ← assertions.flatten.foldlM (takeItem name) ⟨[], [], []⟩
  pure state.items

end CompilerLogic

/-- Compilation through the algebraic rewriter. -/
def compilerLogic (cmp : E → E → Ordering) (fuel : Nat) :
    Logic (Compiling ε E) E NodeId (List AssertionItem) where
  zero := liftM (Algsimp.constant 0 : Build ε E NodeId)
  one := liftM (Algsimp.one : Build ε E NodeId)
  konst x := liftM (Algsimp.constant x : Build ε E NodeId)
  precious x := liftM (promoteSumToPrecious cmp fuel x : Build ε E NodeId)
  sum xs := liftM (Algsimp.sum cmp fuel xs false : Build ε E NodeId)
  neg x := liftM (Algsimp.linear cmp fuel (-1) x : Build ε E NodeId)
  add x y := liftM (Algsimp.sum cmp fuel [x, y] false : Build ε E NodeId)
  sub x y := do
    let negated ← liftM (Algsimp.linear cmp fuel (-1) y : Build ε E NodeId)
    liftM (Algsimp.sum cmp fuel [x, negated] false : Build ε E NodeId)
  mul x y := liftM (Algsimp.quadratic cmp fuel 1 x y : Build ε E NodeId)
  mulk e y := liftM (Algsimp.linear cmp fuel e y : Build ε E NodeId)
  quadratic e x y := liftM (Algsimp.quadratic cmp fuel e x y : Build ε E NodeId)
  ok := pure []
  assert0 := CompilerLogic.assert0 fuel
  assertAll := CompilerLogic.assertAll
  withAssertions assertions x :=
    liftM (Algsimp.withAssertions assertions x : Build ε E NodeId)

/-- The node of an input. Position 0 is reserved for the constant one. -/
def input (positionInInputArray : Nat) : Build ε E NodeId := do
  liftM (ensure (positionInInputArray > 0)
    "position_in_input_array = 0 is reserved for the constant One" : Exec ε Unit)
  Cse.input positionInInputArray

/-! ### Programs on inputs -/

/-- Evaluate a program on the given inputs. -/
def evalProgram (debug : E → String) (inputs : List E) (ops : List (Op E)) (result : Nat) :
    Exec ε EvalAssertions := do
  let (assertions, _) ← ((evalLogic debug : Logic (Evaluating ε) E _ _).runOps (ε := ε)
    (inputs.map EvalWire.ok) ops result).run AssertionScope.new
  pure assertions

/-- Compile a program of `ninputs` inputs: its assertions, and the arena they are in. -/
def compileProgram (cmp : E → E → Ordering) (fuel ninputs : Nat) (ops : List (Op E))
    (result : Nat) : Exec ε (List AssertionItem × Arena E) := do
  let (wires, arena) ← (((List.range ninputs).mapM fun i => input (i + 1)) :
    Build ε E (List NodeId)).run Arena.new
  let ((items, _), arena) ← (((compilerLogic cmp fuel).runOps (ε := ε) wires ops result :
    Compiling ε E (List AssertionItem)).run AssertionScope.new).run arena
  pure (items, arena)

end Longfellow.Compile
