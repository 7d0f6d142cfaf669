/-
**Algebraic simplification** (`compile/compiler/src/algsimp.rs`).

The rewriter keeps sums flat, folds equal products and constants, distributes products over short
sums, and drops what is multiplied by zero. It calls itself: `sum` folds its terms through
`quadratic`, which distributes through `sum`. The recursion is bounded by a fuel here; running out
of it is a panic.

* `correct` — **every operation returns a node of the right value, to which the assertions of its
  operands are attached unless one was discarded with a coefficient of zero.**
-/

import Longfellow.Compile.Ir
import Mathlib.Algebra.BigOperators.Ring.List

set_option linter.unusedSectionVars false

namespace Longfellow.Compile

open Lib

variable {ε E : Type} [CommRing E] [DecidableEq E]

/-! ### The rewriter -/

/-- The coefficient and the two operands of a product. -/
abbrev Triple (E : Type) := E × NodeId × NodeId

namespace Algsimp

def constant (elt : E) : Build ε E NodeId := Cse.constant elt

/-- The constant one. -/
def one : Build ε E NodeId := constant 1

/-- The elements of a sum that is not precious. -/
def ordinarySum? : Expr E → Option (List NodeId)
  | .sum inner false => some inner
  | _ => none

/-- What an element of a sum is flattened to. A precious sum stays whole, unless the same sum occurs
as an ordinary one as well. -/
def flatten (ordinarySums : List (List NodeId)) (x : NodeId) : Expr E → List NodeId
  | .sum inner false => inner
  | .sum inner true => if inner ∈ ordinarySums then inner else [x]
  | _ => [x]

def flattenSum (l : List NodeId) : Build ε E (List NodeId) := do
  let exprs ← l.mapM nodeAt
  let ordinarySums := exprs.filterMap ordinarySum?
  pure (List.zipWith (flatten ordinarySums) l exprs).flatten

def isLowDegree : Expr E → Bool
  | .quadratic .. | .sum _ true => false
  | _ => true

def lowDegree (x : NodeId) : Build ε E Bool := do
  let v ← nodeAt x
  pure (isLowDegree v)

def groundLinear (e : E) (x : NodeId) : Build ε E NodeId := do
  liftM (ensure (e ≠ 0) "assertion failed: !self.f.is_zero(e)" : Exec ε Unit)
  Cse.linear e x

def groundQuadratic (e : E) (a b : NodeId) : Build ε E NodeId := do
  liftM (ensure (e ≠ 0) "assertion failed: !self.f.is_zero(e)" : Exec ε Unit)
  Cse.quadratic e a b

/-- The smaller operand first. -/
def canonical (e : E) (x y : NodeId) : Triple E := if x < y then (e, x, y) else (e, y, x)

/-- A node as a product. -/
def unquadratic (n : NodeId) : Build ε E (Triple E) := do
  let v ← nodeAt n
  match v with
  | .quadratic e x y => pure (canonical e x y)
  | .linear e x => do
    let unit ← one
    pure (canonical e unit x)
  | .constant e => do
    let unit ← one
    pure (e, unit, unit)
  | _ => do
    let unit ← one
    pure (canonical 1 unit n)

/-- By operands, then by the order of the field. -/
def compareTriples (cmp : E → E → Ordering) (t s : Triple E) : Ordering :=
  (compare t.2.1 s.2.1).then ((compare t.2.2 s.2.2).then (cmp t.1 s.1))

/-- Add a product to the last one if the operands are the same. -/
def foldTriple (acc : List (Triple E)) (t : Triple E) : List (Triple E) :=
  match acc.getLast? with
  | some last =>
    if last.2 = t.2 then acc.dropLast ++ [(last.1 + t.1, last.2)] else acc ++ [t]
  | none => acc ++ [t]

/-- The element of a constant. -/
def constant? : Expr E → Option E
  | .constant e => some e
  | _ => none

def linear0 : Nat → E → NodeId → Build ε E NodeId
  | 0, _, _ => liftM (abort "out of fuel" : Exec ε NodeId)
  | fuel + 1, e, a => do
    let v ← nodeAt a
    if e = 0 then do
      discard [a]
      constant e
    else if e = 1 then pure a
    else match v with
      | .constant e1 => constant (e * e1)
      | .linear e1 x => linear0 fuel (e * e1) x
      | .quadratic e1 x y => groundQuadratic (e * e1) x y
      | _ => groundLinear e a

/-- A sum without simplifications left: a sum of one term is that term. -/
def sumOf (finalList : List NodeId) (precious : Bool) : Build ε E NodeId :=
  match finalList with
  | [] => constant 0
  | [x] => pure x
  | finalList => Cse.sum finalList precious

/-- The terms of a sum with their expressions, put together: constants are added up. -/
def assemble (terms : List (NodeId × Expr E)) (precious : Bool) : Build ε E NodeId := do
  let constants := terms.filterMap fun term => constant? term.2
  let nonConstants := (terms.filter fun term => (constant? term.2).isNone).map Prod.fst
  let constSum := constants.sum
  let finalList ← (if constSum = 0 then pure nonConstants
    else do
      let c ← constant constSum
      pure (nonConstants ++ [c]) : Build ε E (List NodeId))
  sumOf finalList precious

variable (cmp : E → E → Ordering)

mutual

def sum (fuel : Nat) (l : List NodeId) (precious : Bool) : Build ε E NodeId :=
  match fuel with
  | 0 => liftM (abort "out of fuel" : Exec ε NodeId)
  | fuel + 1 => do
    let flat ← flattenSum l
    let triples ← flat.mapM unquadratic
    let sorted := triples.mergeSort fun a b => (compareTriples cmp a b).isLE
    let folded := sorted.foldl foldTriple []
    let terms ← folded.mapM fun t => do
      let term ← quadratic fuel t.1 t.2.1 t.2.2
      let v ← nodeAt term
      pure (term, v)
    assemble terms precious
termination_by structural fuel

def linear (fuel : Nat) (e : E) (x : NodeId) : Build ε E NodeId :=
  match fuel with
  | 0 => liftM (abort "out of fuel" : Exec ε NodeId)
  | fuel + 1 => do
    let v ← nodeAt x
    match v with
    | .sum l false => do
      let mapped ← l.mapM (linear0 fuel e)
      sum fuel mapped false
    | _ => linear0 fuel e x
termination_by structural fuel

def quadratic (fuel : Nat) (e : E) (a b : NodeId) : Build ε E NodeId :=
  match fuel with
  | 0 => liftM (abort "out of fuel" : Exec ε NodeId)
  | fuel + 1 => do
    let va ← nodeAt a
    let vb ← nodeAt b
    if e = 0 then do
      discard [a, b]
      constant e
    else match va, vb with
      | .constant e1, _ => linear fuel (e * e1) b
      | _, .constant e1 => linear fuel (e * e1) a
      | .linear e1 x1, _ => quadratic fuel (e * e1) x1 b
      | _, .linear e1 x1 => quadratic fuel (e * e1) x1 a
      | .sum _ _, .sum _ _ => groundQuadratic e a b
      | _, .sum l false => distribute fuel e a b l a
      | .sum l false, _ => distribute fuel e a b l b
      | _, _ => groundQuadratic e a b
termination_by structural fuel

/-- Distribute a product over the sum `l` if its elements are of low degree. -/
def distribute (fuel : Nat) (e : E) (a b : NodeId) (l : List NodeId) (other : NodeId) :
    Build ε E NodeId :=
  match fuel with
  | 0 => liftM (abort "out of fuel" : Exec ε NodeId)
  | fuel + 1 => do
    let low ← l.mapM lowDegree
    if low.all id = true then do
      let mapped ← l.mapM fun x => quadratic fuel e x other
      sum fuel mapped false
    else groundQuadratic e a b
termination_by structural fuel

end

def assert0 : Nat → NodeId → Build ε E (List NodeId)
  | 0, _ => liftM (abort "out of fuel" : Exec ε (List NodeId))
  | fuel + 1, x => do
    let v ← nodeAt x
    match v with
    | .constant e => if e = 0 then pure [] else liftM (abort "AssertionFailure" : Exec ε _)
    | .linear e inner => do
      liftM (ensure (e ≠ 0) "assertion failed: !f.is_zero(e)" : Exec ε Unit)
      assert0 fuel inner
    | _ => pure (Cse.assert0 x)

def withAssertions (assertions : List AssertionItem) (x : NodeId) : Build ε E NodeId :=
  if assertions = [] then pure x else Cse.withAssertions assertions x

/-! ### Products -/

variable {inputs : Nat → E} {arena arena' : Arena E}

theorem ensures_constant (inputs : Nat → E) (formed : arena.WellFormed) (e : E) :
    Ensures Arena.WellFormed arena (constant e : Build ε E NodeId) fun arena' x =>
      Denotes inputs arena' x e fun _ => False := by
  refine (ensures_memoExpr formed (by simp [Expr.children]) (by simp)).mono
    fun _ formed' found => ?_
  exact (formed'.denotes found).weaken rfl fun _ _ nothing => nothing.elim

theorem ensures_discarded (inputs : Nat → E) (formed : arena.WellFormed) (xs : List NodeId)
    (bounds : ∀ x ∈ xs, x < arena.nodes.length) (e : E) :
    Ensures Arena.WellFormed arena (do discard xs; constant e : Build ε E NodeId) fun arena' x =>
      Denotes inputs arena' x e fun c => ∃ y ∈ xs, c ∈ arena.attachedTo y := by
  refine (ensures_discard formed bounds).bind fun {_ arena₁} grown formed₁ noted => ?_
  refine (ensures_constant inputs formed₁ e).mono fun {x arena₂} grown' formed₂ denotes => ?_
  refine denotes.weaken rfl fun clean {c} ⟨y, member, attached⟩ => ?_
  have empty := clean y (grown'.2.subset (noted y member))
  rw [attachedTo_mono (grown.trans grown') (bounds y member)] at empty
  rw [empty] at attached
  cases attached

variable {e : E} {a : NodeId} {b : NodeId}

theorem ensures_groundLinear (inputs : Nat → E) (formed : arena.WellFormed)
    (bound : a < arena.nodes.length) :
    Ensures Arena.WellFormed arena (groundLinear e a : Build ε E NodeId) fun arena' x =>
      Denotes inputs arena' x (e * arena.value inputs a) fun c => c ∈ arena.attachedTo a := by
  refine ensures_lift_bind fun _ => ?_
  refine (ensures_memoExpr formed (by simpa [Expr.children] using bound) (by simp)).mono
    fun grown formed' found => ?_
  refine (formed'.denotes found).weaken ?_ fun _ {c} attached => ?_
  · rw [Expr.value, value_mono grown bound]
  · simpa [Expr.attached, Expr.children, attachedTo_mono grown bound] using attached

theorem ensures_groundQuadratic (inputs : Nat → E) (formed : arena.WellFormed)
    (first : a < arena.nodes.length) (second : b < arena.nodes.length) :
    Ensures Arena.WellFormed arena (groundQuadratic e a b : Build ε E NodeId) fun arena' x =>
      Denotes inputs arena' x (e * (arena.value inputs a * arena.value inputs b)) fun c =>
        c ∈ arena.attachedTo a ∨ c ∈ arena.attachedTo b := by
  refine ensures_lift_bind fun _ => ?_
  unfold Cse.quadratic
  split
  · refine (ensures_memoExpr formed ?_ (by simp)).mono fun grown formed' found => ?_
    · simpa [Expr.children] using ⟨first, second⟩
    refine (formed'.denotes found).weaken ?_ fun _ {c} attached => ?_
    · rw [Expr.value, value_mono grown first, value_mono grown second]
    · simpa [Expr.attached, Expr.children, attachedTo_mono grown first,
        attachedTo_mono grown second] using attached
  · refine (ensures_memoExpr formed ?_ (by simp)).mono fun grown formed' found => ?_
    · simpa [Expr.children] using ⟨second, first⟩
    refine (formed'.denotes found).weaken ?_ fun _ {c} attached => ?_
    · rw [Expr.value, value_mono grown first, value_mono grown second,
        mul_comm (arena.value inputs b)]
    · simpa [Expr.attached, Expr.children, attachedTo_mono grown first,
        attachedTo_mono grown second, or_comm] using attached

/-- **A multiple of a node.** -/
theorem ensures_linear0 (inputs : Nat → E) (fuel : Nat) (formed : arena.WellFormed)
    (bound : a < arena.nodes.length) :
    Ensures Arena.WellFormed arena (linear0 fuel e a : Build ε E NodeId) fun arena' x =>
      Denotes inputs arena' x (e * arena.value inputs a) fun c => c ∈ arena.attachedTo a := by
  induction fuel generalizing e a with
  | zero => exact ⟨fun ran => by cases ran⟩
  | succ fuel ih =>
    refine ensures_nodeAt_bind fun {v} found => ?_
    split
    · rename_i zero
      refine (ensures_discarded inputs formed [a] (by simpa using bound) e).mono
        fun _ _ denotes => ?_
      refine denotes.weaken (by rw [zero, zero_mul]) fun _ {c} attached => ?_
      exact ⟨a, List.mem_singleton_self a, attached⟩
    · split
      · rename_i one
        refine ensures_pure formed ((denotes_self bound).weaken ?_ fun _ {c} attached => attached)
        rw [one, one_mul]
      · have value := formed.value_eq inputs found
        have attachments := formed.attachedTo_eq found
        cases v with
        | constant e1 =>
          refine (ensures_constant inputs formed (e * e1)).mono fun _ _ denotes => ?_
          refine denotes.weaken (by rw [value]; rfl) fun _ {c} attached => ?_
          rw [attachments] at attached
          cases attached
        | linear e1 x =>
          have below : x < arena.nodes.length := (formed.descends found x
            (by simp [Expr.children])).trans bound
          refine (ih below).mono fun _ _ denotes => ?_
          refine denotes.weaken (by rw [value, Expr.value, mul_assoc]) fun _ {c} attached => ?_
          rw [attachments] at attached
          simpa [Expr.attached, Expr.children] using attached
        | quadratic e1 x y =>
          have first : x < arena.nodes.length := (formed.descends found x
            (by simp [Expr.children])).trans bound
          have second : y < arena.nodes.length := (formed.descends found y
            (by simp [Expr.children])).trans bound
          refine (ensures_groundQuadratic inputs formed first second).mono
            fun _ _ denotes => ?_
          refine denotes.weaken (by rw [value, Expr.value, mul_assoc]) fun _ {c} attached => ?_
          rw [attachments] at attached
          simpa [Expr.attached, Expr.children] using attached
        | input _ | sum _ _ | one | withAssertions _ _ =>
          exact ensures_groundLinear inputs formed bound

/-! ### The terms of a sum -/

/-- The sum of the values of some nodes. -/
def total (inputs : Nat → E) (arena : Arena E) (l : List NodeId) : E :=
  (l.map (arena.value inputs)).sum

/-- An assertion attached to one of some nodes. -/
def AttachedToSome (arena : Arena E) (l : List NodeId) (c : NodeId) : Prop :=
  ∃ x ∈ l, c ∈ arena.attachedTo x

variable {l : List NodeId}

theorem total_mono (grown : arena ≤ arena') (bounds : ∀ x ∈ l, x < arena.nodes.length) :
    total inputs arena' l = total inputs arena l :=
  congrArg List.sum (values_mono grown bounds)

theorem attachedToSome_mono (grown : arena ≤ arena') (bounds : ∀ x ∈ l, x < arena.nodes.length)
    {c : NodeId} (attached : AttachedToSome arena l c) :
    AttachedToSome arena' l c := by
  obtain ⟨x, member, here⟩ := attached
  exact ⟨x, member, by rwa [attachedTo_mono grown (bounds x member)]⟩

variable {x : NodeId} {n : NodeId}

theorem flatten_spec (inputs : Nat → E) (formed : arena.WellFormed)
    (ordinarySums : List (List NodeId)) {v : Expr E} (found : arena.nodes[x]? = some v) :
    (∀ y ∈ flatten ordinarySums x v, y < arena.nodes.length) ∧
      total inputs arena (flatten ordinarySums x v) = arena.value inputs x ∧
      ∀ {c}, c ∈ arena.attachedTo x → AttachedToSome arena (flatten ordinarySums x v) c := by
  have bound := (List.getElem?_eq_some_iff.mp found).1
  have whole : (∀ y ∈ [x], y < arena.nodes.length) ∧ total inputs arena [x] = arena.value inputs x ∧
      ∀ {c}, c ∈ arena.attachedTo x → AttachedToSome arena [x] c :=
    ⟨by simpa using bound, by simp [total], fun attached => ⟨x, List.mem_singleton_self x, attached⟩⟩
  have inside : ∀ {inner precious}, v = .sum inner precious →
      (∀ y ∈ inner, y < arena.nodes.length) ∧ total inputs arena inner = arena.value inputs x ∧
      ∀ {c}, c ∈ arena.attachedTo x → AttachedToSome arena inner c := by
    rintro inner precious rfl
    refine ⟨fun y member => (formed.descends found y member).trans bound, ?_, fun {c} attached => ?_⟩
    · rw [formed.value_eq inputs found]
      rfl
    · rw [formed.attachedTo_eq found] at attached
      exact List.mem_flatMap.mp attached
  unfold flatten
  split
  · exact inside rfl
  · split
    · exact inside rfl
    · exact whole
  · exact whole

theorem total_append (l l' : List NodeId) :
    total inputs arena (l ++ l') = total inputs arena l + total inputs arena l' := by
  rw [total, List.map_append, List.sum_append, total, total]

theorem total_singleton (x : NodeId) : total inputs arena [x] = arena.value inputs x := by
  rw [total, List.map_singleton, List.sum_singleton]

/-- **Flattening keeps the value and the assertions of a sum.** -/
theorem ensures_flattenSum (inputs : Nat → E) (formed : arena.WellFormed) (l : List NodeId) :
    Ensures Arena.WellFormed arena (flattenSum l : Build ε E (List NodeId)) fun arena' flat =>
      (∀ x ∈ flat, x < arena'.nodes.length) ∧ total inputs arena' flat = total inputs arena' l ∧
        ∀ {c}, AttachedToSome arena' l c → AttachedToSome arena' flat c := by
  refine (ensures_mapM_nodeAt formed l).bind fun {exprs arena'} _ formed' reads => ?_
  refine ensures_pure formed' ?_
  generalize exprs.filterMap ordinarySum? = ordinarySums
  induction reads with
  | nil => exact ⟨by simp, rfl, fun {c} attached => attached⟩
  | @cons x v l exprs found _ ih =>
    obtain ⟨bounds, value, attachments⟩ := ih
    obtain ⟨here, value', attachments'⟩ := flatten_spec inputs formed' ordinarySums
      found
    rw [List.zipWith_cons_cons, List.flatten_cons]
    refine ⟨?_, ?_, fun {c} attached => ?_⟩
    · intro y member
      exact (List.mem_append.mp member).elim (here y) (bounds y)
    · rw [total_append, value, value']
      rfl
    · obtain ⟨y, member, attached⟩ := attached
      rcases List.mem_cons.mp member with rfl | later
      · obtain ⟨z, inside, attached⟩ := attachments' attached
        exact ⟨z, List.mem_append_left _ inside, attached⟩
      · obtain ⟨z, inside, attached⟩ := attachments ⟨y, later, attached⟩
        exact ⟨z, List.mem_append_right _ inside, attached⟩

/-- A node as a product: the same value and the same assertions. -/
structure Splits (inputs : Nat → E) (arena : Arena E) (n : NodeId) (t : Triple E) : Prop where
  bound : n < arena.nodes.length
  first : t.2.1 < arena.nodes.length
  second : t.2.2 < arena.nodes.length
  value : arena.value inputs n = t.1 * (arena.value inputs t.2.1 * arena.value inputs t.2.2)
  attached : ∀ {c}, c ∈ arena.attachedTo n → c ∈ arena.attachedTo t.2.1 ∨ c ∈ arena.attachedTo t.2.2

theorem Splits.mono (grown : arena ≤ arena') {t : Triple E}
    (splits : Splits inputs arena n t) : Splits inputs arena' n t where
  bound := lt_of_lt_of_le splits.bound grown.1.length_le
  first := lt_of_lt_of_le splits.first grown.1.length_le
  second := lt_of_lt_of_le splits.second grown.1.length_le
  value := by
    rw [value_mono grown splits.bound, value_mono grown splits.first, value_mono grown splits.second,
      splits.value]
  attached {c} attached := by
    rw [attachedTo_mono grown splits.bound] at attached
    rw [attachedTo_mono grown splits.first, attachedTo_mono grown splits.second]
    exact splits.attached attached

theorem splits_canonical {y : NodeId} (splits : Splits inputs arena n (e, x, y)) :
    Splits inputs arena n (canonical e x y) := by
  unfold canonical
  split
  · exact splits
  · refine ⟨splits.bound, splits.second, splits.first, ?_, fun attached => ?_⟩
    · rw [splits.value, mul_comm (arena.value inputs x)]
    · exact (splits.attached attached).symm

theorem ensures_unquadratic (inputs : Nat → E) (formed : arena.WellFormed)
    (bound : n < arena.nodes.length) :
    Ensures Arena.WellFormed arena (unquadratic n : Build ε E (Triple E)) fun arena' t =>
      Splits inputs arena' n t := by
  refine ensures_nodeAt_bind fun {v} found => ?_
  -- Multiples of the constant one.
  have multiple : ∀ (e : E) (x : NodeId), x < arena.nodes.length →
      arena.value inputs n = e * arena.value inputs x →
      (∀ {c}, c ∈ arena.attachedTo n → c ∈ arena.attachedTo x) →
      Ensures Arena.WellFormed arena (do
        let unit ← one
        pure (canonical e unit x) : Build ε E (Triple E)) fun arena' t =>
          Splits inputs arena' n t := by
    intro e x below value attachments
    refine (ensures_constant inputs formed 1).bind fun {unit arena₁} grown formed₁ isOne => ?_
    refine ensures_pure formed₁ (splits_canonical ⟨?_, isOne.bound, ?_, ?_, fun {c} attached => ?_⟩)
    · exact lt_of_lt_of_le bound grown.1.length_le
    · exact lt_of_lt_of_le below grown.1.length_le
    · rw [isOne.value, one_mul, value_mono grown bound, value_mono grown below, value]
    · rw [attachedTo_mono grown bound] at attached
      rw [attachedTo_mono grown below]
      exact .inr (attachments attached)
  have value := formed.value_eq inputs found
  have attachments := formed.attachedTo_eq found
  cases v with
  | quadratic e x y =>
    refine ensures_pure formed (splits_canonical ⟨bound, ?_, ?_, value, fun {c} attached => ?_⟩)
    · exact (formed.descends found x (by simp [Expr.children])).trans bound
    · exact (formed.descends found y (by simp [Expr.children])).trans bound
    · rw [attachments] at attached
      simpa [Expr.attached, Expr.children] using attached
  | linear e x =>
    refine multiple e x ((formed.descends found x (by simp [Expr.children])).trans bound) value
      fun {c} attached => ?_
    rw [attachments] at attached
    simpa [Expr.attached, Expr.children] using attached
  | constant e =>
    refine (ensures_constant inputs formed 1).bind fun {unit arena₁} grown formed₁ isOne => ?_
    refine ensures_pure formed₁ ⟨?_, isOne.bound, isOne.bound, ?_, fun {c} attached => ?_⟩
    · exact lt_of_lt_of_le bound grown.1.length_le
    · rw [isOne.value, one_mul, mul_one, value_mono grown bound, value]
      rfl
    · rw [attachedTo_mono grown bound, attachments] at attached
      cases attached
  | input _ | sum _ _ | one | withAssertions _ _ =>
    exact multiple 1 n bound (one_mul _).symm fun {c} attached => attached

/-- One product folded into the products before it. -/
theorem foldTriple_spec (g : NodeId × NodeId → E) (acc : List (Triple E)) (t : Triple E) :
    ((foldTriple acc t).map fun s => s.1 * g s.2).sum =
        (acc.map fun s => s.1 * g s.2).sum + t.1 * g t.2 ∧
      ∀ p, p ∈ (foldTriple acc t).map Prod.snd ↔ p ∈ acc.map Prod.snd ∨ p = t.2 := by
  have appended : ((acc ++ [t]).map fun s => s.1 * g s.2).sum =
        (acc.map fun s => s.1 * g s.2).sum + t.1 * g t.2 ∧
      ∀ p, p ∈ (acc ++ [t]).map Prod.snd ↔ p ∈ acc.map Prod.snd ∨ p = t.2 := by
    simp
  unfold foldTriple
  split
  · rename_i last isLast
    split
    · rename_i same
      obtain ⟨front, rfl⟩ : ∃ front, acc = front ++ [last] :=
        ⟨acc.dropLast, (List.dropLast_append_getLast? _ isLast).symm⟩
      rw [List.dropLast_concat]
      refine ⟨?_, fun p => ?_⟩
      · simp only [List.map_append, List.sum_append, List.map_singleton, List.sum_singleton, ← same]
        ring
      · simp [← same]
    · exact appended
  · exact appended

/-- **Folding equal products keeps their sum and their operands.** -/
theorem foldl_foldTriple (g : NodeId × NodeId → E) (ts acc : List (Triple E)) :
    ((ts.foldl foldTriple acc).map fun s => s.1 * g s.2).sum =
        (acc.map fun s => s.1 * g s.2).sum + (ts.map fun s => s.1 * g s.2).sum ∧
      ∀ p, p ∈ (ts.foldl foldTriple acc).map Prod.snd ↔
        p ∈ acc.map Prod.snd ∨ p ∈ ts.map Prod.snd := by
  induction ts generalizing acc with
  | nil => simp
  | cons t ts ih =>
    obtain ⟨value, operands⟩ := ih (foldTriple acc t)
    obtain ⟨value', operands'⟩ := foldTriple_spec g acc t
    rw [List.foldl_cons]
    refine ⟨?_, fun p => ?_⟩
    · rw [value, value', List.map_cons, List.sum_cons, add_assoc]
    · rw [operands, operands', List.map_cons, List.mem_cons, or_assoc]

variable {terms : List (NodeId × Expr E)}

theorem total_partition (inputs : Nat → E) (formed : arena.WellFormed)
    (found : ∀ term ∈ terms, arena.nodes[term.1]? = some term.2) :
    total inputs arena (terms.map Prod.fst) =
      total inputs arena ((terms.filter fun term => (constant? term.2).isNone).map Prod.fst) +
        (terms.filterMap fun term => constant? term.2).sum := by
  induction terms with
  | nil => simp [total]
  | cons term terms ih =>
    obtain ⟨here, later⟩ := List.forall_mem_cons.mp found
    have value := formed.value_eq inputs here
    have rest := ih later
    simp only [total, List.map_cons, List.sum_cons, List.filter_cons, List.filterMap_cons] at *
    cases isConstant : constant? term.2 with
    | none =>
      simp only [Option.isNone_none, if_true, List.map_cons, List.sum_cons, rest]
      ring
    | some e =>
      have known : arena.value inputs term.1 = e := by
        rw [value]
        unfold constant? at isConstant
        split at isConstant
        · rename_i e' same
          rw [same]
          exact Option.some.inj isConstant
        · cases isConstant
      simp only [Option.isNone_some, Bool.false_eq_true, if_false, List.sum_cons, rest, known]
      ring

theorem attached_partition (formed : arena.WellFormed)
    (found : ∀ term ∈ terms, arena.nodes[term.1]? = some term.2) {c : NodeId}
    (attached : AttachedToSome arena (terms.map Prod.fst) c) :
    AttachedToSome arena ((terms.filter fun term => (constant? term.2).isNone).map Prod.fst) c := by
  obtain ⟨x, member, here⟩ := attached
  obtain ⟨term, isTerm, rfl⟩ := List.mem_map.mp member
  refine ⟨term.1, List.mem_map_of_mem (List.mem_filter.mpr ⟨isTerm, ?_⟩), here⟩
  rw [formed.attachedTo_eq (found term isTerm)] at here
  unfold constant?
  split
  · rename_i e same
    rw [same] at here
    cases here
  · rfl

theorem ensures_sumOf (inputs : Nat → E) (formed : arena.WellFormed)
    (bounds : ∀ x ∈ l, x < arena.nodes.length) (precious : Bool) :
    Ensures Arena.WellFormed arena (sumOf l precious : Build ε E NodeId) fun arena' x =>
      Denotes inputs arena' x (total inputs arena l) (AttachedToSome arena l) := by
  unfold sumOf
  split
  · refine (ensures_constant inputs formed 0).mono fun _ _ denotes => denotes.weaken rfl ?_
    rintro _ c ⟨x, member, _⟩
    cases member
  · rename_i x
    refine ensures_pure formed ((denotes_self (bounds x (List.mem_singleton_self x))).weaken ?_ ?_)
    · exact (total_singleton x).symm
    · rintro _ c ⟨y, member, attached⟩
      rwa [List.mem_singleton.mp member] at attached
  · rename_i several _
    have order := List.mergeSort_perm l (· ≤ ·)
    have nonempty : l.mergeSort (· ≤ ·) ≠ [] := fun empty =>
      several (List.perm_nil.mp (empty ▸ order.symm))
    refine (ensures_memoExpr formed ?_ ?_).mono fun grown formed' found => ?_
    · exact fun x member => bounds x (order.mem_iff.mp member)
    · exact fun p same => nonempty (Expr.sum.inj same).1
    refine (formed'.denotes found).weaken ?_ ?_
    · rw [Expr.value, (order.map _).sum_eq]
      exact total_mono grown bounds
    · rintro _ c attached
      obtain ⟨x, member, here⟩ := attachedToSome_mono grown bounds attached
      exact List.mem_flatMap.mpr ⟨x, order.mem_iff.mpr member, here⟩

theorem lt_of_found (found : ∀ term ∈ terms, arena.nodes[term.1]? = some term.2) :
    ∀ x ∈ (terms.filter fun term => (constant? term.2).isNone).map Prod.fst,
      x < arena.nodes.length := by
  intro x member
  obtain ⟨term, isTerm, rfl⟩ := List.mem_map.mp member
  exact (List.getElem?_eq_some_iff.mp (found term (List.mem_of_mem_filter isTerm))).1

/-- **Terms put together.** -/
theorem ensures_assemble (inputs : Nat → E) (formed : arena.WellFormed)
    (found : ∀ term ∈ terms, arena.nodes[term.1]? = some term.2) (precious : Bool) :
    Ensures Arena.WellFormed arena (assemble terms precious : Build ε E NodeId) fun arena' x =>
      Denotes inputs arena' x (total inputs arena (terms.map Prod.fst))
        (AttachedToSome arena (terms.map Prod.fst)) := by
  have value := total_partition inputs formed found
  have attachments : ∀ {c}, _ → AttachedToSome arena _ c := attached_partition formed found
  have bounds := lt_of_found found
  unfold assemble
  simp only
  generalize (terms.filter fun term => (constant? term.2).isNone).map Prod.fst = others at *
  split
  · rename_i zero
    rw [pure_bind]
    refine (ensures_sumOf inputs formed bounds precious).mono fun _ _ denotes => ?_
    exact denotes.weaken (by rw [value, zero, add_zero]) fun _ {c} attached => attachments attached
  · rw [bind_assoc]
    refine (ensures_constant inputs formed _).bind fun {k arena₁} grown formed₁ isConstant => ?_
    rw [pure_bind]
    have bounds₁ : ∀ x ∈ others ++ [k], x < arena₁.nodes.length := by
      intro x member
      rcases List.mem_append.mp member with old | new
      · exact lt_of_lt_of_le (bounds x old) grown.1.length_le
      · rw [List.mem_singleton.mp new]
        exact isConstant.bound
    refine (ensures_sumOf inputs formed₁ bounds₁ precious).mono fun _ _ denotes => ?_
    refine denotes.weaken ?_ fun _ {c} attached => ?_
    · rw [total_append, total_mono grown bounds, total_singleton, isConstant.value, value]
    · obtain ⟨x, member, here⟩ := attachedToSome_mono grown bounds (attachments attached)
      exact ⟨x, List.mem_append_left _ member, here⟩

/-! ### Sums and products -/

/-- Nodes with a known sum, to some of which the given assertions are attached, unless something
with an assertion was discarded. -/
structure DenoteSum (inputs : Nat → E) (arena : Arena E) (l : List NodeId) (v : E)
    (kept : NodeId → Prop) : Prop where
  bounds : ∀ x ∈ l, x < arena.nodes.length
  value : total inputs arena l = v
  keeps : arena.Clean → ∀ {c}, kept c → AttachedToSome arena l c

theorem denoteSum_of_forall₂ {α : Type} {v : α → E} {kept : α → NodeId → Prop} {as : List α}
    (each : List.Forall₂ (fun a x => Denotes inputs arena x (v a) (kept a)) as l) :
    DenoteSum inputs arena l (as.map v).sum fun c => ∃ a ∈ as, kept a c := by
  induction each with
  | nil => exact ⟨by simp, rfl, fun _ _ ⟨a, member, _⟩ => by cases member⟩
  | @cons a x as l here _ ih =>
    refine ⟨List.forall_mem_cons.mpr ⟨here.bound, ih.bounds⟩, ?_, fun clean c isKept => ?_⟩
    · rw [List.map_cons, List.sum_cons, ← ih.value, ← here.value]
      rfl
    · obtain ⟨a', member, isKept⟩ := isKept
      rcases List.mem_cons.mp member with rfl | later
      · exact ⟨x, List.mem_cons_self .., here.keeps clean isKept⟩
      · obtain ⟨y, inside, attached⟩ := ih.keeps clean ⟨a', later, isKept⟩
        exact ⟨y, List.mem_cons_of_mem _ inside, attached⟩

theorem DenoteSum.denotes {v : E} {kept : NodeId → Prop}
    (together : DenoteSum inputs arena l v kept) (formed : arena.WellFormed)
    (grown : arena ≤ arena')
    (denotes : Denotes inputs arena' x (total inputs arena l) (AttachedToSome arena l)) :
    Denotes inputs arena' x v kept :=
  denotes.weaken together.value fun clean _ isKept =>
    together.keeps (formed.clean_anti grown clean) isKept

theorem ensures_mapped {α : Type} (inputs : Nat → E) {f : α → Build ε E NodeId} (v : α → E)
    (kept : α → NodeId → Prop) {as : List α} (formed : arena.WellFormed)
    (each : ∀ a ∈ as, ∀ {arena'}, arena ≤ arena' → arena'.WellFormed →
      Ensures Arena.WellFormed arena' (f a) fun arena'' x => Denotes inputs arena'' x (v a) (kept a)) :
    Ensures Arena.WellFormed arena (as.mapM f) fun arena' l =>
      DenoteSum inputs arena' l (as.map v).sum fun c => ∃ a ∈ as, kept a c := by
  refine (ensures_mapM (fun arena' a x => Denotes inputs arena' x (v a) (kept a))
    (fun grown formed' denotes => denotes.mono formed' grown) formed each).mono fun _ _ all => ?_
  exact denoteSum_of_forall₂ all

variable (ε inputs)

/-- What the operations with some fuel are for. -/
structure Correct (fuel : Nat) : Prop where
  sum : ∀ {arena : Arena E} {l : List NodeId} {precious : Bool}, arena.WellFormed →
    (∀ x ∈ l, x < arena.nodes.length) →
    Ensures Arena.WellFormed arena (sum cmp fuel l precious : Build ε E NodeId) fun arena' x =>
      Denotes inputs arena' x (total inputs arena l) (AttachedToSome arena l)
  linear : ∀ {arena : Arena E} {e : E} {a : NodeId}, arena.WellFormed → a < arena.nodes.length →
    Ensures Arena.WellFormed arena (linear cmp fuel e a : Build ε E NodeId) fun arena' x =>
      Denotes inputs arena' x (e * arena.value inputs a) fun c => c ∈ arena.attachedTo a
  quadratic : ∀ {arena : Arena E} {e : E} {a b : NodeId}, arena.WellFormed →
    a < arena.nodes.length → b < arena.nodes.length →
    Ensures Arena.WellFormed arena (quadratic cmp fuel e a b : Build ε E NodeId) fun arena' x =>
      Denotes inputs arena' x (e * (arena.value inputs a * arena.value inputs b)) fun c =>
        c ∈ arena.attachedTo a ∨ c ∈ arena.attachedTo b
  distribute : ∀ {arena : Arena E} {e : E} {a b whole other : NodeId} {l : List NodeId},
    arena.WellFormed → arena.nodes[whole]? = some (.sum l false) → other < arena.nodes.length →
    (a = whole ∧ b = other ∨ a = other ∧ b = whole) →
    Ensures Arena.WellFormed arena (distribute cmp fuel e a b l other : Build ε E NodeId)
      fun arena' x =>
        Denotes inputs arena' x (e * (arena.value inputs a * arena.value inputs b)) fun c =>
          c ∈ arena.attachedTo a ∨ c ∈ arena.attachedTo b

variable {ε inputs cmp} {fuel : Nat}

section

variable {triples : List (Triple E)} {flat : List NodeId}
  (splits : List.Forall₂ (Splits inputs arena) flat triples)
include splits

theorem splits_total :
    total inputs arena flat =
        (triples.map fun t =>
          t.1 * (arena.value inputs t.2.1 * arena.value inputs t.2.2)).sum ∧
      ∀ {c}, AttachedToSome arena flat c →
        ∃ p ∈ triples.map Prod.snd, c ∈ arena.attachedTo p.1 ∨ c ∈ arena.attachedTo p.2 := by
  induction splits with
  | nil => exact ⟨rfl, fun {c} ⟨x, member, _⟩ => by cases member⟩
  | @cons n t flat triples here _ ih =>
    refine ⟨?_, fun {c} ⟨x, member, attached⟩ => ?_⟩
    · rw [List.map_cons, List.sum_cons, ← ih.1, ← here.value]
      rfl
    · rcases List.mem_cons.mp member with rfl | later
      · exact ⟨t.2, List.mem_cons_self .., here.attached attached⟩
      · obtain ⟨p, inside, attached⟩ := ih.2 ⟨x, later, attached⟩
        exact ⟨p, List.mem_cons_of_mem _ inside, attached⟩

/-- **The products of a sum, sorted and folded, denote what the sum denotes.** -/
theorem folded_spec {sorted : List (Triple E)} (order : sorted.Perm triples) :
    (∀ t ∈ sorted.foldl foldTriple [], t.2.1 < arena.nodes.length ∧ t.2.2 < arena.nodes.length) ∧
      ((sorted.foldl foldTriple []).map fun t =>
        t.1 * (arena.value inputs t.2.1 * arena.value inputs t.2.2)).sum = total inputs arena flat ∧
      ∀ {c}, AttachedToSome arena flat c → ∃ t ∈ sorted.foldl foldTriple [],
        c ∈ arena.attachedTo t.2.1 ∨ c ∈ arena.attachedTo t.2.2 := by
  obtain ⟨same, kept⟩ := splits_total splits
  obtain ⟨value, operands⟩ := foldl_foldTriple
    (fun p => arena.value inputs p.1 * arena.value inputs p.2) sorted []
  simp only [List.map_nil, List.not_mem_nil, false_or, List.sum_nil, zero_add] at value operands
  refine ⟨fun t member => ?_, ?_, fun {c} attached => ?_⟩
  · have listed := (operands t.2).mp (List.mem_map_of_mem member)
    obtain ⟨t', isTriple, operands'⟩ := List.mem_map.mp listed
    obtain ⟨n, _, split⟩ := exists_of_mem_right splits (order.mem_iff.mp isTriple)
    rw [← operands']
    exact ⟨split.first, split.second⟩
  · rw [value, same]
    exact (order.map _).sum_eq
  · obtain ⟨p, listed, here⟩ := kept attached
    obtain ⟨t, member, rfl⟩ := List.mem_map.mp
      ((operands p).mpr ((order.map Prod.snd).mem_iff.mpr listed))
    exact ⟨t, member, here⟩

end

section

variable (correct : Correct ε cmp inputs fuel) (formed : arena.WellFormed)
include correct formed

theorem Correct.sum_succ (bounds : ∀ x ∈ l, x < arena.nodes.length) {precious : Bool} :
    Ensures Arena.WellFormed arena (Algsimp.sum cmp (fuel + 1) l precious : Build ε E NodeId)
      fun arena' x =>
        Denotes inputs arena' x (total inputs arena l) (AttachedToSome arena l) := by
  unfold Algsimp.sum
  refine (ensures_flattenSum inputs formed l).bind
    fun {flat arena₁} grown₁ formed₁ ⟨inside, same, kept⟩ => ?_
  refine (ensures_mapM (Splits inputs) (fun grown _ splits => splits.mono grown) formed₁
    fun x member s after formed' => ensures_unquadratic inputs formed'
      (lt_of_lt_of_le (inside x member) after.1.length_le)).bind
    fun {triples arena₂} grown₂ formed₂ splits => ?_
  simp only
  obtain ⟨operands, value, attachments⟩ := folded_spec splits
    (List.mergeSort_perm triples fun a b => (compareTriples cmp a b).isLE)
  generalize (triples.mergeSort fun a b => (compareTriples cmp a b).isLE).foldl foldTriple []
    = folded at *
  -- Every product is a term, which is read back.
  refine (ensures_mapM (fun arena' t (term : NodeId × Expr E) =>
      Denotes inputs arena' term.1
          (t.1 * (arena₂.value inputs t.2.1 * arena₂.value inputs t.2.2))
          (fun c => c ∈ arena₂.attachedTo t.2.1 ∨ c ∈ arena₂.attachedTo t.2.2) ∧
        arena'.nodes[term.1]? = some term.2)
    (fun grown formed' made => ⟨made.1.mono formed' grown, getElem?_mono grown made.2⟩) formed₂
    fun t member s after formed' => ?_).bind fun {terms arena₃} grown₃ formed₃ made => ?_
  · obtain ⟨first, second⟩ := operands t member
    refine (correct.quadratic formed' (lt_of_lt_of_le first after.1.length_le)
      (lt_of_lt_of_le second after.1.length_le)).bind fun {x s₁} grown formed₄ denotes => ?_
    rw [value_mono after first, value_mono after second, attachedTo_mono after first,
      attachedTo_mono after second] at denotes
    exact ensures_nodeAt_bind fun found => ensures_pure formed₄ ⟨denotes, found⟩
  · have found : ∀ term ∈ terms, arena₃.nodes[term.1]? = some term.2 := by
      intro term isTerm
      obtain ⟨t, _, made⟩ := exists_of_mem_right made isTerm
      exact made.2
    have together : DenoteSum inputs arena₃ (terms.map Prod.fst) _ _ :=
      denoteSum_of_forall₂ (List.forall₂_map_right_iff.mpr (made.imp fun _ _ made => made.1))
    refine (ensures_assemble inputs formed₃ found precious).mono fun grown₄ formed₄ denotes => ?_
    refine (together.denotes formed₃ grown₄ denotes).weaken ?_ fun _ {c} attached => ?_
    · rw [value, total_mono grown₂ inside, same, total_mono grown₁ bounds]
    · exact attachments (attachedToSome_mono grown₂ inside
        (kept (attachedToSome_mono grown₁ bounds attached)))

theorem Correct.linear_succ (bound : a < arena.nodes.length) :
    Ensures Arena.WellFormed arena (Algsimp.linear cmp (fuel + 1) e a : Build ε E NodeId)
      fun arena' x =>
        Denotes inputs arena' x (e * arena.value inputs a) fun c => c ∈ arena.attachedTo a := by
  unfold Algsimp.linear
  refine ensures_nodeAt_bind fun {v} found => ?_
  split
  · rename_i l
    have below : ∀ x ∈ l, x < arena.nodes.length := fun x member =>
      (formed.descends found x member).trans bound
    refine (ensures_mapped inputs (fun x => e * arena.value inputs x)
      (fun x c => c ∈ arena.attachedTo x) formed fun x member {arena'} after formed' => ?_).bind
      fun {mapped arena₁} grown formed₁ together => ?_
    · have denotes := ensures_linear0 (ε := ε) (e := e) inputs fuel formed'
        (lt_of_lt_of_le (below x member) after.1.length_le)
      rwa [value_mono after (below x member), attachedTo_mono after (below x member)] at denotes
    refine (correct.sum formed₁ together.bounds).mono fun grown₂ formed₂ denotes => ?_
    refine (together.denotes formed₁ grown₂ denotes).weaken ?_ fun _ {c} attached => ?_
    · rw [List.sum_map_mul_left, formed.value_eq inputs found, Expr.value]
    · rw [formed.attachedTo_eq found] at attached
      exact List.mem_flatMap.mp attached
  · exact ensures_linear0 inputs fuel formed bound

theorem Correct.distribute_succ {whole other : NodeId}
    (found : arena.nodes[whole]? = some (.sum l false)) (bound : other < arena.nodes.length)
    (operands : a = whole ∧ b = other ∨ a = other ∧ b = whole) :
    Ensures Arena.WellFormed arena
      (Algsimp.distribute cmp (fuel + 1) e a b l other : Build ε E NodeId) fun arena' x =>
        Denotes inputs arena' x (e * (arena.value inputs a * arena.value inputs b)) fun c =>
          c ∈ arena.attachedTo a ∨ c ∈ arena.attachedTo b := by
  have wholeBound := (List.getElem?_eq_some_iff.mp found).1
  have below : ∀ x ∈ l, x < arena.nodes.length := fun x member =>
    (formed.descends found x member).trans wholeBound
  have value : arena.value inputs a * arena.value inputs b =
      total inputs arena l * arena.value inputs other := by
    have sumValue : arena.value inputs whole = total inputs arena l := formed.value_eq inputs found
    rcases operands with ⟨rfl, rfl⟩ | ⟨rfl, rfl⟩
    · rw [sumValue]
    · rw [sumValue, mul_comm]
  have attachments : ∀ {c}, c ∈ arena.attachedTo a ∨ c ∈ arena.attachedTo b →
      ∃ x ∈ l, c ∈ arena.attachedTo x ∨ c ∈ arena.attachedTo other := by
    intro c attached
    have sides : c ∈ arena.attachedTo whole ∨ c ∈ arena.attachedTo other := by
      rcases operands with ⟨rfl, rfl⟩ | ⟨rfl, rfl⟩
      · exact attached
      · exact attached.symm
    rcases sides with inside | outside
    · rw [formed.attachedTo_eq found] at inside
      obtain ⟨x, member, here⟩ := List.mem_flatMap.mp inside
      exact ⟨x, member, .inl here⟩
    · obtain ⟨x, member⟩ := List.exists_mem_of_ne_nil l fun empty =>
        formed.nonempty (empty ▸ found)
      exact ⟨x, member, .inr outside⟩
  unfold Algsimp.distribute
  refine (ensures_mapM (fun _ _ _ => True) (fun _ _ _ => trivial) formed
    fun x _ _ _ formed' => ensures_nodeAt_bind fun _ => ensures_pure formed' trivial).bind
    fun {low arena₁} grown₁ formed₁ _ => ?_
  split
  · refine (ensures_mapped inputs (fun x => e * (arena.value inputs x * arena.value inputs other))
      (fun x c => c ∈ arena.attachedTo x ∨ c ∈ arena.attachedTo other) formed₁
      fun x member {arena'} after formed' => ?_).bind
      fun {mapped arena₂} grown₂ formed₂ together => ?_
    · have later := grown₁.trans after
      have denotes := correct.quadratic (e := e) formed'
        (lt_of_lt_of_le (below x member) later.1.length_le)
        (lt_of_lt_of_le bound later.1.length_le)
      rwa [value_mono later (below x member), value_mono later bound,
        attachedTo_mono later (below x member), attachedTo_mono later bound] at denotes
    refine (correct.sum formed₂ together.bounds).mono fun grown₃ formed₃ denotes => ?_
    refine (together.denotes formed₂ grown₃ denotes).weaken ?_ fun _ {c} attached => ?_
    · rw [List.sum_map_mul_left, List.sum_map_mul_right, value]
      rfl
    · exact attachments attached
  · have bounds : a < arena.nodes.length ∧ b < arena.nodes.length := by
      rcases operands with ⟨rfl, rfl⟩ | ⟨rfl, rfl⟩
      · exact ⟨wholeBound, bound⟩
      · exact ⟨bound, wholeBound⟩
    have denotes := ensures_groundQuadratic (ε := ε) (e := e) inputs formed₁
      (lt_of_lt_of_le bounds.1 grown₁.1.length_le) (lt_of_lt_of_le bounds.2 grown₁.1.length_le)
    rwa [value_mono grown₁ bounds.1, value_mono grown₁ bounds.2, attachedTo_mono grown₁ bounds.1,
      attachedTo_mono grown₁ bounds.2] at denotes

theorem Correct.quadratic_succ (first : a < arena.nodes.length)
    (second : b < arena.nodes.length) :
    Ensures Arena.WellFormed arena (Algsimp.quadratic cmp (fuel + 1) e a b : Build ε E NodeId)
      fun arena' x =>
        Denotes inputs arena' x (e * (arena.value inputs a * arena.value inputs b)) fun c =>
          c ∈ arena.attachedTo a ∨ c ∈ arena.attachedTo b := by
  unfold Algsimp.quadratic
  refine ensures_nodeAt_bind fun {va} foundA => ensures_nodeAt_bind fun {vb} foundB => ?_
  have valueA := formed.value_eq inputs foundA
  have valueB := formed.value_eq inputs foundB
  have attachedA := formed.attachedTo_eq foundA
  have attachedB := formed.attachedTo_eq foundB
  split
  · rename_i zero
    refine (ensures_discarded inputs formed [a, b] (by simpa using ⟨first, second⟩) e).mono
      fun _ _ denotes => ?_
    refine denotes.weaken (by rw [zero, zero_mul]) fun _ {c} attached => ?_
    simpa using attached
  · split
    · rename_i e1 _
      refine (correct.linear formed second).mono fun _ _ denotes => ?_
      refine denotes.weaken (by rw [valueA, Expr.value, mul_assoc]) fun _ {c} attached => ?_
      rw [attachedA] at attached
      simpa [Expr.attached, Expr.children] using attached
    · rename_i e1 _
      refine (correct.linear formed first).mono fun _ _ denotes => ?_
      refine denotes.weaken (by rw [valueB, Expr.value]; ring) fun _ {c} attached => ?_
      rw [attachedB] at attached
      simpa [Expr.attached, Expr.children] using attached
    · rename_i e1 x1 _
      have below := (formed.descends foundA x1 (by simp [Expr.children])).trans first
      refine (correct.quadratic formed below second).mono fun _ _ denotes => ?_
      refine denotes.weaken (by rw [valueA, Expr.value]; ring) fun _ {c} attached => ?_
      rw [attachedA] at attached
      simpa [Expr.attached, Expr.children] using attached
    · rename_i e1 x1 _ _
      have below := (formed.descends foundB x1 (by simp [Expr.children])).trans second
      refine (correct.quadratic formed below first).mono fun _ _ denotes => ?_
      refine denotes.weaken (by rw [valueB, Expr.value]; ring) fun _ {c} attached => ?_
      rw [attachedB] at attached
      simpa [Expr.attached, Expr.children, or_comm] using attached
    · exact ensures_groundQuadratic inputs formed first second
    · exact correct.distribute formed foundB first (.inr ⟨rfl, rfl⟩)
    · exact correct.distribute formed foundA second (.inl ⟨rfl, rfl⟩)
    · exact ensures_groundQuadratic inputs formed first second

end

/-- **Every operation returns a node of the right value, with the assertions of its operands.** -/
theorem correct (ε : Type) (cmp : E → E → Ordering) (inputs : Nat → E) (fuel : Nat) :
    Correct ε cmp inputs fuel := by
  induction fuel with
  | zero =>
    refine ⟨fun _ _ => ⟨fun ran => ?_⟩, fun _ _ => ⟨fun ran => ?_⟩, fun _ _ _ => ⟨fun ran => ?_⟩,
      fun _ _ _ _ => ⟨fun ran => ?_⟩⟩
    all_goals
      simp only [sum, linear, quadratic, distribute] at ran
      cases ran
  | succ fuel ih =>
    exact ⟨fun formed bounds => ih.sum_succ formed bounds, fun formed => ih.linear_succ formed,
      fun formed => ih.quadratic_succ formed, fun formed => ih.distribute_succ formed⟩

/-! ### Assertions -/

/-- **A list of assertions that one of them fails if the node is not zero.** -/
theorem ensures_assert0 (inputs : Nat → E) (fuel : Nat) (formed : arena.WellFormed)
    (bound : x < arena.nodes.length) :
    Ensures Arena.WellFormed arena (assert0 fuel x : Build ε E (List NodeId)) fun arena' items =>
      (∀ y ∈ items, y < arena'.nodes.length) ∧
      (arena'.value inputs x ≠ 0 → ∃ y ∈ items, arena'.value inputs y ≠ 0) ∧
      ∀ {c}, c ∈ arena'.attachedTo x → AttachedToSome arena' items c := by
  induction fuel generalizing x with
  | zero => exact ⟨fun ran => by cases ran⟩
  | succ fuel ih =>
    refine ensures_nodeAt_bind fun {v} found => ?_
    have value := formed.value_eq inputs found
    have attachments := formed.attachedTo_eq found
    split
    · split
      · rename_i zero
        refine ensures_pure formed ⟨by simp, fun nonzero => ?_, fun {c} attached => ?_⟩
        · exact (nonzero (value.trans zero)).elim
        · rw [attachments] at attached
          cases attached
      · exact ⟨fun ran => by cases ran⟩
    · rename_i e inner
      refine ensures_lift_bind fun passed => ?_
      have below := (formed.descends found inner (by simp [Expr.children])).trans bound
      refine (ih below).mono fun {items arena'} grown formed' stripped => ?_
      obtain ⟨bounds, fails, kept⟩ := stripped
      have value' := formed'.value_eq inputs (getElem?_mono grown found)
      have attachments' := formed'.attachedTo_eq (getElem?_mono grown found)
      refine ⟨bounds, fun nonzero => fails fun zero => ?_, fun {c} attached => kept ?_⟩
      · rw [value', Expr.value, zero, mul_zero] at nonzero
        exact nonzero rfl
      · rw [attachments'] at attached
        simpa [Expr.attached, Expr.children] using attached
    · refine ensures_pure formed ⟨?_, fun nonzero => ⟨x, List.mem_singleton_self x, nonzero⟩,
        fun {c} attached => ⟨x, List.mem_singleton_self x, attached⟩⟩
      simpa [Cse.assert0] using bound

end Algsimp

end Longfellow.Compile
