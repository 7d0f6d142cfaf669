/-
**The copy pass** (`compile/compiler/src/copy.rs`).

A layer of a circuit reads the layer above it only. The pass copies nodes from layer to layer, by
products with ones, until the operands of a product are of one depth, and so are the terms of a sum.
Coefficients and constants become products.

* `copy_aligned` — **the pass terminates without a panic**, its result is aligned, and every node has
  the value of the node it comes from.
-/

import Longfellow.Compile.Walk
import Mathlib.Data.ZMod.Basic

set_option linter.unusedSectionVars false

namespace Longfellow.Compile

open Lib

variable {ε E : Type}

/-! ### Depths -/

/-- The depth of an expression and its depth as a term of a sum, from those of the nodes below. -/
def Expr.depths (below : NodeId → Nat × Nat) : Expr E → Nat × Nat
  | .input _ | .one | .constant _ => (0, 1)
  | .linear _ x => (1 + (below x).1, 1 + (below x).1)
  | .quadratic _ x y => (1 + max (below x).1 (below y).1, 1 + max (below x).1 (below y).1)
  | .withAssertions a x =>
    let depth := max ((a.map fun item => (below item.expr).1).foldl max 0) (below x).1
    (depth, depth)
  | .sum elements _ =>
    let depth := (elements.map fun x => (below x).2).foldl max 0
    (depth, depth)

def Arena.depths (arena : Arena E) : NodeId → Nat × Nat := arena.fold (0, 0) Expr.depths

/-- How many products are on the longest path below a node. -/
def Arena.depth (arena : Arena E) (x : NodeId) : Nat := (arena.depths x).1

def depthOf (x : NodeId) : Build ε E Nat := do
  let arena ← get
  pure (arena.depth x)

/-- The depth of a term of an aligned sum, from its depth as a node. -/
def Expr.depthTerm? (depth : Nat) : Expr E → Option Nat
  | .input _ | .one => some 1
  | .quadratic .. => some depth
  | _ => none

def depthTerm (x : NodeId) : Build ε E Nat := do
  let v ← nodeAt x
  let depth ← depthOf x
  liftM (expect (v.depthTerm? depth) "depth_term: unexpected node variant" : Exec ε Nat)

/-! ### The pass -/

variable [CommRing E] [DecidableEq E]

def Cse.one : Build ε E NodeId := memoExpr .one

namespace Copy

def groundQuadratic (e : E) (x y : NodeId) : Build ε E NodeId := do
  let dx ← depthOf x
  let dy ← depthOf y
  liftM (ensure (dx = dy) "assertion `left == right` failed" : Exec ε Unit)
  Cse.quadratic e x y

def oneAtDepth : Nat → Build ε E NodeId
  | 0 => Cse.one
  | d + 1 => do
    let oo ← oneAtDepth d
    groundQuadratic 1 oo oo

/-- A node one layer down. A product hands its coefficient down, so that the copied products can be
shared. -/
def copy (x : NodeId) : Build ε E NodeId := do
  let depth ← depthOf x
  let oo ← oneAtDepth depth
  let v ← nodeAt x
  match v with
  | .quadratic e1 x1 y1 => do
    let subQuad ← groundQuadratic 1 x1 y1
    groundQuadratic e1 oo subQuad
  | .linear .. => liftM (abort "linear can't happen" : Exec ε NodeId)
  | .constant _ => liftM (abort "constant can't happen" : Exec ε NodeId)
  | _ => groundQuadratic 1 oo x

def lift : Nat → Nat → NodeId → Build ε E NodeId
  | 0, _, _ => liftM (abort "out of fuel" : Exec ε NodeId)
  | fuel + 1, d, x => do
    let cx ← depthTerm x
    if cx = d then pure x
    else if d < cx then liftM (abort "lift: depth too high" : Exec ε NodeId)
    else do
      let copied ← copy x
      lift fuel d copied

/-- A sum of terms. The terms that are not the deepest are summed first, and the sum is lifted. -/
def sumNoNestedSums : Nat → List NodeId → Build ε E NodeId
  | 0, _ => liftM (abort "out of fuel" : Exec ε NodeId)
  | _ + 1, [] => liftM (abort "sum: empty elements" : Exec ε NodeId)
  | _ + 1, [x] => pure x
  | fuel + 1, elements => do
    let depths ← elements.mapM depthTerm
    let d := depths.foldl max 0
    let terms := elements.zip depths
    let yes := (terms.filter fun term => term.2 = d).map Prod.fst
    let no := (terms.filter fun term => term.2 ≠ d).map Prod.fst
    let yesLifted ← yes.mapM (lift fuel d)
    match yesLifted, no with
    | sliceYes, [] => Cse.sum sliceYes false
    | [], _ => liftM (abort "sum: can't happen 2" : Exec ε NodeId)
    | sliceYes, sliceNo => do
      let foldedNo ← sumNoNestedSums fuel sliceNo
      let copiedNo ← copy foldedNo
      let liftedNo ← lift fuel d copiedNo
      sumNoNestedSums fuel (sliceYes ++ [liftedNo])

/-- A product, after the shallower operand is copied down. -/
def quadratic : Nat → E → NodeId → NodeId → Build ε E NodeId
  | 0, _, _, _ => liftM (abort "out of fuel" : Exec ε NodeId)
  | fuel + 1, elt, x, y => do
    let dx ← depthOf x
    let dy ← depthOf y
    if dx < dy then do
      let copied ← copy x
      quadratic fuel elt copied y
    else if dy < dx then do
      let copied ← copy y
      quadratic fuel elt copied x
    else groundQuadratic elt x y

def constant (fuel : Nat) (elt : E) : Build ε E NodeId :=
  if elt = 1 then Cse.one
  else do
    liftM (ensure (elt ≠ 0) "assertion failed: !self.f.is_zero(elt)" : Exec ε Unit)
    let unit ← Cse.one
    quadratic fuel elt unit unit

def linear (fuel : Nat) (elt : E) (x : NodeId) : Build ε E NodeId := do
  let unit ← Cse.one
  quadratic fuel elt unit x

/-- A sum, whose terms are made no sums. -/
def sum (fuel : Nat) (elements : List NodeId) : Build ε E NodeId := do
  let noNestedSums ← elements.mapM fun x => do
    let v ← nodeAt x
    match v with
    | .sum .. => do
      let unit ← Cse.one
      quadratic fuel 1 unit x
    | _ => pure x
  sumNoNestedSums fuel noNestedSums

def rewriter (fuel : Nat) : RewriteT ε (Arena E) E where
  assert0 x := pure (Cse.assert0 x)
  input := Cse.input
  sum elements _ := sum fuel elements
  one := Cse.one
  constant := constant fuel
  linear := linear fuel
  quadratic := quadratic fuel
  withAssertions _ _ := liftM (abort "UnexpectedWithAssertion" : Exec ε NodeId)

def rewrite (fuel : Nat) (src : Arena E) (x : List AssertionItem) :
    Build ε E (List AssertionItem) := walk rewriter fuel src.nodes x

end Copy

/-! ### Aligned arenas -/

variable {arena arena' : Arena E} {x : NodeId} {v : Expr E}

theorem Arena.WellFormed.depths_eq (formed : arena.WellFormed)
    (found : arena.nodes[x]? = some v) : arena.depths x = v.depths arena.depths := by
  refine formed.fold_eq (0, 0) found fun {below below'} same => ?_
  cases v with
  | input _ | one | constant _ => rfl
  | linear _ x => rw [Expr.depths, Expr.depths, same x (by simp [Expr.children])]
  | quadratic _ x y =>
    rw [Expr.depths, Expr.depths, same x (by simp [Expr.children]),
      same y (by simp [Expr.children])]
  | withAssertions a x =>
    have items : (a.map fun item => (below item.expr).1) = a.map fun item => (below' item.expr).1 :=
      List.map_congr_left fun item member => by
        rw [same item.expr (List.mem_cons_of_mem _ (List.mem_map_of_mem member))]
    rw [Expr.depths, Expr.depths, items, same x (by simp [Expr.children])]
  | sum elements _ =>
    have terms : (elements.map fun x => (below x).2) = elements.map fun x => (below' x).2 :=
      List.map_congr_left fun x member => by rw [same x member]
    rw [Expr.depths, Expr.depths, terms]

theorem depths_mono (grown : arena ≤ arena') (bound : x < arena.nodes.length) :
    arena'.depths x = arena.depths x := fold_mono (0, 0) Expr.depths grown bound

theorem depth_mono (grown : arena ≤ arena') (bound : x < arena.nodes.length) :
    arena'.depth x = arena.depth x := by rw [Arena.depth, depths_mono grown bound, Arena.depth]

/-- A node that is a term of an aligned sum, of some depth. -/
def Arena.TermAt (arena : Arena E) (d : Nat) (x : NodeId) : Prop :=
  ∃ v, arena.nodes[x]? = some v ∧ v.depthTerm? (arena.depth x) = some d

/-- An expression the pass has an answer to: no constant is zero, no sum is empty, and no assertion
is attached. -/
def Expr.Copyable : Expr E → Prop
  | .input _ | .one | .linear _ _ | .quadratic _ _ _ => True
  | .constant elt => elt ≠ 0
  | .sum elements _ => elements ≠ []
  | .withAssertions _ _ => False

instance : DecidablePred (Expr.Copyable (E := E))
  | .input _ | .one | .linear _ _ | .quadratic _ _ _ => .isTrue trivial
  | .constant elt => inferInstanceAs (Decidable (elt ≠ 0))
  | .sum elements _ => inferInstanceAs (Decidable (elements ≠ []))
  | .withAssertions _ _ => .isFalse id

/-- An expression whose operands are of one depth. -/
def Arena.Level (arena : Arena E) : Expr E → Prop
  | .input _ | .one => True
  | .quadratic _ x y => arena.depth x = arena.depth y
  | .sum elements _ => ∃ d, ∀ x ∈ elements, arena.TermAt d x
  | .constant _ | .linear _ _ | .withAssertions _ _ => False

/-- **An arena with one depth for the operands of each product, and for the terms of each sum**, and
without constants, multiples and attached assertions. -/
structure Arena.Aligned (arena : Arena E) : Prop where
  formed : arena.WellFormed
  level : ∀ {x : NodeId} {v : Expr E}, arena.nodes[x]? = some v → arena.Level v

namespace Copy

variable {allowed : Fault ε → Prop}

variable {d : Nat}

theorem termAt_mono (grown : arena ≤ arena') (term : arena.TermAt d x) :
    arena'.TermAt d x := by
  obtain ⟨v, found, depth⟩ := term
  refine ⟨v, getElem?_mono grown found, ?_⟩
  rwa [depth_mono grown (List.getElem?_eq_some_iff.mp found).1]

theorem level_mono (grown : arena ≤ arena')
    (bounds : ∀ x ∈ v.children, x < arena.nodes.length) (level : arena.Level v) :
    arena'.Level v := by
  cases v with
  | input _ | one => trivial
  | constant _ | linear _ _ | withAssertions _ _ => exact level
  | quadratic _ x y =>
    have first := depth_mono grown (bounds x (by simp [Expr.children]))
    have second := depth_mono grown (bounds y (by simp [Expr.children]))
    exact first.trans (level.trans second.symm)
  | sum elements _ =>
    obtain ⟨d, terms⟩ := level
    exact ⟨d, fun x member => termAt_mono grown (terms x member)⟩

/-- A memoized expression whose operands are of one depth. -/
theorem settles_memoLevel (aligned : arena.Aligned)
    (children : ∀ x ∈ v.children, x < arena.nodes.length)
    (nonempty : ∀ precious, v ≠ .sum [] precious) (level : arena.Level v) :
    Settles Arena.Aligned allowed arena (fun _ => (memoExpr v : Build ε E NodeId))
      fun arena' x => arena'.nodes[x]? = some v := by
  refine settles_memo aligned ⟨aligned.formed.append children nonempty, fun {x w} found => ?_⟩
  have grown : arena ≤ ⟨arena.nodes ++ [v], arena.discarded⟩ :=
    ⟨List.prefix_append .., List.prefix_rfl⟩
  rcases Nat.lt_or_ge x arena.nodes.length with below | above
  · rw [List.getElem?_append_left below] at found
    refine level_mono grown (fun y member => ?_) (aligned.level found)
    exact (aligned.formed.descends found y member).trans below
  · have last : x = arena.nodes.length := by
      have inside := (List.getElem?_eq_some_iff.mp found).1
      rw [List.length_append, List.length_singleton] at inside
      exact le_antisymm (Nat.lt_succ_iff.mp inside) above
    rw [last, List.getElem?_concat_length] at found
    rw [← Option.some.inj found]
    exact level_mono grown children level

/-- A node of some depth and value. -/
structure Made (arena : Arena E) (x : NodeId) (depth : Nat) (value : (Nat → E) → E) : Prop where
  bound : x < arena.nodes.length
  depth_eq : arena.depth x = depth
  value_eq : ∀ inputs, arena.value inputs x = value inputs

variable {y : NodeId} {dx dy : Nat} {vx vy : (Nat → E) → E} {inv : Arena E → Prop} {α : Type}

theorem Made.mono (made : Made arena x dx vx) (grown : arena ≤ arena') : Made arena' x dx vx where
  bound := lt_of_lt_of_le made.bound grown.1.length_le
  depth_eq := (depth_mono grown made.bound).trans made.depth_eq
  value_eq inputs := (value_mono grown made.bound).trans (made.value_eq inputs)

theorem made_self (bound : x < arena.nodes.length) :
    Made arena x (arena.depth x) fun inputs => arena.value inputs x := ⟨bound, rfl, fun _ => rfl⟩

/-- A product of some depth and value. -/
def IsProduct (arena : Arena E) (x : NodeId) : Prop :=
  ∃ e y z, arena.nodes[x]? = some (Expr.quadratic e y z)

theorem made_quadratic (formed : arena.WellFormed) {e : E}
    (found : arena.nodes[x]? = some (.quadratic e y y')) (first : Made arena y dx vx)
    (second : Made arena y' dx vy) :
    Made arena x (dx + 1) fun inputs => e * (vx inputs * vy inputs) where
  bound := (List.getElem?_eq_some_iff.mp found).1
  depth_eq := by
    have depths := formed.depths_eq found
    rw [Arena.depth, depths, Expr.depths, ← Arena.depth, ← Arena.depth, first.depth_eq,
      second.depth_eq, max_self, Nat.add_comm]
  value_eq inputs := by
    rw [formed.value_eq inputs found, Expr.value, first.value_eq, second.value_eq]

theorem settles_depthOf_bind {f : Nat → Nat → Build ε E α}
    {post : Arena E → α → Prop}
    (next : Settles inv allowed arena (fun fuel => f fuel (arena.depth x)) post) :
    Settles inv allowed arena (fun fuel => depthOf x >>= f fuel) post :=
  Settles.congr (c := fun fuel => f fuel (arena.depth x)) (fun _ => rfl) next

section

variable (aligned : arena.Aligned)
include aligned

theorem settles_groundQuadratic (e : E) (first : Made arena x dx vx) (second : Made arena y dx vy) :
    Settles Arena.Aligned allowed arena (fun _ => (groundQuadratic e x y : Build ε E NodeId))
      fun arena' z => Made arena' z (dx + 1) (fun inputs => e * (vx inputs * vy inputs)) ∧
        IsProduct arena' z := by
  unfold groundQuadratic
  refine settles_depthOf_bind (f := fun _ _ => _) (settles_depthOf_bind (f := fun _ _ => _) ?_)
  have same : arena.depth x = arena.depth y := first.depth_eq.trans second.depth_eq.symm
  refine settles_lift_bind (f := fun _ _ => _) (fun _ => ?_) fun stopped => ?_
  · unfold Cse.quadratic
    split
    · refine (settles_memoLevel (v := .quadratic e x y) aligned
        (by simpa [Expr.children] using ⟨first.bound, second.bound⟩)
        (by simp) same).mono fun grown aligned' found => ?_
      exact ⟨made_quadratic aligned'.formed found (first.mono grown) (second.mono grown), _, _, _,
        found⟩
    · refine (settles_memoLevel (v := .quadratic e y x) aligned
        (by simpa [Expr.children] using ⟨second.bound, first.bound⟩)
        (by simp) same.symm).mono fun grown aligned' found => ?_
      have made := made_quadratic aligned'.formed found (second.mono grown) (first.mono grown)
      refine ⟨⟨made.bound, made.depth_eq, fun inputs => ?_⟩, _, _, _, found⟩
      rw [made.value_eq, mul_comm (vy inputs)]
  · rw [ensure_of same] at stopped
    cases stopped

theorem settles_one :
    Settles Arena.Aligned allowed arena (fun _ => (Cse.one : Build ε E NodeId))
      fun arena' x => Made arena' x 0 (fun _ => 1) ∧ arena'.nodes[x]? = some Expr.one := by
  refine (settles_memoLevel (v := .one) aligned (by simp [Expr.children]) (by simp) trivial).mono
    fun _ aligned' found => ⟨⟨(List.getElem?_eq_some_iff.mp found).1, ?_, fun inputs => ?_⟩, found⟩
  · rw [Arena.depth, aligned'.formed.depths_eq found]
    rfl
  · rw [aligned'.formed.value_eq inputs found]
    rfl

theorem settles_oneAtDepth (d : Nat) :
    Settles Arena.Aligned allowed arena (fun _ => (oneAtDepth d : Build ε E NodeId))
      fun arena' x => Made arena' x d fun _ => 1 := by
  induction d with
  | zero => exact (settles_one aligned).mono fun _ _ made => made.1
  | succ d ih =>
    refine ih.bind (f := fun _ _ => _) fun {oo arena₁} _ aligned₁ made => ?_
    refine (settles_groundQuadratic aligned₁ 1 made made).mono fun _ _ ⟨made', _⟩ => ?_
    exact ⟨made'.bound, made'.depth_eq, fun inputs => by rw [made'.value_eq, one_mul, one_mul]⟩

/-- **A copy is one layer further down.** -/
theorem settles_copy (made : Made arena x dx vx) :
    Settles Arena.Aligned allowed arena (fun _ => (copy x : Build ε E NodeId))
      fun arena' z => Made arena' z (dx + 1) vx ∧ IsProduct arena' z := by
  unfold copy
  refine settles_depthOf_bind (f := fun _ _ => _) ?_
  rw [made.depth_eq]
  refine (settles_oneAtDepth aligned dx).bind (f := fun _ _ => _) fun {oo arena₁} grown₁ aligned₁ one => ?_
  have made₁ := made.mono grown₁
  obtain ⟨v, found⟩ : ∃ v, arena₁.nodes[x]? = some v := ⟨_, List.getElem?_eq_getElem made₁.bound⟩
  refine settles_nodeAt_bind (f := fun _ _ => _) found ?_
  have direct : Settles Arena.Aligned allowed arena₁
      (fun _ => (groundQuadratic 1 oo x : Build ε E NodeId))
      fun arena' z => Made arena' z (dx + 1) vx ∧ IsProduct arena' z :=
    (settles_groundQuadratic aligned₁ 1 one made₁).mono fun _ _ done =>
      ⟨⟨done.1.bound, done.1.depth_eq, fun inputs => by rw [done.1.value_eq, one_mul, one_mul]⟩,
        done.2⟩
  have level := aligned₁.level found
  cases v with
  | input _ | one | sum _ _ => exact direct
  | constant _ | linear _ _ | withAssertions _ _ => exact level.elim
  | quadratic e1 x1 y1 =>
    have first : Made arena₁ x1 (arena₁.depth x1) fun inputs => arena₁.value inputs x1 :=
      made_self ((aligned₁.formed.descends found x1 (by simp [Expr.children])).trans made₁.bound)
    have second : Made arena₁ y1 (arena₁.depth x1) fun inputs => arena₁.value inputs y1 :=
      ⟨(aligned₁.formed.descends found y1 (by simp [Expr.children])).trans made₁.bound, level.symm,
        fun _ => rfl⟩
    have here := made_quadratic aligned₁.formed found first second
    have depth : arena₁.depth x1 + 1 = dx := here.depth_eq.symm.trans made₁.depth_eq
    refine (settles_groundQuadratic aligned₁ 1 first second).bind (f := fun _ _ => _)
      fun {sub arena₂} grown₂ aligned₂ inner => ?_
    have subMade := inner.1
    rw [depth] at subMade
    refine (settles_groundQuadratic aligned₂ e1 (one.mono grown₂) subMade).mono
      fun _ _ done => ⟨⟨done.1.bound, done.1.depth_eq, fun inputs => ?_⟩, done.2⟩
    rw [done.1.value_eq, ← made₁.value_eq, here.value_eq, one_mul, one_mul]

end

/-! ### Terms -/

theorem termAt_of_product (made : Made arena x dx vx) (product : IsProduct arena x) :
    arena.TermAt dx x := by
  obtain ⟨e, y, z, found⟩ := product
  exact ⟨_, found, by rw [Expr.depthTerm?, made.depth_eq]⟩

theorem depth_le_of_termAt (formed : arena.WellFormed) (term : arena.TermAt d x) :
    arena.depth x ≤ d := by
  obtain ⟨v, found, depth⟩ := term
  have depths := formed.depths_eq found
  cases v with
  | input _ | one =>
    rw [Arena.depth, depths]
    exact Nat.zero_le _
  | quadratic _ _ _ => exact (Option.some.inj depth).le
  | constant _ | linear _ _ | withAssertions _ _ | sum _ _ => cases depth

theorem depths_of_termAt (formed : arena.WellFormed) (term : arena.TermAt d x) :
    (arena.depths x).2 = d := by
  obtain ⟨v, found, depth⟩ := term
  have depths := formed.depths_eq found
  cases v with
  | input _ | one =>
    rw [depths]
    exact Option.some.inj depth
  | quadratic _ _ _ =>
    have same := Option.some.inj depth
    rw [Arena.depth, depths] at same
    rw [depths]
    exact same
  | constant _ | linear _ _ | withAssertions _ _ | sum _ _ => cases depth

theorem bound_of_termAt (term : arena.TermAt d x) : x < arena.nodes.length := by
  obtain ⟨v, found, -⟩ := term
  exact (List.getElem?_eq_some_iff.mp found).1

theorem depthTerm_run (term : arena.TermAt d x) :
    (depthTerm x : Build ε E Nat).run arena = .ok (d, arena) := by
  obtain ⟨v, found, depth⟩ := term
  have here : (getAt arena.nodes x : Exec ε (Expr E)) = .ok v := getAt_eq_ok.mpr found
  simp only [depthTerm, nodeAt, depthOf, StateT.run_bind, StateT.run_get, pure_bind]
  change ((getAt arena.nodes x : Exec ε (Expr E)) >>= fun a => pure (a, arena)) >>= _ = _
  rw [here, ok_bind, pure_eq_ok, ok_bind]
  simp only [pure_bind, StateT.run_pure]
  rw [depth]
  rfl

theorem settles_depthTerm_bind {f : Nat → Nat → Build ε E α}
    {post : Arena E → α → Prop} (term : arena.TermAt d x)
    (next : Settles inv allowed arena (fun fuel => f fuel d) post) :
    Settles inv allowed arena (fun fuel => depthTerm x >>= f fuel) post := by
  refine next.congr fun fuel => ?_
  rw [StateT.run_bind, depthTerm_run term]
  rfl

/-- **A term is lifted to any depth below it.** -/
theorem settles_lift {c : Nat} (aligned : arena.Aligned) (term : arena.TermAt c x)
    (made : Made arena x dx vx) (deep : c ≤ d) :
    Settles Arena.Aligned allowed arena (fun fuel => (lift fuel d x : Build ε E NodeId))
      fun arena' z => arena'.TermAt d z ∧ ∃ dz, Made arena' z dz vx := by
  have start : dx ≤ c := made.depth_eq ▸ depth_le_of_termAt aligned.formed term
  induction steps : d - dx generalizing arena x dx c with
  | zero =>
    refine Settles.succ (fun fuel => by rw [lift])
      (settles_depthTerm_bind (f := fun _ _ => _) term ?_)
    refine settles_ite (fun there => settles_pure aligned ⟨there ▸ term, _, made⟩) fun deeper => ?_
    omega
  | succ steps ih =>
    refine Settles.succ (fun fuel => by rw [lift])
      (settles_depthTerm_bind (f := fun _ _ => _) term ?_)
    refine settles_ite (fun there => settles_pure aligned ⟨there ▸ term, _, made⟩) fun deeper => ?_
    refine settles_ite (fun beyond => by omega) fun _ => ?_
    refine (settles_copy aligned made).bind fun {z arena'} _ aligned' ⟨made', product⟩ => ?_
    exact ih aligned' (termAt_of_product made' product) made' (by omega) le_rfl (by omega)

/-- **A product of nodes of any depths.** -/
theorem settles_quadratic (aligned : arena.Aligned) (e : E) (first : Made arena x dx vx)
    (second : Made arena y dy vy) :
    Settles Arena.Aligned allowed arena (fun fuel => (quadratic fuel e x y : Build ε E NodeId))
      fun arena' z => (∃ dz, Made arena' z dz fun inputs => e * (vx inputs * vy inputs)) ∧
        IsProduct arena' z := by
  induction apart : (dx - dy) + (dy - dx) generalizing arena x y dx dy vx vy with
  | zero =>
    refine Settles.succ (fun fuel => by rw [quadratic]) ?_
    refine settles_depthOf_bind (f := fun _ _ => _) (settles_depthOf_bind (f := fun _ _ => _) ?_)
    rw [first.depth_eq, second.depth_eq]
    obtain rfl : dx = dy := by omega
    refine settles_ite (fun below => absurd below (lt_irrefl _)) fun _ => ?_
    refine settles_ite (fun below => absurd below (lt_irrefl _)) fun _ => ?_
    exact (settles_groundQuadratic aligned e first second).mono fun _ _ ⟨made, product⟩ =>
      ⟨⟨_, made⟩, product⟩
  | succ apart ih =>
    refine Settles.succ (fun fuel => by rw [quadratic]) ?_
    refine settles_depthOf_bind (f := fun _ _ => _) (settles_depthOf_bind (f := fun _ _ => _) ?_)
    rw [first.depth_eq, second.depth_eq]
    refine settles_ite (fun _ => ?_) fun notBelow => settles_ite (fun _ => ?_) fun notAbove => ?_
    · refine (settles_copy aligned first).bind fun {z arena'} grown aligned' ⟨made, _⟩ => ?_
      exact ih aligned' made (second.mono grown) (by omega)
    · refine (settles_copy aligned second).bind fun {z arena'} grown aligned' ⟨made, _⟩ => ?_
      refine (ih aligned' made (first.mono grown) (by omega)).mono
        fun _ _ ⟨⟨dz, made'⟩, product⟩ => ⟨⟨dz, ?_⟩, product⟩
      exact ⟨made'.bound, made'.depth_eq, fun inputs => by rw [made'.value_eq, mul_comm (vy inputs)]⟩
    · omega

/-! ### Sums -/

/-- The largest of the depths of some nodes as terms. -/
def topDepth (arena : Arena E) (elements : List NodeId) : Nat :=
  (elements.map fun x => (arena.depths x).2).foldl max 0

variable {elements : List NodeId}

variable (arena) in
theorem topDepth_eq (nonempty : elements ≠ []) :
    ∃ x ∈ elements, (arena.depths x).2 = topDepth arena elements ∧
      ∀ y ∈ elements, (arena.depths y).2 ≤ topDepth arena elements := by
  have some : (elements.map fun x => (arena.depths x).2) ≠ [] := by
    rwa [Ne, List.map_eq_nil_iff]
  have top : topDepth arena elements = (elements.map fun x => (arena.depths x).2).max some := by
    rw [topDepth, List.foldl_max_eq_max some, Nat.zero_max]
  obtain ⟨x, member, here⟩ := List.mem_map.mp (List.max_mem some)
  exact ⟨x, member, here.trans top.symm, fun y inside =>
    top ▸ List.le_max_of_mem (List.mem_map_of_mem (f := fun x => (arena.depths x).2) inside)⟩

theorem topDepth_le (below : ∀ x ∈ elements, (arena.depths x).2 ≤ d) :
    topDepth arena elements ≤ d := by
  rcases eq_or_ne elements [] with rfl | nonempty
  · exact Nat.zero_le d
  · obtain ⟨x, member, here, -⟩ := topDepth_eq arena nonempty
    exact here ▸ below x member

theorem topDepth_level (formed : arena.WellFormed) (nonempty : elements ≠ [])
    (terms : ∀ x ∈ elements, arena.TermAt d x) :
    topDepth arena elements = d := by
  obtain ⟨x, member, here, -⟩ := topDepth_eq arena nonempty
  exact here.symm.trans (depths_of_termAt formed (terms x member))

theorem depthTerms_run (formed : arena.WellFormed) (terms : ∀ x ∈ elements, ∃ d, arena.TermAt d x) :
    (elements.mapM depthTerm : Build ε E (List Nat)).run arena =
      .ok (elements.map fun x => (arena.depths x).2, arena) := by
  induction elements with
  | nil => rfl
  | cons x elements ih =>
    obtain ⟨d, term⟩ := terms x List.mem_cons_self
    rw [List.mapM_cons, StateT.run_bind, depthTerm_run term, ok_bind, StateT.run_bind,
      ih fun y member => terms y (List.mem_cons_of_mem _ member), ok_bind, List.map_cons,
      depths_of_termAt formed term]
    rfl

theorem zip_filter (f : NodeId → Nat) (p : Nat → Bool) (elements : List NodeId) :
    ((elements.zip (elements.map f)).filter fun term => p term.2).map Prod.fst =
      elements.filter fun x => p (f x) := by
  induction elements with
  | nil => rfl
  | cons x elements ih =>
    rw [List.map_cons, List.zip_cons_cons, List.filter_cons, List.filter_cons]
    split
    · rw [List.map_cons, ih]
    · exact ih

theorem sum_values {xs zs : List NodeId} {inputs : Nat → E}
    (each : List.Forall₂ (fun x z => arena'.value inputs z = arena.value inputs x) xs zs) :
    (zs.map (arena'.value inputs)).sum = (xs.map (arena.value inputs)).sum := by
  induction each with
  | nil => rfl
  | cons here _ ih => rw [List.map_cons, List.map_cons, List.sum_cons, List.sum_cons, ih, here]

theorem settles_lifts (aligned : arena.Aligned) {xs : List NodeId}
    (terms : ∀ x ∈ xs, arena.TermAt d x) :
    Settles Arena.Aligned allowed arena
      (fun fuel => (xs.mapM (lift fuel d) : Build ε E (List NodeId))) fun arena' zs =>
        zs.length = xs.length ∧ (∀ z ∈ zs, arena'.TermAt d z) ∧
          ∀ inputs, (zs.map (arena'.value inputs)).sum = (xs.map (arena.value inputs)).sum := by
  refine (settles_mapM (fun arena' x z => arena'.TermAt d z ∧
      ∃ dz, Made arena' z dz fun inputs => arena.value inputs x)
    (fun grown _ ⟨term, dz, made⟩ => ⟨termAt_mono grown term, dz, made.mono grown⟩) aligned
    fun x member arena' grown aligned' => ?_).mono fun _ _ each => ⟨each.length_eq.symm, ?_, ?_⟩
  · exact settles_lift aligned' (termAt_mono grown (terms x member))
      ((made_self (bound_of_termAt (terms x member))).mono grown) le_rfl
  · exact fun z member => (exists_of_mem_right each member).elim fun _ here => here.2.1
  · exact fun inputs => sum_values (each.imp fun _ _ ⟨_, _, made⟩ => made.value_eq inputs)

theorem settles_cseSum (aligned : arena.Aligned) (nonempty : elements ≠ [])
    (terms : ∀ x ∈ elements, arena.TermAt d x) :
    Settles Arena.Aligned allowed arena (fun _ => (Cse.sum elements false : Build ε E NodeId))
      fun arena' z => Made arena' z d fun inputs => (elements.map (arena.value inputs)).sum := by
  have perm : (elements.mergeSort (· ≤ ·)).Perm elements := List.mergeSort_perm ..
  have sorted : ∀ x ∈ elements.mergeSort (· ≤ ·), arena.TermAt d x :=
    fun x member => terms x (perm.mem_iff.mp member)
  have some : elements.mergeSort (· ≤ ·) ≠ [] := fun empty => nonempty (by
    rw [empty] at perm
    exact perm.nil_eq.symm)
  refine (settles_memoLevel (v := .sum (elements.mergeSort (· ≤ ·)) false) aligned
    (fun x member => bound_of_termAt (sorted x member))
    (fun precious same => some (Expr.sum.inj same).1) ⟨d, sorted⟩).mono
    fun {z arena'} grown aligned' found => ?_
  refine ⟨(List.getElem?_eq_some_iff.mp found).1, ?_, fun inputs => ?_⟩
  · rw [Arena.depth, aligned'.formed.depths_eq found]
    exact topDepth_level aligned'.formed some fun x member => termAt_mono grown (sorted x member)
  · rw [aligned'.formed.value_eq inputs found, Expr.value, (perm.map _).sum_eq,
      values_mono grown fun x member => bound_of_termAt (terms x member)]

theorem settles_depthTerms_bind {f : Nat → List Nat → Build ε E α}
    {post : Arena E → α → Prop} (formed : arena.WellFormed)
    (terms : ∀ x ∈ elements, ∃ d, arena.TermAt d x) (next : Settles inv allowed arena
      (fun fuel => f fuel (elements.map fun x => (arena.depths x).2)) post) :
    Settles inv allowed arena (fun fuel => elements.mapM depthTerm >>= f fuel) post := by
  refine next.congr fun fuel => ?_
  rw [StateT.run_bind, depthTerms_run formed terms]
  rfl

theorem sum_split (f : NodeId → E) (g : NodeId → Nat) (d : Nat) (elements : List NodeId) :
    ((elements.filter fun x => g x = d).map f).sum +
      ((elements.filter fun x => g x ≠ d).map f).sum = (elements.map f).sum := by
  have perm := List.filter_append_perm (fun x => decide (g x = d)) elements
  rw [← List.sum_append, ← List.map_append, ← (perm.map f).sum_eq]
  simp only [ne_eq, decide_not]

/-- **A sum of terms of any depths**, by induction on how many are not the deepest: the sum of those
has fewer, and when it is lifted all are of one depth. -/
theorem settles_sumNoNestedSums (aligned : arena.Aligned) (nonempty : elements ≠ [])
    (terms : ∀ x ∈ elements, ∃ d, arena.TermAt d x) :
    Settles Arena.Aligned allowed arena
      (fun fuel => (sumNoNestedSums fuel elements : Build ε E NodeId)) fun arena' z =>
        ∃ dz ≤ topDepth arena elements,
          Made arena' z dz fun inputs => (elements.map (arena.value inputs)).sum := by
  induction shallow : (elements.filter fun x =>
      (arena.depths x).2 ≠ topDepth arena elements).length
    using Nat.strong_induction_on generalizing arena elements with
  | _ _ ih =>
    rcases elements with _ | ⟨x, _ | ⟨y, rest⟩⟩
    · exact absurd rfl nonempty
    · refine Settles.succ (fun fuel => by rw [sumNoNestedSums]) (settles_pure aligned ?_)
      obtain ⟨d, term⟩ := terms x List.mem_cons_self
      refine ⟨arena.depth x, ?_, bound_of_termAt term, rfl, fun inputs => (add_zero _).symm⟩
      obtain ⟨z, member, here, -⟩ := topDepth_eq arena nonempty
      rw [← here, List.mem_singleton.mp member, depths_of_termAt aligned.formed term]
      exact depth_le_of_termAt aligned.formed term
    · refine Settles.succ (fun fuel => by rw [sumNoNestedSums] <;> simp) ?_
      generalize elements_eq : x :: y :: rest = elements at *
      refine settles_depthTerms_bind (f := fun _ _ => _) aligned.formed terms ?_
      obtain ⟨top, topMember, top_eq, top_le⟩ := topDepth_eq arena nonempty
      generalize d_eq : topDepth arena elements = d at *
      have yes_eq := zip_filter (fun x => (arena.depths x).2) (fun n => n = d) elements
      have no_eq := zip_filter (fun x => (arena.depths x).2) (fun n => n ≠ d) elements
      have total := fun inputs => sum_split (arena.value inputs) (fun x => (arena.depths x).2) d
        elements
      rw [topDepth] at d_eq
      simp only [d_eq, yes_eq, no_eq]
      generalize yes_def : (elements.filter fun x => (arena.depths x).2 = d) = yes at *
      generalize no_def : (elements.filter fun x => (arena.depths x).2 ≠ d) = no at *
      have inYes : ∀ x ∈ yes, arena.TermAt d x := by
        intro x member
        rw [← yes_def, List.mem_filter, decide_eq_true_eq] at member
        obtain ⟨c, term⟩ := terms x member.1
        rwa [← member.2, depths_of_termAt aligned.formed term]
      have inNo : ∀ x ∈ no, (arena.depths x).2 < d ∧ ∃ c, arena.TermAt c x := by
        intro x member
        rw [← no_def, List.mem_filter, decide_eq_true_eq] at member
        exact ⟨lt_of_le_of_ne (top_le x member.1) member.2, terms x member.1⟩
      refine (settles_lifts aligned inYes).bind (f := fun _ _ => _)
        fun {lifted arena₁} grown₁ aligned₁ ⟨length, level, sums⟩ => ?_
      have some : lifted ≠ [] := by
        rw [← List.length_pos_iff, length, ← yes_def]
        refine List.length_pos_of_mem (a := top) ?_
        rw [List.mem_filter, decide_eq_true_eq]
        exact ⟨topMember, top_eq⟩
      rcases no with _ | ⟨n, ns⟩
      · refine (settles_cseSum aligned₁ some level).mono fun _ _ made => ⟨d, le_rfl, ?_⟩
        refine ⟨made.bound, made.depth_eq, fun inputs => ?_⟩
        rw [made.value_eq, sums, ← total inputs, List.map_nil, List.sum_nil, add_zero]
      · rcases lifted with _ | ⟨z, zs⟩
        · exact absurd rfl some
        have terms₁ : ∀ x ∈ n :: ns, ∃ c, arena₁.TermAt c x := fun x member =>
          (inNo x member).2.imp fun _ term => termAt_mono grown₁ term
        have bounds : ∀ x ∈ n :: ns, x < arena.nodes.length := fun x member =>
          (inNo x member).2.elim fun _ term => bound_of_termAt term
        have shallower : ∀ x ∈ n :: ns, (arena₁.depths x).2 ≤ d - 1 := fun x member => by
          rw [depths_mono grown₁ (bounds x member)]
          exact Nat.le_sub_one_of_lt (inNo x member).1
        have fewer : ((n :: ns).filter fun x =>
            (arena₁.depths x).2 ≠ topDepth arena₁ (n :: ns)).length < (n :: ns).length := by
          obtain ⟨m, member, here, -⟩ := topDepth_eq arena₁ (List.cons_ne_nil n ns)
          refine List.length_filter_lt_length_iff_exists.mpr ⟨m, member, ?_⟩
          simpa using here
        refine (ih _ (shallow ▸ fewer) aligned₁ (List.cons_ne_nil n ns) terms₁ rfl).bind
          (f := fun _ _ => _) fun {folded arena₂} grown₂ aligned₂ ⟨dz, low, made₂⟩ => ?_
        refine (settles_copy aligned₂ made₂).bind
          (f := fun _ _ => _) fun {copied arena₃} grown₃ aligned₃ ⟨made₃, product⟩ => ?_
        have deep : dz + 1 ≤ d := by
          have positive : 0 < d := (Nat.zero_le _).trans_lt (inNo n List.mem_cons_self).1
          have := low.trans (topDepth_le shallower)
          omega
        refine (settles_lift aligned₃ (termAt_of_product made₃ product) made₃ deep).bind
          (f := fun _ _ => _) fun {last arena₄} grown₄ aligned₄ ⟨term, dl, made₄⟩ => ?_
        have grown := grown₂.trans (grown₃.trans grown₄)
        have uniform : ∀ x ∈ z :: zs ++ [last], arena₄.TermAt d x := by
          intro x member
          rcases List.mem_append.mp member with old | new
          · exact termAt_mono grown (level x old)
          · exact List.mem_singleton.mp new ▸ term
        have several : z :: zs ++ [last] ≠ [] := List.append_ne_nil_of_left_ne_nil some [last]
        have top₄ := topDepth_level aligned₄.formed several uniform
        have none : ((z :: zs ++ [last]).filter fun x =>
            (arena₄.depths x).2 ≠ topDepth arena₄ (z :: zs ++ [last])).length = 0 := by
          rw [top₄, List.length_eq_zero_iff, List.filter_eq_nil_iff]
          intro x member
          simpa using depths_of_termAt aligned₄.formed (uniform x member)
        refine (ih 0 (shallow ▸ Nat.succ_pos _) aligned₄ several
          (fun x member => ⟨d, uniform x member⟩) none).mono fun _ _ ⟨dr, below, made⟩ => ?_
        refine ⟨dr, top₄ ▸ below, made.bound, made.depth_eq, fun inputs => ?_⟩
        rw [made.value_eq, List.map_append, List.sum_append, List.map_singleton,
          List.sum_singleton, made₄.value_eq,
          values_mono grown fun x member => bound_of_termAt (level x member), sums,
          values_mono grown₁ bounds, total]

/-! ### Expressions -/

theorem settles_constant (aligned : arena.Aligned) {elt : E} (nonzero : elt ≠ 0) :
    Settles Arena.Aligned allowed arena (fun fuel => (constant fuel elt : Build ε E NodeId))
      fun arena' z => ∃ dz, Made arena' z dz fun _ => elt := by
  unfold constant
  refine settles_ite (fun unit => ?_) fun _ => ?_
  · exact (settles_one aligned).mono fun _ _ ⟨made, _⟩ => ⟨0, unit ▸ made⟩
  · refine settles_lift_bind (f := fun _ _ => _) (fun _ => ?_) fun stopped => ?_
    · refine (settles_one aligned).bind fun {unit arena₁} _ aligned₁ ⟨made, _⟩ => ?_
      refine (settles_quadratic aligned₁ elt made made).mono fun _ _ ⟨⟨dz, made'⟩, _⟩ => ⟨dz, ?_⟩
      exact ⟨made'.bound, made'.depth_eq, fun inputs => by rw [made'.value_eq, mul_one, mul_one]⟩
    · rw [ensure_of nonzero] at stopped
      cases stopped

theorem settles_linear (aligned : arena.Aligned) (elt : E) (made : Made arena x dx vx) :
    Settles Arena.Aligned allowed arena (fun fuel => (linear fuel elt x : Build ε E NodeId))
      fun arena' z => (∃ dz, Made arena' z dz fun inputs => elt * vx inputs) ∧
        IsProduct arena' z := by
  unfold linear
  refine (settles_one aligned).bind fun {unit arena₁} grown aligned₁ ⟨one, _⟩ => ?_
  refine (settles_quadratic aligned₁ elt one (made.mono grown)).mono
    fun _ _ ⟨⟨dz, made'⟩, product⟩ => ⟨⟨dz, ?_⟩, product⟩
  exact ⟨made'.bound, made'.depth_eq, fun inputs => by rw [made'.value_eq, one_mul]⟩

theorem settles_sum (aligned : arena.Aligned) (nonempty : elements ≠ [])
    (bounds : ∀ x ∈ elements, x < arena.nodes.length) :
    Settles Arena.Aligned allowed arena (fun fuel => (sum fuel elements : Build ε E NodeId))
      fun arena' z => ∃ dz, Made arena' z dz fun inputs =>
        (elements.map (arena.value inputs)).sum := by
  unfold sum
  refine (settles_mapM (fun arena' x z => (∃ d, arena'.TermAt d z) ∧
      ∀ inputs, arena'.value inputs z = arena.value inputs x)
    (fun grown _ ⟨⟨d, term⟩, same⟩ => ⟨⟨d, termAt_mono grown term⟩, fun inputs =>
      (value_mono grown (bound_of_termAt term)).trans (same inputs)⟩) aligned
    fun x member arena' grown aligned' => ?_).bind fun {zs arena₁} grown₁ aligned₁ each => ?_
  · have made := (made_self (bounds x member)).mono grown
    obtain ⟨v, found⟩ : ∃ v, arena'.nodes[x]? = some v := ⟨_, List.getElem?_eq_getElem made.bound⟩
    refine settles_nodeAt_bind (f := fun _ _ => _) found ?_
    have level := aligned'.level found
    cases v with
    | sum terms precious =>
      refine (settles_linear aligned' 1 made).mono fun _ _ ⟨⟨dz, made'⟩, product⟩ => ?_
      exact ⟨⟨dz, termAt_of_product made' product⟩, fun inputs => by
        rw [made'.value_eq, one_mul]⟩
    | input _ | one => exact settles_pure aligned' ⟨⟨1, _, found, rfl⟩, made.value_eq⟩
    | quadratic _ _ _ => exact settles_pure aligned' ⟨⟨_, _, found, rfl⟩, made.value_eq⟩
    | constant _ | linear _ _ | withAssertions _ _ => exact level.elim
  · have some : zs ≠ [] := fun empty => nonempty
      (List.forall₂_nil_right_iff.mp (empty ▸ each))
    have terms : ∀ z ∈ zs, ∃ d, arena₁.TermAt d z := fun z member =>
      (exists_of_mem_right each member).elim fun _ here => here.2.1
    refine (settles_sumNoNestedSums aligned₁ some terms).mono fun _ _ ⟨dz, _, made⟩ => ⟨dz, ?_⟩
    refine ⟨made.bound, made.depth_eq, fun inputs => ?_⟩
    rw [made.value_eq]
    exact sum_values (each.imp fun _ _ here => here.2 inputs)

/-! ### The whole pass -/

section Pass

variable {src : Arena E} {assertions : List AssertionItem}

theorem Made.valued {dz : Nat} {vz : (Nat → E) → E} (made : Made arena x dz vz) :
    Valued arena x vz := ⟨made.bound, made.value_eq⟩

theorem made_of_valued {value : (Nat → E) → E} (valued : Valued arena x value) :
    Made arena x (arena.depth x) value := ⟨valued.1, rfl, valued.2⟩

/-- **Every operation has the value it is named after.** -/
theorem evaluates (allowed : Fault ε → Prop) :
    Evaluates Arena.Aligned allowed id (fun elt : E => elt ≠ 0) (rewriter (ε := ε)) where
  later grown := grown
  input position aligned := (settles_memoLevel (v := .input position) aligned
    (by simp [Expr.children]) (by simp) trivial).mono fun _ aligned' found =>
      aligned'.formed.valued found fun _ => rfl
  one aligned := (settles_one aligned).mono fun _ _ ⟨made, _⟩ => made.valued
  constant nonzero aligned := (settles_constant aligned nonzero).mono fun _ _ ⟨_, made⟩ =>
    made.valued
  linear elt aligned valued := (settles_linear aligned elt (made_of_valued valued)).mono
    fun _ _ ⟨⟨_, made⟩, _⟩ => made.valued
  quadratic elt aligned valued valued' := (settles_quadratic aligned elt (made_of_valued valued)
    (made_of_valued valued')).mono fun _ _ ⟨⟨_, made⟩, _⟩ => made.valued
  sum _ aligned nonempty bounds := (settles_sum aligned nonempty bounds).mono
    fun _ _ ⟨_, made⟩ => made.valued

theorem answered_of_copyable (copyable : v.Copyable) :
    v.Answered fun elt => elt ≠ 0 := by
  cases v with
  | constant _ | sum _ _ | withAssertions _ _ => exact copyable
  | input _ | one | linear _ _ | quadratic _ _ _ => trivial

theorem aligned_new : (Arena.new : Arena E).Aligned := ⟨wellFormed_new, by simp [Arena.new]⟩

/-- **The walk of the pass.** -/
theorem settles_walked
    (descends : ∀ {i : NodeId} {v : Expr E}, src.nodes[i]? = some v → ∀ c ∈ v.children, c < i)
    (bounds : ∀ item ∈ assertions, item.expr < src.nodes.length)
    (copyable : ∀ {x : NodeId} {v : Expr E}, Below src.nodes (assertions.map AssertionItem.expr) x →
      src.nodes[x]? = some v → v.Copyable) :
    Settles Arena.Aligned (fun _ : Fault ε => False) Arena.new
      (fun fuel => walkCache rewriter fuel src.nodes assertions) fun arena cache =>
        ∀ x, Below src.nodes (assertions.map AssertionItem.expr) x →
          ∃ y, cache x = some y ∧ Image src arena x y :=
  settles_walkCache _ (Image src) descends (fun {_} below bound =>
    (evaluates _).canRewrite (List.getElem?_eq_getElem bound)
      (descends (List.getElem?_eq_getElem bound))
      (answered_of_copyable (copyable below (List.getElem?_eq_getElem bound))))
    (fun grown _ image => image.mono grown) bounds aligned_new

theorem rewrite_run {fuel : Nat} {cache : Cache}
    (ran : (walkCache (ε := ε) rewriter fuel src.nodes assertions).run Arena.new =
      .ok (cache, arena)) (done : ∀ item ∈ assertions, (cache item.expr).isSome) :
    (rewrite (ε := ε) fuel src assertions).run Arena.new = .ok (cache.roots assertions, arena) := by
  rw [rewrite, walk, StateT.run_bind, ran, ok_bind, mapM_roots done]
  rfl

/-- **The pass ends without a panic, and what it makes is aligned**: no constant and no multiple is
left, the operands of each product are of one depth, and so are the terms of each sum. Every node has
the value of the node it comes from. -/
theorem copy_aligned {src : Arena E} {assertions : List AssertionItem}
    (descends : ∀ {i : NodeId} {v : Expr E}, src.nodes[i]? = some v → ∀ c ∈ v.children, c < i)
    (bounds : ∀ item ∈ assertions, item.expr < src.nodes.length)
    (copyable : ∀ {x : NodeId} {v : Expr E}, Below src.nodes (assertions.map AssertionItem.expr) x →
      src.nodes[x]? = some v → v.Copyable) :
    ∃ (enough : Nat) (cache : Cache) (arena : Arena E), arena.Aligned ∧
      (∀ fuel, enough ≤ fuel →
        (walkCache (ε := ε) rewriter fuel src.nodes assertions).run Arena.new = .ok (cache, arena) ∧
        (rewrite (ε := ε) fuel src assertions).run Arena.new =
          .ok (cache.roots assertions, arena)) ∧
      ∀ x, Below src.nodes (assertions.map AssertionItem.expr) x → ∃ y, cache x = some y ∧
        y < arena.nodes.length ∧ ∀ inputs, arena.value inputs y = src.value inputs x := by
  cases settles_walked (ε := ε) descends bounds copyable with
  | fails _ _ isAllowed => exact isAllowed.elim
  | returns cache arena enough ran _ aligned done =>
    refine ⟨enough, cache, arena, aligned, fun fuel more => ⟨ran fuel more, ?_⟩, done⟩
    refine rewrite_run (ran fuel more) fun item member => ?_
    obtain ⟨y, here, -⟩ := done _ (.root (List.mem_map_of_mem member))
    exact Option.isSome_iff_exists.mpr ⟨y, here⟩

end Pass

/-- The numeral two of a ring. -/
local instance two_atLeastTwo : Nat.AtLeastTwo 2 := inferInstance

/-- A sum that has a product, a constant and a sum as its terms. -/
def nestedSum : Arena (ZMod 7) :=
  ⟨[.input 1, .input 2, .quadratic 3 0 1, .sum [0, 2] true, .constant 5, .linear 2 4,
    .sum [1, 2, 3, 5] false], []⟩

theorem copy_aligned_nestedSum : ∃ (enough : Nat) (cache : Cache) (arena : Arena (ZMod 7)),
    arena.Aligned ∧
      (∀ fuel, enough ≤ fuel →
        (walkCache (ε := Empty) rewriter fuel nestedSum.nodes [⟨6, 0⟩]).run Arena.new =
          .ok (cache, arena) ∧
        (rewrite (ε := Empty) fuel nestedSum [⟨6, 0⟩]).run Arena.new =
          .ok (cache.roots [⟨6, 0⟩], arena)) ∧
      ∀ x, Below nestedSum.nodes [6] x → ∃ y, cache x = some y ∧
        y < arena.nodes.length ∧ ∀ inputs, arena.value inputs y = nestedSum.value inputs x := by
  have descends : ∀ node ∈ nestedSum.nodes.zipIdx, ∀ c ∈ node.1.children, c < node.2 := by decide
  have copyable : ∀ v ∈ nestedSum.nodes, v.Copyable := by decide
  exact copy_aligned (fun {i v} found => descends (v, i) (List.mem_zipIdx_iff_getElem?.mpr found))
    (by decide) fun {_ v} _ found => copyable v (List.mem_of_getElem? found)

end Copy

end Longfellow.Compile
