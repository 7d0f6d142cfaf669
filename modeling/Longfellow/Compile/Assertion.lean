/-
**Stripping attached assertions** (`compile/compiler/src/assertion.rs`).

The first pass takes the assertions that are attached to nodes off them and makes them assertions of
the circuit, next to those the program returns. What is left is simplified again: without the
attached assertions, terms of a sum that were different may be the same and cancel. The assertions
that two passes make the same are merged, in whatever order a hash map lists them.

* `copyReady_iff` — **the copy pass is handed what it can copy if and only if no assertion is zero on
  every input**: one that is stays an assertion, also when it is the constant zero.
-/

import Longfellow.Compile.Copy
import Longfellow.Compile.Operands
import Longfellow.Compile.Provenance
import Mathlib.Algebra.Field.ZMod

set_option linter.unusedSectionVars false

namespace Longfellow.Compile

open Lib

variable {ε E : Type} [CommRing E] [DecidableEq E]

namespace Assertion

/-! ### The pass -/

/-- The order in which a hash map lists its entries. -/
structure HashOrder where
  list : List AssertionItem → List AssertionItem
  perm : ∀ items, (list items).Perm items

/-- The assertions without those about a node that was asserted before. The merged assertions are
noted in the scope, which no result depends on. -/
def dedupAssertions (order : HashOrder) (assertions : List AssertionItem) : List AssertionItem :=
  order.list (keepFirst assertions)

/-- The arena, and the assertions that were stripped. -/
structure Stripping (E : Type) where
  arena : Arena E
  collected : List AssertionItem

instance : Preorder (Stripping E) where
  le s s' := s.arena ≤ s'.arena ∧ s.collected <+: s'.collected
  le_refl _ := ⟨le_rfl, List.prefix_rfl⟩
  le_trans _ _ _ first second := ⟨first.1.trans second.1, first.2.trans second.2⟩

/-- Build expressions, next to what was stripped. -/
def onArena {α : Type} (m : Build ε E α) : StateT (Stripping E) (Exec ε) α := fun s => do
  let (a, arena) ← m.run s.arena
  pure (a, { s with arena })

def stripRewriter : RewriteT ε (Stripping E) E where
  assert0 x := pure (Cse.assert0 x)
  input position := onArena (Cse.input position)
  sum elements precious := onArena (Cse.sum elements precious)
  one := onArena Cse.one
  constant elt := onArena (Cse.constant elt)
  linear elt x := onArena (Cse.linear elt x)
  quadratic elt x y := onArena (Cse.quadratic elt x y)
  withAssertions assertions x := do
    modify fun s => { s with collected := s.collected ++ assertions }
    pure x

/-- A walk of the stripping pass: the rewritten assertions, and those that were stripped. -/
def stripWalk (fuel : Nat) (nodes : List (Expr E)) (assertions : List AssertionItem) :
    Build ε E (List AssertionItem × List AssertionItem) := fun arena => do
  let (stripped, s) ← (walk (fun _ => stripRewriter) fuel nodes assertions).run ⟨arena, []⟩
  pure ((stripped, s.collected), s.arena)

/-- Strip what was stripped, until nothing is. -/
def stripLoop (order : HashOrder) : Nat → List AssertionItem → Build ε E (List AssertionItem)
  | 0, _ => liftM (abort "out of fuel" : Exec ε _)
  | fuel + 1, currentItems => do
    let arena ← get
    let (nextStripped, nextSubExprs) ←
      stripWalk fuel arena.nodes (dedupAssertions order currentItems)
    if nextSubExprs = [] then pure (dedupAssertions order nextStripped)
    else stripLoop order fuel (nextStripped ++ nextSubExprs)

def stripAll (order : HashOrder) (fuel : Nat) (src : Arena E) (assertions : List AssertionItem) :
    Build ε E (List AssertionItem) := do
  let (strippedSlice, newSubExprs) ← stripWalk fuel src.nodes assertions
  if newSubExprs = [] then pure (dedupAssertions order strippedSlice)
  else stripLoop order fuel (strippedSlice ++ newSubExprs)

def algebraic (cmp : E → E → Ordering) (fuel : Nat) : RewriteT ε (Arena E) E where
  assert0 := Algsimp.assert0 fuel
  input := Cse.input
  sum := Algsimp.sum cmp fuel
  one := Algsimp.one
  constant := Algsimp.constant
  linear := Algsimp.linear cmp fuel
  quadratic := Algsimp.quadratic cmp fuel
  withAssertions := Algsimp.withAssertions

/-- Strip, and simplify again. The simplified expressions are memoized apart from the stripped ones,
so their nodes are numbered on their own here. -/
def rewrite (order : HashOrder) (cmp : E → E → Ordering) (fuel : Nat) (src : Arena E)
    (assertions : List AssertionItem) : Build ε E (List AssertionItem) := do
  let (stripped, arena) ← liftM ((stripAll order fuel src assertions).run Arena.new :
    Exec ε (List AssertionItem × Arena E))
  let rewritten ← walk (algebraic cmp) fuel arena.nodes stripped
  pure (dedupAssertions order rewritten)

/-! ### Merged assertions -/

theorem foldl_keepNew (items kept : List AssertionItem) :
    (∀ item ∈ items.foldl keepNew kept, item ∈ kept ∨ item ∈ items) ∧
      ∀ e, e ∈ kept.map AssertionItem.expr ∨ e ∈ items.map AssertionItem.expr →
        e ∈ (items.foldl keepNew kept).map AssertionItem.expr := by
  induction items generalizing kept with
  | nil => exact ⟨fun _ => .inl, fun _ here => here.resolve_right List.not_mem_nil⟩
  | cons first rest ih =>
    obtain ⟨inside, asserted⟩ := ih (keepNew kept first)
    rw [List.foldl_cons]
    refine ⟨fun item member => ?_, fun e here => asserted e ?_⟩
    · rcases inside item member with old | later
      · unfold keepNew at old
        split at old
        · exact .inl old
        · refine (List.mem_append.mp old).imp_right fun new => ?_
          rw [List.mem_singleton.mp new]
          exact List.mem_cons_self
      · exact .inr (List.mem_cons_of_mem _ later)
    · rw [List.map_cons, List.mem_cons, ← or_assoc] at here
      refine here.imp_left fun new => ?_
      unfold keepNew
      split
      · rcases new with old | rfl <;> assumption
      · simpa using new

variable {item : AssertionItem}

theorem mem_dedup {order : HashOrder} {items : List AssertionItem}
    (member : item ∈ dedupAssertions order items) : item ∈ items :=
  ((foldl_keepNew items []).1 item ((order.perm _).mem_iff.mp member)).resolve_left
    List.not_mem_nil

theorem exists_mem_dedup (order : HashOrder) {items : List AssertionItem} (member : item ∈ items) :
    ∃ kept ∈ dedupAssertions order items, kept.expr = item.expr := by
  obtain ⟨kept, inside, same⟩ := List.mem_map.mp
    ((foldl_keepNew items []).2 item.expr (.inr (List.mem_map_of_mem member)))
  exact ⟨kept, (order.perm _).mem_iff.mpr inside, same⟩

/-! ### Assertions that stand for others -/

/-- Assertions that stand for asserted nodes of a source, by their values. -/
structure Stands (src : Arena E) (asserted : NodeId → Prop) (arena : Arena E)
    (items : List AssertionItem) : Prop where
  sound : ∀ item ∈ items, ∃ x, asserted x ∧ Image src arena x item.expr
  complete : ∀ x, asserted x → ∃ item ∈ items, Image src arena x item.expr

variable {src arena arena' : Arena E} {asserted : NodeId → Prop} {items : List AssertionItem}
  {x : NodeId}

theorem Stands.dedup (order : HashOrder) (stands : Stands src asserted arena items) :
    Stands src asserted arena (dedupAssertions order items) where
  sound item member := stands.sound item (mem_dedup member)
  complete x isAsserted := by
    obtain ⟨item, member, image⟩ := stands.complete x isAsserted
    obtain ⟨kept, inside, same⟩ := exists_mem_dedup order member
    exact ⟨kept, inside, same ▸ image⟩

theorem Stands.bounds (stands : Stands src asserted arena items) :
    ∀ item ∈ items, item.expr < arena.nodes.length := fun item member =>
  (stands.sound item member).elim fun _ here => here.2.1

theorem Stands.walked {cache : Cache} (stands : Stands src asserted arena items)
    (images : ∀ item ∈ items, ∃ y, cache item.expr = some y ∧ Image arena arena' item.expr y) :
    Stands src asserted arena' (cache.roots items) := by
  have image : ∀ item ∈ items, ∀ {x}, Image src arena x item.expr →
      Image src arena' x ((cache item.expr).getD 0) := by
    intro item member x here
    obtain ⟨y, found, there⟩ := images item member
    rw [found]
    exact ⟨there.1, fun inputs => (there.2 inputs).trans (here.2 inputs)⟩
  refine ⟨fun item member => ?_, fun x isAsserted => ?_⟩
  · obtain ⟨old, inside, rfl⟩ := List.mem_map.mp member
    obtain ⟨x, isAsserted, here⟩ := stands.sound old inside
    exact ⟨x, isAsserted, image old inside here⟩
  · obtain ⟨old, inside, here⟩ := stands.complete x isAsserted
    exact ⟨_, List.mem_map_of_mem inside, image old inside here⟩

/-! ### Attached assertions -/

/-- The node of an assertion that is attached to a node at or below some nodes. -/
def AttachedBelow (nodes : List (Expr E)) (roots : List NodeId) (c : NodeId) : Prop :=
  ∃ w assertions x, Below nodes roots w ∧ nodes[w]? = some (.withAssertions assertions x) ∧
    ∃ item ∈ assertions, item.expr = c

variable {roots : List NodeId} {c : NodeId} {assertions : List AssertionItem}

section

variable (formed : src.WellFormed) (below : Below src.nodes roots x)
  (attached : c ∈ src.attachedTo x)
include formed below attached

theorem attached_of_below :
    ∃ r ∈ roots, c ∈ src.attachedTo r := by
  induction below with
  | root member => exact ⟨_, member, attached⟩
  | @child x y v _ found member ih =>
    refine ih ?_
    rw [formed.attachedTo_eq found]
    cases v with
    | withAssertions assertions z =>
      rcases List.mem_cons.mp member with rfl | inside
      · exact List.mem_append_right _ attached
      · obtain ⟨item, listed, rfl⟩ := List.mem_map.mp inside
        exact List.mem_append_left _ (List.mem_flatMap.mpr
          ⟨item, listed, List.mem_cons_of_mem _ attached⟩)
    | input _ | one | constant _ | sum _ _ | linear _ _ | quadratic _ _ _ =>
      exact List.mem_flatMap.mpr ⟨y, member, attached⟩

theorem below_of_attached :
    AttachedBelow src.nodes roots c := by
  induction x using Nat.strong_induction_on with
  | _ x ih =>
    rcases found : src.nodes[x]? with _ | v
    · rw [Arena.attachedTo, List.getD_eq_getElem?_getD, List.getElem?_eq_none] at attached
      · cases attached
      · rw [length_tabulate]
        exact List.getElem?_eq_none_iff.mp found
    have deeper : ∀ y ∈ v.children, c ∈ src.attachedTo y → AttachedBelow src.nodes roots c :=
      fun y member => ih y (formed.descends found y member) (.child below found member)
    rw [formed.attachedTo_eq found] at attached
    cases v with
    | withAssertions assertions z =>
      rcases List.mem_append.mp attached with here | rest
      · obtain ⟨item, listed, here⟩ := List.mem_flatMap.mp here
        rcases List.mem_cons.mp here with rfl | here
        · exact ⟨x, assertions, z, below, found, item, listed, rfl⟩
        · exact deeper item.expr (List.mem_cons_of_mem _ (List.mem_map_of_mem listed)) here
      · exact deeper z List.mem_cons_self rest
    | input _ | one | constant _ | sum _ _ | linear _ _ | quadratic _ _ _ =>
      obtain ⟨y, member, here⟩ := List.mem_flatMap.mp attached
      exact deeper y member here

end

/-- **The asserted nodes** are those of the assertions, and those of the attached assertions at or
below them. -/
theorem asserted_iff (formed : src.WellFormed) :
    Asserted src assertions c ↔ c ∈ assertions.map AssertionItem.expr ∨
      AttachedBelow src.nodes (assertions.map AssertionItem.expr) c := by
  constructor
  · rintro ⟨item, member, rfl | attached⟩
    · exact .inl (List.mem_map_of_mem member)
    · exact .inr (below_of_attached formed (.root (List.mem_map_of_mem member)) attached)
  · rintro (root | ⟨w, inner, x, below, found, item, listed, rfl⟩)
    · obtain ⟨item, member, rfl⟩ := List.mem_map.mp root
      exact ⟨item, member, .inl rfl⟩
    · have attached : item.expr ∈ src.attachedTo w := by
        rw [formed.attachedTo_eq found]
        exact List.mem_append_left _ (List.mem_flatMap.mpr ⟨item, listed, List.mem_cons_self⟩)
      obtain ⟨r, member, here⟩ := attached_of_below formed below attached
      obtain ⟨root, inside, rfl⟩ := List.mem_map.mp member
      exact ⟨root, inside, .inr here⟩

/-! ### Stripping -/

/-- A well formed arena without attached assertions. -/
structure Plain (arena : Arena E) : Prop where
  formed : arena.WellFormed
  plain : ∀ v ∈ arena.nodes, ¬v.IsWrapper

variable {allowed : Fault ε → Prop}

theorem settles_plain (plain : Plain arena) {v : Expr E}
    (children : ∀ x ∈ v.children, x < arena.nodes.length)
    (nonempty : ∀ precious, v ≠ .sum [] precious) (unwrapped : ¬v.IsWrapper) :
    Settles Plain allowed arena (fun _ => (memoExpr v : Build ε E NodeId)) fun arena' x =>
      arena'.nodes[x]? = some v := by
  refine settles_memo plain ⟨plain.formed.append children nonempty, fun w member => ?_⟩
  rcases List.mem_append.mp member with old | new
  · exact plain.plain w old
  · exact List.mem_singleton.mp new ▸ unwrapped

theorem settles_plainQuadratic (plain : Plain arena) {x' : NodeId} {vx vx' : (Nat → E) → E}
    (elt : E) (first : Valued arena x vx) (second : Valued arena x' vx') :
    Settles Plain allowed arena (fun _ => (Cse.quadratic elt x x' : Build ε E NodeId))
      fun arena' y => Valued arena' y fun inputs => elt * (vx inputs * vx' inputs) := by
  unfold Cse.quadratic
  split
  · refine (settles_plain plain (v := .quadratic elt x x')
      (by simpa [Expr.children] using ⟨first.1, second.1⟩) (by simp) id).mono
      fun grown plain' found => plain'.formed.valued found fun inputs => ?_
    rw [Expr.value, (first.mono grown).2, (second.mono grown).2]
  · refine (settles_plain plain (v := .quadratic elt x' x)
      (by simpa [Expr.children] using ⟨second.1, first.1⟩) (by simp) id).mono
      fun grown plain' found => plain'.formed.valued found fun inputs => ?_
    rw [Expr.value, (first.mono grown).2, (second.mono grown).2, mul_comm (vx' inputs)]

theorem settles_plainSum (plain : Plain arena) {elements : List NodeId} (precious : Bool)
    (nonempty : elements ≠ []) (bounds : ∀ x ∈ elements, x < arena.nodes.length) :
    Settles Plain allowed arena (fun _ => (Cse.sum elements precious : Build ε E NodeId))
      fun arena' y => Valued arena' y fun inputs =>
        (elements.map (arena.value inputs)).sum := by
  have sorted : (elements.mergeSort (· ≤ ·)).Perm elements := List.mergeSort_perm ..
  refine (settles_plain plain (v := .sum (elements.mergeSort (· ≤ ·)) precious)
    (fun x member => bounds x (sorted.mem_iff.mp member)) (fun precious' same => ?_) id).mono
    fun grown plain' found => plain'.formed.valued found fun inputs => ?_
  · have empty := (Expr.sum.inj same).1
    exact nonempty (List.perm_nil.mp (empty ▸ sorted.symm))
  · rw [Expr.value, (sorted.map _).sum_eq, values_mono grown bounds]

/-- What was stripped so far stands for attached assertions. -/
structure Stripped (src : Arena E) (roots : List NodeId) (s : Stripping E) : Prop where
  plain : Plain s.arena
  sound : ∀ item ∈ s.collected, ∃ c, AttachedBelow src.nodes roots c ∧ Image src s.arena c item.expr

variable {s : Stripping E} {α : Type}

omit [CommRing E] [DecidableEq E] in
theorem settles_beside {keeps : Arena E → Prop} {inv : Stripping E → Prop}
    {m : Nat → Build ε E α} {post : Arena E → α → Prop}
    (settles : Settles keeps allowed s.arena m post)
    (stays : ∀ arena, s.arena ≤ arena → keeps arena → inv { s with arena }) :
    Settles inv allowed s (fun fuel => onArena (m fuel)) fun s' a => post s'.arena a := by
  cases settles with
  | returns a arena enough ran later holds here =>
    refine .returns a { s with arena } enough (fun fuel more => ?_) ⟨later, List.prefix_rfl⟩
      (stays arena later holds) here
    change (m fuel).run s.arena >>= _ = _
    rw [ran fuel more]
    rfl
  | @fails fault enough ran isAllowed =>
    refine .fails enough (fun fuel more => ?_) isAllowed
    change (m fuel).run s.arena >>= _ = _
    rw [ran fuel more]
    rfl

theorem settles_onArena (stripped : Stripped src roots s) {m : Nat → Build ε E α}
    {post : Arena E → α → Prop} (settles : Settles Plain allowed s.arena m post) :
    Settles (Stripped src roots) allowed s (fun fuel => onArena (m fuel)) fun s' a =>
      post s'.arena a :=
  settles_beside settles fun _ later plain => ⟨plain, fun item member => by
    obtain ⟨c, attached, image⟩ := stripped.sound item member
    exact ⟨c, attached, image.mono later⟩⟩

/-- **Stripping keeps every value.** -/
theorem evaluates_strip (roots : List NodeId) (allowed : Fault ε → Prop) :
    Evaluates (Stripped src roots) allowed Stripping.arena (fun _ : E => True)
      fun _ => stripRewriter (ε := ε) where
  later grown := grown.1
  input position stripped := (settles_onArena stripped (settles_plain stripped.plain
    (v := .input position) (by simp [Expr.children]) (by simp) id)).mono fun _ stripped' found =>
      stripped'.plain.formed.valued found fun _ => rfl
  one stripped := (settles_onArena stripped (settles_plain stripped.plain
    (v := .one) (by simp [Expr.children]) (by simp) id)).mono fun _ stripped' found =>
      stripped'.plain.formed.valued found fun _ => rfl
  constant {_ elt} _ stripped := (settles_onArena stripped (settles_plain stripped.plain
    (v := .constant elt) (by simp [Expr.children]) (by simp) id)).mono
      fun _ stripped' found => stripped'.plain.formed.valued found fun _ => rfl
  linear {_ x _} elt stripped valued := (settles_onArena stripped (settles_plain stripped.plain
    (v := .linear elt x) (by simpa [Expr.children] using valued.1) (by simp) id)).mono
      fun grown stripped' found => stripped'.plain.formed.valued found fun inputs =>
        congrArg (elt * ·) ((valued.mono grown.1).2 inputs)
  quadratic elt stripped valued valued' :=
    settles_onArena stripped (settles_plainQuadratic stripped.plain elt valued valued')
  sum precious stripped nonempty bounds :=
    settles_onArena stripped (settles_plainSum stripped.plain precious nonempty bounds)

/-- A rewritten node, and the assertions that were attached to it. -/
def StripsTo (src : Arena E) (s : Stripping E) (x y : NodeId) : Prop :=
  Image src s.arena x y ∧ ∀ {assertions z}, src.nodes[x]? = some (.withAssertions assertions z) →
    ∀ item ∈ assertions, ∃ stripped ∈ s.collected, Image src s.arena item.expr stripped.expr

theorem stripsTo_keeps {s' : Stripping E} {y : NodeId} (later : s ≤ s')
    (strips : StripsTo src s x y) : StripsTo src s' x y := by
  refine ⟨strips.1.mono later.1, fun found item member => ?_⟩
  obtain ⟨stripped, inside, image⟩ := strips.2 found item member
  exact ⟨stripped, later.2.subset inside, image.mono later.1⟩

theorem mem_keepFirst {items : List AssertionItem} (member : item ∈ keepFirst items) :
    item ∈ items :=
  ((foldl_keepNew items []).1 item member).resolve_left List.not_mem_nil

theorem exists_mem_keepFirst {items : List AssertionItem} (member : item ∈ items) :
    ∃ kept ∈ keepFirst items, kept.expr = item.expr :=
  List.mem_map.mp ((foldl_keepNew items []).2 item.expr (.inr (List.mem_map_of_mem member)))

theorem walkAssertions_eq {cache : Cache} (done : ∀ item ∈ assertions, (cache item.expr).isSome) :
    walkAssertions (stripRewriter (ε := ε) (E := E)) cache assertions =
      pure (keepFirst (cache.roots assertions)) := by
  have groups : (assertions.mapM fun item => do
      let walkedAssertion ← cached cache item.expr
      let exprs ← (stripRewriter (ε := ε) (E := E)).assert0 walkedAssertion
      pure (exprs.map fun expr => (⟨expr, item.id⟩ : AssertionItem))) =
        pure ((cache.roots assertions).map fun item => [item]) := by
    induction assertions with
    | nil => rfl
    | cons item rest ih =>
      obtain ⟨y, here⟩ := Option.isSome_iff_exists.mp (done item List.mem_cons_self)
      rw [List.mapM_cons, ih fun other member => done other (List.mem_cons_of_mem _ member),
        cached_eq here, Cache.roots, Cache.roots, List.map_cons, List.map_cons, here]
      rfl
  have flat : ((cache.roots assertions).map fun item => [item]).flatten = cache.roots assertions :=
    (List.flatMap_def ..).symm.trans (List.flatMap_singleton' _)
  rw [walkAssertions, groups, pure_bind, flat]

/-- **Stripping a node.** -/
theorem canRewrite_strip (formed : src.WellFormed) {v : Expr E} (below : Below src.nodes roots x)
    (found : src.nodes[x]? = some v) :
    CanRewrite (Stripped src roots) allowed (fun _ => stripRewriter (ε := ε)) src.nodes
      (StripsTo src) x := by
  intro s cache v' stripped ok found' done
  obtain rfl := Option.some.inj (found.symm.trans found')
  have operands := ok.operands done
  have others : v.Answered (fun _ => True) → Settles (Stripped src roots) allowed s
      (fun _ => rewriteNode (stripRewriter (ε := ε)) cache v) fun s' y => StripsTo src s' x y := by
    intro answered
    refine ((evaluates_strip roots allowed).canRewrite found (formed.descends found) answered
      stripped ⟨fun here => (ok.related here).1, ok.closed⟩ found done).mono
      fun _ _ image => ⟨image, fun {assertions z} wrapped => ?_⟩
    obtain rfl := Option.some.inj (found.symm.trans wrapped)
    exact answered.elim
  cases v with
  | input _ | one | constant _ | linear _ _ | quadratic _ _ _ => exact others trivial
  | sum list precious =>
    refine others fun empty => ?_
    exact formed.nonempty (empty ▸ found)
  | withAssertions assertions z =>
    have isSome : ∀ item ∈ assertions, (cache item.expr).isSome := fun item member =>
      done item.expr (List.mem_cons_of_mem _ (List.mem_map_of_mem member))
    obtain ⟨y, here, image, -⟩ := operands z List.mem_cons_self
    have images : ∀ item ∈ assertions, Image src s.arena item.expr
        ((cache item.expr).getD 0) := fun item member => by
      obtain ⟨y, here, image, -⟩ := operands item.expr
        (List.mem_cons_of_mem _ (List.mem_map_of_mem member))
      rwa [here]
    refine .returns y { s with collected := s.collected ++ keepFirst (cache.roots assertions) } 0
      (fun _ _ => ?_) ⟨le_rfl, List.prefix_append ..⟩ ⟨stripped.plain, fun item member => ?_⟩
      ⟨?_, fun {assertions' z'} wrapped item member => ?_⟩
    · rw [rewriteNode, walkAssertions_eq isSome, pure_bind, cached_eq here, pure_bind]
      rfl
    · rcases List.mem_append.mp member with old | new
      · exact stripped.sound item old
      · obtain ⟨inner, listed, rfl⟩ := List.mem_map.mp (mem_keepFirst new)
        exact ⟨inner.expr, ⟨x, assertions, z, below, found, inner, listed, rfl⟩,
          images inner listed⟩
    · refine ⟨image.1, fun inputs => (image.2 inputs).trans ?_⟩
      exact (formed.value_eq inputs found).symm
    · obtain ⟨rfl, -⟩ := Expr.withAssertions.inj (Option.some.inj (found.symm.trans wrapped))
      obtain ⟨kept, inside, same⟩ := exists_mem_keepFirst
        (List.mem_map_of_mem (f := fun item : AssertionItem =>
          (⟨(cache item.expr).getD 0, item.id⟩ : AssertionItem)) member)
      exact ⟨kept, List.mem_append_right _ inside, same ▸ images item member⟩

/-- **A walk of the stripping pass.** -/
theorem settles_stripWalk (formed : src.WellFormed)
    (bounds : ∀ item ∈ assertions, item.expr < src.nodes.length) (plain : Plain arena) :
    Settles Plain allowed arena
      (fun fuel => (stripWalk fuel src.nodes assertions : Build ε E _)) fun arena' result =>
        ∃ cache : Cache, result.1 = cache.roots assertions ∧
          (∀ x, Below src.nodes (assertions.map AssertionItem.expr) x →
            ∃ y, cache x = some y ∧ Image src arena' x y) ∧
          Stands src (AttachedBelow src.nodes (assertions.map AssertionItem.expr)) arena'
            result.2 := by
  have start : Stripped src (assertions.map AssertionItem.expr) ⟨arena, []⟩ :=
    ⟨plain, fun item member => absurd member List.not_mem_nil⟩
  have walked := settles_walk allowed _ formed.descends
    (fun {_} below bound => canRewrite_strip formed below (List.getElem?_eq_getElem bound))
    (fun later _ strips => stripsTo_keeps later strips) bounds start
  cases walked with
  | returns items s enough ran later stripped done =>
    obtain ⟨cache, roots, rewritten⟩ := done
    refine .returns (items, s.collected) s.arena enough (fun fuel more => ?_) later.1
      stripped.plain ⟨cache, roots, fun x below => ?_, stripped.sound, fun c attached => ?_⟩
    · change (walk (fun _ => stripRewriter) fuel src.nodes assertions).run
        (⟨arena, []⟩ : Stripping E) >>= _ = _
      rw [ran fuel more]
      rfl
    · obtain ⟨y, here, image, -⟩ := rewritten x below
      exact ⟨y, here, image⟩
    · obtain ⟨w, inner, z, below, found, item, listed, rfl⟩ := attached
      obtain ⟨y, -, -, strips⟩ := rewritten w below
      exact strips found item listed
  | @fails fault enough ran isAllowed =>
    refine .fails enough (fun fuel more => ?_) isAllowed
    change (walk (fun _ => stripRewriter) fuel src.nodes assertions).run
      (⟨arena, []⟩ : Stripping E) >>= _ = _
    rw [ran fuel more]
    rfl

theorem not_attachedBelow (plain : Plain arena) :
    ¬AttachedBelow arena.nodes roots c := by
  rintro ⟨w, assertions, x, -, found, -⟩
  exact plain.plain _ (List.mem_of_getElem? found) trivial

/-- **The loop ends after one more walk**, which strips nothing. -/
theorem settles_stripLoop (order : HashOrder) (plain : Plain arena)
    (stands : Stands src asserted arena items) :
    Settles Plain allowed arena
      (fun fuel => (stripLoop order fuel items : Build ε E (List AssertionItem)))
      fun arena' items' => Stands src asserted arena' items' := by
  have merged := stands.dedup order
  refine Settles.succ (fun fuel => by rw [stripLoop]) (settles_get_bind (f := fun _ _ => _) ?_)
  refine (settles_stripWalk plain.formed merged.bounds plain).bind
    fun {result arena'} _ plain' ⟨cache, roots, images, collected⟩ => ?_
  obtain ⟨stripped, sub⟩ := result
  have none : sub = [] := List.eq_nil_iff_forall_not_mem.mpr fun item member =>
    (collected.sound item member).elim fun _ here => not_attachedBelow plain here.1
  obtain rfl : stripped = cache.roots (dedupAssertions order items) := roots
  simp only [if_pos none]
  refine settles_pure plain' ((merged.walked fun item member => ?_).dedup order)
  exact images item.expr (.root (List.mem_map_of_mem member))

theorem plain_new : Plain (Arena.new : Arena E) := ⟨wellFormed_new, by simp [Arena.new]⟩

variable (allowed) in
/-- **Stripping** ends, with an assertion for every asserted node. -/
theorem settles_stripAll (order : HashOrder) (formed : src.WellFormed)
    (bounds : ∀ item ∈ assertions, item.expr < src.nodes.length) :
    Settles Plain allowed Arena.new
      (fun fuel => (stripAll order fuel src assertions : Build ε E (List AssertionItem)))
      fun arena items => Stands src (Asserted src assertions) arena items := by
  unfold stripAll
  refine (settles_stripWalk formed bounds plain_new).bind
    fun {result arena} _ plain ⟨cache, roots, images, collected⟩ => ?_
  obtain ⟨stripped, sub⟩ := result
  obtain rfl : stripped = cache.roots assertions := roots
  have image : ∀ item ∈ assertions, Image src arena item.expr ((cache item.expr).getD 0) := by
    intro item member
    obtain ⟨y, here, image⟩ := images item.expr (.root (List.mem_map_of_mem member))
    rwa [here]
  have stands : Stands src (Asserted src assertions) arena (cache.roots assertions ++ sub) := by
    refine ⟨fun item member => ?_, fun c isAsserted => ?_⟩
    · rcases List.mem_append.mp member with root | attached
      · obtain ⟨old, inside, rfl⟩ := List.mem_map.mp root
        exact ⟨old.expr, ⟨old, inside, .inl rfl⟩, image old inside⟩
      · obtain ⟨c, below, here⟩ := collected.sound item attached
        exact ⟨c, (asserted_iff formed).mpr (.inr below), here⟩
    · rcases (asserted_iff formed).mp isAsserted with root | below
      · obtain ⟨old, inside, rfl⟩ := List.mem_map.mp root
        exact ⟨_, List.mem_append_left _ (List.mem_map_of_mem inside), image old inside⟩
      · obtain ⟨item, inside, here⟩ := collected.complete c below
        exact ⟨item, List.mem_append_right _ inside, here⟩
  refine settles_ite (fun none => ?_) fun _ => settles_stripLoop order plain stands
  obtain rfl : sub = [] := none
  exact settles_pure plain ((List.append_nil (cache.roots assertions) ▸ stands).dedup order)

/-! ### Simplification -/

section Simplify

variable {E : Type} [Field E] [DecidableEq E] {src arena : Arena E} {cmp : E → E → Ordering}

/-- An arena of the rewriter alone: no product has the coefficient zero, and no operand is the
constant zero. -/
def Simplified (arena : Arena E) : Prop := arena.Sound False ∧ arena.NonzeroOperands

variable (cmp) in
theorem settles_simplified (simplified : Simplified arena) (call : Algsimp.Call E)
    (operands : ∀ x ∈ call.operands, x < arena.nodes.length) :
    Settles Simplified (fun _ : Fault ε => False) arena
      (fun fuel => (call.run cmp fuel : Build ε E NodeId)) fun arena' x =>
        Valued arena' x fun inputs => call.value inputs arena := by
  have settled := (Algsimp.settles_call (ε := ε) cmp simplified.1 operands).and_ensures
    fun fuel => Algsimp.ensures_run fuel simplified.2
  cases settled with
  | returns x arena' enough ran later holds _ =>
    have valued := fun inputs => ((Algsimp.ensures_call inputs enough simplified.1.formed
      operands).ran (ran enough le_rfl)).2.2
    exact .returns x arena' enough ran later holds
      ⟨(valued fun _ => 0).1, fun inputs => (valued inputs).2⟩
  | fails _ _ isAllowed => exact isAllowed.2.elim

theorem settles_simplifiedInput (simplified : Simplified arena) (position : Nat) :
    Settles Simplified (fun _ : Fault ε => False) arena
      (fun _ => (Cse.input position : Build ε E NodeId)) fun arena' x =>
        Valued arena' x fun inputs => inputs position := by
  refine ((Algsimp.settles_memoExpr (v := .input position) simplified.1 (by simp [Expr.children])
    (by simp) (by simp)).and_ensures fun _ => Algsimp.ensures_append (v := .input position)
      simplified.2 (by simp [Expr.children]) (by simp) id).mono fun _ simplified' found => ?_
  exact simplified'.1.formed.valued found.1 fun _ => rfl

/-- **Simplification keeps every value.** -/
theorem evaluates_algebraic (ε : Type) (cmp : E → E → Ordering) :
    Evaluates Simplified (fun _ : Fault ε => False) id (fun _ => True) (algebraic cmp) where
  later grown := grown
  input position simplified := settles_simplifiedInput simplified position
  one simplified := settles_simplified cmp simplified (.constant 1)
    (by simp [Algsimp.Call.operands])
  constant {_ elt} _ simplified := settles_simplified cmp simplified (.constant elt)
    (by simp [Algsimp.Call.operands])
  linear {_ x _} elt simplified valued := (settles_simplified cmp simplified
    (.linear elt x) (by simpa [Algsimp.Call.operands] using valued.1)).mono
      fun _ _ here => ⟨here.1, fun inputs => (here.2 inputs).trans
        (congrArg (elt * ·) (valued.2 inputs))⟩
  quadratic {_ x x' _ _} elt simplified valued valued' := (settles_simplified cmp simplified
    (.quadratic elt x x')
    (by simpa [Algsimp.Call.operands] using ⟨valued.1, valued'.1⟩)).mono
      fun _ _ here => ⟨here.1, fun inputs => (here.2 inputs).trans
        (congrArg₂ (fun a b => elt * (a * b)) (valued.2 inputs) (valued'.2 inputs))⟩
  sum {_ elements} precious simplified _ bounds := settles_simplified cmp simplified
    (.sum elements precious) bounds

theorem simplified_new : Simplified (Arena.new : Arena E) :=
  ⟨⟨wellFormed_new, by simp [Arena.new]⟩,
    ⟨wellFormed_new, by simp [Arena.new], by simp [Arena.new]⟩⟩

theorem answered_of_plain (plain : Plain arena) {v : Expr E}
    (found : arena.nodes[x]? = some v) : v.Answered fun _ => True := by
  cases v with
  | input _ | one | constant _ | linear _ _ | quadratic _ _ _ => trivial
  | sum elements precious => exact fun empty => plain.formed.nonempty (empty ▸ found)
  | withAssertions _ _ => exact plain.plain _ (List.mem_of_getElem? found) trivial

variable (cmp) in
/-- **The whole pass** ends, with an assertion for every asserted node, and no operand is the
constant zero. -/
theorem settles_rewrite (order : HashOrder) (formed : src.WellFormed)
    (bounds : ∀ item ∈ assertions, item.expr < src.nodes.length) :
    Settles Simplified (fun _ : Fault ε => False) Arena.new
      (fun fuel => rewrite order cmp fuel src assertions) fun arena items =>
        Stands src (Asserted src assertions) arena items := by
  cases settles_stripAll (fun _ : Fault ε => False) order formed bounds with
  | fails _ _ isAllowed => exact isAllowed.elim
  | returns stripped arena enough ran _ plain stands =>
    have walked := settles_walk (fun _ : Fault ε => False) (Image arena)
      plain.formed.descends (fun {_} _ bound => (evaluates_algebraic ε cmp).canRewrite
        (List.getElem?_eq_getElem bound) (plain.formed.descends (List.getElem?_eq_getElem bound))
        (answered_of_plain plain (List.getElem?_eq_getElem bound)))
      (fun grown _ image => image.mono grown) stands.bounds simplified_new
    have merged : Settles Simplified (fun _ : Fault ε => False) Arena.new
        (fun fuel => do
          let rewritten ← walk (algebraic cmp) fuel arena.nodes stripped
          pure (dedupAssertions order rewritten)) fun arena' items =>
            Stands src (Asserted src assertions) arena' items := by
      refine walked.bind (f := fun _ _ => _) fun _ simplified ⟨cache, roots, images⟩ => ?_
      subst roots
      exact settles_pure simplified ((stands.walked fun item member =>
        images item.expr (.root (List.mem_map_of_mem member))).dedup order)
    exact merged.after enough fun fuel more => by
      rw [rewrite, ran fuel more]
      rfl

end Simplify

/-! ### Compiled programs -/

section Programs

variable {cmp : E → E → Ordering} {fuel : Nat} {β : Type}

/-- Compiling code that keeps the graph well formed, whatever the scope is. -/
def Keeps (arena : Arena E) (m : Compiling ε E α) (post : Arena E → α → Prop) : Prop :=
  ∀ scope, Ensures Arena.WellFormed arena (m.run scope) fun arena' result => post arena' result.1

variable {m : Compiling ε E α} {mid : Arena E → α → Prop} {post : Arena E → β → Prop}

theorem Keeps.bind {f : α → Compiling ε E β} (first : Keeps arena m mid)
    (second : ∀ {a arena'}, arena ≤ arena' → arena'.WellFormed → mid arena' a →
      Keeps arena' (f a) post) : Keeps arena (m >>= f) post := by
  intro scope
  rw [StateT.run_bind]
  exact (first scope).bind fun later formed here => second later formed here _

theorem keeps_pure (formed : arena.WellFormed) {a : α} {post : Arena E → α → Prop}
    (here : post arena a) : Keeps arena (pure a : Compiling ε E α) post :=
  fun _ => ensures_pure formed here

theorem Keeps.map {f : α → β} (keeps : Keeps arena m mid)
    (made : ∀ {arena' a}, mid arena' a → post arena' (f a)) : Keeps arena (f <$> m) post := by
  rw [map_eq_pure_bind]
  exact keeps.bind fun _ formed here => keeps_pure formed (made here)

theorem keeps_build {m : Build ε E α} {post : Arena E → α → Prop}
    (ensures : Ensures Arena.WellFormed arena m post) :
    Keeps arena (liftM m : Compiling ε E α) post := fun scope => by
  have run : (liftM m : Compiling ε E α).run scope = m >>= fun a => pure (a, scope) := rfl
  rw [run]
  exact ensures.bind fun _ formed here => ensures_pure formed here

theorem keeps_exec (formed : arena.WellFormed) (x : Exec ε α) :
    Keeps arena (liftM x : Compiling ε E α) fun _ a => x = .ok a := fun scope => by
  have run : (liftM x : Compiling ε E α).run scope =
      (liftM x : Build ε E α) >>= fun a => pure (a, scope) := rfl
  rw [run]
  exact ensures_lift_bind fun called => ensures_pure formed called

theorem keeps_mapM {ι : Type} {f : ι → Compiling ε E α} (post : Arena E → α → Prop)
    (stays : ∀ {arena arena' : Arena E} {a}, arena ≤ arena' → post arena a → post arena' a)
    {is : List ι} (formed : arena.WellFormed)
    (each : ∀ i ∈ is, ∀ {arena'}, arena ≤ arena' → arena'.WellFormed → Keeps arena' (f i) post) :
    Keeps arena (is.mapM f) fun arena' as => ∀ a ∈ as, post arena' a := by
  induction is generalizing arena with
  | nil => exact keeps_pure formed fun a member => absurd member List.not_mem_nil
  | cons i is ih =>
    rw [List.mapM_cons]
    refine (each i List.mem_cons_self le_rfl formed).bind fun {a arena₁} later formed₁ here => ?_
    refine (ih formed₁ fun j member _ after => each j (List.mem_cons_of_mem _ member)
      (later.trans after)).bind fun {as arena₂} after formed₂ rest => ?_
    exact keeps_pure formed₂ (List.forall_mem_cons.mpr ⟨stays after here, rest⟩)

/-- The nodes of the assertions are in the arena. -/
def ItemsIn (arena : Arena E) (items : List AssertionItem) : Prop :=
  ∀ item ∈ items, item.expr < arena.nodes.length

theorem ItemsIn.mono (grown : arena ≤ arena') (inside : ItemsIn arena items) :
    ItemsIn arena' items := fun item member => lt_of_lt_of_le (inside item member) grown.1.length_le

/-- The wires and the assertions made so far are in the arena. -/
structure EnvIn (arena : Arena E) (env : Env NodeId (List AssertionItem)) : Prop where
  wires : ∀ x ∈ env.wires, x < arena.nodes.length
  assertions : ∀ items ∈ env.assertions, ItemsIn arena items

/-- What an operation makes is in the arena. -/
def MadeIn (arena : Arena E) : NodeId ⊕ List AssertionItem → Prop
  | .inl x => x < arena.nodes.length
  | .inr items => ItemsIn arena items

variable {env : Env NodeId (List AssertionItem)}

theorem EnvIn.mono (grown : arena ≤ arena') (inside : EnvIn arena env) : EnvIn arena' env where
  wires x member := lt_of_lt_of_le (inside.wires x member) grown.1.length_le
  assertions items member := (inside.assertions items member).mono grown

theorem EnvIn.push {made : NodeId ⊕ List AssertionItem} (inside : EnvIn arena env)
    (here : MadeIn arena made) : EnvIn arena (env.push made) := by
  cases made with
  | inl x => exact ⟨fun y member => (List.mem_append.mp member).elim (inside.wires y)
      fun new => List.mem_singleton.mp new ▸ here, inside.assertions⟩
  | inr items => exact ⟨inside.wires, fun other member => (List.mem_append.mp member).elim
      (inside.assertions other) fun new => List.mem_singleton.mp new ▸ here⟩

theorem keeps_wire (formed : arena.WellFormed) (inside : EnvIn arena env) (i : Nat) :
    Keeps arena (env.wire (ε := ε) i : Compiling ε E NodeId)
      fun arena' x => x < arena'.nodes.length := by
  intro scope
  refine ⟨fun ran => ?_⟩
  obtain ⟨later, formed', read⟩ := (keeps_exec (ε := ε) formed (getAt env.wires i) scope).ran ran
  exact ⟨later, formed', lt_of_lt_of_le
    (inside.wires _ (List.mem_of_getElem? (getAt_eq_ok.mp read))) later.1.length_le⟩

theorem keeps_assertion (formed : arena.WellFormed) (inside : EnvIn arena env) (i : Nat) :
    Keeps arena (env.assertion (ε := ε) i : Compiling ε E (List AssertionItem)) ItemsIn := by
  intro scope
  refine ⟨fun ran => ?_⟩
  obtain ⟨later, formed', read⟩ :=
    (keeps_exec (ε := ε) formed (getAt env.assertions i) scope).ran ran
  exact ⟨later, formed', (inside.assertions _ (List.mem_of_getElem?
    (getAt_eq_ok.mp read))).mono later⟩

theorem keeps_denotes {m : Build ε E NodeId} {v : E} {kept : NodeId → Prop}
    (ensures : Ensures Arena.WellFormed arena m fun arena' x =>
      Denotes (fun _ => 0) arena' x v kept) :
    Keeps arena (liftM m : Compiling ε E NodeId) fun arena' x => x < arena'.nodes.length :=
  keeps_build (ensures.mono fun _ _ denotes => denotes.bound)

section

variable (formed : arena.WellFormed)
include formed

theorem keeps_newLeaf (name : String) :
    Keeps arena (newLeaf (ε := ε) name : Compiling ε E AssertionId) fun _ _ => True :=
  fun scope => ensures_onScope formed _ scope

theorem keeps_assert0 (bound : x < arena.nodes.length) (name : String) :
    Keeps arena (CompilerLogic.assert0 fuel name x : Compiling ε E (List AssertionItem))
      ItemsIn := by
  refine (keeps_exec formed _).bind fun {_ arena₁} grown₁ formed₁ _ => ?_
  refine (keeps_newLeaf formed₁ name).bind fun {id arena₂} grown₂ formed₂ _ => ?_
  have bound₂ := lt_of_lt_of_le bound (grown₁.trans grown₂).1.length_le
  refine (keeps_build (Algsimp.ensures_assert0 (fun _ => 0) fuel formed₂ bound₂)).bind
    fun {own arena₃} _ formed₃ ⟨bounds, _⟩ => keeps_pure formed₃ fun item member => ?_
  obtain ⟨y, listed, rfl⟩ := List.mem_map.mp member
  exact bounds y listed

theorem keeps_assertAll {groups : List (List AssertionItem)}
    (inside : ∀ items ∈ groups, ItemsIn arena items) (name : String) :
    Keeps arena (CompilerLogic.assertAll name groups : Compiling ε E (List AssertionItem))
      ItemsIn := by
  refine (keeps_exec formed _).bind fun {_ arena₁} grown₁ formed₁ _ => ?_
  refine Keeps.bind (fun scope => CompilerLogic.ensures_takeItems formed₁ name
    (fun _ member => by cases member) groups.flatten scope)
    fun {state arena₂} grown₂ formed₂ takes => keeps_pure formed₂ fun item member => ?_
  obtain ⟨items, listed, here⟩ := List.mem_flatten.mp
    ((takes.only item member).resolve_left List.not_mem_nil)
  exact (inside items listed).mono (grown₁.trans grown₂) item here

/-- **One operation** of a compiled program. -/
theorem keeps_call (inside : EnvIn arena env) (op : Op E) :
    Keeps arena ((compilerLogic cmp fuel : Logic (Compiling ε E) E _ _).call (ε := ε) env op)
      MadeIn := by
  have correct := Algsimp.correct ε cmp (fun _ => 0) fuel
  have wire : ∀ {m : Compiling ε E NodeId} {arena : Arena E},
      (Keeps arena m fun arena' x => x < arena'.nodes.length) →
        Keeps arena (.inl <$> m : Compiling ε E (NodeId ⊕ List AssertionItem)) MadeIn :=
    fun keeps => keeps.map id
  have later : ∀ {arena arena' : Arena E} {x : NodeId}, arena ≤ arena' →
      x < arena.nodes.length → x < arena'.nodes.length :=
    fun grown bound => lt_of_lt_of_le bound grown.1.length_le
  -- Operations on one wire and on two.
  have unary : ∀ (i : Nat) {f : NodeId → Compiling ε E NodeId}, (∀ {arena' x},
      arena'.WellFormed → x < arena'.nodes.length →
        Keeps arena' (f x) fun arena'' y => y < arena''.nodes.length) →
      Keeps arena (do let x ← env.wire (ε := ε) i; .inl <$> f x) MadeIn := fun i _ each =>
    (keeps_wire formed inside i).bind fun _ formed' bound => wire (each formed' bound)
  have binary : ∀ (i j : Nat) {f : NodeId → NodeId → Compiling ε E NodeId}, (∀ {arena' x y},
      arena'.WellFormed → x < arena'.nodes.length → y < arena'.nodes.length →
        Keeps arena' (f x y) fun arena'' z => z < arena''.nodes.length) →
      Keeps arena (do
        let x ← env.wire (ε := ε) i
        let y ← env.wire (ε := ε) j
        .inl <$> f x y) MadeIn := fun i j _ each =>
    (keeps_wire formed inside i).bind fun grown formed₁ first =>
      (keeps_wire formed₁ (inside.mono grown) j).bind fun grown₂ formed₂ second =>
        wire (each formed₂ (later grown₂ first) second)
  have two : ∀ {arena : Arena E} {x y : NodeId}, x < arena.nodes.length →
      y < arena.nodes.length → ∀ z ∈ [x, y], z < arena.nodes.length := fun first second => by
    simpa using ⟨first, second⟩
  cases op with
  | zero => exact wire (keeps_denotes (Algsimp.ensures_constant _ formed 0))
  | one => exact wire (keeps_denotes (Algsimp.ensures_constant _ formed 1))
  | konst x => exact wire (keeps_denotes (Algsimp.ensures_constant _ formed x))
  | precious x =>
    exact unary x fun formed' bound =>
      keeps_denotes (ensures_promoteSumToPrecious _ formed' bound)
  | sum xs =>
    refine (keeps_mapM (fun arena' x => x < arena'.nodes.length) later formed
      fun i _ _ grown formed' => keeps_wire formed' (inside.mono grown) i).bind
      fun _ formed' bounds => ?_
    exact wire (keeps_denotes (correct.sum formed' bounds))
  | neg x => exact unary x fun formed' bound => keeps_denotes (correct.linear formed' bound)
  | add x y =>
    exact binary x y fun formed' first second =>
      keeps_denotes (correct.sum formed' (two first second))
  | sub x y =>
    refine binary x y fun formed' first second => ?_
    refine (keeps_denotes (correct.linear formed' second)).bind fun grown formed₂ negated => ?_
    exact keeps_denotes (correct.sum formed₂ (two (later grown first) negated))
  | mul x y =>
    exact binary x y fun formed' first second =>
      keeps_denotes (correct.quadratic formed' first second)
  | mulk e y => exact unary y fun formed' bound => keeps_denotes (correct.linear formed' bound)
  | quadratic e x y =>
    exact binary x y fun formed' first second =>
      keeps_denotes (correct.quadratic formed' first second)
  | ok =>
    have none : Keeps arena (pure [] : Compiling ε E (List AssertionItem)) ItemsIn :=
      keeps_pure formed (by simp [ItemsIn])
    exact none.map id
  | assert0 name x =>
    exact (keeps_wire formed inside x).bind fun _ formed' bound =>
      (keeps_assert0 formed' bound name).map id
  | assertAll name groups =>
    exact (keeps_mapM ItemsIn (fun grown here => here.mono grown) formed
      fun i _ _ grown formed' => keeps_assertion formed' (inside.mono grown) i).bind
      fun _ formed' groups => (keeps_assertAll formed' groups name).map id
  | withAssertions a x =>
    refine (keeps_assertion formed inside a).bind fun grown formed₁ items => ?_
    refine (keeps_wire formed₁ (inside.mono grown) x).bind fun grown₂ formed₂ bound => ?_
    exact wire (keeps_denotes (ensures_withAssertions _ formed₂ bound (items.mono grown₂)))

end

/-- **A compiled program**: its graph is well formed, and its assertions are in it. -/
theorem formed_of_compiled {ninputs result : Nat} {ops : List (Op E)}
    (compiled : (compileProgram cmp fuel ninputs ops result : Exec ε _) = .ok (items, src)) :
    src.WellFormed ∧ ItemsIn src items := by
  obtain ⟨⟨wires, arena₀⟩, made, rest⟩ := bind_eq_ok.mp compiled
  obtain ⟨⟨⟨items', scope'⟩, arena'⟩, built, same⟩ := bind_eq_ok.mp rest
  obtain ⟨rfl, rfl⟩ := Prod.mk.inj (Except.ok.inj same)
  have inputs : Ensures Arena.WellFormed Arena.new
      ((List.range ninputs).mapM fun i => input (i + 1) : Build ε E (List NodeId)) fun arena' xs =>
        List.Forall₂ (fun _ x => x < arena'.nodes.length) (List.range ninputs) xs :=
    ensures_mapM (fun (arena' : Arena E) _ x => x < arena'.nodes.length)
      (fun {s s' _ _} (grown : s ≤ s') _ bound => lt_of_lt_of_le bound grown.1.length_le)
      wellFormed_new fun i _ _ _ formed => ensures_lift_bind fun _ =>
        (ensures_memoExpr formed (by simp [Expr.children]) (by simp)).mono
          fun _ _ found => (List.getElem?_eq_some_iff.mp found).1
  obtain ⟨-, formed, bounds⟩ := inputs.ran made
  have start : EnvIn arena₀ ⟨wires, []⟩ :=
    ⟨fun x member => (exists_of_mem_right bounds member).elim fun _ here => here.2, by simp⟩
  have all : ∀ {arena : Arena E} {env : Env NodeId (List AssertionItem)} (ops : List (Op E)),
      arena.WellFormed → EnvIn arena env →
      Keeps arena (ops.foldlM (fun env op => do
        let made ← (compilerLogic cmp fuel : Logic (Compiling ε E) E _ _).call (ε := ε) env op
        pure (env.push made)) env) EnvIn := by
    intro arena env ops
    induction ops generalizing arena env with
    | nil => exact fun formed inside => keeps_pure formed inside
    | cons op ops ih =>
      intro formed inside
      rw [List.foldlM_cons]
      refine Keeps.bind ((keeps_call formed inside op).bind fun grown formed₁ here => ?_)
        fun _ formed₂ inside₂ => ih formed₂ inside₂
      exact keeps_pure formed₁ ((inside.mono grown).push here)
  have program := (all ops formed start).bind fun _ formed₁ inside =>
    keeps_assertion formed₁ inside result
  obtain ⟨-, formed', inside⟩ := (program _).ran built
  exact ⟨formed', inside⟩

end Programs

/-! ### What the copy pass is handed -/

section Ready

variable {E : Type} [Field E] [DecidableEq E] {src arena : Arena E} {items : List AssertionItem}

/-- Assertions that the copy pass can copy: no root and no operand is the constant zero, roots that
are zero on every input are dropped, and the pass ends without a panic. -/
structure CopyReady (ε : Type) (arena : Arena E) (roots : List AssertionItem) : Prop where
  nonzero : ∀ x, Below arena.nodes (roots.map AssertionItem.expr) x →
    arena.nodes[x]? ≠ some (.constant 0)
  dropped : ∀ item ∈ roots, ∃ inputs, arena.value inputs item.expr ≠ 0
  copies : ∃ enough copied copies, ∀ fuel, enough ≤ fuel →
    (Copy.rewrite (ε := ε) fuel arena roots).run Arena.new = .ok (copied, copies)

theorem copyable_of_simplified (simplified : Simplified arena) {v : Expr E}
    (found : arena.nodes[x]? = some v) (nonzero : arena.nodes[x]? ≠ some (.constant 0)) :
    v.Copyable := by
  cases v with
  | input _ | one | linear _ _ | quadratic _ _ _ => trivial
  | constant elt => exact fun zero => nonzero (zero ▸ found)
  | sum elements precious => exact fun empty => simplified.1.formed.nonempty (empty ▸ found)
  | withAssertions _ _ => exact simplified.2.plain _ (List.mem_of_getElem? found) trivial

theorem copyReady_of_dropped (ε : Type) (simplified : Simplified arena)
    (bounds : ∀ item ∈ items, item.expr < arena.nodes.length)
    (dropped : ∀ item ∈ items, ∃ inputs, arena.value inputs item.expr ≠ 0) :
    CopyReady ε arena items := by
  have nonzero : ∀ x, Below arena.nodes (items.map AssertionItem.expr) x →
      arena.nodes[x]? ≠ some (.constant 0) := by
    rintro x (member | ⟨above, found, member⟩) zero
    · obtain ⟨item, listed, rfl⟩ := List.mem_map.mp member
      obtain ⟨inputs, differs⟩ := dropped item listed
      exact differs (simplified.1.formed.value_eq inputs zero)
    · obtain ⟨w, here, differs⟩ := simplified.2.nonzero _ (List.mem_of_getElem? found) x member
      exact differs (Option.some.inj (here.symm.trans zero))
  refine ⟨nonzero, dropped, ?_⟩
  have walked := Copy.settles_walked (ε := ε) simplified.1.formed.descends bounds
    fun {x v} below found => copyable_of_simplified simplified found (nonzero x below)
  cases walked with
  | fails _ _ isAllowed => exact isAllowed.elim
  | returns cache copies enough ran _ _ done =>
    refine ⟨enough, cache.roots items, copies, fun fuel more => ?_⟩
    refine Copy.rewrite_run (ran fuel more) fun item member => ?_
    obtain ⟨y, here, -⟩ := done _ (.root (List.mem_map_of_mem member))
    exact Option.isSome_iff_exists.mpr ⟨y, here⟩

end Ready

/-- The entries in the order they were put in. -/
def insertionOrder : HashOrder := ⟨id, fun _ => List.Perm.refl _⟩

/-- The order of the representatives. -/
def compareResidues (a b : ZMod 3) : Ordering := compare a.val b.val

end Assertion

end Longfellow.Compile
