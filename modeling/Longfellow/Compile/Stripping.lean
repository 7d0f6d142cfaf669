/-
**What stripping leaves** (`compile/compiler/src/assertion.rs`, `strip_all`).

Stripping copies expressions without the assertions that are attached to their nodes. The copies are
memoized, so that the terms of a sum and the factors of a product may come in another order; apart
from that they are the same expressions.

* `Strips src dst x y` — the node `y` is the node `x` without attached assertions.
-/

import Longfellow.Compile.Assertion
import Longfellow.Compile.Visits

namespace Longfellow.Compile.Assertion

open Lib

variable {ε E : Type}

/-! ### Stripped expressions -/

/-- The same expression over related operands, those of a sum and of a product in any order. -/
inductive Matches (rel : NodeId → NodeId → Prop) : Expr E → Expr E → Prop
  | input (position : Nat) : Matches rel (.input position) (.input position)
  | one : Matches rel .one .one
  | constant (elt : E) : Matches rel (.constant elt) (.constant elt)
  | sum {elements terms elements' : List NodeId} (precious : Bool)
      (each : List.Forall₂ rel elements terms) (order : terms.Perm elements') :
      Matches rel (.sum elements precious) (.sum elements' precious)
  | linear {a b : NodeId} (elt : E) (operand : rel a b) :
      Matches rel (.linear elt a) (.linear elt b)
  | quadratic {a a' b b' : NodeId} (elt : E) (left : rel a b) (right : rel a' b') :
      Matches rel (.quadratic elt a a') (.quadratic elt b b')
  | swapped {a a' b b' : NodeId} (elt : E) (left : rel a b') (right : rel a' b) :
      Matches rel (.quadratic elt a a') (.quadratic elt b b')

/-- The node `y` of `dst` is the node `x` of `src` without attached assertions. -/
inductive Strips (src dst : List (Expr E)) : NodeId → NodeId → Prop
  | same {x y : NodeId} {v w : Expr E} (rel : NodeId → NodeId → Prop) (found : src[x]? = some v)
      (made : dst[y]? = some w) (alike : Matches rel v w)
      (each : ∀ a b, rel a b → Strips src dst a b) : Strips src dst x y
  | wrapped {x y z : NodeId} {assertions : List AssertionItem}
      (found : src[x]? = some (.withAssertions assertions z)) (inner : Strips src dst z y) :
      Strips src dst x y

variable {src mid dst dst' : List (Expr E)} {x y z : NodeId} {u v w : Expr E}

theorem Strips.mono (strips : Strips src dst x y) (grown : dst <+: dst') : Strips src dst' x y := by
  induction strips with
  | same rel found made alike _ ih =>
    exact .same rel found (getElem?_of_prefixed grown made) alike ih
  | wrapped found _ ih => exact .wrapped found ih

theorem Strips.bound (strips : Strips src dst x y) : y < dst.length := by
  induction strips with
  | same _ _ made => exact (List.getElem?_eq_some_iff.mp made).choose
  | wrapped _ _ ih => exact ih

variable {rel : NodeId → NodeId → Prop}

theorem Matches.comp {rel' : NodeId → NodeId → Prop} (first : Matches rel u v)
    (second : Matches rel' v w) : Matches (Relation.Comp rel rel') u w := by
  cases first with
  | input position => cases second with | input => exact .input position
  | one => cases second with | one => exact .one
  | constant elt => cases second with | constant => exact .constant elt
  | sum precious each order =>
    cases second with
    | sum _ each' order' =>
      obtain ⟨terms, matched, order''⟩ := List.perm_comp_forall₂ order each'
      exact .sum precious (forall₂_comp each matched fun _ b _ ab bc => ⟨b, ab, bc⟩)
        (order''.trans order')
  | linear elt operand =>
    cases second with
    | linear _ operand' => exact .linear elt ⟨_, operand, operand'⟩
  | quadratic elt left right =>
    cases second with
    | quadratic _ left' right' => exact .quadratic elt ⟨_, left, left'⟩ ⟨_, right, right'⟩
    | swapped _ left' right' => exact .swapped elt ⟨_, left, left'⟩ ⟨_, right, right'⟩
  | swapped elt left right =>
    cases second with
    | quadratic _ left' right' => exact .swapped elt ⟨_, left, right'⟩ ⟨_, right, left'⟩
    | swapped _ left' right' => exact .quadratic elt ⟨_, left, right'⟩ ⟨_, right, left'⟩

/-- **Stripping twice** is stripping once. -/
theorem Strips.trans (plain : ∀ v ∈ mid, ¬v.IsWrapper) (first : Strips src mid x y)
    (second : Strips mid dst y z) : Strips src dst x z := by
  induction first generalizing z with
  | wrapped found _ ih => exact .wrapped found (ih second)
  | same rel found made alike _ ih =>
    cases second with
    | same rel' found' made' alike' each' =>
      obtain rfl := Option.some.inj (made.symm.trans found')
      exact .same _ found made' (alike.comp alike') fun a c ⟨b, ab, bc⟩ =>
        ih a b ab (each' b c bc)
    | wrapped found' => exact (plain _ (List.mem_of_getElem? found') trivial).elim

theorem Matches.not_isWrapper (alike : Matches rel v w) :
    ¬w.IsWrapper := by
  cases alike <;> exact id

/-! ### Copies -/

/-- Nodes refer to nodes before them, and no assertion is attached to a node. -/
structure Bare (arena : Arena E) : Prop where
  descends : ∀ {i : NodeId} {v : Expr E}, arena.nodes[i]? = some v → ∀ c ∈ v.children, c < i
  plain : ∀ v ∈ arena.nodes, ¬v.IsWrapper

variable {allowed : Fault ε → Prop} {arena : Arena E}

theorem bare_new : Bare (Arena.new : Arena E) := ⟨by simp [Arena.new], by simp [Arena.new]⟩

theorem Bare.append (bare : Bare arena) (children : ∀ c ∈ v.children, c < arena.nodes.length)
    (unwrapped : ¬v.IsWrapper) : Bare ⟨arena.nodes ++ [v], arena.discarded⟩ := by
  refine ⟨fun {i w} found c member => ?_, fun w member => ?_⟩
  · rcases Nat.lt_or_ge i arena.nodes.length with before | after
    · rw [List.getElem?_append_left before] at found
      exact bare.descends found c member
    · have bound : i < (arena.nodes ++ [v]).length := (List.getElem?_eq_some_iff.mp found).choose
      rw [List.length_append, List.length_singleton] at bound
      obtain rfl : i = arena.nodes.length := le_antisymm (Nat.lt_succ_iff.mp bound) after
      rw [List.getElem?_concat_length] at found
      exact children c (Option.some.inj found ▸ member)
  · rcases List.mem_append.mp member with old | new
    · exact bare.plain w old
    · exact List.mem_singleton.mp new ▸ unwrapped

/-- What was stripped so far are copies of attached assertions. -/
structure Collecting (src : Arena E) (roots : List NodeId) (s : Stripping E) : Prop where
  bare : Bare s.arena
  sound : ∀ item ∈ s.collected, ∃ c, AttachedBelow src.nodes roots c ∧
    Strips src.nodes s.arena.nodes c item.expr

/-- A copied node, and the copies of the assertions that were attached to it. -/
structure Copied (src : Arena E) (s : Stripping E) (x y : NodeId) : Prop where
  strips : Strips src.nodes s.arena.nodes x y
  attached : ∀ {assertions z}, src.nodes[x]? = some (.withAssertions assertions z) →
    ∀ item ∈ assertions, ∃ copy ∈ s.collected, Strips src.nodes s.arena.nodes item.expr copy.expr

variable {source : Arena E} {roots : List NodeId} {s s' : Stripping E}

theorem Copied.mono (copied : Copied source s x y) (later : s ≤ s') : Copied source s' x y := by
  refine ⟨copied.strips.mono later.1.1, fun found item member => ?_⟩
  obtain ⟨copy, inside, strips⟩ := copied.attached found item member
  exact ⟨copy, later.2.subset inside, strips.mono later.1.1⟩

theorem Matches.children (alike : Matches rel v w) :
    ∀ c ∈ w.children, ∃ a, rel a c := by
  intro c member
  cases alike with
  | input | one | constant => exact absurd member List.not_mem_nil
  | sum _ each order =>
    obtain ⟨a, _, related⟩ := exists_of_mem_right each (order.mem_iff.mpr member)
    exact ⟨a, related⟩
  | linear _ operand => exact ⟨_, List.mem_singleton.mp member ▸ operand⟩
  | quadratic _ left right =>
    rcases List.mem_pair.mp member with rfl | rfl
    · exact ⟨_, left⟩
    · exact ⟨_, right⟩
  | swapped _ left right =>
    rcases List.mem_pair.mp member with rfl | rfl
    · exact ⟨_, right⟩
    · exact ⟨_, left⟩

variable [DecidableEq E]

theorem settles_copy (collecting : Collecting source roots s) (found : source.nodes[x]? = some v)
    (unwrapped : ¬v.IsWrapper) (alike : Matches (Strips source.nodes s.arena.nodes) v w) :
    Settles (Collecting source roots) allowed s
      (fun _ => onArena (memoExpr w : Build ε E NodeId)) fun s' y => Copied source s' x y := by
  have children : ∀ c ∈ w.children, c < s.arena.nodes.length := fun c member =>
    (alike.children c member).elim fun _ strips => strips.bound
  have memo : Settles Bare allowed s.arena (fun _ => (memoExpr w : Build ε E NodeId))
      fun arena' y => arena'.nodes[y]? = some w :=
    settles_memo collecting.bare (collecting.bare.append children alike.not_isWrapper)
  refine (settles_beside memo fun arena later bare => ⟨bare, fun item member => ?_⟩).mono
    fun later _ made => ⟨.same _ found made alike fun a b strips => strips.mono later.1.1,
      fun wrapped => ?_⟩
  · obtain rfl := Option.some.inj (found.symm.trans wrapped)
    exact absurd trivial unwrapped
  · obtain ⟨c, attached, strips⟩ := collecting.sound item member
    exact ⟨c, attached, strips.mono later.1⟩

/-- **Copying a node.** -/
theorem canRewrite_copy (below : Below source.nodes roots x) (found : source.nodes[x]? = some v) :
    CanRewrite (Collecting source roots) allowed (fun _ => stripRewriter (ε := ε)) source.nodes
      (Copied source) x := by
  intro s cache v' collecting ok found' done
  obtain rfl := Option.some.inj (found.symm.trans found')
  have operand : ∀ c ∈ v.children, Strips source.nodes s.arena.nodes c (cache.look c) := by
    intro c member
    obtain ⟨y, here, copied⟩ := ok.operands done c member
    rw [Cache.look, here]
    exact copied.strips
  simp only [rewriteNode_eq _ done]
  cases v with
  | input position => exact settles_copy collecting found id (.input position)
  | one => exact settles_copy collecting found id .one
  | constant elt => exact settles_copy collecting found id (.constant elt)
  | linear elt a =>
    exact settles_copy collecting found id (.linear elt (operand a (by simp [Expr.children])))
  | sum list precious =>
    have each : List.Forall₂ (Strips source.nodes s.arena.nodes) list (list.map cache.look) :=
      List.forall₂_map_right_iff.mpr (List.forall₂_same.mpr operand)
    exact settles_copy collecting found id
      (.sum precious each (List.mergeSort_perm ..).symm)
  | quadratic elt a a' =>
    have left := operand a (by simp [Expr.children])
    have right := operand a' (by simp [Expr.children])
    simp only [rewriteWith, stripRewriter, Cse.quadratic]
    split
    · exact settles_copy collecting found id (.quadratic elt left right)
    · exact settles_copy collecting found id (.swapped elt left right)
  | withAssertions assertions z =>
    have groups : (assertions.mapM fun item => do
        let exprs ← (stripRewriter (ε := ε) (E := E)).assert0 (cache.look item.expr)
        pure (exprs.map fun expr => (⟨expr, item.id⟩ : AssertionItem))) =
          pure ((cache.roots assertions).map fun item => [item]) := by
      rw [Cache.roots, List.map_map, ← List.mapM_pure]
      rfl
    have flat : ((cache.roots assertions).map fun item => [item]).flatten =
        cache.roots assertions := (List.flatMap_def ..).symm.trans (List.flatMap_singleton' _)
    have copies : ∀ item ∈ assertions, Strips source.nodes s.arena.nodes item.expr
        (cache.look item.expr) := fun item member =>
      operand item.expr (List.mem_cons_of_mem _ (List.mem_map_of_mem member))
    have inner := operand z List.mem_cons_self
    refine .returns (cache.look z)
      { s with collected := s.collected ++ keepFirst (cache.roots assertions) } 0
      (fun _ _ => ?_) ⟨le_rfl, List.prefix_append ..⟩ ⟨collecting.bare, fun item member => ?_⟩
      ⟨.wrapped found inner, fun {assertions' z'} wrapped item member => ?_⟩
    · simp only [rewriteWith, groups, pure_bind, flat]
      rfl
    · rcases List.mem_append.mp member with old | new
      · exact collecting.sound item old
      · obtain ⟨attached, listed, rfl⟩ := List.mem_map.mp (mem_keepFirst new)
        exact ⟨attached.expr, ⟨x, assertions, z, below, found, attached, listed, rfl⟩,
          copies attached listed⟩
    · obtain ⟨rfl, -⟩ := Expr.withAssertions.inj (Option.some.inj (found.symm.trans wrapped))
      obtain ⟨kept, inside, same⟩ := exists_mem_keepFirst
        (List.mem_map_of_mem (f := fun item : AssertionItem =>
          (⟨(cache item.expr).getD 0, item.id⟩ : AssertionItem)) member)
      exact ⟨kept, List.mem_append_right _ inside, same ▸ copies item member⟩

/-! ### Walks and loops -/

/-- Assertions about the copies of asserted nodes: about nothing else, and about all of them. -/
structure Copies (src : Arena E) (asserted : NodeId → Prop) (arena : Arena E)
    (items : List AssertionItem) : Prop where
  sound : ∀ item ∈ items, ∃ x, asserted x ∧ Strips src.nodes arena.nodes x item.expr
  complete : ∀ x, asserted x → ∃ item ∈ items, Strips src.nodes arena.nodes x item.expr

variable {asserted : NodeId → Prop} {items : List AssertionItem} {arena' : Arena E}

omit [DecidableEq E] in
theorem Copies.dedup (order : HashOrder) (copies : Copies source asserted arena items) :
    Copies source asserted arena (dedupAssertions order items) where
  sound item member := copies.sound item (mem_dedup member)
  complete x isAsserted := by
    obtain ⟨item, member, strips⟩ := copies.complete x isAsserted
    obtain ⟨kept, inside, same⟩ := exists_mem_dedup order member
    exact ⟨kept, inside, same ▸ strips⟩

variable {assertions : List AssertionItem}

/-- **A walk of the stripping pass** copies the nodes below the roots, and what is attached to
them. -/
theorem settles_copyWalk
    (descends : ∀ {i : NodeId} {v : Expr E}, source.nodes[i]? = some v → ∀ c ∈ v.children, c < i)
    (bounds : ∀ item ∈ assertions, item.expr < source.nodes.length) (bare : Bare arena) :
    Settles Bare allowed arena
      (fun fuel => (stripWalk fuel source.nodes assertions : Build ε E _)) fun arena' result =>
        ∃ cache : Cache, result.1 = cache.roots assertions ∧
          (∀ item ∈ assertions, Strips source.nodes arena'.nodes item.expr (cache.look item.expr)) ∧
          Copies source (AttachedBelow source.nodes (assertions.map AssertionItem.expr)) arena'
            result.2 := by
  have start : Collecting source (assertions.map AssertionItem.expr) ⟨arena, []⟩ :=
    ⟨bare, fun item member => absurd member List.not_mem_nil⟩
  have walked := settles_walk allowed (Copied source) descends
    (fun {_} below bound => canRewrite_copy below (List.getElem?_eq_getElem bound))
    (fun later _ copied => copied.mono later) bounds start
  cases walked with
  | returns items s enough ran later collecting done =>
    obtain ⟨cache, roots, rewritten⟩ := done
    refine .returns (items, s.collected) s.arena enough (fun fuel more => ?_) later.1
      collecting.bare ⟨cache, roots, fun item member => ?_, collecting.sound, fun c attached => ?_⟩
    · change (walk (fun _ => stripRewriter) fuel source.nodes assertions).run
        (⟨arena, []⟩ : Stripping E) >>= _ = _
      rw [ran fuel more]
      rfl
    · obtain ⟨y, here, copied⟩ := rewritten item.expr (.root (List.mem_map_of_mem member))
      rw [Cache.look, here]
      exact copied.strips
    · obtain ⟨w, inner, z, below, found, item, listed, rfl⟩ := attached
      obtain ⟨y, -, copied⟩ := rewritten w below
      exact copied.attached found item listed
  | @fails fault enough ran isAllowed =>
    refine .fails enough (fun fuel more => ?_) isAllowed
    change (walk (fun _ => stripRewriter) fuel source.nodes assertions).run
      (⟨arena, []⟩ : Stripping E) >>= _ = _
    rw [ran fuel more]
    rfl

omit [DecidableEq E] in
theorem not_attachedBelow_bare (bare : Bare arena) {c : NodeId} :
    ¬AttachedBelow arena.nodes roots c := by
  rintro ⟨w, assertions, x, -, found, -⟩
  exact bare.plain _ (List.mem_of_getElem? found) trivial

theorem settles_copyLoop (order : HashOrder) (bare : Bare arena)
    (copies : Copies source asserted arena items) :
    Settles Bare allowed arena
      (fun fuel => (stripLoop order fuel items : Build ε E (List AssertionItem)))
      fun arena' items' => Copies source asserted arena' items' := by
  have merged := copies.dedup order
  have bounds : ∀ item ∈ dedupAssertions order items, item.expr < arena.nodes.length :=
    fun item member => (merged.sound item member).elim fun _ here => here.2.bound
  refine Settles.succ (fun fuel => by rw [stripLoop]) (settles_get_bind (f := fun _ _ => _) ?_)
  refine (settles_copyWalk bare.descends bounds bare).bind
    fun {result arena'} _ bare' walked => ?_
  obtain ⟨cache, roots, again, collected⟩ := walked
  obtain ⟨stripped, sub⟩ := result
  have none : sub = [] := List.eq_nil_iff_forall_not_mem.mpr fun item member =>
    (collected.sound item member).elim fun _ here => not_attachedBelow_bare bare here.1
  obtain rfl : stripped = cache.roots (dedupAssertions order items) := roots
  simp only [if_pos none]
  have twice : ∀ item ∈ dedupAssertions order items, ∀ {x},
      Strips source.nodes arena.nodes x item.expr →
        Strips source.nodes arena'.nodes x (cache.look item.expr) := fun item member _ strips =>
    strips.trans bare.plain (again item member)
  refine settles_pure bare' (Copies.dedup order ⟨fun item member => ?_, fun x isAsserted => ?_⟩)
  · obtain ⟨old, inside, rfl⟩ := List.mem_map.mp member
    obtain ⟨x, isAsserted, strips⟩ := merged.sound old inside
    exact ⟨x, isAsserted, twice old inside strips⟩
  · obtain ⟨old, inside, strips⟩ := merged.complete x isAsserted
    exact ⟨_, List.mem_map_of_mem inside, twice old inside strips⟩

/-- The nodes of the assertions, and those of the assertions attached at or below them. -/
def AssertedBelow (nodes : List (Expr E)) (assertions : List AssertionItem) (x : NodeId) : Prop :=
  x ∈ assertions.map AssertionItem.expr ∨ AttachedBelow nodes (assertions.map AssertionItem.expr) x

variable (allowed) in
/-- **Stripping** ends with copies of the roots and of the attached assertions. -/
theorem settles_strips (order : HashOrder)
    (descends : ∀ {i : NodeId} {v : Expr E}, source.nodes[i]? = some v → ∀ c ∈ v.children, c < i)
    (bounds : ∀ item ∈ assertions, item.expr < source.nodes.length) :
    Settles Bare allowed Arena.new
      (fun fuel => (stripAll order fuel source assertions : Build ε E (List AssertionItem)))
      fun arena items => Copies source (AssertedBelow source.nodes assertions) arena items := by
  unfold stripAll
  refine (settles_copyWalk descends bounds bare_new).bind
    fun {result arena} _ bare ⟨cache, roots, copied, collected⟩ => ?_
  obtain ⟨stripped, sub⟩ := result
  obtain rfl : stripped = cache.roots assertions := roots
  have copies : Copies source (AssertedBelow source.nodes assertions) arena
      (cache.roots assertions ++ sub) := by
    refine ⟨fun item member => ?_, fun x isAsserted => ?_⟩
    · rcases List.mem_append.mp member with root | attached
      · obtain ⟨old, inside, rfl⟩ := List.mem_map.mp root
        exact ⟨old.expr, .inl (List.mem_map_of_mem inside), copied old inside⟩
      · obtain ⟨c, below, strips⟩ := collected.sound item attached
        exact ⟨c, .inr below, strips⟩
    · rcases isAsserted with root | below
      · obtain ⟨old, inside, rfl⟩ := List.mem_map.mp root
        exact ⟨_, List.mem_append_left _ (List.mem_map_of_mem inside), copied old inside⟩
      · obtain ⟨item, inside, strips⟩ := collected.complete x below
        exact ⟨item, List.mem_append_right _ inside, strips⟩
  refine settles_ite (fun none => ?_) fun _ => settles_copyLoop order bare copies
  obtain rfl : sub = [] := none
  exact settles_pure bare ((List.append_nil (cache.roots assertions) ▸ copies).dedup order)

/-- **Walks and stripping**, for every graph. A walk goes through one order of the nodes below its
roots, and its lookups do not fail. Stripping ends; no assertion is attached to a node that is left,
and what is asserted are the stripped roots and the stripped attached assertions. -/
theorem walk_and_strip (ε : Type) (order : HashOrder) (src : Arena E)
    (descends : ∀ {i : NodeId} {v : Expr E}, src.nodes[i]? = some v → ∀ c ∈ v.children, c < i)
    (assertions : List AssertionItem)
    (bounds : ∀ item ∈ assertions, item.expr < src.nodes.length) :
    (∃ visits enough, InOrder src.nodes (assertions.map AssertionItem.expr) visits ∧
      ∀ {ε σ : Type} (rewriter : RewriteT ε σ E) (fuel : Nat), enough ≤ fuel →
        walk (fun _ => rewriter) fuel src.nodes assertions =
          rewriteInOrder rewriter src.nodes visits assertions) ∧
    ∃ enough items arena, (∀ fuel, enough ≤ fuel →
        (stripAll order fuel src assertions : Build ε E _).run Arena.new = .ok (items, arena)) ∧
      (∀ v ∈ arena.nodes, ¬v.IsWrapper) ∧
      Copies src (AssertedBelow src.nodes assertions) arena items := by
  refine ⟨walk_inOrder descends bounds, ?_⟩
  cases settles_strips (fun _ : Fault ε => False) order descends bounds with
  | returns items arena enough ran _ bare copies =>
    exact ⟨enough, items, arena, ran, bare.plain, copies⟩
  | fails _ _ isAllowed => exact isAllowed.elim

/-- The numeral two of a ring. -/
local instance two_atLeastTwo : Nat.AtLeastTwo 2 := inferInstance

/-- The product of an input and of a sum with it. The input is shared, and an assertion that another
one is attached to is attached to it. -/
def sharedGraph : Arena (ZMod 5) :=
  ⟨[.input 1, .input 2, .withAssertions [⟨1, 1⟩] 1, .withAssertions [⟨2, 2⟩, ⟨0, 3⟩] 0,
    .sum [3, 1, 3] false, .quadratic 2 4 3], []⟩

theorem walk_and_strip_shared :
    (∃ visits enough, InOrder sharedGraph.nodes [5, 4] visits ∧
      ∀ {ε σ : Type} (rewriter : RewriteT ε σ (ZMod 5)) (fuel : Nat), enough ≤ fuel →
        walk (fun _ => rewriter) fuel sharedGraph.nodes [⟨5, 4⟩, ⟨4, 5⟩] =
          rewriteInOrder rewriter sharedGraph.nodes visits [⟨5, 4⟩, ⟨4, 5⟩]) ∧
    ∃ enough items arena, (∀ fuel, enough ≤ fuel →
        (stripAll ⟨id, fun _ => .rfl⟩ fuel sharedGraph [⟨5, 4⟩, ⟨4, 5⟩] :
          Build String (ZMod 5) _).run Arena.new = .ok (items, arena)) ∧
      (∀ v ∈ arena.nodes, ¬v.IsWrapper) ∧
      Copies sharedGraph (AssertedBelow sharedGraph.nodes [⟨5, 4⟩, ⟨4, 5⟩]) arena items := by
  refine walk_and_strip String ⟨id, fun _ => .rfl⟩ sharedGraph (fun {i v} found c member => ?_)
    [⟨5, 4⟩, ⟨4, 5⟩] (by decide)
  have each : ∀ i : Fin sharedGraph.nodes.length, ∀ c ∈ (sharedGraph.nodes.get i).children,
      c < i := by decide
  obtain ⟨bound, rfl⟩ := List.getElem?_eq_some_iff.mp found
  exact each ⟨i, bound⟩ c member

end Longfellow.Compile.Assertion
