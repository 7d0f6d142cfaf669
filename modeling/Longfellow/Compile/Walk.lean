/-
**Walks over the expression graph** (`compile/compiler/src/ir.rs`).

A pass rewrites a graph node by node into another one: a loop with a stack of its own visits the
nodes below the root assertions, each after the nodes it refers to, and hands the rewritten operands
to the pass. The loop is bounded by a fuel here; running out of it is a panic.

* `settles_walkCache` — **a whole walk**: every node below the roots is rewritten.
-/

import Longfellow.Compile.Ir
import Longfellow.Lib.Settle

namespace Longfellow.Compile

open Lib

variable {ε σ E : Type}

/-! ### The walk -/

/-- The operations of a pass. -/
structure RewriteT (ε σ E : Type) where
  assert0 : NodeId → StateT σ (Exec ε) (List NodeId)
  input : Nat → StateT σ (Exec ε) NodeId
  sum : List NodeId → Bool → StateT σ (Exec ε) NodeId
  one : StateT σ (Exec ε) NodeId
  constant : E → StateT σ (Exec ε) NodeId
  linear : E → NodeId → StateT σ (Exec ε) NodeId
  quadratic : E → NodeId → NodeId → StateT σ (Exec ε) NodeId
  withAssertions : List AssertionItem → NodeId → StateT σ (Exec ε) NodeId

/-- The rewritten nodes, by the numbers of the nodes they come from. A node is marked as visited when
it is rewritten. -/
abbrev Cache := NodeId → Option NodeId

def cached (cache : Cache) (x : NodeId) : StateT σ (Exec ε) NodeId :=
  liftM (expect (cache x) "called `Option::unwrap()` on a `None` value" : Exec ε NodeId)

/-- One more assertion, unless its node is asserted already. -/
def keepNew (kept : List AssertionItem) (item : AssertionItem) : List AssertionItem :=
  if item.expr ∈ kept.map AssertionItem.expr then kept else kept ++ [item]

/-- The assertions without those about a node that was asserted before. -/
def keepFirst (items : List AssertionItem) : List AssertionItem := items.foldl keepNew []

/-- The rewritten assertions that are attached to a node. -/
def walkAssertions (rewriter : RewriteT ε σ E) (cache : Cache) (a : List AssertionItem) :
    StateT σ (Exec ε) (List AssertionItem) := do
  let groups ← a.mapM fun item => do
    let walkedAssertion ← cached cache item.expr
    let exprs ← rewriter.assert0 walkedAssertion
    pure (exprs.map fun expr => (⟨expr, item.id⟩ : AssertionItem))
  pure (keepFirst groups.flatten)

/-- A node from its rewritten operands. -/
def rewriteNode (rewriter : RewriteT ε σ E) (cache : Cache) : Expr E → StateT σ (Exec ε) NodeId
  | .input a => rewriter.input a
  | .one => rewriter.one
  | .constant e => rewriter.constant e
  | .sum list precious => do
    let walkedList ← list.mapM (cached cache)
    rewriter.sum walkedList precious
  | .linear e x => do
    let walkedX ← cached cache x
    rewriter.linear e walkedX
  | .quadratic e x y => do
    let walkedX ← cached cache x
    let walkedY ← cached cache y
    rewriter.quadratic e walkedX walkedY
  | .withAssertions a x => do
    let walkedA ← walkAssertions rewriter cache a
    let walkedX ← cached cache x
    rewriter.withAssertions walkedA walkedX

/-- The nodes that are still to visit, the next one first, each with whether the nodes it refers to
were pushed after it. -/
abbrev Stack := List (NodeId × Bool)

def pushAll (xs : List NodeId) (stack : Stack) : Stack :=
  xs.foldl (fun stack x => (x, false) :: stack) stack

/-- The loop. What is left of the fuel bounds the pass as well. -/
def walkLoop (rewriter : Nat → RewriteT ε σ E) (nodes : List (Expr E)) :
    Nat → Cache → Stack → StateT σ (Exec ε) Cache
  | 0, _, _ => liftM (abort "out of fuel" : Exec ε Cache)
  | _ + 1, cache, [] => pure cache
  | fuel + 1, cache, (node, childrenVisited) :: stack =>
    if (cache node).isSome then walkLoop rewriter nodes fuel cache stack
    else do
      let v ← liftM (getAt nodes node : Exec ε (Expr E))
      if childrenVisited then do
        let rewritten ← rewriteNode (rewriter fuel) cache v
        walkLoop rewriter nodes fuel (Function.update cache node (some rewritten)) stack
      else walkLoop rewriter nodes fuel cache (pushAll v.children ((node, true) :: stack))

/-- The rewritten nodes below some assertions. -/
def walkCache (rewriter : Nat → RewriteT ε σ E) (fuel : Nat) (nodes : List (Expr E))
    (assertions : List AssertionItem) : StateT σ (Exec ε) Cache :=
  walkLoop rewriter nodes fuel (fun _ => none) (pushAll (assertions.map AssertionItem.expr) [])

def walk (rewriter : Nat → RewriteT ε σ E) (fuel : Nat) (nodes : List (Expr E))
    (assertions : List AssertionItem) : StateT σ (Exec ε) (List AssertionItem) := do
  let cache ← walkCache rewriter fuel nodes assertions
  assertions.mapM fun item => do
    let expr ← cached cache item.expr
    pure ⟨expr, item.id⟩

/-! ### Visits -/

/-- The nodes at or below some nodes. -/
inductive Below (nodes : List (Expr E)) (roots : List NodeId) : NodeId → Prop
  | root {x : NodeId} (member : x ∈ roots) : Below nodes roots x
  | child {x y : NodeId} {v : Expr E} (above : Below nodes roots x) (found : nodes[x]? = some v)
      (member : y ∈ v.children) : Below nodes roots y

variable [Preorder σ] {inv : σ → Prop} {allowed : Fault ε → Prop} {s : σ}
  {rewriter : Nat → RewriteT ε σ E} {nodes : List (Expr E)} {rel : σ → NodeId → NodeId → Prop}
  {cache cache' : Cache} {x : NodeId}

/-- The rewritten nodes are related to the nodes they come from, and those below are rewritten. -/
structure CacheOk (rel : σ → NodeId → NodeId → Prop) (nodes : List (Expr E)) (s : σ)
    (cache : Cache) : Prop where
  related : ∀ {x y}, cache x = some y → rel s x y
  closed : ∀ {x y v}, cache x = some y → nodes[x]? = some v → ∀ c ∈ v.children, (cache c).isSome

/-- Nodes that are rewritten stay as they are. -/
def Cache.Extends (cache cache' : Cache) : Prop := ∀ {x y}, cache x = some y → cache' x = some y

theorem Cache.Extends.isSome (extends_ : cache.Extends cache')
    (done : (cache x).isSome) : (cache' x).isSome := by
  obtain ⟨y, here⟩ := Option.isSome_iff_exists.mp done
  rw [extends_ here, Option.isSome_some]

/-- A pass that can rewrite a node whose operands are rewritten. -/
def CanRewrite (inv : σ → Prop) (allowed : Fault ε → Prop) (rewriter : Nat → RewriteT ε σ E)
    (nodes : List (Expr E)) (rel : σ → NodeId → NodeId → Prop) (x : NodeId) : Prop :=
  ∀ {s : σ} {cache : Cache} {v : Expr E}, inv s → CacheOk rel nodes s cache → nodes[x]? = some v →
    (∀ c ∈ v.children, (cache c).isSome) →
      Settles inv allowed s (fun fuel => rewriteNode (rewriter fuel) cache v) fun s' y => rel s' x y

/-- The loop settles on a stack, in every later state where some nodes are rewritten. -/
def Continues (inv : σ → Prop) (allowed : Fault ε → Prop) (rewriter : Nat → RewriteT ε σ E)
    (nodes : List (Expr E)) (rel : σ → NodeId → NodeId → Prop) (s : σ) (cache : Cache)
    (done : NodeId → Prop) (stack : Stack) (post : σ → Cache → Prop) : Prop :=
  ∀ {s' : σ} {cache' : Cache}, s ≤ s' → inv s' → CacheOk rel nodes s' cache' →
    cache.Extends cache' → (∀ x, done x → (cache' x).isSome) →
      Settles inv allowed s' (fun fuel => walkLoop rewriter nodes fuel cache' stack) post

variable {stack : Stack} {post : σ → Cache → Prop} {v : Expr E} {assertions : List AssertionItem}

theorem settles_skip {node : NodeId} {visited : Bool} (done : (cache node).isSome)
    (next : Settles inv allowed s (fun fuel => walkLoop rewriter nodes fuel cache stack) post) :
    Settles inv allowed s (fun fuel => walkLoop rewriter nodes fuel cache
      ((node, visited) :: stack)) post :=
  next.succ fun fuel => by rw [walkLoop, if_pos done]

theorem settles_rewrite {node : NodeId} (found : nodes[node]? = some v)
    (can : CanRewrite inv allowed rewriter nodes rel node)
    (keeps : ∀ {s s' x y}, s ≤ s' → inv s → rel s x y → rel s' x y) (holds : inv s)
    (ok : CacheOk rel nodes s cache) (below : ∀ c ∈ v.children, (cache c).isSome)
    (next : Continues inv allowed rewriter nodes rel s cache (· = node) stack post) :
    Settles inv allowed s (fun fuel => walkLoop rewriter nodes fuel cache
      ((node, true) :: stack)) post := by
  by_cases done : (cache node).isSome
  · exact settles_skip done (next le_rfl holds ok id fun _ same => same ▸ done)
  refine Settles.succ (fun fuel => by rw [walkLoop, if_neg done]) ?_
  refine settles_lift_bind (f := fun _ _ => _) (fun {v'} read => ?_) fun stopped => ?_
  · obtain rfl := Option.some.inj ((getAt_eq_ok.mp read).symm.trans found)
    simp only [if_true]
    refine (can holds ok found below).bind fun {y s'} later holds' here => ?_
    have extends_ : cache.Extends (Function.update cache node (some y)) := by
      intro x z old
      by_cases same : x = node
      · rw [same] at old
        rw [old] at done
        exact absurd rfl done
      · rwa [Function.update_of_ne same]
    refine next later holds' ⟨fun {x z} new => ?_, fun {x z v''} new at_ c member => ?_⟩ extends_
      fun x same => by rw [same, Function.update_self]; rfl
    · by_cases same : x = node
      · rw [same, Function.update_self] at new
        rw [same, ← Option.some.inj new]
        exact here
      · rw [Function.update_of_ne same] at new
        exact keeps later holds (ok.related new)
    · by_cases same : x = node
      · obtain rfl := Option.some.inj ((same ▸ at_ : nodes[node]? = some v'').symm.trans found)
        exact extends_.isSome (below c member)
      · rw [Function.update_of_ne same] at new
        exact extends_.isSome (ok.closed new at_ c member)
  · rw [getAt_eq_ok.mpr found] at stopped
    cases stopped

/-- The loop settles on a node on top of its stack, when it does on what follows. -/
def Visits (inv : σ → Prop) (allowed : Fault ε → Prop) (rewriter : Nat → RewriteT ε σ E)
    (nodes : List (Expr E)) (rel : σ → NodeId → NodeId → Prop) (post : σ → Cache → Prop)
    (x : NodeId) : Prop :=
  ∀ {s : σ} {cache : Cache} {stack : Stack}, inv s → CacheOk rel nodes s cache →
    Continues inv allowed rewriter nodes rel s cache (· = x) stack post →
      Settles inv allowed s (fun fuel => walkLoop rewriter nodes fuel cache ((x, false) :: stack)) post

theorem Cache.Extends.trans {cache'' : Cache} (first : cache.Extends cache')
    (second : cache'.Extends cache'') : cache.Extends cache'' := fun here => second (first here)

/-- **Visiting some nodes**, the last one first. -/
theorem settles_visits {xs : List NodeId}
    (each : ∀ x ∈ xs, Visits inv allowed rewriter nodes rel post x) (holds : inv s)
    (ok : CacheOk rel nodes s cache)
    (next : Continues inv allowed rewriter nodes rel s cache (· ∈ xs) stack post) :
    Settles inv allowed s (fun fuel => walkLoop rewriter nodes fuel cache (pushAll xs stack))
      post := by
  induction xs generalizing s cache stack with
  | nil => exact next le_rfl holds ok id fun x member => absurd member List.not_mem_nil
  | cons x xs ih =>
    refine ih (fun y member => each y (List.mem_cons_of_mem _ member)) holds ok ?_
    intro s₁ cache₁ later₁ holds₁ ok₁ extends₁ done₁
    refine each x List.mem_cons_self holds₁ ok₁ ?_
    intro s₂ cache₂ later₂ holds₂ ok₂ extends₂ done₂
    refine next (later₁.trans later₂) holds₂ ok₂ (extends₁.trans extends₂) fun y member => ?_
    rcases List.mem_cons.mp member with rfl | old
    · exact done₂ y rfl
    · exact extends₂.isSome (done₁ y old)

/-- **Visiting a node**, by induction on its number: the nodes it refers to are before it. -/
theorem settles_visit {roots : List NodeId}
    (descends : ∀ {i : NodeId} {v : Expr E}, nodes[i]? = some v → ∀ c ∈ v.children, c < i)
    (can : ∀ {x}, Below nodes roots x → x < nodes.length →
      CanRewrite inv allowed rewriter nodes rel x)
    (keeps : ∀ {s s' x y}, s ≤ s' → inv s → rel s x y → rel s' x y)
    (below : Below nodes roots x) (bound : x < nodes.length) :
    Visits inv allowed rewriter nodes rel post x := by
  induction x using Nat.strong_induction_on with
  | _ x ih =>
    intro s cache stack holds ok next
    by_cases done : (cache x).isSome
    · exact settles_skip done (next le_rfl holds ok id fun y same => same ▸ done)
    obtain ⟨v, found⟩ : ∃ v, nodes[x]? = some v := ⟨_, List.getElem?_eq_getElem bound⟩
    refine Settles.succ (fun fuel => by rw [walkLoop, if_neg done]) ?_
    refine settles_lift_bind (f := fun _ _ => _) (fun {v'} read => ?_) fun stopped => ?_
    · obtain rfl := Option.some.inj ((getAt_eq_ok.mp read).symm.trans found)
      simp only [Bool.false_eq_true, if_false]
      refine settles_visits (fun c member => ih c (descends found c member)
        (.child below found member) ((descends found c member).trans bound)) holds ok ?_
      intro s₁ cache₁ later₁ holds₁ ok₁ extends₁ done₁
      refine settles_rewrite found (can below bound) keeps holds₁ ok₁ done₁ ?_
      intro s₂ cache₂ later₂ holds₂ ok₂ extends₂ done₂
      exact next (later₁.trans later₂) holds₂ ok₂ (extends₁.trans extends₂) done₂
    · rw [getAt_eq_ok.mpr found] at stopped
      cases stopped

omit [Preorder σ] in
theorem CacheOk.isSome_of_below (ok : CacheOk rel nodes s cache) {roots : List NodeId}
    (done : ∀ x ∈ roots, (cache x).isSome) (below : Below nodes roots x) :
    (cache x).isSome := by
  induction below with
  | root member => exact done _ member
  | child _ found member ih =>
    obtain ⟨y, here⟩ := Option.isSome_iff_exists.mp ih
    exact ok.closed here found _ member

/-! ### Rewritten operands -/

omit [Preorder σ] in
theorem cached_eq {y : NodeId} (here : cache x = some y) :
    (cached cache x : StateT σ (Exec ε) NodeId) = pure y := by
  rw [cached, here]
  rfl

omit [Preorder σ] in
theorem mapM_cached {xs : List NodeId} (done : ∀ x ∈ xs, (cache x).isSome) :
    (xs.mapM (cached cache) : StateT σ (Exec ε) (List NodeId)) =
      pure (xs.map fun x => (cache x).getD 0) := by
  induction xs with
  | nil => rfl
  | cons x xs ih =>
    obtain ⟨y, here⟩ := Option.isSome_iff_exists.mp (done x List.mem_cons_self)
    rw [List.mapM_cons, cached_eq here, pure_bind,
      ih fun z member => done z (List.mem_cons_of_mem _ member), pure_bind, List.map_cons, here]
    rfl

/-- The rewritten assertions, from the rewritten nodes. -/
def Cache.roots (cache : Cache) (assertions : List AssertionItem) : List AssertionItem :=
  assertions.map fun item => ⟨(cache item.expr).getD 0, item.id⟩

omit [Preorder σ] in
theorem mapM_roots
    (done : ∀ item ∈ assertions, (cache item.expr).isSome) :
    (assertions.mapM fun item => do
        let expr ← cached cache item.expr
        pure (⟨expr, item.id⟩ : AssertionItem) : StateT σ (Exec ε) (List AssertionItem)) =
      pure (cache.roots assertions) := by
  induction assertions with
  | nil => rfl
  | cons item assertions ih =>
    obtain ⟨y, here⟩ := Option.isSome_iff_exists.mp (done item List.mem_cons_self)
    rw [List.mapM_cons, cached_eq here, pure_bind, pure_bind,
      ih fun other member => done other (List.mem_cons_of_mem _ member), pure_bind, Cache.roots,
      Cache.roots, List.map_cons, here]
    rfl

section Whole

variable (rel allowed)
    (descends : ∀ {i : NodeId} {v : Expr E}, nodes[i]? = some v → ∀ c ∈ v.children, c < i)
    (can : ∀ {x}, Below nodes (assertions.map AssertionItem.expr) x → x < nodes.length →
      CanRewrite inv allowed rewriter nodes rel x)
    (keeps : ∀ {s s' x y}, s ≤ s' → inv s → rel s x y → rel s' x y)
    (bounds : ∀ item ∈ assertions, item.expr < nodes.length) (holds : inv s)
include descends can keeps bounds holds

/-- **A whole walk** rewrites every node below the roots. -/
theorem settles_walkCache :
    Settles inv allowed s (fun fuel => walkCache rewriter fuel nodes assertions) fun s' cache =>
      ∀ x, Below nodes (assertions.map AssertionItem.expr) x → ∃ y, cache x = some y ∧ rel s' x y := by
  have start : CacheOk rel nodes s fun _ => none := ⟨nofun, nofun⟩
  refine settles_visits (fun x member => ?_) holds start ?_
  · obtain ⟨item, inside, rfl⟩ := List.mem_map.mp member
    exact settles_visit descends can keeps (.root member) (bounds item inside)
  · intro s' cache' _ holds' ok' _ done'
    refine Settles.succ (fun fuel => by rw [walkLoop]) (settles_pure holds' fun x below => ?_)
    obtain ⟨y, here⟩ := Option.isSome_iff_exists.mp (ok'.isSome_of_below done' below)
    exact ⟨y, here, ok'.related here⟩

/-- **A walk** hands back the rewritten roots. -/
theorem settles_walk :
    Settles inv allowed s (fun fuel => walk rewriter fuel nodes assertions) fun s' items =>
      ∃ cache : Cache, items = cache.roots assertions ∧
        ∀ x, Below nodes (assertions.map AssertionItem.expr) x → ∃ y, cache x = some y ∧ rel s' x y := by
  refine (settles_walkCache allowed rel descends can keeps bounds holds).bind
    (f := fun _ _ => _) fun {cache s'} _ holds' done => ?_
  have roots : ∀ item ∈ assertions, (cache item.expr).isSome := by
    intro item member
    obtain ⟨y, here, -⟩ := done _ (.root (List.mem_map_of_mem member))
    rw [here, Option.isSome_some]
  rw [mapM_roots roots]
  exact settles_pure holds' ⟨cache, rfl, done⟩

end Whole

/-! ### Values -/

section Values

variable [CommRing E] {arena arena' src : Arena E} {y : NodeId} {value : (Nat → E) → E}

/-- A node of a known value. -/
def Valued (arena : Arena E) (y : NodeId) (value : (Nat → E) → E) : Prop :=
  y < arena.nodes.length ∧ ∀ inputs, arena.value inputs y = value inputs

/-- A node with the value of a node of another arena. -/
def Image (src arena : Arena E) (x y : NodeId) : Prop :=
  Valued arena y fun inputs => src.value inputs x

theorem Valued.mono (valued : Valued arena y value) (grown : arena ≤ arena') :
    Valued arena' y value :=
  ⟨lt_of_lt_of_le valued.1 grown.1.length_le, fun inputs =>
    (value_mono grown valued.1).trans (valued.2 inputs)⟩

theorem Arena.WellFormed.valued (formed : arena.WellFormed)
    (found : arena.nodes[y]? = some v)
    (same : ∀ inputs, v.value inputs (arena.value inputs) = value inputs) : Valued arena y value :=
  ⟨(List.getElem?_eq_some_iff.mp found).1, fun inputs =>
    (formed.value_eq inputs found).trans (same inputs)⟩

/-- A pass whose operations have the values they are named after, where `arenaOf` is the arena of a
state and `constants` are the constants it takes. -/
structure Evaluates (inv : σ → Prop) (allowed : Fault ε → Prop) (arenaOf : σ → Arena E)
    (constants : E → Prop) (rewriter : Nat → RewriteT ε σ E) : Prop where
  later : ∀ {s s' : σ}, s ≤ s' → arenaOf s ≤ arenaOf s'
  input : ∀ {s : σ} (position : Nat), inv s →
    Settles inv allowed s (fun fuel => (rewriter fuel).input position) fun s' y =>
      Valued (arenaOf s') y fun inputs => inputs position
  one : ∀ {s : σ}, inv s →
    Settles inv allowed s (fun fuel => (rewriter fuel).one) fun s' y =>
      Valued (arenaOf s') y fun _ => 1
  constant : ∀ {s : σ} {elt : E}, constants elt → inv s →
    Settles inv allowed s (fun fuel => (rewriter fuel).constant elt) fun s' y =>
      Valued (arenaOf s') y fun _ => elt
  linear : ∀ {s : σ} {x : NodeId} {vx : (Nat → E) → E} (elt : E), inv s → Valued (arenaOf s) x vx →
    Settles inv allowed s (fun fuel => (rewriter fuel).linear elt x) fun s' y =>
      Valued (arenaOf s') y fun inputs => elt * vx inputs
  quadratic : ∀ {s : σ} {x x' : NodeId} {vx vx' : (Nat → E) → E} (elt : E), inv s →
    Valued (arenaOf s) x vx → Valued (arenaOf s) x' vx' →
    Settles inv allowed s (fun fuel => (rewriter fuel).quadratic elt x x') fun s' y =>
      Valued (arenaOf s') y fun inputs => elt * (vx inputs * vx' inputs)
  sum : ∀ {s : σ} {elements : List NodeId} (precious : Bool), inv s → elements ≠ [] →
    (∀ x ∈ elements, x < (arenaOf s).nodes.length) →
    Settles inv allowed s (fun fuel => (rewriter fuel).sum elements precious) fun s' y =>
      Valued (arenaOf s') y fun inputs => (elements.map ((arenaOf s).value inputs)).sum

/-- An expression without attached assertions that a pass has an answer to. -/
def Expr.Answered (constants : E → Prop) : Expr E → Prop
  | .input _ | .one | .linear _ _ | .quadratic _ _ _ => True
  | .constant elt => constants elt
  | .sum elements _ => elements ≠ []
  | .withAssertions _ _ => False

omit [CommRing E] [Preorder σ] in
theorem CacheOk.operands (ok : CacheOk rel nodes s cache)
    (below : ∀ c ∈ v.children, (cache c).isSome) :
    ∀ c ∈ v.children, ∃ y, cache c = some y ∧ rel s c y := by
  intro c member
  obtain ⟨y, here⟩ := Option.isSome_iff_exists.mp (below c member)
  exact ⟨y, here, ok.related here⟩

/-- **A pass whose operations have the right values** rewrites a node to one of the same value. -/
theorem Evaluates.canRewrite {arenaOf : σ → Arena E} {constants : E → Prop}
    (evaluates : Evaluates inv allowed arenaOf constants rewriter)
    (found : src.nodes[x]? = some v) (descends : ∀ c ∈ v.children, c < x)
    (answered : v.Answered constants) :
    CanRewrite inv allowed rewriter src.nodes (fun s => Image src (arenaOf s)) x := by
  intro s cache v' holds ok found' below
  obtain rfl := Option.some.inj (found.symm.trans found')
  have image := ok.operands below
  -- A node of the value that the expression has in the source.
  have made : ∀ {s' : σ} {y : NodeId},
      Valued (arenaOf s') y (fun inputs => v.value inputs (src.value inputs)) →
        Image src (arenaOf s') x y := fun valued =>
    ⟨valued.1, fun inputs => (valued.2 inputs).trans (value_eq inputs found descends).symm⟩
  cases v with
  | input position => exact (evaluates.input position holds).mono fun _ _ => made
  | one => exact (evaluates.one holds).mono fun _ _ => made
  | constant elt => exact (evaluates.constant answered holds).mono fun _ _ => made
  | linear elt c =>
    obtain ⟨y, here, valued⟩ := image c (by simp [Expr.children])
    simp only [rewriteNode, cached_eq here, pure_bind]
    exact (evaluates.linear elt holds valued).mono fun _ _ => made
  | quadratic elt c c' =>
    obtain ⟨y, here, valued⟩ := image c (by simp [Expr.children])
    obtain ⟨y', here', valued'⟩ := image c' (by simp [Expr.children])
    simp only [rewriteNode, cached_eq here, cached_eq here', pure_bind]
    exact (evaluates.quadratic elt holds valued valued').mono fun _ _ => made
  | sum list precious =>
    have done : ∀ c ∈ list, (cache c).isSome := below
    simp only [rewriteNode, mapM_cached done, pure_bind]
    have valued : ∀ c ∈ list, Image src (arenaOf s) c ((cache c).getD 0) := fun c member => by
      obtain ⟨y, here, valued⟩ := image c member
      rwa [here]
    have bounds : ∀ z ∈ list.map (fun c => (cache c).getD 0), z < (arenaOf s).nodes.length := by
      intro z member
      obtain ⟨c, inside, rfl⟩ := List.mem_map.mp member
      exact (valued c inside).1
    refine (evaluates.sum precious holds (fun empty => answered (List.map_eq_nil_iff.mp empty))
      bounds).mono fun _ _ here => made ⟨here.1, fun inputs => (here.2 inputs).trans ?_⟩
    simp only [Expr.value, List.map_map]
    exact congrArg List.sum (List.map_congr_left fun c inside => (valued c inside).2 inputs)
  | withAssertions _ _ => exact answered.elim

end Values

/-! ### Nodes -/

section Nodes

variable {arena : Arena E} {keeps : Arena E → Prop}

theorem settles_memo [DecidableEq E] (holds : keeps arena)
    (appended : keeps ⟨arena.nodes ++ [v], arena.discarded⟩) :
    Settles keeps allowed arena (fun _ => (memoExpr v : Build ε E NodeId))
      fun arena' x => arena'.nodes[x]? = some v := by
  rcases found : arena.nodes.idxOf? v with _ | x
  · refine .returns arena.nodes.length { arena with nodes := arena.nodes ++ [v] } 0 (fun _ _ => ?_)
      ⟨List.prefix_append .., List.prefix_rfl⟩ appended List.getElem?_concat_length
    simp only [memoExpr, StateT.run_bind, StateT.run_get, pure_bind, found]
    rfl
  · obtain ⟨bound, here, _⟩ := List.idxOf?_eq_some_iff.mp found
    refine .returns x arena 0 (fun _ _ => ?_) le_rfl holds ?_
    · simp only [memoExpr, StateT.run_bind, StateT.run_get, pure_bind, found]
      rfl
    · rw [List.getElem?_eq_getElem bound, here]

theorem settles_nodeAt_bind {α : Type} {f : Nat → Expr E → Build ε E α}
    {post : Arena E → α → Prop} (found : arena.nodes[x]? = some v)
    (next : Settles keeps allowed arena (fun fuel => f fuel v) post) :
    Settles keeps allowed arena (fun fuel => nodeAt x >>= f fuel) post := by
  refine next.congr fun fuel => ?_
  have read : (nodeAt x : Build ε E (Expr E)).run arena = .ok (v, arena) := by
    have here : (getAt arena.nodes x : Exec ε (Expr E)) = .ok v := getAt_eq_ok.mpr found
    simp only [nodeAt, StateT.run_bind, StateT.run_get, pure_bind]
    change (getAt arena.nodes x : Exec ε (Expr E)) >>= _ = _
    rw [here]
    rfl
  rw [StateT.run_bind, read]
  rfl

end Nodes

end Longfellow.Compile
