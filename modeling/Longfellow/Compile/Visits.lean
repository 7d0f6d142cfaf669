/-
**Every node once** (`compile/compiler/src/ir.rs`, `walk`).

The loop of a walk pushes a shared node as often as something refers to it, and keeps its rewritten
nodes in a cache. Whatever the pass does, this is the same as going through the nodes below the
roots in one order, each of them once and after the nodes it refers to, with operands that are there.

* `walk_inOrder` — **a walk is a run through one order of the nodes**, which no pass changes.
-/

import Longfellow.Compile.Walk

namespace Longfellow.Compile

open Lib

variable {ε σ E : Type} {cache : Cache} {nodes : List (Expr E)}

/-! ### Rewriting in an order -/

/-- A node from its rewritten operands, which are all there. -/
def rewriteWith (rewriter : RewriteT ε σ E) (look : NodeId → NodeId) :
    Expr E → StateT σ (Exec ε) NodeId
  | .input a => rewriter.input a
  | .one => rewriter.one
  | .constant e => rewriter.constant e
  | .sum list precious => rewriter.sum (list.map look) precious
  | .linear e x => rewriter.linear e (look x)
  | .quadratic e x y => rewriter.quadratic e (look x) (look y)
  | .withAssertions a x => do
    let groups ← a.mapM fun item => do
      let exprs ← rewriter.assert0 (look item.expr)
      pure (exprs.map fun expr => (⟨expr, item.id⟩ : AssertionItem))
    rewriter.withAssertions (keepFirst groups.flatten) (look x)

/-- One more node. -/
def rewriteStep (rewriter : RewriteT ε σ E) (nodes : List (Expr E)) (look : NodeId → NodeId)
    (x : NodeId) : StateT σ (Exec ε) (NodeId → NodeId) :=
  match nodes[x]? with
  | some v => do
    let y ← rewriteWith rewriter look v
    pure (Function.update look x y)
  | none => pure look

/-- The assertions about the rewritten nodes, when the nodes are rewritten in an order. -/
def rewriteInOrder (rewriter : RewriteT ε σ E) (nodes : List (Expr E)) (order : List NodeId)
    (assertions : List AssertionItem) : StateT σ (Exec ε) (List AssertionItem) := do
  let look ← order.foldlM (rewriteStep rewriter nodes) fun _ => 0
  pure (assertions.map fun item => ⟨look item.expr, item.id⟩)

/-- The nodes below the roots, each once and after the nodes it refers to. -/
structure InOrder (nodes : List (Expr E)) (roots order : List NodeId) : Prop where
  once : order.Nodup
  reached : ∀ x, x ∈ order ↔ Below nodes roots x
  childrenFirst : ∀ {before after : List NodeId} {x : NodeId} {v : Expr E},
    order = before ++ x :: after → nodes[x]? = some v → ∀ c ∈ v.children, c ∈ before

/-! ### The cache -/

/-- The rewritten node, and zero where there is none. -/
def Cache.look (cache : Cache) (x : NodeId) : NodeId := (cache x).getD 0

theorem cached_look {x : NodeId} (done : (cache x).isSome) :
    (cached cache x : StateT σ (Exec ε) NodeId) = pure (cache.look x) := by
  obtain ⟨y, here⟩ := Option.isSome_iff_exists.mp done
  rw [cached_eq here, Cache.look, here, Option.getD_some]

/-- **No lookup fails** when the operands are rewritten. -/
theorem rewriteNode_eq (rewriter : RewriteT ε σ E) {v : Expr E}
    (done : ∀ c ∈ v.children, (cache c).isSome) :
    rewriteNode rewriter cache v = rewriteWith rewriter cache.look v := by
  cases v with
  | input _ | one | constant _ => rfl
  | sum list precious =>
    have isSome : ∀ c ∈ list, (cache c).isSome := done
    rw [rewriteNode, mapM_cached isSome, pure_bind]
    rfl
  | linear e x =>
    rw [rewriteNode, cached_look (done x (by simp [Expr.children])), pure_bind]
    rfl
  | quadratic e x y =>
    rw [rewriteNode, cached_look (done x (by simp [Expr.children])), pure_bind,
      cached_look (done y (by simp [Expr.children])), pure_bind]
    rfl
  | withAssertions a x =>
    have each : (a.mapM fun item => do
        let walkedAssertion ← cached cache item.expr
        let exprs ← rewriter.assert0 walkedAssertion
        pure (exprs.map fun expr => (⟨expr, item.id⟩ : AssertionItem))) =
        (a.mapM fun item => do
          let exprs ← rewriter.assert0 (cache.look item.expr)
          pure (exprs.map fun expr => (⟨expr, item.id⟩ : AssertionItem))) := by
      have isSome : ∀ item ∈ a, (cache item.expr).isSome := fun item member =>
        done item.expr (List.mem_cons_of_mem _ (List.mem_map_of_mem member))
      clear done
      induction a with
      | nil => rfl
      | cons item rest ih =>
        rw [List.mapM_cons, List.mapM_cons, cached_look (isSome item List.mem_cons_self),
          pure_bind, ih fun other member => isSome other (List.mem_cons_of_mem _ member)]
    rw [rewriteNode, walkAssertions, each, bind_assoc]
    refine bind_congr fun groups => ?_
    rw [pure_bind, cached_look (done x List.mem_cons_self), pure_bind]

/-- One more node of the cache. -/
def cachedStep (rewriter : RewriteT ε σ E) (nodes : List (Expr E)) (cache : Cache) (x : NodeId) :
    StateT σ (Exec ε) Cache :=
  match nodes[x]? with
  | some v => do
    let y ← rewriteWith rewriter cache.look v
    pure (Function.update cache x (some y))
  | none => pure cache

theorem look_update (cache : Cache) (x y : NodeId) :
    Cache.look (Function.update cache x (some y)) = Function.update cache.look x y := by
  funext z
  by_cases same : z = x
  · subst same
    rw [Cache.look, Function.update_self, Function.update_self, Option.getD_some]
  · rw [Cache.look, Function.update_of_ne same, Function.update_of_ne same, Cache.look]

theorem foldlM_look {α : Type} (rewriter : RewriteT ε σ E) (nodes : List (Expr E))
    (order : List NodeId) (cache : Cache) (f : (NodeId → NodeId) → StateT σ (Exec ε) α) :
    (order.foldlM (cachedStep rewriter nodes) cache >>= fun cache => f cache.look) =
      order.foldlM (rewriteStep rewriter nodes) cache.look >>= f := by
  induction order generalizing cache with
  | nil => rfl
  | cons x order ih =>
    rw [List.foldlM_cons, List.foldlM_cons, bind_assoc, bind_assoc, cachedStep, rewriteStep]
    cases nodes[x]? with
    | none => exact ih cache
    | some v =>
      simp only [bind_assoc, pure_bind]
      exact bind_congr fun y => (ih _).trans (by rw [look_update])

/-- The nodes of the cache. -/
def Cache.Holds (cache : Cache) (done : List NodeId) : Prop := ∀ x, (cache x).isSome ↔ x ∈ done

theorem bind_congr_of_returns {α β : Type} {m : StateT σ (Exec ε) α} (post : α → Prop)
    (returns : ∀ {s a s'}, m.run s = .ok (a, s') → post a) {f g : α → StateT σ (Exec ε) β}
    (same : ∀ a, post a → f a = g a) : m >>= f = m >>= g := by
  ext s
  rw [StateT.run_bind, StateT.run_bind]
  rcases ran : m.run s with fault | ⟨a, s'⟩
  · rfl
  · rw [ok_bind, ok_bind, same a (returns ran)]

theorem holds_foldlM {rewriter : RewriteT ε σ E} {order : List NodeId}
    (inside : ∀ x ∈ order, x < nodes.length) {cache' : Cache} {done : List NodeId}
    (holds : cache.Holds done) {s s' : σ}
    (ran : (order.foldlM (cachedStep rewriter nodes) cache).run s = .ok (cache', s')) :
    cache'.Holds (order.reverse ++ done) := by
  induction order generalizing cache done s with
  | nil =>
    obtain ⟨rfl, -⟩ := Prod.mk.inj (Except.ok.inj ran)
    exact holds
  | cons x order ih =>
    have found := List.getElem?_eq_getElem (inside x List.mem_cons_self)
    rw [List.foldlM_cons, cachedStep, found, StateT.run_bind, bind_eq_ok] at ran
    obtain ⟨⟨cache₁, s₁⟩, first, later⟩ := ran
    rw [StateT.run_bind, bind_eq_ok] at first
    obtain ⟨⟨y, s₂⟩, _, last⟩ := first
    obtain ⟨rfl, rfl⟩ := Prod.mk.inj (Except.ok.inj last)
    have holds₁ : Cache.Holds (Function.update cache x (some y)) (x :: done) := by
      intro z
      by_cases same : z = x
      · simp [same]
      · rw [Function.update_of_ne same, holds z, List.mem_cons, or_iff_right same]
    have final := ih (fun z member => inside z (List.mem_cons_of_mem _ member)) holds₁ later
    rwa [List.reverse_cons, List.append_assoc]

/-! ### The nodes that are done -/

/-- The nodes that are done, the last one first: each is done once, after the nodes it refers to. -/
def Postorder (nodes : List (Expr E)) : List NodeId → Prop
  | [] => True
  | x :: earlier =>
    x ∉ earlier ∧ (∃ v, nodes[x]? = some v ∧ ∀ c ∈ v.children, c ∈ earlier) ∧
      Postorder nodes earlier

variable {roots done new : List NodeId} {x : NodeId}

theorem Postorder.nodup (ordered : Postorder nodes done) : done.Nodup := by
  induction done with
  | nil => exact List.nodup_nil
  | cons x done ih => exact List.nodup_cons.mpr ⟨ordered.1, ih ordered.2.2⟩

theorem Postorder.of_append (ordered : Postorder nodes (new ++ done)) : Postorder nodes done := by
  induction new with
  | nil => exact ordered
  | cons x new ih => exact ih ordered.2.2

theorem Postorder.inside (ordered : Postorder nodes done) : ∀ x ∈ done, x < nodes.length := by
  induction done with
  | nil => exact fun x member => absurd member List.not_mem_nil
  | cons x done ih =>
    refine List.forall_mem_cons.mpr ⟨?_, ih ordered.2.2⟩
    obtain ⟨v, found, _⟩ := ordered.2.1
    exact (List.getElem?_eq_some_iff.mp found).choose

theorem Postorder.closed (ordered : Postorder nodes done) {v : Expr E} (member : x ∈ done)
    (found : nodes[x]? = some v) : ∀ c ∈ v.children, c ∈ done := by
  intro c child
  obtain ⟨after, before, rfl⟩ := List.append_of_mem member
  obtain ⟨_, ⟨v', found', below⟩, _⟩ := ordered.of_append
  obtain rfl := Option.some.inj (found.symm.trans found')
  exact List.mem_append_right _ (List.mem_cons_of_mem _ (below c child))

theorem Below.trans {roots' : List NodeId} (above : ∀ r ∈ roots, Below nodes roots' r)
    (below : Below nodes roots x) : Below nodes roots' x := by
  induction below with
  | root member => exact above _ member
  | child _ found member ih => exact .child ih found member

theorem Postorder.inOrder (ordered : Postorder nodes done) (all : ∀ r ∈ roots, r ∈ done)
    (only : ∀ x ∈ done, Below nodes roots x) : InOrder nodes roots done.reverse where
  once := List.nodup_reverse.mpr ordered.nodup
  reached x := by
    rw [List.mem_reverse]
    refine ⟨only x, fun below => ?_⟩
    induction below with
    | root member => exact all _ member
    | child _ found member ih => exact ordered.closed ih found _ member
  childrenFirst {before after x v} split found c member := by
    have whole : done = after.reverse ++ x :: before.reverse := by
      rw [← List.reverse_reverse done, split]
      simp
    obtain ⟨_, ⟨v', found', below⟩, _⟩ := (whole ▸ ordered).of_append
    obtain rfl := Option.some.inj (found.symm.trans found')
    exact List.mem_reverse.mp (below c member)

/-! ### Visits -/

/-- From a state in which the nodes `done` are done, the loop does the nodes `new` for the stack
`top`, in `k` steps, and goes on with what is below on the stack. -/
def Runs (nodes : List (Expr E)) (top : Stack → Stack) (done new : List NodeId) (k : Nat) : Prop :=
  ∀ {ε σ : Type} (rewriter : RewriteT ε σ E) (fuel : Nat) {cache : Cache} (stack : Stack),
    cache.Holds done →
      walkLoop (fun _ => rewriter) nodes (fuel + k) cache (top stack) =
        new.reverse.foldlM (cachedStep rewriter nodes) cache >>= fun cache =>
          walkLoop (fun _ => rewriter) nodes fuel cache stack

/-- The nodes at or below `roots` can be done after any others. -/
def CanRun (nodes : List (Expr E)) (top : Stack → Stack) (roots : List NodeId) : Prop :=
  ∀ {done : List NodeId}, Postorder nodes done → ∃ new k, Postorder nodes (new ++ done) ∧
    (∀ r ∈ roots, r ∈ new ++ done) ∧ (∀ y ∈ new, Below nodes roots y) ∧
    Runs nodes top done new k

/-- **Visiting some nodes**, the last one first. -/
theorem runs_visits {xs : List NodeId}
    (each : ∀ x ∈ xs, CanRun nodes (fun stack => (x, false) :: stack) [x]) :
    CanRun nodes (pushAll xs) xs := by
  induction xs with
  | nil => exact fun {done} ordered => ⟨[], 0, ordered, by simp, by simp, fun _ _ _ _ _ => rfl⟩
  | cons x xs ih =>
    intro done ordered
    obtain ⟨new₁, k₁, ordered₁, all₁, only₁, runs₁⟩ :=
      ih (fun y member => each y (List.mem_cons_of_mem _ member)) ordered
    obtain ⟨new₂, k₂, ordered₂, all₂, only₂, runs₂⟩ := each x List.mem_cons_self ordered₁
    refine ⟨new₂ ++ new₁, k₂ + k₁, by rwa [List.append_assoc], fun r member => ?_,
      fun y member => ?_, fun {ε σ} rewriter fuel {cache} stack holds => ?_⟩
    · rw [List.append_assoc]
      rcases List.mem_cons.mp member with rfl | later
      · exact all₂ _ (List.mem_singleton_self _)
      · exact List.mem_append_right _ (all₁ r later)
    · rcases List.mem_append.mp member with last | first
      · refine (only₂ y last).trans fun r here => ?_
        rw [List.mem_singleton.mp here]
        exact .root List.mem_cons_self
      · exact (only₁ y first).trans fun r here => .root (List.mem_cons_of_mem _ here)
    · have inside : ∀ z ∈ new₁.reverse, z < nodes.length := fun z member =>
        ordered₁.inside z (List.mem_append_left _ (List.mem_reverse.mp member))
      rw [← Nat.add_assoc, List.reverse_append, List.foldlM_append, bind_assoc]
      refine (runs₁ rewriter (fuel + k₂) ((x, false) :: stack) holds).trans ?_
      refine bind_congr_of_returns (fun cache => cache.Holds (new₁ ++ done)) (fun ran => ?_)
        fun cache' holds' => runs₂ rewriter fuel stack holds'
      simpa using holds_foldlM inside holds ran

variable (descends : ∀ {i : NodeId} {v : Expr E}, nodes[i]? = some v → ∀ c ∈ v.children, c < i)
include descends

/-- **Visiting a node**, by induction on its number. -/
theorem runs_visit (bound : x < nodes.length) :
    CanRun nodes (fun stack => (x, false) :: stack) [x] := by
  induction x using Nat.strong_induction_on with
  | _ x ih =>
    intro done ordered
    by_cases old : x ∈ done
    · refine ⟨[], 1, ordered, by simpa using old, by simp, fun rewriter fuel cache stack holds => ?_⟩
      rw [walkLoop, if_pos ((holds x).mpr old)]
      rfl
    have found := List.getElem?_eq_getElem bound
    generalize nodes[x] = v at found
    obtain ⟨new, k, ordered', all, only, runs⟩ := runs_visits
      (fun c member => ih c (descends found c member) ((descends found c member).trans bound))
      ordered
    -- The nodes below have smaller numbers.
    have smaller : ∀ y, Below nodes v.children y → y < x := by
      intro y below
      induction below with
      | root member => exact descends found _ member
      | child _ found' member ih' => exact (descends found' _ member).trans ih'
    have fresh : x ∉ new ++ done := by
      rw [List.mem_append, not_or]
      exact ⟨fun member => absurd (smaller x (only x member)) (lt_irrefl x), old⟩
    refine ⟨x :: new, k + 2, ⟨fresh, ⟨v, found, all⟩, ordered'⟩, by simp, fun y member => ?_,
      fun {ε σ} rewriter fuel {cache} stack holds => ?_⟩
    · rcases List.mem_cons.mp member with rfl | below
      · exact .root (List.mem_singleton_self _)
      · exact (only y below).trans fun c child => .child (.root (List.mem_singleton_self _))
          found child
    · have read : (liftM (getAt nodes x : Exec ε (Expr E)) : StateT σ (Exec ε) (Expr E)) =
          pure v := by
        rw [getAt_eq_ok.mpr found]
        rfl
      have unseen : ∀ {cache : Cache} {done : List NodeId}, cache.Holds done → x ∉ done →
          ¬(cache x).isSome := fun holds out seen => out ((holds x).mp seen)
      have inside : ∀ z ∈ new.reverse, z < nodes.length := fun z member =>
        ordered'.inside z (List.mem_append_left _ (List.mem_reverse.mp member))
      rw [show fuel + (k + 2) = fuel + 1 + k + 1 by omega, walkLoop, if_neg (unseen holds old), read,
        pure_bind]
      simp only [Bool.false_eq_true, if_false]
      rw [List.reverse_cons, List.foldlM_append, bind_assoc]
      refine (runs rewriter (fuel + 1) ((x, true) :: stack) holds).trans ?_
      refine bind_congr_of_returns (fun cache => cache.Holds (new ++ done)) (fun ran => ?_)
        fun cache' holds' => ?_
      · simpa using holds_foldlM inside holds ran
      · have isSome : ∀ c ∈ v.children, (cache' c).isSome := fun c child =>
          (holds' c).mpr (all c child)
        rw [walkLoop, if_neg (unseen holds' fresh), read, pure_bind, if_pos rfl,
          rewriteNode_eq rewriter isSome, List.foldlM_cons, cachedStep, found]
        simp only [List.foldlM_nil, bind_assoc, pure_bind]

/-- **A walk** goes through one order of the nodes below the roots, each once and after the nodes it
refers to, whatever the pass does. -/
theorem walk_inOrder {assertions : List AssertionItem}
    (bounds : ∀ item ∈ assertions, item.expr < nodes.length) :
    ∃ order enough, InOrder nodes (assertions.map AssertionItem.expr) order ∧
      ∀ {ε σ : Type} (rewriter : RewriteT ε σ E) (fuel : Nat), enough ≤ fuel →
        walk (fun _ => rewriter) fuel nodes assertions =
          rewriteInOrder rewriter nodes order assertions := by
  have each : ∀ x ∈ assertions.map AssertionItem.expr,
      CanRun nodes (fun stack => (x, false) :: stack) [x] := by
    intro x member
    obtain ⟨item, listed, rfl⟩ := List.mem_map.mp member
    exact runs_visit descends (bounds item listed)
  have nothing : Postorder nodes [] := trivial
  obtain ⟨new, k, ordered, all, only, runs⟩ := runs_visits each nothing
  rw [List.append_nil] at ordered all
  refine ⟨new.reverse, k + 1, ordered.inOrder all only, fun {ε σ} rewriter fuel enough => ?_⟩
  obtain ⟨rest, rfl⟩ := Nat.exists_eq_add_of_le enough
  have empty : Cache.Holds (fun _ => none) [] := by simp [Cache.Holds]
  have inside : ∀ z ∈ new.reverse, z < nodes.length := fun z member =>
    ordered.inside z (List.mem_reverse.mp member)
  have whole : walkCache (fun _ => rewriter) (k + 1 + rest) nodes assertions =
      new.reverse.foldlM (cachedStep rewriter nodes) fun _ => none := by
    rw [walkCache, show k + 1 + rest = rest + 1 + k by omega, runs rewriter (rest + 1) [] empty]
    refine (bind_congr fun cache => ?_).trans (bind_pure _)
    rw [walkLoop]
  rw [walk, whole, rewriteInOrder]
  refine Eq.trans ?_ (foldlM_look rewriter nodes new.reverse (fun _ => none) fun look =>
    pure (assertions.map fun item => (⟨look item.expr, item.id⟩ : AssertionItem)))
  refine bind_congr_of_returns (fun cache => cache.Holds new) (fun ran => ?_) fun cache holds => ?_
  · simpa using holds_foldlM inside empty ran
  · exact mapM_roots fun item member => (holds _).mpr (all _ (List.mem_map_of_mem member))

end Longfellow.Compile
