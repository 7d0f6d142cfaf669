/-
**Trees in prefix order.**

A tree is written as its symbol followed by its children. When the symbol says how many children
there are, nothing else is needed to read the trees back. A reader only has to count, at every
level, how many trees are still to come.

* `Forest.symbols_injective` — **trees of ranked symbols are determined by their symbols**;
* `Forest.visits` — the symbols in order, each with its level and with what is still to come.
-/

import Mathlib.Data.List.Forall2
import Mathlib.Order.SuccPred.Archimedean

namespace Lib

/-- A sequence of trees: the symbol of the first one, its children, and the trees after it. -/
inductive Forest (α : Type) where
  | nil
  | node (symbol : α) (children rest : Forest α)
  deriving DecidableEq

variable {α G : Type}

namespace Forest

/-- The number of trees. -/
def length : Forest α → ℕ
  | nil => 0
  | node _ _ rest => rest.length + 1

/-- The symbols in prefix order. -/
def symbols : Forest α → List α
  | nil => []
  | node a children rest => a :: (children.symbols ++ rest.symbols)

/-- Every symbol has as many children as it says. -/
def Ranked (arity : α → ℕ) : Forest α → Prop
  | nil => True
  | node a children rest => children.length = arity a ∧ children.Ranked arity ∧ rest.Ranked arity

/-- No symbol with children, and no symbol that could have some, is at the last level. -/
def Nested (opens : α → Bool) (limit : ℕ) : ℕ → Forest α → Prop
  | _, nil => True
  | level, node a children rest =>
    (opens a = true → level + 1 < limit) ∧ Nested opens limit (level + 1) children ∧
      Nested opens limit level rest

/-- The number of levels. -/
def height : Forest α → ℕ
  | nil => 0
  | node _ children rest => max (children.height + 1) rest.height

/-- The room that the symbols take. -/
def width (size : α → ℕ) : Forest α → ℕ
  | nil => 0
  | node a children rest => size a + children.width size + rest.width size

variable {arity size : α → ℕ} {level : ℕ}

@[simp] theorem length_nil : (nil : Forest α).length = 0 := rfl

@[simp] theorem width_nil : (nil : Forest α).width size = 0 := rfl

theorem length_eq_zero {f : Forest α} : f.length = 0 ↔ f = nil := by
  cases f with
  | nil => exact ⟨fun _ => rfl, fun _ => rfl⟩
  | node a children rest => exact ⟨fun none => absurd none (Nat.succ_ne_zero _), nofun⟩

theorem length_le_symbols (f : Forest α) : f.length ≤ f.symbols.length := by
  induction f with
  | nil => exact Nat.zero_le _
  | node a children rest _ ih =>
    rw [length, symbols, List.length_cons, List.length_append]
    omega

/-! ### Reading the trees back -/

theorem symbols_append_injective {f g : Forest α} (left : f.Ranked arity) (right : g.Ranked arity)
    (count : f.length = g.length) {xs ys : List α} (same : f.symbols ++ xs = g.symbols ++ ys) :
    f = g ∧ xs = ys := by
  induction f generalizing g xs ys with
  | nil =>
    obtain rfl : g = nil := length_eq_zero.mp count.symm
    exact ⟨rfl, same⟩
  | node a children rest ihChildren ihRest =>
    cases g with
    | nil => exact absurd count (Nat.succ_ne_zero _)
    | node b children' rest' =>
      rw [symbols, symbols, List.cons_append, List.cons_append, List.append_assoc,
        List.append_assoc] at same
      obtain ⟨rfl, tail⟩ := List.cons.inj same
      have arities : children.length = children'.length := left.1.trans right.1.symm
      obtain ⟨rfl, later⟩ := ihChildren left.2.1 right.2.1 arities tail
      obtain ⟨rfl, behind⟩ := ihRest left.2.2 right.2.2 (Nat.succ.inj count) later
      exact ⟨rfl, behind⟩

theorem codes_injective {β : Type} {code : α → List β} (some : ∀ a, code a ≠ [])
    (split : ∀ {a b xs ys}, code a ++ xs = code b ++ ys → a = b ∧ xs = ys) {as bs : List α}
    (same : as.flatMap code = bs.flatMap code) : as = bs := by
  induction as generalizing bs with
  | nil =>
    cases bs with
    | nil => rfl
    | cons b bs => exact absurd (List.append_eq_nil_iff.mp same.symm).1 (some b)
  | cons a as ih =>
    cases bs with
    | nil => exact absurd (List.append_eq_nil_iff.mp same).1 (some a)
    | cons b bs =>
      rw [List.flatMap_cons, List.flatMap_cons] at same
      obtain ⟨rfl, rest⟩ := split same
      rw [ih rest]

/-- **Trees of ranked symbols are determined by their symbols.** -/
theorem symbols_injective {f g : Forest α} (left : f.Ranked arity) (right : g.Ranked arity)
    (same : f.symbols = g.symbols) : f = g := by
  induction f generalizing g with
  | nil =>
    cases g with
    | nil => rfl
    | node b children rest => cases same
  | node a children rest _ ih =>
    cases g with
    | nil => cases same
    | node b children' rest' =>
      obtain ⟨rfl, tail⟩ := List.cons.inj same
      have arities : children.length = children'.length := left.1.trans right.1.symm
      obtain ⟨rfl, later⟩ := symbols_append_injective left.2.1 right.2.1 arities tail
      rw [ih left.2.2 right.2.2 later]

/-! ### Visits -/

/-- A symbol in its place: its children, where it starts, the level it is at, and the number of
trees still to come behind the symbol at each level. -/
structure Visit (α : Type) where
  symbol : α
  children : Forest α
  start : ℕ
  level : ℕ
  later : ℕ → ℕ

/-- The symbols in order, when they start at a place and a level, and other trees are still to
come at the levels outside. -/
def visits (size : α → ℕ) : Forest α → ℕ → ℕ → (ℕ → ℕ) → List (Visit α)
  | nil, _, _, _ => []
  | node a children rest, start, level, outer =>
    let now := Function.update outer level rest.length
    ⟨a, children, start, level, Function.update now (level + 1) children.length⟩ ::
      (children.visits size (start + size a) (level + 1) now ++
        rest.visits size (start + size a + children.width size) level outer)

theorem map_symbol_visits (f : Forest α) (start level : ℕ) (outer : ℕ → ℕ) :
    (f.visits size start level outer).map Visit.symbol = f.symbols := by
  induction f generalizing start level outer with
  | nil => rfl
  | node a children rest ihChildren ihRest =>
    rw [visits, symbols, List.map_cons, List.map_append, ihChildren, ihRest]

theorem later_le (f : Forest α) {start : ℕ} {outer : ℕ → ℕ} {v : Visit α}
    (member : v ∈ f.visits size start level outer) (l : ℕ) :
    v.later l ≤ outer l ∨ v.later l < f.symbols.length := by
  induction f generalizing start level outer with
  | nil => cases member
  | node a children rest ihChildren ihRest =>
    rw [symbols, List.length_cons, List.length_append]
    have few := rest.length_le_symbols
    have now : Function.update outer level rest.length l ≤ outer l ∨
        Function.update outer level rest.length l ≤ rest.symbols.length := by
      by_cases same : l = level
      · subst same
        rw [Function.update_self]
        exact .inr few
      · rw [Function.update_of_ne same]
        exact .inl le_rfl
    rcases List.mem_cons.mp member with rfl | member
    · show Function.update (Function.update outer level rest.length) (level + 1) children.length l ≤
          outer l ∨
        Function.update (Function.update outer level rest.length) (level + 1) children.length l <
          children.symbols.length + rest.symbols.length + 1
      have some := children.length_le_symbols
      by_cases inner : l = level + 1
      · subst inner
        rw [Function.update_self]
        exact .inr (by omega)
      · rw [Function.update_of_ne inner]
        exact now.imp_right fun bound => by omega
    · rcases List.mem_append.mp member with member | member
      · rcases ihChildren member with before | among
        · exact now.imp before.trans fun bound => by omega
        · exact .inr (by omega)
      · exact (ihRest member).imp_right fun bound => by omega

end Forest

open Forest

/-! ### Trees at all levels -/

variable {arity size : α → ℕ} {F F' : ℕ → Forest α}

/-- The trees to come at the levels below one. -/
def below (F : ℕ → Forest α) (level : ℕ) : ℕ → ℕ := fun l => if l < level then (F l).length else 0

/-- The symbols still to come, when the trees at inner levels come first. -/
def visitsFrom (size : α → ℕ) (F : ℕ → Forest α) : ℕ → ℕ → List (Visit α)
  | 0, _ => []
  | level + 1, start =>
    (F level).visits size start level (below F level) ++
      visitsFrom size F level (start + (F level).width size)

/-- The trees still to come before a symbol was read at a level, from those after it. -/
def push (F : ℕ → Forest α) (level : ℕ) (a : α) : ℕ → Forest α :=
  Function.update (Function.update F level (.node a (F (level + 1)) (F level))) (level + 1) .nil

theorem push_same (F : ℕ → Forest α) (level : ℕ) (a : α) :
    push F level a level = .node a (F (level + 1)) (F level) := by
  rw [push, Function.update_of_ne (Nat.succ_ne_self level).symm, Function.update_self]

theorem push_inner (F : ℕ → Forest α) (level : ℕ) (a : α) : push F level a (level + 1) = .nil :=
  Function.update_self ..

theorem push_other {l : ℕ} (same : l ≠ level) (inner : l ≠ level + 1) (a : α) :
    push F level a l = F l := by
  rw [push, Function.update_of_ne inner, Function.update_of_ne same]

theorem below_congr (agree : ∀ l < level, F l = F' l) : below F level = below F' level := by
  funext l
  unfold below
  by_cases inside : l < level
  · rw [if_pos inside, if_pos inside, agree l inside]
  · rw [if_neg inside, if_neg inside]

theorem below_succ (F : ℕ → Forest α) (level : ℕ) :
    Function.update (below F level) level (F level).length = below F (level + 1) := by
  funext l
  by_cases same : l = level
  · subst same
    rw [Function.update_self, below, if_pos (Nat.lt_succ_self l)]
  · rw [Function.update_of_ne same]
    unfold below
    by_cases inside : l < level
    · rw [if_pos inside, if_pos (Nat.lt_succ_of_lt inside)]
    · rw [if_neg inside, if_neg (by omega)]

theorem visitsFrom_congr {levels : ℕ} (agree : ∀ l < levels, F l = F' l) (start : ℕ) :
    visitsFrom size F levels start = visitsFrom size F' levels start := by
  induction levels generalizing start with
  | zero => rfl
  | succ level ih =>
    have inner : ∀ l < level, F l = F' l := fun l inside => agree l (Nat.lt_succ_of_lt inside)
    rw [visitsFrom, visitsFrom, agree level (Nat.lt_succ_self level), below_congr inner, ih inner]

theorem visitsFrom_of_nil {few many : ℕ} (more : few ≤ many) (none : ∀ l, few ≤ l → F l = .nil)
    (start : ℕ) : visitsFrom size F many start = visitsFrom size F few start := by
  induction many, more using Nat.le_induction with
  | base => rfl
  | succ level reached ih =>
    rw [visitsFrom, none level reached]
    exact ih

/-- **One symbol earlier**: the symbol is visited, then everything that is still to come. -/
theorem visitsFrom_push {levels : ℕ} (inside : level + 2 ≤ levels)
    (none : ∀ l, level + 2 ≤ l → F l = .nil) (a : α) (start : ℕ) :
    visitsFrom size (push F level a) levels start =
      ⟨a, F (level + 1), start, level, fun l => (F l).length⟩ ::
        visitsFrom size F levels (start + size a) := by
  have none' : ∀ l, level + 2 ≤ l → push F level a l = .nil := by
    intro l far
    rw [push_other (by omega) (by omega), none l far]
  have outer : ∀ l < level, push F level a l = F l := fun l near =>
    push_other (by omega) (by omega) a
  have later : below F (level + 2) = fun l => (F l).length := by
    funext l
    unfold below
    by_cases near : l < level + 2
    · rw [if_pos near]
    · rw [if_neg near, none l (by omega), length_nil]
  rw [visitsFrom_of_nil inside none', visitsFrom_of_nil inside none]
  show visitsFrom size (push F level a) (level + 1 + 1) start =
    _ :: visitsFrom size F (level + 1 + 1) (start + size a)
  simp only [visitsFrom]
  rw [push_inner, push_same, below_congr outer, visitsFrom_congr outer]
  rw [Forest.visits, Forest.visits, width_nil, width, below_succ, below_succ, later]
  simp only [List.nil_append, List.cons_append, List.append_assoc, Nat.add_zero]
  rw [← Nat.add_assoc start, ← Nat.add_assoc start]

/-! ### Counters -/

/-- What a reader that counts has seen of a symbol: the symbol, where it starts, the level it was
counted at, and the counters after it. -/
structure Counted (α G : Type) where
  symbol : α
  start : ℕ
  level : ℕ
  after : ℕ → G

/-- The step from the counters before a symbol to those after it. Counters may hold the numbers
in another form. -/
structure Counted.Follows (ι : ℕ → G) (arity : α → ℕ) (opens : α → Bool) (limit : ℕ)
    (before : ℕ → G) (c : Counted α G) : Prop where
  inside : c.level < limit
  counts : ∀ n, c.after c.level = ι n → before c.level = ι (n + 1)
  innermost : ∀ l < limit, c.level < l → before l = ι 0
  children : ∀ l < limit, l = c.level + 1 → c.after l = ι (arity c.symbol)
  nests : opens c.symbol = true → c.level + 1 < limit
  same : ∀ l < limit, l ≠ c.level → l ≠ c.level + 1 → c.after l = before l

/-- The symbols were counted one after the other, and in the end nothing is to come. -/
inductive Chain (ι : ℕ → G) (arity : α → ℕ) (opens : α → Bool) (size : α → ℕ) (limit : ℕ) :
    ℕ → (ℕ → G) → List (Counted α G) → Prop
  | done {start : ℕ} {before : ℕ → G} (empty : ∀ l < limit, before l = ι 0) :
      Chain ι arity opens size limit start before []
  | step {before : ℕ → G} {c : Counted α G} {cs : List (Counted α G)}
      (follows : c.Follows ι arity opens limit before)
      (chain : Chain ι arity opens size limit (c.start + size c.symbol) c.after cs) :
      Chain ι arity opens size limit c.start before (c :: cs)

/-- The counters hold what a visit says. -/
structure Counted.Matches (ι : ℕ → G) (limit : ℕ) (v : Visit α) (c : Counted α G) : Prop where
  symbol : v.symbol = c.symbol
  start : v.start = c.start
  level : v.level = c.level
  after : ∀ l < limit, c.after l = ι (v.later l)

/-- **Counters that run out have counted trees.** The counters need to tell numbers apart only up
to the number of symbols and up to the arities. -/
theorem exists_levels {ι : ℕ → G} {opens : α → Bool} {limit start : ℕ} {before : ℕ → G}
    {cs : List (Counted α G)} (chain : Chain ι arity opens size limit start before cs)
    (leaves : ∀ a, opens a = false → arity a = 0)
    (apart : ∀ n ≤ cs.length, ∀ c ∈ cs, ι n = ι (arity c.symbol) → n = arity c.symbol)
    (positive : ∀ n ≤ cs.length, ι n = ι 0 → n = 0) :
    ∃ F : ℕ → Forest α, (∀ l < limit, before l = ι (F l).length) ∧ (∀ l, limit ≤ l → F l = .nil) ∧
      (∀ l, (F l).Ranked arity ∧ (F l).Nested opens limit l) ∧ (∀ l, (F l).length ≤ cs.length) ∧
      List.Forall₂ (Counted.Matches ι limit) (visitsFrom size F (limit + 1) start) cs := by
  induction chain with
  | @done start before empty =>
    have none : visitsFrom size (fun _ => (.nil : Forest α)) (limit + 1) start = [] :=
      visitsFrom_of_nil (Nat.zero_le _) (fun _ _ => rfl) start
    refine ⟨fun _ => .nil, empty, fun _ _ => rfl, fun _ => ⟨trivial, trivial⟩,
      fun _ => Nat.zero_le _, ?_⟩
    rw [none]
    exact .nil
  | @step before c cs follows _ ih =>
    obtain ⟨F, lengths, above, ranked, few, matched⟩ := ih
      (fun n within d member => apart n (by rw [List.length_cons]; omega) d
        (List.mem_cons_of_mem _ member))
      (fun n within => positive n (by rw [List.length_cons]; omega))
    -- No trees are to come at the levels that the symbol could not reach.
    have none : ∀ l, c.level + 2 ≤ l → F l = .nil := by
      intro l far
      by_cases inside : l < limit
      · refine length_eq_zero.mp (positive _ ((few l).trans (Nat.le_succ _)) ?_)
        rw [← lengths l inside, follows.same l inside (by omega) (by omega),
          follows.innermost l inside (by omega)]
      · exact above l (by omega)
    have children : (F (c.level + 1)).length = arity c.symbol := by
      by_cases inside : c.level + 1 < limit
      · refine apart _ ((few _).trans (Nat.le_succ _)) c List.mem_cons_self ?_
        rw [← lengths _ inside, follows.children _ inside rfl]
      · have leaf : opens c.symbol = false := by
          cases case : opens c.symbol with
          | false => rfl
          | true => exact absurd (follows.nests case) inside
        rw [above _ (by omega), leaves _ leaf, length_nil]
    refine ⟨push F c.level c.symbol, fun l inside => ?_, fun l outside => ?_, fun l => ?_,
      fun l => ?_, ?_⟩
    · by_cases same : l = c.level
      · subst same
        rw [push_same]
        exact follows.counts _ (lengths _ inside)
      by_cases inner : l = c.level + 1
      · subst inner
        rw [push_inner]
        exact follows.innermost _ inside (Nat.lt_succ_self _)
      · rw [push_other same inner, ← lengths l inside, follows.same l inside same inner]
    · have far := follows.inside
      by_cases inner : l = c.level + 1
      · rw [inner, push_inner]
      · rw [push_other (by omega) inner, above l outside]
    · by_cases same : l = c.level
      · subst same
        rw [push_same]
        exact ⟨⟨children, (ranked _).1, (ranked _).1⟩, follows.nests, (ranked _).2, (ranked _).2⟩
      by_cases inner : l = c.level + 1
      · rw [inner, push_inner]
        exact ⟨trivial, trivial⟩
      · rw [push_other same inner]
        exact ranked l
    · rw [List.length_cons]
      by_cases same : l = c.level
      · subst same
        rw [push_same]
        exact Nat.succ_le_succ (few _)
      by_cases inner : l = c.level + 1
      · rw [inner, push_inner]
        exact Nat.zero_le _
      · rw [push_other same inner]
        exact (few l).trans (Nat.le_succ _)
    · rw [visitsFrom_push (by have := follows.inside; omega) none]
      exact .cons ⟨rfl, rfl, rfl, fun l inside => lengths l inside⟩ matched

end Lib
