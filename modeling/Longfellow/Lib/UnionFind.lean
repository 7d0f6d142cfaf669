/-
**Union-find.**

A parent function makes a forest: every element climbs through its parents to a root, an element
that is its own parent. The classes of a forest are the elements of one root. Two changes are
allowed: an element may be hung below its own root, and a root may be hung below another root.

* `hasRoot_hang_iff` — **hanging an element below its own root changes no root**, and makes no climb
  longer.
-/

import Mathlib.Data.Finset.Card

namespace Lib

variable {α : Type} {parent' : α → α} {parent : α → α} {related : α → α → Prop}

/-- After `n` steps up from `x` there is the root `r`, and no root before it. -/
inductive Climbs (parent : α → α) : ℕ → α → α → Prop where
  | root {r : α} (top : parent r = r) : Climbs parent 0 r r
  | step {n : ℕ} {x r : α} (moves : parent x ≠ x) (rest : Climbs parent n (parent x) r) :
      Climbs parent (n + 1) x r

/-- `r` is the root of `x`. -/
def HasRoot (parent : α → α) (x r : α) : Prop := ∃ n, Climbs parent n x r

/-- Everything has a root. -/
def Grounded (parent : α → α) : Prop := ∀ x, ∃ r, HasRoot parent x r

/-- The elements are in one class. -/
def SameRoot (parent : α → α) (x y : α) : Prop := ∃ r, HasRoot parent x r ∧ HasRoot parent y r

/-! ### Climbs -/

section Climbs

variable {n m : ℕ} {x y r r' : α}

section

variable (climbs : Climbs parent n x r)
include climbs

theorem Climbs.top : parent r = r := by
  induction climbs with
  | root top => exact top
  | step _ _ ih => exact ih

theorem Climbs.unique (climbs' : Climbs parent m x r') :
    n = m ∧ r = r' := by
  induction climbs generalizing m with
  | root top =>
    cases climbs' with
    | root => exact ⟨rfl, rfl⟩
    | step moves => exact absurd top moves
  | step moves _ ih =>
    cases climbs' with
    | root top => exact absurd top moves
    | step _ rest =>
      obtain ⟨same, root⟩ := ih rest
      exact ⟨by rw [same], root⟩

theorem Climbs.iterate {i : ℕ} (upTo : i ≤ n) :
    Climbs parent (n - i) (parent^[i] x) r := by
  induction i generalizing n x with
  | zero => exact climbs
  | succ i ih =>
    cases climbs with
    | root => omega
    | step _ rest =>
      rw [Nat.add_sub_add_right, Function.iterate_succ_apply]
      exact ih rest (by omega)

theorem Climbs.lt_card {s : Finset α} (closed : ∀ y ∈ s, parent y ∈ s) (member : x ∈ s) :
    n < s.card := by
  have inside : ∀ i, parent^[i] x ∈ s := by
    intro i
    induction i with
    | zero => exact member
    | succ i ih =>
      rw [Function.iterate_succ_apply']
      exact closed _ ih
  have apart : Set.InjOn (fun i => parent^[i] x) (Finset.range (n + 1)) := by
    intro i hi j hj same
    simp only [Finset.coe_range, Set.mem_Iio] at hi hj
    have depth := climbs.iterate (show i ≤ n by omega)
    rw [show parent^[i] x = parent^[j] x from same] at depth
    have := (depth.unique (climbs.iterate (show j ≤ n by omega))).1
    omega
  have count := Finset.card_le_card_of_injOn _ (fun i _ => inside i) apart
  rwa [Finset.card_range] at count

end

theorem HasRoot.unique (root : HasRoot parent x r) (root' : HasRoot parent x r') : r = r' := by
  obtain ⟨n, climbs⟩ := root
  obtain ⟨m, climbs'⟩ := root'
  exact (climbs.unique climbs').2

theorem HasRoot.top (root : HasRoot parent x r) : parent r = r := root.choose_spec.top

theorem hasRoot_self (top : parent r = r) : HasRoot parent r r := ⟨0, .root top⟩

theorem HasRoot.self (root : HasRoot parent x r) : HasRoot parent r r := hasRoot_self root.top

theorem hasRoot_parent_iff : HasRoot parent (parent x) r ↔ HasRoot parent x r := by
  by_cases top : parent x = x
  · rw [top]
  · constructor
    · rintro ⟨n, climbs⟩
      exact ⟨n + 1, .step top climbs⟩
    · rintro ⟨n, climbs⟩
      cases climbs with
      | root root => exact absurd root top
      | step _ rest => exact ⟨_, rest⟩

end Climbs

/-! ### Classes -/

section Classes

variable {x y z r : α}

theorem SameRoot.symm (same : SameRoot parent x y) : SameRoot parent y x := by
  obtain ⟨r, left, right⟩ := same
  exact ⟨r, right, left⟩

theorem SameRoot.trans (same : SameRoot parent x y) (same' : SameRoot parent y z) :
    SameRoot parent x z := by
  obtain ⟨r, left, middle⟩ := same
  obtain ⟨r', middle', right⟩ := same'
  exact ⟨r, left, middle.unique middle' ▸ right⟩

theorem Grounded.refl (grounded : Grounded parent) (x : α) : SameRoot parent x x := by
  obtain ⟨r, root⟩ := grounded x
  exact ⟨r, root, root⟩

theorem HasRoot.sameRoot_iff (root : HasRoot parent x r) :
    SameRoot parent x y ↔ HasRoot parent y r := by
  constructor
  · rintro ⟨r', root', other⟩
    exact root.unique root' ▸ other
  · exact fun other => ⟨r, root, other⟩

theorem HasRoot.sameRoot (root : HasRoot parent x r) : SameRoot parent x r :=
  root.sameRoot_iff.mpr root.self

theorem sameRoot_congr (roots : ∀ x r, HasRoot parent' x r ↔ HasRoot parent x r) :
    SameRoot parent' x y ↔ SameRoot parent x y :=
  exists_congr fun r => and_congr (roots x r) (roots y r)

end Classes

/-! ### Hanging an element below its root -/

section Hang

variable {n : ℕ} {x r : α}

theorem Climbs.hang (hung : ∀ y, parent' y = parent y ∨ HasRoot parent y (parent' y))
    (climbs : Climbs parent n x r) : ∃ m ≤ n, Climbs parent' m x r := by
  have kept : ∀ {r}, parent r = r → parent' r = r := by
    intro r top
    rcases hung r with same | root
    · rw [same, top]
    · exact (root.unique (hasRoot_self top))
  induction climbs with
  | root top => exact ⟨0, le_rfl, .root (kept top)⟩
  | @step n x r moves rest ih =>
    obtain ⟨m, shorter, after⟩ := ih
    rcases hung x with same | root
    · exact ⟨m + 1, by omega, .step (by rwa [same]) (by rwa [same])⟩
    · -- The element hangs directly below the root now.
      have isRoot : parent' x = r := root.unique ⟨n + 1, .step moves rest⟩
      have away : r ≠ x := by
        rintro rfl
        exact moves rest.top
      refine ⟨1, by omega, .step (by rwa [isRoot]) ?_⟩
      rw [isRoot]
      exact .root (kept rest.top)

theorem hasRoot_hang_iff (grounded : Grounded parent)
    (hung : ∀ y, parent' y = parent y ∨ HasRoot parent y (parent' y)) :
    HasRoot parent' x r ↔ HasRoot parent x r := by
  have keeps : ∀ {r}, HasRoot parent x r → HasRoot parent' x r := by
    rintro r ⟨n, climbs⟩
    obtain ⟨m, -, after⟩ := climbs.hang hung
    exact ⟨m, after⟩
  refine ⟨fun root' => ?_, keeps⟩
  obtain ⟨r₀, root⟩ := grounded x
  rwa [← (keeps root).unique root']

end Hang

/-! ### Hanging a root below another one -/

section Link

variable {a b x y r : α}

/-- The root `b` was hung below the root `a`. -/
structure Linked (parent : α → α) (a b : α) (parent' : α → α) : Prop where
  left : parent a = a
  right : parent b = b
  apart : a ≠ b
  link : parent' b = a
  others : ∀ y, y ≠ b → parent' y = parent y

section

variable (linked : Linked parent a b parent')
include linked

theorem Linked.moved (root : HasRoot parent x b) :
    HasRoot parent' x a := by
  have atA : HasRoot parent' a a :=
    hasRoot_self ((linked.others a linked.apart).trans linked.left)
  have atB : HasRoot parent' b a := hasRoot_parent_iff.mp (linked.link ▸ atA)
  obtain ⟨n, climbs⟩ := root
  induction climbs with
  | root => exact atB
  | @step n x r moves rest ih =>
    have away : x ≠ r := by
      rintro rfl
      exact moves rest.top
    exact hasRoot_parent_iff.mp (linked.others x away ▸ ih linked atB)

theorem Linked.stays (root : HasRoot parent x r) (other : r ≠ b) : HasRoot parent' x r := by
  obtain ⟨n, climbs⟩ := root
  induction climbs with
  | root top => exact hasRoot_self ((linked.others _ other).trans top)
  | @step n x r moves rest ih =>
    have away : x ≠ b := by
      rintro rfl
      exact moves linked.right
    exact hasRoot_parent_iff.mp (linked.others x away ▸ ih other)

theorem Linked.grounded (grounded : Grounded parent) :
    Grounded parent' := by
  intro x
  obtain ⟨r, root⟩ := grounded x
  by_cases moved : r = b
  · exact ⟨a, linked.moved (moved ▸ root)⟩
  · exact ⟨r, linked.stays root moved⟩

/-- The elements of `b` have the root `a` now, the others keep theirs. -/
theorem hasRoot_link_iff (grounded : Grounded parent) :
    HasRoot parent' x r ↔ (HasRoot parent x r ∧ r ≠ b) ∨ (HasRoot parent x b ∧ r = a) := by
  constructor
  · intro root'
    obtain ⟨r₀, root⟩ := grounded x
    by_cases moved : r₀ = b
    · subst moved
      exact .inr ⟨root, root'.unique (linked.moved root)⟩
    · have same : r = r₀ := root'.unique (linked.stays root moved)
      exact .inl ⟨same ▸ root, same ▸ moved⟩
  · rintro (⟨root, stays⟩ | ⟨root, rfl⟩)
    · exact linked.stays root stays
    · exact linked.moved root

/-- **The classes after a union**: those of before, and the pair made equal. -/
theorem sameRoot_link_iff (grounded : Grounded parent)
    (classes : ∀ x y, SameRoot parent x y ↔ Relation.EqvGen related x y) {u v : α}
    (left : HasRoot parent u a) (right : HasRoot parent v b) :
    SameRoot parent' x y ↔ Relation.EqvGen (fun x y => related x y ∨ (x = u ∧ y = v)) x y := by
  have wider : ∀ {x y}, SameRoot parent x y →
      Relation.EqvGen (fun x y => related x y ∨ (x = u ∧ y = v)) x y := fun same =>
    ((classes _ _).mp same).mono fun _ _ => .inl
  have joined : Relation.EqvGen (fun x y => related x y ∨ (x = u ∧ y = v)) a b :=
    .trans _ _ _ (wider left.sameRoot.symm)
      (.trans _ _ _ (.rel _ _ (.inr ⟨rfl, rfl⟩)) (wider right.sameRoot))
  constructor
  · rintro ⟨r, one, two⟩
    -- Both elements had the root `r`, or the root `b` if `r` is `a`.
    have toRoot : ∀ {z}, HasRoot parent' z r →
        Relation.EqvGen (fun x y => related x y ∨ (x = u ∧ y = v)) z r := by
      intro z root
      rcases (hasRoot_link_iff linked grounded).mp root with ⟨old, _⟩ | ⟨old, rfl⟩
      · exact wider old.sameRoot
      · exact .trans _ _ _ (wider old.sameRoot) (.symm _ _ joined)
    exact .trans _ _ _ (toRoot one) (.symm _ _ (toRoot two))
  · have keeps : ∀ {x y}, SameRoot parent x y → SameRoot parent' x y := by
      rintro x y ⟨r, one, two⟩
      by_cases moved : r = b
      · exact ⟨a, linked.moved (moved ▸ one), linked.moved (moved ▸ two)⟩
      · exact ⟨r, linked.stays one moved, linked.stays two moved⟩
    intro generated
    induction generated with
    | rel x y pair =>
      rcases pair with old | ⟨rfl, rfl⟩
      · exact keeps ((classes x y).mpr (.rel _ _ old))
      · exact ⟨a, linked.stays left linked.apart, linked.moved right⟩
    | refl x => exact (linked.grounded grounded).refl x
    | symm _ _ _ ih => exact ih.symm
    | trans _ _ _ _ _ ih ih' => exact ih.trans ih'

end

theorem eqvGen_or_iff {u v : α} (known : Relation.EqvGen related u v) :
    Relation.EqvGen (fun x y => related x y ∨ (x = u ∧ y = v)) x y ↔ Relation.EqvGen related x y := by
  refine ⟨fun generated => ?_, fun same => same.mono fun _ _ => .inl⟩
  induction generated with
  | rel x y pair =>
    rcases pair with old | ⟨rfl, rfl⟩
    · exact .rel _ _ old
    · exact known
  | refl x => exact .refl x
  | symm _ _ _ ih => exact .symm _ _ ih
  | trans _ _ _ _ _ ih ih' => exact .trans _ _ _ ih ih'

end Link

end Lib
