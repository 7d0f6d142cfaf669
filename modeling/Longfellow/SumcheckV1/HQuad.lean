/-
**The wiring tensor** (`runtime/sumcheck-v1/src/hquad.rs`).

The terms of a layer with their outputs bound are a sparse matrix in the two operands, kept in Morton
order. Binding a bit of one hand merges neighbours, and the order makes every pair to be merged
adjacent.

* `Ordered.scalar_eq` — **one corner is left** when all bits are bound.
-/

import Longfellow.Proto.SumcheckV1
import Longfellow.SumcheckV1.Dense
import Longfellow.Util.Morton
import Mathlib.Data.List.ModifyLast

set_option linter.unusedSectionVars false

namespace Longfellow.SumcheckV1

open Lib

variable {ε E : Type} {k : Nat} {terms : List (Term E)}

/-- An entry of the matrix: the remaining indices of the right and the left operand. -/
structure Corner (E : Type) where
  h : Nat × Nat
  v : E
  deriving DecidableEq, Repr

section Definitions

variable [CommRing E]

/-- What `bind_g` keeps between terms: the operands of the last term, and the corners. -/
structure BindG (E : Type) where
  prev : Nat × Nat
  corners : List (Corner E)

/-- Add one term with its output bound to the corners: to the last one when the operands are the
same, else as a new one. An assertion takes the coefficient `beta`. -/
def bindTerm [DecidableEq E] (dot : List E) (beta : E) (s : BindG E) (term : Term E) :
    Exec ε (BindG E) := do
  let dotVal ← expect dot[term.g.toNat]? "term.g out of bounds for dot"
  let vcc := if term.k = 0 then beta * dotVal else term.k * dotVal
  if term.h0.toNat = s.prev.1 ∧ term.h1.toNat = s.prev.2 then
    pure { s with corners := s.corners.modifyLast fun last => { last with v := last.v + vcc } }
  else
    let h := (term.h0.toNat, term.h1.toNat)
    pure ⟨h, s.corners ++ [⟨h, vcc⟩]⟩

/-- Bind the outputs of a layer. -/
def bindG [DecidableEq E] (layer : Layer) (constants : List E) (logv nv : Nat) (g0 g1 : List E)
    (alpha beta : E) : Exec ε (List (Corner E)) := do
  ensure (SaneLogw logv) "logv must be sane"
  let dot ← eq2 logv nv g0 g1 alpha
  let terms ← layer.terms constants
  let s ← terms.foldlM (bindTerm dot beta) ⟨(2 ^ 32 - 1, 2 ^ 32 - 1), []⟩
  pure s.corners

/-- The indices with the low bit of a hand bound. -/
def halve (hand : Hand) (h : Nat × Nat) : Nat × Nat := hand.set h (hand.get h / 2)

/-- Whether two neighbours differ in the low bit of a hand only. -/
def Partners (hand : Hand) (c d : Nat × Nat) : Prop :=
  hand.other.get c = hand.other.get d ∧ hand.get c / 2 = hand.get d / 2 ∧
    hand.get d = hand.get c + 1

instance (hand : Hand) (c d : Nat × Nat) : Decidable (Partners hand c d) :=
  inferInstanceAs (Decidable (_ ∧ _))

/-- Bind a corner whose partner is zero. -/
def bindAlone (r : E) (hand : Hand) (c : Corner E) : Corner E where
  h := halve hand c.h
  v := if hand.get c.h % 2 = 0 then affineInterpolationNzZ r c.v else affineInterpolationZNz r c.v

/-- Bind the low bit of a hand. -/
def bindH (r : E) (hand : Hand) : List (Corner E) → List (Corner E)
  | [] => []
  | [c] => [bindAlone r hand c]
  | c :: d :: rest =>
    if Partners hand c.h d.h then
      ⟨halve hand c.h, affineInterpolation r c.v d.v⟩ :: bindH r hand rest
    else bindAlone r hand c :: bindH r hand (d :: rest)

/-- The value when all bits are bound. -/
def scalar (corners : List (Corner E)) : Exec ε E := do
  ensure (corners.length = 1) "HQuad size must be 1"
  let c ← getAt corners 0
  ensure (c.h.1 = 0) "HQuad index h0 must be 0"
  ensure (c.h.2 = 0) "HQuad index h1 must be 0"
  pure c.v

/-- The matrix applied to a vector for each hand. -/
def contract (hand : Hand) (corners : List (Corner E)) (x y : Nat → E) : E :=
  (corners.map fun c => c.v * (x (hand.get c.h) * y (hand.other.get c.h))).sum

end Definitions

/-! ### Binding one bit -/

section Contraction

variable [CommRing E]

@[simp] theorem contract_nil (hand : Hand) (x y : Nat → E) : contract hand [] x y = 0 := rfl

@[simp] theorem contract_cons (hand : Hand) (c : Corner E) (corners : List (Corner E))
    (x y : Nat → E) : contract hand (c :: corners) x y =
      c.v * (x (hand.get c.h) * y (hand.other.get c.h)) + contract hand corners x y := by
  simp [contract]

theorem contract_append (hand : Hand) (corners more : List (Corner E)) (x y : Nat → E) :
    contract hand (corners ++ more) x y =
      contract hand corners x y + contract hand more x y := by
  simp [contract]

theorem contract_other (hand : Hand) (corners : List (Corner E)) (x y : Nat → E) :
    contract hand.other corners x y = contract hand corners y x := by
  unfold contract
  simp only [Hand.other_other, mul_comm (x _)]

/-- The weight of a bit. -/
def bitWeight (r : E) (i : Nat) : E := if i % 2 = 1 then r else 1 - r

theorem contract_bindAlone (r : E) (hand : Hand) (c : Corner E) (x y : Nat → E) :
    (bindAlone r hand c).v * (x (hand.get (bindAlone r hand c).h) *
        y (hand.other.get (bindAlone r hand c).h)) =
      c.v * (bitWeight r (hand.get c.h) * x (hand.get c.h / 2) * y (hand.other.get c.h)) := by
  simp only [bindAlone, halve, Hand.get_set, Hand.get_other_set, bitWeight]
  rcases Nat.mod_two_eq_zero_or_one (hand.get c.h) with even | odd
  · rw [if_pos even, if_neg (by omega), affineInterpolationNzZ]
    ring
  · rw [if_neg (by omega), if_pos odd, affineInterpolationZNz]
    ring

/-- **Binding one bit** contracts it with its two weights. -/
theorem contract_bindH (r : E) (hand : Hand) (corners : List (Corner E)) (x y : Nat → E) :
    contract hand (bindH r hand corners) x y =
      contract hand corners (fun i => bitWeight r i * x (i / 2)) y := by
  induction corners using bindH.induct hand with
  | case1 => rfl
  | case2 c => rw [bindH, contract_cons, contract_cons, contract_bindAlone, contract_nil, contract_nil]
  | case3 c d rest partners ih =>
    obtain ⟨sameOther, sameHalf, next⟩ := partners
    have even : hand.get c.h % 2 = 0 := by omega
    rw [bindH, if_pos ⟨sameOther, sameHalf, next⟩, contract_cons, contract_cons, contract_cons, ih]
    simp only [halve, Hand.get_set, Hand.get_other_set, bitWeight, sameOther, ← sameHalf]
    rw [if_neg (show ¬ hand.get c.h % 2 = 1 by omega),
      if_pos (show hand.get d.h % 2 = 1 by omega), affineInterpolation]
    ring
  | case4 c d rest apart ih =>
    rw [bindH, if_neg apart, contract_cons, ih, contract_bindAlone, contract_cons hand c]

end Contraction

/-! ### Morton order -/

/-- The interleaved indices of a corner, with the low bit of a hand lowest. -/
def Corner.code (c : Corner E) (hand : Hand) (k : Nat) : Nat :=
  Morton.interleave k (hand.get c.h) (hand.other.get c.h)

/-- Corners of `k` remaining bits, the first of them of the given hand, in increasing order. -/
structure Ordered (hand : Hand) (k : Nat) (corners : List (Corner E)) : Prop where
  fits : ∀ c ∈ corners, Morton.Fits k (hand.get c.h) (hand.other.get c.h)
  increasing : corners.Pairwise fun c d => c.code hand k < d.code hand k

section Order

variable [CommRing E]

variable {hand : Hand} {corners : List (Corner E)} {c : Corner E}

theorem mem_bindH {r : E} (member : c ∈ bindH r hand corners) :
    ∃ d ∈ corners, c.h = halve hand d.h := by
  induction corners using bindH.induct hand with
  | case1 => simp [bindH] at member
  | case2 d =>
    obtain rfl := List.mem_singleton.mp member
    exact ⟨d, List.mem_singleton_self d, rfl⟩
  | case3 d e rest partners ih =>
    rw [bindH, if_pos partners] at member
    rcases List.mem_cons.mp member with rfl | member
    · exact ⟨d, List.mem_cons_self .., rfl⟩
    · obtain ⟨f, inRest, same⟩ := ih member
      exact ⟨f, List.mem_cons_of_mem _ (List.mem_cons_of_mem _ inRest), same⟩
  | case4 d e rest apart ih =>
    rw [bindH, if_neg apart] at member
    rcases List.mem_cons.mp member with rfl | member
    · exact ⟨d, List.mem_cons_self .., rfl⟩
    · obtain ⟨f, inRest, same⟩ := ih member
      exact ⟨f, List.mem_cons_of_mem _ inRest, same⟩

theorem bindH_ne_nil (nonempty : corners ≠ []) (r : E) (hand : Hand) :
    bindH r hand corners ≠ [] := by
  match corners with
  | [c] => simp [bindH]
  | c :: d :: rest =>
    rw [bindH]
    split <;> simp

variable {d : Corner E}

theorem code_halve (half : c.h = halve hand d.h) :
    c.code hand.other k = d.code hand (k + 1) / 2 := by
  unfold Corner.code
  rw [Morton.interleave_half, half, Hand.other_other, halve, Hand.get_set, Hand.get_other_set]

theorem partners_of_code (fitsC : Morton.Fits (k + 1) (hand.get c.h) (hand.other.get c.h))
    (fitsD : Morton.Fits (k + 1) (hand.get d.h) (hand.other.get d.h))
    (less : c.code hand (k + 1) < d.code hand (k + 1))
    (same : c.code hand (k + 1) / 2 = d.code hand (k + 1) / 2) : Partners hand c.h d.h := by
  have lowC := Morton.interleave_low k (hand.get c.h) (hand.other.get c.h)
  have lowD := Morton.interleave_low k (hand.get d.h) (hand.other.get d.h)
  unfold Corner.code at less same
  have high := same
  rw [Morton.interleave_half, Morton.interleave_half] at high
  obtain ⟨sameOther, sameHalf⟩ := Morton.interleave_inj fitsC.next fitsD.next high
  exact ⟨sameOther, sameHalf, by omega⟩

theorem code_of_partners (k : Nat) (partners : Partners hand c.h d.h) :
    d.code hand (k + 1) = c.code hand (k + 1) + 1 ∧ c.code hand (k + 1) % 2 = 0 := by
  obtain ⟨sameOther, sameHalf, next⟩ := partners
  unfold Corner.code
  rw [Morton.interleave, Morton.interleave, sameOther, sameHalf]
  omega

/-- **Binding keeps the order**, with the other hand next. -/
theorem Ordered.bindH (ordered : Ordered hand (k + 1) corners) (r : E) :
    Ordered hand.other k (bindH r hand corners) := by
  refine ⟨?_, ?_⟩
  · intro c member
    obtain ⟨d, isCorner, half⟩ := mem_bindH member
    rw [half, Hand.other_other, halve, Hand.get_set, Hand.get_other_set]
    exact (ordered.fits d isCorner).next
  · obtain ⟨fits, increasing⟩ := ordered
    induction corners using bindH.induct hand with
    | case1 => simp [SumcheckV1.bindH]
    | case2 c => simp [SumcheckV1.bindH]
    | case3 c d rest partners ih =>
      rw [SumcheckV1.bindH, if_pos partners]
      obtain ⟨_, later⟩ := List.pairwise_cons.mp increasing
      obtain ⟨afterD, later⟩ := List.pairwise_cons.mp later
      refine List.pairwise_cons.mpr ⟨fun e member => ?_, ih (fun e inRest => fits e
        (List.mem_cons_of_mem _ (List.mem_cons_of_mem _ inRest))) later⟩
      obtain ⟨e', inRest, half⟩ := mem_bindH member
      have less := afterD e' inRest
      obtain ⟨next, even⟩ := code_of_partners k partners
      rw [code_halve half, code_halve (d := c) rfl]
      omega
    | case4 c d rest apart ih =>
      rw [SumcheckV1.bindH, if_neg apart]
      obtain ⟨afterC, later⟩ := List.pairwise_cons.mp increasing
      refine List.pairwise_cons.mpr ⟨fun e member => ?_, ih (fun e inRest => fits e
        (List.mem_cons_of_mem _ inRest)) later⟩
      obtain ⟨e', inRest, half⟩ := mem_bindH member
      have less := afterC d (List.mem_cons_self ..)
      have notBelow : d.code hand (k + 1) ≤ e'.code hand (k + 1) := by
        rcases List.mem_cons.mp inRest with rfl | inRest
        · exact le_rfl
        · exact ((List.pairwise_cons.mp later).1 e' inRest).le
      have halves : c.code hand (k + 1) / 2 ≠ d.code hand (k + 1) / 2 := fun same =>
        apart (partners_of_code (fits c (List.mem_cons_self ..))
          (fits d (List.mem_cons_of_mem _ (List.mem_cons_self ..))) less same)
      rw [code_halve half, code_halve (c := bindAlone r hand c) (d := c) rfl]
      omega

/-- **One corner is left** when no bits remain. -/
theorem Ordered.scalar_eq (ordered : Ordered hand 0 corners) (nonempty : corners ≠ []) :
    ∃ v, corners = [⟨(0, 0), v⟩] ∧
      (scalar corners : Exec ε E) = .ok v := by
  match corners, nonempty with
  | [⟨h, v⟩], _ =>
    have zero := (ordered.fits ⟨h, v⟩ (List.mem_singleton_self _)).zero
    obtain rfl : h = (0, 0) := by
      cases hand with
      | right => exact Prod.ext zero.1 zero.2
      | left => exact Prod.ext zero.2 zero.1
    exact ⟨v, rfl, rfl⟩
  | c :: d :: rest, _ =>
    have less := (List.pairwise_cons.mp ordered.increasing).1 d (List.mem_cons_self ..)
    exact absurd less (lt_irrefl 0)

end Order

/-! ### Binding the outputs -/

section Outputs

variable [CommRing E] [DecidableEq E]

/-- The operands of a term. -/
def operands (term : Term E) : Nat × Nat := (term.h0.toNat, term.h1.toNat)

/-- The weight of a term with its output bound. -/
def termWeight (dot : List E) (beta : E) (term : Term E) : E :=
  (if term.k = 0 then beta else term.k) * dot.getD term.g.toNat 0

/-- The operands before the first term. -/
def sentinel : Nat × Nat := (2 ^ 32 - 1, 2 ^ 32 - 1)

/-- Terms that can be bound: their outputs are weighted, their operands fit and are in Morton order,
and the first ones are not the operands that mark the start. -/
structure Bindable (dot : List E) (k : Nat) (terms : List (Term E)) : Prop where
  outputs : ∀ term ∈ terms, term.g.toNat < dot.length
  fits : ∀ term ∈ terms, Morton.Fits k (operands term).1 (operands term).2
  sorted : terms.Pairwise fun s t => Morton.cmp (operands s).1 (operands s).2 (operands t).1
    (operands t).2 ≠ .gt
  start : ∀ first, terms.head? = some first → operands first ≠ sentinel

/-- What is kept after some terms. -/
structure BoundTerms (dot : List E) (beta : E) (k : Nat) (done : List (Term E)) (s : BindG E) :
    Prop where
  value : ∀ x y : Nat → E, contract .right s.corners x y = (done.map fun term =>
    termWeight dot beta term * (x (operands term).1 * y (operands term).2)).sum
  operandsOf : ∀ c ∈ s.corners, ∃ term ∈ done, c.h = operands term
  last : s.corners.getLast?.map Corner.h = done.getLast?.map operands
  prev : s.prev = (done.getLast?.map operands).getD sentinel
  increasing : s.corners.Pairwise fun c d => c.code .right k < d.code .right k

theorem le_of_cmp {s t : Term E} (fitsS : Morton.Fits k (operands s).1 (operands s).2)
    (fitsT : Morton.Fits k (operands t).1 (operands t).2)
    (notGreater : Morton.cmp (operands s).1 (operands s).2 (operands t).1 (operands t).2 ≠ .gt) :
    Morton.interleave k (operands s).1 (operands s).2 ≤
      Morton.interleave k (operands t).1 (operands t).2 := by
  rw [Morton.cmp_eq_compare fitsS fitsT, Ne, Nat.compare_eq_gt] at notGreater
  omega

variable {dot : List E} {beta : E} {s : BindG E}

theorem BoundTerms.exists_last {earlier : List (Term E)} {t : Term E}
    (bound : BoundTerms dot beta k (earlier ++ [t]) s) :
    ∃ init c, s.corners = init ++ [c] ∧ c.h = operands t ∧ s.prev = operands t := by
  have last := bound.last
  have prev := bound.prev
  rcases List.eq_nil_or_concat' s.corners with empty | ⟨init, c, corners⟩
  · simp [empty] at last
  · exact ⟨init, c, corners, by simpa [corners] using last, by simpa using prev⟩

variable {done : List (Term E)} {term : Term E}

theorem BoundTerms.merge (bound : BoundTerms dot beta k done s) (some : done ≠ [])
    (same : operands term = s.prev) :
    BoundTerms dot beta k (done ++ [term]) { s with
      corners := s.corners.modifyLast fun last =>
        { last with v := last.v + termWeight dot beta term } } := by
  rcases List.eq_nil_or_concat' done with rfl | ⟨earlier, t, rfl⟩
  · exact absurd rfl some
  obtain ⟨init, c, corners, last, prev⟩ := bound.exists_last
  have here : operands term = operands t := same.trans prev
  rw [corners, List.modifyLast_concat]
  refine ⟨fun x y => ?_, ?_, ?_, ?_, ?_⟩
  · have value := bound.value x y
    rw [corners, contract_append, contract_cons, contract_nil] at value
    rw [contract_append, contract_cons, contract_nil, List.map_append, List.sum_append, ← value,
      List.map_singleton, List.sum_singleton]
    simp only [Hand.get, Hand.other, last, here]
    ring
  · intro d isCorner
    rcases List.mem_append.mp isCorner with old | new
    · obtain ⟨t', isDone, isOperands⟩ := bound.operandsOf d (corners ▸ List.mem_append_left _ old)
      exact ⟨t', List.mem_append_left _ isDone, isOperands⟩
    · obtain rfl := List.mem_singleton.mp new
      exact ⟨term, by simp, last.trans here.symm⟩
  · simp [last, here]
  · simp [same]
  · have increasing := bound.increasing
    rw [corners, List.pairwise_append] at increasing
    rw [List.pairwise_append]
    refine ⟨increasing.1, List.pairwise_singleton .., fun d isInit e isLast => ?_⟩
    obtain rfl := List.mem_singleton.mp isLast
    exact increasing.2.2 d isInit c (List.mem_singleton_self c)

theorem BoundTerms.push (bound : BoundTerms dot beta k done s) (other : operands term ≠ s.prev)
    (fits : ∀ t ∈ done ++ [term], Morton.Fits k (operands t).1 (operands t).2)
    (notAbove : ∀ t ∈ done, Morton.interleave k (operands t).1 (operands t).2 ≤
      Morton.interleave k (operands term).1 (operands term).2) :
    BoundTerms dot beta k (done ++ [term])
      ⟨operands term, s.corners ++ [⟨operands term, termWeight dot beta term⟩]⟩ := by
  refine ⟨fun x y => ?_, ?_, by simp, by simp, ?_⟩
  · rw [contract_append, contract_cons, contract_nil, bound.value, List.map_append,
      List.sum_append, List.map_singleton, List.sum_singleton, add_zero]
    rfl
  · intro d isCorner
    rcases List.mem_append.mp isCorner with old | new
    · obtain ⟨t, isDone, isOperands⟩ := bound.operandsOf d old
      exact ⟨t, List.mem_append_left _ isDone, isOperands⟩
    · obtain rfl := List.mem_singleton.mp new
      exact ⟨term, by simp, rfl⟩
  · rw [List.pairwise_append]
    refine ⟨bound.increasing, List.pairwise_singleton .., fun d isCorner e isLast => ?_⟩
    obtain rfl := List.mem_singleton.mp isLast
    rcases List.eq_nil_or_concat' done with rfl | ⟨earlier, t, rfl⟩
    · obtain ⟨_, none, _⟩ := bound.operandsOf d isCorner
      simp at none
    -- The last corner is strictly below the new one, and the others are below the last.
    obtain ⟨init, c, corners, last, prev⟩ := bound.exists_last
    have below : c.code .right k < Corner.code ⟨operands term, termWeight dot beta term⟩ .right k := by
      refine lt_of_le_of_ne ?_ fun same => other ?_
      · unfold Corner.code
        rw [last]
        exact notAbove t (by simp)
      · unfold Corner.code at same
        rw [last] at same
        have equal := Morton.interleave_inj (fits t (by simp)) (fits term (by simp)) same
        rw [prev]
        exact (Prod.ext_iff.mpr equal).symm
    rw [corners] at isCorner
    rcases List.mem_append.mp isCorner with isInit | isLast
    · have increasing := bound.increasing
      rw [corners, List.pairwise_append] at increasing
      exact (increasing.2.2 d isInit c (List.mem_singleton_self c)).trans below
    · obtain rfl := List.mem_singleton.mp isLast
      exact below

theorem bindTerm_spec (beta : E) (bindable : Bindable dot k terms)
    (before : done ++ [term] <+: terms) (bound : BoundTerms dot beta k done s) :
    ∃ s', (bindTerm dot beta s term : Exec ε _) = .ok s' ∧
      BoundTerms dot beta k (done ++ [term]) s' := by
  have member : term ∈ terms := before.subset (by simp)
  have inside := bindable.outputs term member
  have weight : (if term.k = 0 then beta * dot[term.g.toNat] else term.k * dot[term.g.toNat]) =
      termWeight dot beta term := by
    rw [termWeight, List.getD_eq_getElem _ _ inside, ite_mul]
  have stepped : (bindTerm dot beta s term : Exec ε _) = .ok (if operands term = s.prev then
      { s with corners := s.corners.modifyLast fun last =>
          { last with v := last.v + termWeight dot beta term } }
      else ⟨operands term, s.corners ++ [⟨operands term, termWeight dot beta term⟩]⟩) := by
    rw [bindTerm, List.getElem?_eq_getElem inside]
    simp only [expect, pure_eq_ok, ok_bind, weight, operands, Prod.ext_iff]
    split <;> rfl
  refine ⟨_, stepped, ?_⟩
  by_cases same : operands term = s.prev
  · rw [if_pos same]
    refine bound.merge (fun none => ?_) same
    subst none
    refine bindable.start term ?_ (same.trans bound.prev)
    obtain ⟨rest, rfl⟩ := before
    rfl
  · rw [if_neg same]
    refine bound.push same (fun t isDone => bindable.fits t (before.subset isDone)) ?_
    intro t isDone
    have isTerm : t ∈ terms := before.subset (List.mem_append_left _ isDone)
    have pairs := List.pairwise_append.mp (bindable.sorted.sublist before.sublist)
    exact le_of_cmp (bindable.fits t isTerm) (bindable.fits term member)
      (pairs.2.2 t isDone term (List.mem_singleton_self term))

theorem bindTerm_covers {s' : BindG E} (ran : (bindTerm dot beta s term : Exec ε _) = .ok s') :
    s.corners.map Corner.h <+: s'.corners.map Corner.h := by
  obtain ⟨dotVal, _, ran⟩ := bind_eq_ok.mp ran
  simp only at ran
  split at ran
  · obtain rfl := Except.ok.inj ran
    rcases List.eq_nil_or_concat' s.corners with empty | ⟨init, c, corners⟩
    · rw [empty]
      exact List.nil_prefix
    · rw [corners, List.modifyLast_concat]
      simp
  · obtain rfl := Except.ok.inj ran
    simp

/-- **The terms with their outputs bound**: in order, and as a matrix the sum of the terms. -/
theorem bindG_spec {layer : Layer} {constants : List E} {logv nv : Nat} {g0 g1 : List E}
    (alpha beta : E) (sane : SaneLogw logv)
    (weights : (eq2 logv nv g0 g1 alpha : Exec ε _) = .ok dot)
    (expands : (layer.terms constants : Exec ε _) = .ok terms) (bindable : Bindable dot k terms)
    (nonempty : terms ≠ []) :
    ∃ corners, (bindG layer constants logv nv g0 g1 alpha beta : Exec ε _) = .ok corners ∧
      corners ≠ [] ∧ Ordered .right k corners ∧
      (∀ h, (∃ c ∈ corners, c.h = h) ↔ ∃ term ∈ terms, operands term = h) ∧
      ∀ x y, contract .right corners x y = (terms.map fun term =>
        termWeight dot beta term * (x (operands term).1 * y (operands term).2)).sum := by
  obtain ⟨s, folded, bound, covers⟩ : ∃ s, (terms.foldlM (bindTerm dot beta) ⟨sentinel, []⟩ :
      Exec ε _) = .ok s ∧ BoundTerms dot beta k terms s ∧
        ∀ term ∈ terms, operands term ∈ s.corners.map Corner.h := by
    refine foldlM_returns (fun done s => BoundTerms dot beta k done s ∧
      ∀ term ∈ done, operands term ∈ s.corners.map Corner.h)
      ⟨⟨by simp, by simp, rfl, rfl, .nil⟩, by simp⟩ fun {done x s} before held => ?_
    obtain ⟨s', stepped, next⟩ := bindTerm_spec (ε := ε) beta bindable before held.1
    refine ⟨s', stepped, next, fun term member => ?_⟩
    rcases List.mem_append.mp member with earlier | last
    · exact (bindTerm_covers stepped).subset (held.2 term earlier)
    · obtain rfl := List.mem_singleton.mp last
      obtain ⟨init, c, isCorners, isOperands, _⟩ := next.exists_last
      rw [isCorners, ← isOperands]
      simp
  refine ⟨s.corners, ?_, ?_, ⟨?_, bound.increasing⟩, fun h => ⟨?_, ?_⟩, bound.value⟩
  · rw [bindG, ensure_of sane, ok_bind, weights, ok_bind, expands, ok_bind]
    exact congrArg (· >>= _) folded
  · intro empty
    have last := bound.last
    rw [empty] at last
    simp [nonempty] at last
  · intro c isCorner
    obtain ⟨term, isTerm, isOperands⟩ := bound.operandsOf c isCorner
    rw [isOperands]
    exact bindable.fits term isTerm
  · rintro ⟨c, isCorner, rfl⟩
    obtain ⟨term, isTerm, isOperands⟩ := bound.operandsOf c isCorner
    exact ⟨term, isTerm, isOperands.symm⟩
  · rintro ⟨term, isTerm, rfl⟩
    exact List.mem_map.mp (covers term isTerm)

end Outputs

end Longfellow.SumcheckV1
