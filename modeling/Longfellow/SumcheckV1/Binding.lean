/-
**Binding a layer** (`runtime/sumcheck-v1/src/hquad.rs`).

The corners of a layer are the distinct operand pairs of its terms, in Morton order. A round drops the
lowest bit of one hand, and the hands take turns, so that each round drops the lowest bit of the
interleaved index: corners with the same rest are neighbours, and merging neighbours leaves the
distinct prefixes, still in order.

* `Bound.step` — **one round** keeps order and prefixes; `bound_rounds` — a run of rounds.
-/

import Longfellow.Sumcheck.Tables
import Longfellow.SumcheckV1.Completeness

set_option linter.unusedSectionVars false

namespace Longfellow.SumcheckV1

open Lib

variable {ε E : Type} {corners : List (Corner E)} {d : Corner E} {hand : Hand}

/-! ### The loop over the arrays -/

/-- The corners as two arrays of the same length. -/
structure HQuad (E : Type) where
  hc : List (Nat × Nat)
  vc : List E
  deriving DecidableEq, Repr

/-- Corners as two arrays. -/
def HQuad.ofCorners (corners : List (Corner E)) : HQuad E :=
  ⟨corners.map Corner.h, corners.map Corner.v⟩

/-- An increment of an index of 32 bits. -/
def succIndex (i : Nat) : Exec ε Nat := do
  ensure (i + 1 < 2 ^ 32) "attempt to add with overflow"
  pure (i + 1)

/-- Whether the corner at `rd` and the next one differ in the low bit of a hand only. -/
def pairedAt (hand : Hand) (hc : List (Nat × Nat)) (c : Nat × Nat) (rd1 : Nat) : Exec ε Bool := do
  if rd1 < hc.length then do
    let d ← getAt hc rd1
    if hand.other.get c = hand.other.get d ∧ hand.get c / 2 = hand.get d / 2 then do
      let next ← succIndex (hand.get c)
      pure (decide (hand.get d = next))
    else pure false
  else pure false

/-- The loop that binds the low bit of a hand: it reads at `rd` and writes at `wr`. -/
def bindHLoop [CommRing E] (r : E) (hand : Hand) : Nat → HQuad E → Nat → Nat →
    Exec ε (HQuad E × Nat)
  | 0, quad, _, wr => pure (quad, wr)
  | turns + 1, quad, rd, wr =>
    if rd < quad.hc.length then do
      let c ← getAt quad.hc rd
      let v ← getAt quad.vc rd
      let paired ← pairedAt hand quad.hc c (rd + 1)
      if paired then do
        let w ← getAt quad.vc (rd + 1)
        let hc ← setAt quad.hc wr (halve hand c)
        let vc ← setAt quad.vc wr (affineInterpolation r v w)
        bindHLoop r hand turns ⟨hc, vc⟩ (rd + 2) (wr + 1)
      else do
        let vcc := if hand.get c % 2 = 0 then affineInterpolationNzZ r v
          else affineInterpolationZNz r v
        let hc ← setAt quad.hc wr (halve hand c)
        let vc ← setAt quad.vc wr vcc
        bindHLoop r hand turns ⟨hc, vc⟩ (rd + 1) (wr + 1)
    else pure (quad, wr)

/-- Bind the low bit of a hand in place. -/
def bindHInPlace [CommRing E] (r : E) (hand : Hand) (quad : HQuad E) : Exec ε (HQuad E) := do
  ensure (quad.vc.length = quad.hc.length) "hc and vc must have equal length"
  let (quad, wr) ← bindHLoop r hand quad.hc.length quad 0 0
  pure ⟨quad.hc.take wr, quad.vc.take wr⟩

/-- No pair of neighbours has the largest index in front. -/
def NoWrap (hand : Hand) : List (Corner E) → Prop
  | c :: d :: rest => (hand.other.get c.h = hand.other.get d.h ∧
      hand.get c.h / 2 = hand.get d.h / 2 → hand.get c.h + 1 < 2 ^ 32) ∧ NoWrap hand (d :: rest)
  | _ => True

theorem NoWrap.tail {c : Corner E} {rest : List (Corner E)}
    (noWrap : NoWrap hand (c :: rest)) : NoWrap hand rest := by
  cases rest with
  | nil => trivial
  | cons d rest => exact noWrap.2

section InPlace

variable [CommRing E]

/-- The arrays at some point of the loop: the corners written are in front, and the corners from the
read cursor on are as they were. -/
structure Partway (quad : HQuad E) (rd wr : Nat) (done left : List (Corner E)) : Prop where
  sizes : quad.vc.length = quad.hc.length
  behind : wr ≤ rd
  total : rd + left.length = quad.hc.length
  writtenH : quad.hc.take wr = done.map Corner.h
  writtenV : quad.vc.take wr = done.map Corner.v
  leftH : quad.hc.drop rd = left.map Corner.h
  leftV : quad.vc.drop rd = left.map Corner.v

variable {quad : HQuad E} {rd wr : Nat} {done left rest : List (Corner E)}

theorem Partway.write (partway : Partway quad rd wr done left) (turn : Nat) (some : 0 < turn)
    (inside : turn ≤ left.length) (next : left.drop turn = rest) (c : Corner E) :
    Partway ⟨quad.hc.set wr c.h, quad.vc.set wr c.v⟩ (rd + turn) (wr + 1) (done ++ [c]) rest := by
  obtain ⟨sizes, behind, total, writtenH, writtenV, leftH, leftV⟩ := partway
  have restLength : rest.length = left.length - turn := by rw [← next, List.length_drop]
  refine ⟨by simpa using sizes, by omega, ?_, ?_, ?_, ?_, ?_⟩
  · rw [List.length_set]
    omega
  · rw [List.take_succ_eq_append_getElem (by rw [List.length_set]; omega), List.take_set_of_le le_rfl,
      List.getElem_set_self, writtenH, List.map_append, List.map_singleton]
  · rw [List.take_succ_eq_append_getElem (by rw [List.length_set]; omega), List.take_set_of_le le_rfl,
      List.getElem_set_self, writtenV, List.map_append, List.map_singleton]
  · rw [List.drop_set_of_lt (by omega), ← List.drop_drop, leftH, ← List.map_drop, next]
  · rw [List.drop_set_of_lt (by omega), ← List.drop_drop, leftV, ← List.map_drop, next]

variable {c : Corner E}

theorem Partway.read (partway : Partway quad rd wr done left) {i : Nat} (here : left[i]? = some c) :
    quad.hc[rd + i]? = some c.h ∧ quad.vc[rd + i]? = some c.v := by
  rw [← List.getElem?_drop, ← List.getElem?_drop, partway.leftH, partway.leftV, List.getElem?_map,
    List.getElem?_map, here]
  exact ⟨rfl, rfl⟩

theorem Partway.pairedAt_eq (partway : Partway quad rd wr done (c :: d :: rest))
    (noWrap : NoWrap hand (c :: d :: rest)) :
    (pairedAt hand quad.hc c.h (rd + 1) : Exec ε Bool) = .ok (decide (Partners hand c.h d.h)) := by
  have total := partway.total
  simp only [List.length_cons] at total
  have next : quad.hc[rd + 1]? = some d.h := (partway.read (i := 1) rfl).1
  rw [pairedAt, if_pos (by omega), getAt_eq_ok.mpr next, ok_bind]
  by_cases same : hand.other.get c.h = hand.other.get d.h ∧ hand.get c.h / 2 = hand.get d.h / 2
  · rw [if_pos same, succIndex, ensure_of (noWrap.1 same)]
    simp [Partners, same.1, same.2]
  · rw [if_neg same, pure_eq_ok]
    congr 1
    refine (decide_eq_false fun partners => same ⟨partners.1, partners.2.1⟩).symm

theorem Partway.pairedAt_last (partway : Partway quad rd wr done [c]) :
    (pairedAt hand quad.hc c.h (rd + 1) : Exec ε Bool) = .ok false := by
  have total := partway.total
  rw [List.length_singleton] at total
  rw [pairedAt, if_neg (by omega), pure_eq_ok]

theorem Partway.alone (r : E) (partway : Partway quad rd wr done (c :: rest))
    (single : (pairedAt hand quad.hc c.h (rd + 1) : Exec ε Bool) = .ok false) (turns : Nat) :
    ∃ quad', Partway quad' (rd + 1) (wr + 1) (done ++ [bindAlone r hand c]) rest ∧
      (bindHLoop r hand (turns + 1) quad rd wr : Exec ε _) =
        bindHLoop r hand turns quad' (rd + 1) (wr + 1) := by
  obtain ⟨readH, readV⟩ := partway.read (i := 0) (c := c) rfl
  have total := partway.total
  have behind := partway.behind
  have sizes := partway.sizes
  rw [List.length_cons] at total
  rw [Nat.add_zero] at readH readV
  refine ⟨_, partway.write 1 (by decide) (by simp) rfl (bindAlone r hand c), ?_⟩
  rw [bindHLoop, if_pos (by omega), getAt_eq_ok.mpr readH, ok_bind, getAt_eq_ok.mpr readV, ok_bind,
    single, ok_bind, if_neg (by decide), setAt_of_lt (by omega), ok_bind, setAt_of_lt (by omega),
    ok_bind]
  rfl

theorem Partway.pair (r : E) (partway : Partway quad rd wr done (c :: d :: rest))
    (paired : (pairedAt hand quad.hc c.h (rd + 1) : Exec ε Bool) = .ok true) (turns : Nat) :
    ∃ quad', Partway quad' (rd + 2) (wr + 1)
        (done ++ [⟨halve hand c.h, affineInterpolation r c.v d.v⟩]) rest ∧
      (bindHLoop r hand (turns + 1) quad rd wr : Exec ε _) =
        bindHLoop r hand turns quad' (rd + 2) (wr + 1) := by
  obtain ⟨readH, readV⟩ := partway.read (i := 0) (c := c) rfl
  have readW := (partway.read (i := 1) (c := d) rfl).2
  have total := partway.total
  have behind := partway.behind
  have sizes := partway.sizes
  rw [List.length_cons, List.length_cons] at total
  rw [Nat.add_zero] at readH readV
  refine ⟨_, partway.write 2 (by decide) (by simp) rfl
    ⟨halve hand c.h, affineInterpolation r c.v d.v⟩, ?_⟩
  rw [bindHLoop, if_pos (by omega), getAt_eq_ok.mpr readH, ok_bind, getAt_eq_ok.mpr readV, ok_bind,
    paired, ok_bind, if_pos rfl, getAt_eq_ok.mpr readW, ok_bind, setAt_of_lt (by omega), ok_bind,
    setAt_of_lt (by omega), ok_bind]

theorem bindHLoop_eq (r : E) (noWrap : NoWrap hand left) {turns : Nat}
    (partway : Partway quad rd wr done left) (enough : left.length ≤ turns) :
    ∃ quad' rd' wr', (bindHLoop r hand turns quad rd wr : Exec ε _) = .ok (quad', wr') ∧
      Partway quad' rd' wr' (done ++ bindH r hand left) [] := by
  induction left using bindH.induct hand generalizing quad rd wr done turns with
  | case1 =>
    have total := partway.total
    rw [List.length_nil, Nat.add_zero] at total
    refine ⟨quad, rd, wr, ?_, by rwa [bindH, List.append_nil]⟩
    cases turns with
    | zero => rfl
    | succ turns => rw [bindHLoop, if_neg (by omega), pure_eq_ok]
  | case2 c =>
    obtain ⟨quad', next, ran⟩ := partway.alone (ε := ε) r partway.pairedAt_last (turns - 1)
    have total := next.total
    rw [List.length_nil, Nat.add_zero] at total
    rw [List.length_singleton] at enough
    rw [Nat.sub_add_cancel enough] at ran
    refine ⟨quad', _, _, ran.trans ?_, next⟩
    cases turns - 1 with
    | zero => rfl
    | succ turns => rw [bindHLoop, if_neg (by omega), pure_eq_ok]
  | case3 c d rest partners ih =>
    rw [List.length_cons, List.length_cons] at enough
    obtain ⟨turns, rfl⟩ : ∃ t, turns = t + 1 := ⟨turns - 1, by omega⟩
    have paired := partway.pairedAt_eq (ε := ε) noWrap
    rw [decide_eq_true partners] at paired
    obtain ⟨quad', next, ran⟩ := partway.pair r paired turns
    have left : rest.length ≤ turns := by omega
    obtain ⟨last, rd', wr', later, final⟩ := ih noWrap.tail.tail next left
    refine ⟨last, rd', wr', ran.trans later, ?_⟩
    rw [bindH, if_pos partners]
    simpa using final
  | case4 c d rest apart ih =>
    rw [List.length_cons] at enough
    obtain ⟨turns, rfl⟩ : ∃ t, turns = t + 1 := ⟨turns - 1, by omega⟩
    have left : (d :: rest).length ≤ turns := by omega
    have paired := partway.pairedAt_eq (ε := ε) noWrap
    rw [decide_eq_false apart] at paired
    obtain ⟨quad', next, ran⟩ := partway.alone r paired turns
    obtain ⟨last, rd', wr', later, final⟩ := ih noWrap.tail next left
    refine ⟨last, rd', wr', ran.trans later, ?_⟩
    rw [bindH, if_neg apart]
    simpa using final

/-- **Binding in place**: no corner is overwritten before it is read. -/
theorem bindHInPlace_eq (r : E) (noWrap : NoWrap hand corners) :
    (bindHInPlace r hand (.ofCorners corners) : Exec ε _) =
      .ok (.ofCorners (bindH r hand corners)) := by
  have start : Partway (HQuad.ofCorners corners) 0 0 [] corners :=
    ⟨by simp [HQuad.ofCorners], le_rfl, by simp [HQuad.ofCorners], rfl, rfl, rfl, rfl⟩
  obtain ⟨quad, rd, wr, ran, final⟩ := bindHLoop_eq (ε := ε) r noWrap start
    (show corners.length ≤ (HQuad.ofCorners corners).hc.length by simp [HQuad.ofCorners])
  rw [bindHInPlace, ensure_of (by simp [HQuad.ofCorners]), ok_bind, ran, ok_bind]
  refine congrArg Except.ok ?_
  rw [final.writtenH, final.writtenV]
  rfl

end InPlace

/-! ### The rounds -/

/-- The hand that is bound in a round. -/
def handAt (i : Nat) : Hand := if i % 2 = 0 then .right else .left

/-- The challenges of both hands, in turn. -/
def weave : List E → List E → List E
  | right :: rights, left :: lefts => right :: left :: weave rights lefts
  | _, _ => []

/-- Run rounds in place, from a round on. -/
def bindRounds [CommRing E] : Nat → List E → HQuad E → Exec ε (HQuad E)
  | _, [], quad => pure quad
  | i, r :: rs, quad => do
    let quad ← bindHInPlace r (handAt i) quad
    bindRounds (i + 1) rs quad

/-- The operands with the bits of `i` rounds dropped. -/
def prefixAt (i : Nat) (h : Nat × Nat) : Nat × Nat := (h.1 / 2 ^ ((i + 1) / 2), h.2 / 2 ^ (i / 2))

theorem handAt_succ (i : Nat) : handAt (i + 1) = (handAt i).other := by
  unfold handAt
  rcases Nat.mod_two_eq_zero_or_one i with even | odd
  · rw [if_pos even, if_neg (by omega)]
    rfl
  · rw [if_pos (by omega), if_neg (by omega)]
    rfl

theorem prefixAt_zero (h : Nat × Nat) : prefixAt 0 h = h := by simp [prefixAt]

theorem prefixAt_succ (i : Nat) (h : Nat × Nat) :
    prefixAt (i + 1) h = halve (handAt i) (prefixAt i h) := by
  unfold prefixAt halve handAt
  rcases Nat.mod_two_eq_zero_or_one i with even | odd
  · have same : (i + 1) / 2 = i / 2 := by omega
    have next : (i + 1 + 1) / 2 = i / 2 + 1 := by omega
    rw [if_pos even, same, next]
    simp only [Hand.get, Hand.set, pow_succ, Nat.div_div_eq_div_mul]
  · have same : (i + 1 + 1) / 2 = (i + 1) / 2 := by omega
    have next : (i + 1) / 2 = i / 2 + 1 := by omega
    rw [if_neg (by omega), same]
    simp only [Hand.get, Hand.set, next, pow_succ, Nat.div_div_eq_div_mul]

/-- The corners after `i` of `k` rounds on some terms: in the order of the bits that are left, and
exactly the prefixes of the operands. -/
structure Bound (k i : Nat) (terms : List (Term E)) (corners : List (Corner E)) : Prop where
  ordered : Ordered (handAt i) (k - i) corners
  prefixes : ∀ h, (∃ c ∈ corners, c.h = h) ↔ ∃ term ∈ terms, prefixAt i (operands term) = h

section Rounds

variable [CommRing E]

theorem exists_mem_bindH (r : E) (hand : Hand) (member : d ∈ corners) :
    ∃ c ∈ bindH r hand corners, c.h = halve hand d.h := by
  induction corners using bindH.induct hand with
  | case1 => cases member
  | case2 c =>
    obtain rfl := List.mem_singleton.mp member
    exact ⟨_, List.mem_singleton_self _, rfl⟩
  | case3 c e rest partners ih =>
    rw [bindH, if_pos partners]
    rcases List.mem_cons.mp member with rfl | member
    · exact ⟨_, List.mem_cons_self .., rfl⟩
    rcases List.mem_cons.mp member with rfl | member
    · refine ⟨_, List.mem_cons_self .., ?_⟩
      obtain ⟨sameOther, sameHalf, _⟩ := partners
      cases hand <;> simp_all [halve, Hand.get, Hand.set, Hand.other]
    · obtain ⟨f, found, half⟩ := ih member
      exact ⟨f, List.mem_cons_of_mem _ found, half⟩
  | case4 c e rest apart ih =>
    rw [bindH, if_neg apart]
    rcases List.mem_cons.mp member with rfl | member
    · exact ⟨_, List.mem_cons_self .., rfl⟩
    · obtain ⟨f, found, half⟩ := ih member
      exact ⟨f, List.mem_cons_of_mem _ found, half⟩

variable {k i : Nat} {terms : List (Term E)}

/-- **One round** keeps the order, and drops one bit of every prefix. -/
theorem Bound.step (bound : Bound k i terms corners) (more : i < k) (r : E) :
    Bound k (i + 1) terms (bindH r (handAt i) corners) := by
  refine ⟨?_, fun h => ?_⟩
  · have ordered := bound.ordered
    obtain ⟨left, isLeft⟩ : ∃ left, k - i = left + 1 := ⟨k - i - 1, by omega⟩
    have next : k - (i + 1) = left := by omega
    rw [isLeft] at ordered
    rw [handAt_succ, next]
    exact ordered.bindH r
  · constructor
    · rintro ⟨c, member, rfl⟩
      obtain ⟨d, isCorner, half⟩ := mem_bindH member
      obtain ⟨term, isTerm, same⟩ := (bound.prefixes d.h).mp ⟨d, isCorner, rfl⟩
      exact ⟨term, isTerm, by rw [prefixAt_succ, same, half]⟩
    · rintro ⟨term, isTerm, rfl⟩
      obtain ⟨d, isCorner, same⟩ := (bound.prefixes _).mpr ⟨term, isTerm, rfl⟩
      obtain ⟨c, member, half⟩ := exists_mem_bindH r (handAt i) isCorner
      exact ⟨c, member, by rw [half, same, prefixAt_succ]⟩

theorem Ordered.noWrap (ordered : Ordered hand k corners)
    (small : ∀ c ∈ corners, hand.get c.h < 2 ^ 32) :
    NoWrap hand corners := by
  obtain ⟨fits, increasing⟩ := ordered
  induction corners with
  | nil => trivial
  | cons c corners ih => match corners with
    | [] => trivial
    | d :: rest =>
      obtain ⟨below, later⟩ := List.pairwise_cons.mp increasing
      refine ⟨fun ⟨sameOther, sameHalf⟩ => ?_, ih
        (fun e member => small e (List.mem_cons_of_mem _ member))
        (fun e member => fits e (List.mem_cons_of_mem _ member)) later⟩
      have less := below d (List.mem_cons_self ..)
      have bound := small d (List.mem_cons_of_mem _ (List.mem_cons_self ..))
      -- The codes differ in the low bit only, so the index of `d` is the next one.
      unfold Corner.code at less
      cases k with
      | zero => exact absurd less (lt_irrefl 0)
      | succ k =>
        rw [Morton.interleave, Morton.interleave, sameOther, sameHalf] at less
        omega

theorem get_prefixAt_le (hand : Hand) (i : Nat) (h : Nat × Nat) :
    hand.get (prefixAt i h) ≤ hand.get h := by
  cases hand <;> exact Nat.div_le_self _ _

theorem Bound.inPlace (bound : Bound k i terms corners) (r : E) :
    (bindHInPlace r (handAt i) (.ofCorners corners) : Exec ε _) =
      .ok (.ofCorners (bindH r (handAt i) corners)) := by
  refine bindHInPlace_eq r (bound.ordered.noWrap fun c member => ?_)
  obtain ⟨term, _, same⟩ := (bound.prefixes c.h).mp ⟨c, member, rfl⟩
  have small : (handAt i).get (operands term) < 2 ^ 32 := by
    cases handAt i
    · exact term.h0.toNat_lt
    · exact term.h1.toNat_lt
  exact (same ▸ get_prefixAt_le (handAt i) i (operands term)).trans_lt small

/-- **A run of rounds**, in place. -/
theorem bound_rounds (rs : List E) (bound : Bound k i terms corners) (room : i + rs.length ≤ k) :
    ∃ left, (bindRounds i rs (.ofCorners corners) : Exec ε _) = .ok (.ofCorners left) ∧
      Bound k (i + rs.length) terms left := by
  induction rs generalizing i corners with
  | nil => exact ⟨corners, rfl, bound⟩
  | cons r rs ih =>
    rw [List.length_cons] at room ⊢
    obtain ⟨left, ran, final⟩ := ih (bound.step (by omega) r) (by omega)
    refine ⟨left, ?_, ?_⟩
    · rw [bindRounds, bound.inPlace, ok_bind, ran]
    · rwa [Nat.add_right_comm] at final

variable {rights lefts : List E}

theorem length_weave (same : rights.length = lefts.length) :
    (weave rights lefts).length = 2 * rights.length := by
  induction rights generalizing lefts with
  | nil => simp [weave]
  | cons right rights ih => match lefts with
    | left :: lefts =>
      rw [weave, List.length_cons, List.length_cons, ih (Nat.succ.inj same), List.length_cons]
      ring

theorem bindRounds_weave (even : i % 2 = 0) (same : rights.length = lefts.length)
    (bound : Bound k i terms corners) (room : i + 2 * rights.length ≤ k) :
    (bindRounds i (weave rights lefts) (.ofCorners corners) : Exec ε _) =
      .ok (.ofCorners (bindAll rights lefts corners)) := by
  induction rights generalizing i lefts corners with
  | nil => cases lefts <;> rfl
  | cons right rights ih => match lefts with
    | left :: lefts =>
      rw [List.length_cons] at room
      have first : handAt i = .right := if_pos even
      have second : handAt (i + 1) = .left := by rw [handAt_succ, first]; rfl
      have next := bound.step (by omega) right
      have after := ih (by omega) (Nat.succ.inj same) (next.step (by omega) left) (by omega)
      rw [weave, bindRounds, bound.inPlace, ok_bind, bindRounds, next.inPlace, ok_bind, after,
        first, second, bindAll]

theorem eqAt_cons (z : E) (point : List E) (i : Nat) :
    eqAt (z :: point) i = bitWeight z i * eqAt point (i / 2) := by
  rw [eqAt_eq_tensor, eqAt_eq_tensor]
  rfl

theorem contract_bindH_left (r : E) (corners : List (Corner E)) (x y : Nat → E) :
    contract .right (bindH r .left corners) x y =
      contract .right corners x (fun i => bitWeight r i * y (i / 2)) :=
  calc contract .right (bindH r .left corners) x y
      = contract .left (bindH r .left corners) y x := contract_other .left _ x y
    _ = contract .left corners (fun i => bitWeight r i * y (i / 2)) x := contract_bindH r .left _ y x
    _ = _ := (contract_other .left _ _ _).symm

theorem contract_bindAll (same : rights.length = lefts.length) (corners : List (Corner E))
    (x y : Nat → E) :
    contract .right (bindAll rights lefts corners) x y =
      contract .right corners
        (fun i => eqAt rights i * x (i / 2 ^ rights.length))
        (fun i => eqAt lefts i * y (i / 2 ^ lefts.length)) := by
  induction rights generalizing lefts corners with
  | nil =>
    obtain rfl : lefts = [] := List.eq_nil_of_length_eq_zero same.symm
    simp [bindAll, eqAt]
  | cons right rights ih =>
    obtain ⟨left, lefts, rfl⟩ := List.exists_cons_of_length_eq_add_one same.symm
    rw [bindAll, ih (Nat.succ.inj same), contract_bindH_left, contract_bindH]
    simp only [eqAt_cons, List.length_cons, pow_succ', Nat.div_div_eq_div_mul, mul_assoc]

end Rounds

/-! ### A layer -/

section Layer

variable [CommRing E] [DecidableEq E]

/-- The coefficient of a term: assertions are weighted with `beta`. -/
def coefficient (beta : E) (term : Term E) : E := if term.k = 0 then beta else term.k

theorem ofCorners_inj {corners' : List (Corner E)}
    (same : HQuad.ofCorners corners = HQuad.ofCorners corners') : corners = corners' := by
  obtain ⟨sameH, sameV⟩ := HQuad.mk.inj same
  induction corners generalizing corners' with
  | nil => exact (List.map_eq_nil_iff.mp sameH.symm).symm
  | cons c corners ih => match corners' with
    | d :: corners' =>
      obtain ⟨hereH, laterH⟩ := List.cons.inj sameH
      obtain ⟨hereV, laterV⟩ := List.cons.inj sameV
      have here : c = d := by
        cases c
        cases d
        exact congrArg₂ Corner.mk hereH hereV
      rw [here, ih (congrArg₂ HQuad.mk laterH laterV) laterH laterV]

/-- The sum over the terms at the points of the outputs and of both hands. -/
def layerValue (alpha beta : E) (g0 g1 rights lefts : List E) (terms : List (Term E)) : E :=
  (terms.map fun term => coefficient beta term *
    (eqAt g0 term.g.toNat + alpha * eqAt g1 term.g.toNat) * eqAt rights term.h0.toNat *
    eqAt lefts term.h1.toNat).sum

/-- **Binding a layer**: after every round the corners are the distinct prefixes of the operands in
order, and after all of them one corner is left, with the value of the layer at the points. -/
theorem bind_layer {layer : Layer} {constants : List E} {logv nv : Nat} {g0 g1 : List E}
    (alpha beta : E) {terms : List (Term E)} (sane : SaneLogw logv) (long0 : logv ≤ g0.length)
    (long1 : logv ≤ g1.length) (outputs : nv ≤ 2 ^ logv)
    (expands : (layer.terms constants : Exec ε _) = .ok terms) (sorted : TermsSorted nv terms)
    {rights lefts : List E} (same : rights.length = lefts.length)
    (fits : ∀ term ∈ terms, term.h0.toNat < 2 ^ rights.length ∧ term.h1.toNat < 2 ^ rights.length) :
    ∃ corners, (bindG layer constants logv nv g0 g1 alpha beta : Exec ε _) = .ok corners ∧
      (∀ i ≤ 2 * rights.length, ∃ left,
        (bindRounds 0 ((weave rights lefts).take i) (.ofCorners corners) : Exec ε _) =
          .ok (.ofCorners left) ∧ Bound (2 * rights.length) i terms left) ∧
      (bindRounds 0 (weave rights lefts) (.ofCorners corners) : Exec ε _) = .ok ⟨[(0, 0)],
        [layerValue alpha beta (g0.take logv) (g1.take logv) rights lefts terms]⟩ := by
  obtain ⟨nonempty, inRange, order, start⟩ := sorted
  have positive : 0 < nv := by
    obtain ⟨term, member⟩ := List.exists_mem_of_ne_nil _ nonempty
    exact Nat.zero_lt_of_lt (inRange term member)
  obtain ⟨dot, weights, size, entries⟩ := eq2_getElem? (ε := ε) long0 long1 positive outputs alpha
  have half : (2 * rights.length + 1) / 2 = rights.length ∧ 2 * rights.length / 2 = rights.length := by
    omega
  have bindable : Bindable dot (2 * rights.length) terms := by
    refine ⟨fun term member => size ▸ inRange term member, fun term member => ?_, order, ?_⟩
    · rw [Morton.Fits, half.1, half.2]
      exact fits term member
    · exact fun first isFirst marked => start first isFirst (Prod.ext_iff.mp marked)
  obtain ⟨corners, ran, -, ordered, operandsOf, value⟩ :=
    bindG_spec alpha beta sane weights expands bindable nonempty
  have bound : Bound (2 * rights.length) 0 terms corners :=
    ⟨ordered, by simpa only [prefixAt_zero] using operandsOf⟩
  have rounds := length_weave same
  refine ⟨corners, ran, fun i low => ?_, ?_⟩
  · have size : ((weave rights lefts).take i).length = i := by
      rw [List.length_take, rounds, min_eq_left low]
    obtain ⟨left, run, final⟩ := bound_rounds (ε := ε) ((weave rights lefts).take i) bound
      (by rw [size, Nat.zero_add]; exact low)
    rw [size, Nat.zero_add] at final
    exact ⟨left, run, final⟩
  · have whole := bindRounds_weave (ε := ε) rfl same bound (Nat.zero_add _).le
    obtain ⟨left, run, final⟩ := bound_rounds (ε := ε) (weave rights lefts) bound
      (by rw [rounds, Nat.zero_add])
    have isLeft : bindAll rights lefts corners = left := ofCorners_inj (Except.ok.inj (whole.symm.trans run))
    obtain ⟨term, member⟩ := List.exists_mem_of_ne_nil _ nonempty
    obtain ⟨c, isCorner, _⟩ := (final.prefixes _).mpr ⟨term, member, rfl⟩
    have ordered := final.ordered
    rw [rounds, Nat.zero_add, Nat.sub_self] at ordered
    obtain ⟨v, single, _⟩ := ordered.scalar_eq (ε := ε) (List.ne_nil_of_mem isCorner)
    have total := contract_bindAll same corners (fun _ => 1) (fun _ => 1)
    rw [isLeft, single, value] at total
    simp only [contract_cons, contract_nil, mul_one, add_zero] at total
    rw [run, single, total]
    refine congrArg (fun v => Except.ok (HQuad.mk [(0, 0)] [v])) (congrArg List.sum
      (List.map_congr_left fun term member => ?_))
    have entry := entries term.g.toNat (inRange term member)
    rw [termWeight, List.getD_eq_getElem?_getD, entry]
    simp only [Option.getD_some, coefficient, operands, mul_assoc]

end Layer

/-- A layer of two terms with the same operands, one of them an assertion. -/
theorem bind_layer_two : ∃ corners, (bindG (Layer.newUncompressed 2 1 [⟨1, 1, 0, 0⟩, ⟨0, 0, 0, 1⟩]
    [0, 1]) [3, 0] 1 2 [5] [7] 2 11 : Exec String (List (Corner ℤ))) = .ok corners ∧
      (∀ i ≤ 2, ∃ left, (bindRounds 0 ((weave [4] [6]).take i) (.ofCorners corners) :
        Exec String _) = .ok (.ofCorners left) ∧ Bound 2 i [⟨3, 1, 1, 0⟩, ⟨0, 1, 1, 0⟩] left) ∧
      (bindRounds 0 (weave [4] [6]) (.ofCorners corners) : Exec String _) = .ok ⟨[(0, 0)],
        [layerValue 2 11 [5] [7] [4] [6] [⟨3, 1, 1, 0⟩, ⟨0, 1, 1, 0⟩]]⟩ :=
  @bind_layer String ℤ _ _ (Layer.newUncompressed 2 1 [⟨1, 1, 0, 0⟩, ⟨0, 0, 0, 1⟩] [0, 1]) [3, 0] 1 2
    [5] [7] 2 11 [⟨3, 1, 1, 0⟩, ⟨0, 1, 1, 0⟩] (by decide) (by decide) (by decide) (by decide) rfl
    ⟨by decide, by decide, by decide, by rintro _ ⟨⟩; decide⟩ [4] [6] rfl (by decide)

/-- A layer without terms leaves no corner. -/
theorem bind_layer_empty : ¬ ∀ (layer : Layer) (terms : List (Term ℤ)) (rights lefts : List ℤ),
    (layer.terms [] : Exec String _) = .ok terms →
    (terms.Pairwise fun s t => Morton.cmp s.h0.toNat s.h1.toNat t.h0.toNat t.h1.toNat ≠ .gt) →
    (∀ term ∈ terms, term.g.toNat < 1) → rights.length = lefts.length →
    (∀ term ∈ terms, term.h0.toNat < 2 ^ rights.length ∧ term.h1.toNat < 2 ^ rights.length) →
    ∃ corners, (bindG layer [] 0 1 [] [] 1 1 : Exec String _) = .ok corners ∧
      (bindRounds 0 (weave rights lefts) (.ofCorners corners) : Exec String _) = .ok ⟨[(0, 0)],
        [layerValue 1 1 [] [] rights lefts terms]⟩ := by
  intro all
  obtain ⟨corners, bound, ran⟩ := all ⟨1, 0, [], [], []⟩ [] [] [] rfl .nil (by simp) rfl (by simp)
  obtain rfl : [] = corners := Except.ok.inj bound
  exact absurd (Except.ok.inj ran) (by decide)

end Longfellow.SumcheckV1
