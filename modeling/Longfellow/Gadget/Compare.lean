/-
**Comparisons and selections** (`circuits/arithmetic/src/circuit.rs`,
`circuits/bitvec/src/circuit.rs`, `circuits/boolean/src/circuit.rs`).

* `eqb_returns`, `lt_returns`, `leq_returns` — the comparisons of two vectors as trees of pairs of
  bits, and **the orders that they decide**.
-/

import Longfellow.Gadget.Bitvec

set_option linter.unusedSectionVars false

namespace Longfellow.Gadget

open Lib CompileField

variable {E : Type} [CompileField E] [DecidableEq E]

namespace Boolean

def impliesb (a b : Bitw E) : Bitw E := orb b (notb a)

/-- The data at the bit that is set. -/
def oneHotMuxb (selector : List (Bitw E)) (data : ℕ → Bitw E) : Bitw E :=
  sumAssumingAtMostOneTrue (selector.zipIdx.map fun x => andb x.1 (data x.2))

def oneHotMuxe (selector : List (Bitw E)) (data : ℕ → Wire E) : Wire E :=
  Logic.sum (selector.zipIdx.map fun x => mulbe x.1 (data x.2))

end Boolean

namespace Arithmetic

open Boolean

/-- Fold two vectors as a balanced tree. -/
def fold2 {R : Type} (a b : List (Bitw E)) (f : R → R → R) (base : Bitw E → Bitw E → R)
    (default : R) : Exec String R := do
  ensure (a.length = b.length) "fold2: slice lengths must match"
  return fold f (fun x => base x.1 x.2) default (a.zip b)

def eqb (a b : List (Bitw E)) : Exec String (Bitw E) := do
  ensure (a.length = b.length) "eqb: slice lengths must match"
  fold2 a b treeAndb Boolean.eqb .true

/-- Whether the low parts are equal and whether they are in order, with the same of the high
parts. -/
def ltReduce (a b : Bitw E × Bitw E) : Bitw E × Bitw E :=
  (treeAndb (precious a.1) (precious b.1),
    orAssumingAtMostOneTrue (precious b.2) (andb (precious b.1) (precious a.2)))

def ltBase (a b : Bitw E) : Bitw E × Bitw E := (Boolean.eqb a b, ltb a b)

def lt (a b : List (Bitw E)) : Exec String (Bitw E) := do
  ensure (a.length = b.length) "lt: slice lengths must match"
  let res ← fold2 a b ltReduce ltBase (.true, .false)
  return res.2

def leq (a b : List (Bitw E)) : Exec String (Bitw E) := do
  ensure (a.length = b.length) "leq: slice lengths must match"
  return notb (← lt b a)

/-- A number of 64 bits as a vector of constants. -/
def ofU64 (n z : ℕ) : Exec String (List (Bitw E)) := do
  if n < 64 then ensure (z < 2 ^ n) "of_u64: integer does not fit"
  return (List.range n).map fun i => konst (z.testBit i)

/-- A relation to a constant. -/
def relint (f : List (Bitw E) → List (Bitw E) → Exec String (Bitw E)) (a : List (Bitw E))
    (i : ℕ) : Exec String (Bitw E) := do
  f a (← ofU64 a.length i)

def oneHotMux (n : ℕ) (selector : List (Bitw E)) (data : ℕ → List (Bitw E)) :
    Exec String (List (Bitw E)) := do
  let addends ← (List.range selector.length).mapM fun i => do
    ensure ((data i).length = n) "one_hot_mux: arrays of different length"
    return data i
  return (List.range n).map fun j =>
    oneHotMuxb selector fun i => (addends.getD i []).getD j .false

end Arithmetic

namespace Bitvec

variable {n : ℕ} {s : Bool}

def zero (n : ℕ) : Bitvec E n := ⟨(List.range n).map fun _ => .false, by simp⟩

def eqb (a b : Bitvec E n) : Exec String (Bitw E) := Arithmetic.eqb a.bits b.bits

def lt (a b : Bitvec E n) : Exec String (Bitw E) := Arithmetic.lt a.bits b.bits

def leq (a b : Bitvec E n) : Exec String (Bitw E) := Arithmetic.leq a.bits b.bits

def ofU64 (n z : ℕ) : Exec String (Bitvec E n) := do new n (← Arithmetic.ofU64 n z)

def ofU8 (z : UInt8) : Exec String (Bitvec E 8) := ofU64 8 z.toNat

/-- One of two vectors, by a bit. -/
def select (b : Bitw E) (iftrue iffalse : Bitvec E n) : Bitvec E n :=
  ⟨List.zipWith (Boolean.muxb b) iftrue.bits iffalse.bits, by
    rw [List.length_zipWith, iftrue.size, iffalse.size, min_self]⟩

def oneHotMux (selector : List (Bitw E)) (data : ℕ → Bitvec E n) : Exec String (Bitvec E n) := do
  new n (← Arithmetic.oneHotMux n selector fun i => (data i).bits)

end Bitvec

/-! ### Bits -/

namespace Boolean

variable {a b : Bitw E} {t : Bool}

theorem impliesb_encodes (ha : a.Encodes s) (hb : b.Encodes t) :
    (impliesb a b).Encodes (t || !s) := orb_encodes hb (notb_encodes ha)

end Boolean

/-- Bits of which exactly one is set. -/
def OneHot (selector : List (Bitw E)) (c chosen : ℕ) : Prop :=
  List.Forall₂ Bitw.Encodes selector ((List.range c).map fun i => decide (i = chosen))

variable {selector : List (Bitw E)} {c chosen : ℕ}

theorem OneHot.length_eq (hot : OneHot selector c chosen) : selector.length = c := by
  have size := List.Forall₂.length_eq hot
  rwa [List.length_map, List.length_range] at size

variable {data : ℕ → Bitw E} {values : ℕ → Bool}

theorem selection_terms {k : ℕ}
    (hot : List.Forall₂ Bitw.Encodes selector ((List.range' k c).map fun i => decide (i = chosen)))
    (each : ∀ i, k ≤ i → i < k + c → (data i).Encodes (values i)) :
    List.Forall₂ Wire.Is
      (((selector.zipIdx k).map fun x => Boolean.andb x.1 (data x.2)).map Boolean.asEltw)
      ((List.range' k c).map fun i => bit E (decide (i = chosen) && values i)) := by
  induction c generalizing k selector with
  | zero =>
    obtain rfl := List.forall₂_nil_right_iff.mp hot
    exact .nil
  | succ c ih =>
    rw [List.range'_succ, List.map_cons] at hot
    obtain ⟨first, rest, head, tail, rfl⟩ := List.forall₂_cons_right_iff.mp hot
    rw [List.range'_succ, List.zipIdx_cons]
    have both := Boolean.andb_encodes head (each k le_rfl (by omega))
    exact .cons (Boolean.asEltw_is both)
      (ih tail fun i above below => each i (by omega) (by omega))

theorem sum_selection (values : ℕ → Bool) (k c chosen : ℕ) :
    ((List.range' k c).map fun i => bit E (decide (i = chosen) && values i)).sum =
      if k ≤ chosen ∧ chosen < k + c then bit E (values chosen) else 0 := by
  induction c generalizing k with
  | zero => rw [if_neg (by omega)]; rfl
  | succ c ih =>
    rw [List.range'_succ, List.map_cons, List.sum_cons, ih]
    by_cases here : k = chosen
    · subst here
      rw [if_neg (by omega), if_pos (by omega)]
      simp
    · have same : (k + 1 ≤ chosen ∧ chosen < k + 1 + c) ↔ (k ≤ chosen ∧ chosen < k + (c + 1)) := by
        omega
      simp only [same, decide_eq_false here, Bool.false_and, bit_false, zero_add]

/-- **The selection is the data at the bit that is set.** -/
theorem oneHotMuxb_encodes (hot : OneHot selector c chosen) (inside : chosen < c)
    (each : ∀ i < c, (data i).Encodes (values i)) :
    (Boolean.oneHotMuxb selector data).Encodes (values chosen) := by
  rw [OneHot, List.range_eq_range'] at hot
  have terms := selection_terms hot fun i _ below => each i (by omega)
  refine (Wire.Is.sum terms).congr ?_
  rw [sum_selection, if_pos (by omega)]

theorem wire_selection_terms {k : ℕ}
    (hot : List.Forall₂ Bitw.Encodes selector ((List.range' k c).map fun i => decide (i = chosen)))
    {data : ℕ → Wire E} {values : ℕ → E} (each : ∀ i, k ≤ i → i < k + c → (data i).Is (values i)) :
    List.Forall₂ Wire.Is ((selector.zipIdx k).map fun x => Boolean.mulbe x.1 (data x.2))
      ((List.range' k c).map fun i => if decide (i = chosen) then values i else 0) := by
  induction c generalizing k selector with
  | zero =>
    obtain rfl := List.forall₂_nil_right_iff.mp hot
    exact .nil
  | succ c ih =>
    rw [List.range'_succ, List.map_cons] at hot
    obtain ⟨first, rest, head, tail, rfl⟩ := List.forall₂_cons_right_iff.mp hot
    rw [List.range'_succ, List.zipIdx_cons]
    exact .cons (Boolean.mulbe_is head (each k le_rfl (by omega)))
      (ih tail fun i above below => each i (by omega) (by omega))

/-- **The selection is the wire at the bit that is set.** -/
theorem oneHotMuxe_is (hot : OneHot selector c chosen) (inside : chosen < c) {data : ℕ → Wire E}
    {values : ℕ → E} (each : ∀ i < c, (data i).Is (values i)) :
    (Boolean.oneHotMuxe selector data).Is (values chosen) := by
  rw [OneHot, List.range_eq_range'] at hot
  have terms := wire_selection_terms hot fun i _ below => each i (by omega)
  refine (Wire.Is.sum terms).congr ?_
  simp only [decide_eq_true_eq]
  rw [List.sum_map_ite_eq, List.count_eq_one_of_mem List.nodup_range'
    (List.mem_range'_1.mpr ⟨Nat.zero_le _, by omega⟩), one_nsmul, sub_zero, List.map_const',
    List.sum_replicate, nsmul_zero, add_zero]

/-! ### Vectors -/

namespace Arithmetic

variable {a b : List (Bitw E)} {xs ys : List Bool}

theorem fold2_rel {R M : Type} {f : R → R → R} {base : Bitw E → Bitw E → R} {default : R}
    {op : M → M → M} {unit : M} {value : Bool → Bool → M} (rel : R → M → Prop)
    (assoc : ∀ x y z, op (op x y) z = op x (op y z)) (left : ∀ x, op unit x = x)
    (right : ∀ x, op x unit = x) (start : rel default unit)
    (leaf : ∀ {a b : Bitw E} {s t : Bool}, a.Encodes s → b.Encodes t → rel (base a b) (value s t))
    (step : ∀ {r q x y}, rel r x → rel q y → rel (f r q) (op x y))
    (each : List.Forall₂ Bitw.Encodes a xs) (each' : List.Forall₂ Bitw.Encodes b ys)
    (size : xs.length = ys.length) :
    ∃ r, fold2 a b f base default = .ok r ∧ rel r ((List.zipWith value xs ys).foldr op unit) := by
  have leaves : List.Forall₂ (fun x y => rel (base x.1 x.2) y) (a.zip b)
      (List.zipWith value xs ys) :=
    forall₂_zipWith (f := Prod.mk) (g := value) leaf each each'
  refine ⟨_, ?_, Boolean.fold_rel rel assoc left right start leaves step⟩
  rw [fold2, ensure_of (by rw [each.length_eq, each'.length_eq, size]), ok_bind, pure_eq_ok]

theorem foldr_eqs (size : xs.length = ys.length) :
    (List.zipWith (· == ·) xs ys).foldr (· && ·) true = decide (xs = ys) := by
  induction xs generalizing ys with
  | nil => rw [List.eq_nil_of_length_eq_zero size.symm]; rfl
  | cons x xs ih =>
    match ys with
    | y :: ys =>
      rw [List.zipWith_cons_cons, List.foldr_cons, ih (Nat.succ.inj size)]
      by_cases same : x = y <;> simp [same]

/-- **Two vectors are compared for equality.** -/
theorem eqb_returns (each : List.Forall₂ Bitw.Encodes a xs)
    (each' : List.Forall₂ Bitw.Encodes b ys) (size : xs.length = ys.length) :
    ∃ c, eqb a b = .ok c ∧ c.Encodes (decide (xs = ys)) := by
  obtain ⟨c, ran, holds⟩ := fold2_rel Bitw.Encodes Bool.and_assoc Bool.true_and Bool.and_true
    (show (Bitw.true : Bitw E).Encodes true from rfl) Boolean.eqb_encodes Boolean.treeAndb_encodes
    each each' size
  rw [foldr_eqs size] at holds
  refine ⟨c, ?_, holds⟩
  rw [eqb, ensure_of (by rw [each.length_eq, each'.length_eq, size]), ok_bind, ran]

/-- Whether two parts are equal and in order, from the same of a low and a high part. -/
def ltOp (low high : Bool × Bool) : Bool × Bool := (low.1 && high.1, high.2 || high.1 && low.2)

/-- A pair of bits, of which not both are set. -/
def LtPair (r : Bitw E × Bitw E) (m : Bool × Bool) : Prop :=
  r.1.Encodes m.1 ∧ r.2.Encodes m.2 ∧ ¬ (m.1 = true ∧ m.2 = true)

theorem ltReduce_pair {r q : Bitw E × Bitw E} {x y : Bool × Bool} (low : LtPair r x)
    (high : LtPair q y) : LtPair (ltReduce r q) (ltOp x y) := by
  obtain ⟨lowEq, lowLt, lowOnce⟩ := low
  obtain ⟨highEq, highLt, highOnce⟩ := high
  refine ⟨?_, ?_, ?_⟩
  · exact Boolean.treeAndb_encodes (Boolean.precious_encodes lowEq) (Boolean.precious_encodes highEq)
  · refine Boolean.orAssumingAtMostOneTrue_encodes (Boolean.precious_encodes highLt)
      (Boolean.andb_encodes (Boolean.precious_encodes highEq) (Boolean.precious_encodes lowLt)) ?_
    rintro ⟨less, carried⟩
    exact highOnce ⟨(Bool.and_eq_true_iff.mp carried).1, less⟩
  · obtain ⟨x1, x2⟩ := x
    obtain ⟨y1, y2⟩ := y
    revert lowOnce highOnce
    cases x1 <;> cases x2 <;> cases y1 <;> cases y2 <;> decide

theorem ltOp_assoc (x y z : Bool × Bool) : ltOp (ltOp x y) z = ltOp x (ltOp y z) := by
  obtain ⟨x1, x2⟩ := x
  obtain ⟨y1, y2⟩ := y
  obtain ⟨z1, z2⟩ := z
  cases x1 <;> cases x2 <;> cases y1 <;> cases y2 <;> cases z1 <;> cases z2 <;> rfl

theorem ltOp_left (x : Bool × Bool) : ltOp (true, false) x = x := by
  obtain ⟨x1, x2⟩ := x
  cases x1 <;> cases x2 <;> rfl

theorem ltOp_right (x : Bool × Bool) : ltOp x (true, false) = x := by
  obtain ⟨x1, x2⟩ := x
  cases x1 <;> cases x2 <;> rfl

theorem ltBase_pair {a b : Bitw E} {t : Bool} (ha : a.Encodes s) (hb : b.Encodes t) :
    LtPair (ltBase a b) (s == t, t && !s) :=
  ⟨Boolean.eqb_encodes ha hb, Boolean.ltb_encodes ha hb, by cases s <;> cases t <;> decide⟩

theorem foldr_lts (size : xs.length = ys.length) :
    (List.zipWith (fun x y => (x == y, y && !x)) xs ys).foldr ltOp (true, false) =
      (decide (natBits xs = natBits ys), decide (natBits xs < natBits ys)) := by
  induction xs generalizing ys with
  | nil => rw [List.eq_nil_of_length_eq_zero size.symm]; rfl
  | cons x xs ih =>
    match ys with
    | y :: ys =>
      rw [List.zipWith_cons_cons, List.foldr_cons, ih (Nat.succ.inj size), natBits_cons,
        natBits_cons, ltOp]
      generalize natBits xs = m
      generalize natBits ys = n
      have low := Bool.toNat_le x
      have low' := Bool.toNat_le y
      refine Prod.ext (Bool.eq_iff_iff.mpr ?_) (Bool.eq_iff_iff.mpr ?_)
      · simp only [Bool.and_eq_true, beq_iff_eq, decide_eq_true_eq]
        cases x <;> cases y <;> simp <;> omega
      · simp only [Bool.or_eq_true, Bool.and_eq_true, decide_eq_true_eq, Bool.not_eq_true']
        cases x <;> cases y <;> simp <;> omega

section

variable (each : List.Forall₂ Bitw.Encodes a xs) (each' : List.Forall₂ Bitw.Encodes b ys)
  (size : xs.length = ys.length)
include each each' size

/-- **Two vectors are compared as numbers.** -/
theorem lt_returns :
    ∃ c, lt a b = .ok c ∧ c.Encodes (decide (natBits xs < natBits ys)) := by
  have start : LtPair ((.true, .false) : Bitw E × Bitw E) (true, false) := ⟨rfl, rfl, by decide⟩
  obtain ⟨r, ran, holds⟩ := fold2_rel LtPair ltOp_assoc ltOp_left ltOp_right start ltBase_pair
    ltReduce_pair each each' size
  rw [foldr_lts size] at holds
  refine ⟨r.2, ?_, holds.2.1⟩
  rw [lt, ensure_of (by rw [each.length_eq, each'.length_eq, size]), ok_bind, ran, ok_bind,
    pure_eq_ok]

theorem leq_returns :
    ∃ c, leq a b = .ok c ∧ c.Encodes (decide (natBits xs ≤ natBits ys)) := by
  obtain ⟨c, ran, holds⟩ := lt_returns each' each size.symm
  refine ⟨Boolean.notb c, ?_, ?_⟩
  · rw [leq, ensure_of (by rw [each.length_eq, each'.length_eq, size]), ok_bind, ran, ok_bind,
      pure_eq_ok]
  · have flipped : (!decide (natBits ys < natBits xs)) = decide (natBits xs ≤ natBits ys) := by
      rw [Bool.eq_iff_iff]
      simp
    exact flipped ▸ Boolean.notb_encodes holds

end

/-- The bits of a number. -/
def bitsOfNat (n z : ℕ) : List Bool := (List.range n).map z.testBit

theorem ofU64_returns {n z : ℕ} (fits : z < 2 ^ n) :
    ∃ bits : List (Bitw E), ofU64 n z = .ok bits ∧ List.Forall₂ Bitw.Encodes bits (bitsOfNat n z) := by
  refine ⟨(List.range n).map fun i => Boolean.konst (z.testBit i), ?_, ?_⟩
  · rw [ofU64]
    split
    · rw [ensure_of fits, ok_bind, pure_eq_ok]
    · rfl
  · rw [bitsOfNat, List.forall₂_map_left_iff, List.forall₂_map_right_iff, List.forall₂_same]
    exact fun i _ => Boolean.konst_encodes _

theorem getD_related {α β : Type} {r : α → β → Prop} {as : List α} {bs : List β} {d : α} {e : β}
    (each : List.Forall₂ r as bs) (outside : r d e) (j : ℕ) : r (as.getD j d) (bs.getD j e) := by
  induction each generalizing j with
  | nil => exact outside
  | cons head _ ih => cases j with
    | zero => exact head
    | succ j => exact ih j

theorem range_map_getD {α : Type} (xs : List α) (d : α) :
    (List.range xs.length).map (fun j => xs.getD j d) = xs := by
  apply List.ext_getElem (by simp)
  intro j inside _
  have inside' : j < xs.length := by simpa using inside
  rw [List.getElem_map, List.getElem_range, List.getD_eq_getElem _ d inside']

/-- **A selection between vectors.** -/
theorem oneHotMux_returns {selector : List (Bitw E)} {c chosen n : ℕ}
    (hot : OneHot selector c chosen) (inside : chosen < c) {data : ℕ → List (Bitw E)}
    {values : ℕ → List Bool} (each : ∀ i < c, List.Forall₂ Bitw.Encodes (data i) (values i))
    (sized : ∀ i < c, (values i).length = n) :
    ∃ r, oneHotMux n selector data = .ok r ∧
      List.Forall₂ Bitw.Encodes r (values chosen) := by
  have count := hot.length_eq
  have addends : ((List.range selector.length).mapM fun i => (do
      ensure ((data i).length = n) "one_hot_mux: arrays of different length"
      return data i : Exec String _)) = .ok ((List.range selector.length).map data) := by
    apply mapM_eq_ok_map
    intro i member
    have below : i < c := count ▸ List.mem_range.mp member
    rw [ensure_of ((each i below).length_eq.trans (sized i below)), ok_bind, pure_eq_ok]
  refine ⟨(List.range n).map fun j => Boolean.oneHotMuxb selector fun i =>
    (((List.range selector.length).map data).getD i []).getD j .false, ?_, ?_⟩
  · rw [oneHotMux, addends, ok_bind, pure_eq_ok]
  · rw [← range_map_getD (values chosen) false, sized chosen inside, List.forall₂_map_left_iff,
      List.forall₂_map_right_iff, List.forall₂_same]
    intro j _
    have bitwise : ∀ i < c,
        ((((List.range selector.length).map data).getD i []).getD j .false).Encodes
          ((fun i => (values i).getD j false) i) := by
      intro i below
      have stored : ((List.range selector.length).map data).getD i [] = data i := by
        simp [count, below]
      rw [stored]
      exact getD_related (each i below) (show (Bitw.false : Bitw E).Encodes false from rfl) j
    exact oneHotMuxb_encodes hot inside bitwise

end Arithmetic

namespace Bitvec

variable {n : ℕ} {a b : Bitvec E n} {x y : BitVec n}

theorem bitsOfNat_eq_bitsOf {z : ℕ} : Arithmetic.bitsOfNat n z = bitsOf (BitVec.ofNat n z) := by
  apply List.map_congr_left
  intro i member
  rw [BitVec.getLsbD_ofNat, decide_eq_true (List.mem_range.mp member), Bool.true_and]

theorem natBits_bitsOfNat (n z : ℕ) : natBits (Arithmetic.bitsOfNat n z) = z % 2 ^ n := by
  induction n generalizing z with
  | zero => rw [pow_zero, Nat.mod_one]; rfl
  | succ n ih =>
    have split : Arithmetic.bitsOfNat (n + 1) z =
        z.testBit 0 :: Arithmetic.bitsOfNat n (z / 2) := by
      rw [Arithmetic.bitsOfNat, List.range_succ_eq_map, List.map_cons, List.map_map]
      congr 1
      exact List.map_congr_left fun i _ => Nat.testBit_succ z i
    rw [split, natBits_cons, ih, pow_succ', Nat.mod_mul, Nat.testBit_zero]
    congr 1
    rcases Nat.mod_two_eq_zero_or_one z with even | odd
    · rw [even]; rfl
    · rw [odd]; rfl

theorem bitsOfNat_eq_iff {y z : ℕ} :
    Arithmetic.bitsOfNat n y = Arithmetic.bitsOfNat n z ↔ y % 2 ^ n = z % 2 ^ n := by
  rw [← natBits_bitsOfNat, ← natBits_bitsOfNat]
  exact ⟨congrArg natBits, natBits_injective (by simp [Arithmetic.bitsOfNat])⟩

theorem natBits_bitsOf (x : BitVec n) : natBits (bitsOf x) = x.toNat := by
  have bits := bitsOfNat_eq_bitsOf (n := n) (z := x.toNat)
  rw [BitVec.ofNat_toNat, BitVec.setWidth_eq] at bits
  rw [← bits, natBits_bitsOfNat, Nat.mod_eq_of_lt x.isLt]

theorem zero_holds : (zero n : Bitvec E n).Holds 0 := by
  rw [Holds, Encodes, zero, bitsOf, List.forall₂_map_left_iff, List.forall₂_map_right_iff,
    List.forall₂_same]
  exact fun i _ => BitVec.getLsbD_zero

theorem ofU64_holds {z : ℕ} (fits : z < 2 ^ n) :
    ∃ v : Bitvec E n, ofU64 n z = .ok v ∧ v.Holds (BitVec.ofNat n z) := by
  obtain ⟨bits, ran, holds⟩ := Arithmetic.ofU64_returns (E := E) fits
  rw [bitsOfNat_eq_bitsOf] at holds
  have size : bits.length = n := by rw [holds.length_eq, length_bitsOf]
  exact ⟨⟨bits, size⟩, by rw [ofU64, ran, ok_bind, new_eq_ok size], holds⟩

theorem ofU8_holds (z : UInt8) : ∃ v : Bitvec E 8, ofU8 z = .ok v ∧ v.Holds z.toBitVec := by
  have word : BitVec.ofNat 8 z.toNat = z.toBitVec := BitVec.ofNat_toNat 8 z.toBitVec
  exact word ▸ ofU64_holds z.toNat_lt

theorem eqb_returns (left : a.Holds x) (right : b.Holds y) :
    ∃ c, eqb a b = .ok c ∧ c.Encodes (decide (x = y)) := by
  obtain ⟨c, ran, holds⟩ := Arithmetic.eqb_returns left right (by simp)
  refine ⟨c, ran, ?_⟩
  simpa only [bitsOf_injective.eq_iff] using holds

theorem lt_returns (left : a.Holds x) (right : b.Holds y) :
    ∃ c, lt a b = .ok c ∧ c.Encodes (decide (x.toNat < y.toNat)) := by
  obtain ⟨c, ran, holds⟩ := Arithmetic.lt_returns left right (by simp)
  rw [natBits_bitsOf, natBits_bitsOf] at holds
  exact ⟨c, ran, holds⟩

theorem leq_returns (left : a.Holds x) (right : b.Holds y) :
    ∃ c, leq a b = .ok c ∧ c.Encodes (decide (x.toNat ≤ y.toNat)) := by
  obtain ⟨c, ran, holds⟩ := Arithmetic.leq_returns left right (by simp)
  rw [natBits_bitsOf, natBits_bitsOf] at holds
  exact ⟨c, ran, holds⟩

theorem select_encodes {c : Bitw E} (chosen : c.Encodes s) {as bs : List (Bitw E)}
    {xs ys : List Bool} (left : List.Forall₂ Bitw.Encodes as xs)
    (right : List.Forall₂ Bitw.Encodes bs ys) (size : xs.length = ys.length) :
    List.Forall₂ Bitw.Encodes (List.zipWith (Boolean.muxb c) as bs) (if s then xs else ys) := by
  induction left generalizing bs ys with
  | nil => cases right with
    | nil => cases s <;> exact .nil
    | cons _ _ => exact absurd size.symm (Nat.succ_ne_zero _)
  | cons head _ ih => cases right with
    | nil => exact absurd size (Nat.succ_ne_zero _)
    | cons head' rest' =>
      have first := Boolean.muxb_encodes chosen head head'
      have later := ih rest' (Nat.succ.inj size)
      cases s <;> exact .cons first later

theorem select_holds {c : Bitw E} (chosen : c.Encodes s) (left : a.Holds x)
    (right : b.Holds y) : (select c a b).Holds (if s then x else y) := by
  have chosenBits := select_encodes chosen left right (by simp)
  rwa [← apply_ite bitsOf] at chosenBits

theorem oneHotMux_holds {selector : List (Bitw E)} {c chosen : ℕ} (hot : OneHot selector c chosen)
    (inside : chosen < c) {data : ℕ → Bitvec E n} {values : ℕ → BitVec n}
    (each : ∀ i < c, (data i).Holds (values i)) :
    ∃ r, oneHotMux selector data = .ok r ∧ r.Holds (values chosen) := by
  obtain ⟨bits, ran, holds⟩ := Arithmetic.oneHotMux_returns hot inside each fun i _ =>
    length_bitsOf (values i)
  have size : bits.length = n := by rw [holds.length_eq, length_bitsOf]
  exact ⟨⟨bits, size⟩, by rw [oneHotMux, ran, ok_bind, new_eq_ok size], holds⟩

end Bitvec

end Longfellow.Gadget
