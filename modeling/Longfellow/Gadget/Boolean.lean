/-
**Bits of a circuit** (`circuits/boolean/src/circuit.rs`).

A bit is a constant, a wire that holds the bit, a wire that holds its negation, or, where two is
not zero, a wire that holds `1` for false and `-1` for true. The operations choose their formula
by the representations of their operands.

* `andb_encodes`, `xorb_encodes`, `parity_encodes`, … — **the operations compute the truth
  tables**, in every field and for every representation.
-/

import Longfellow.Gadget.Logic

set_option linter.unusedSectionVars false

namespace Longfellow.Gadget

/-- The numeral two of a ring. -/
local instance two_atLeastTwo : Nat.AtLeastTwo 2 := inferInstance

/-- A bit. The last representation exists only where two is not zero. -/
inductive Bitw (E : Type) [CompileField E] where
  | true
  | false
  | p (x : Wire E)
  | n (x : Wire E)
  | x (odd : (2 : E) ≠ 0) (x : Wire E)

variable {E : Type} [CompileField E] [DecidableEq E]

namespace Boolean

open Logic CompileField

def konst : Bool → Bitw E
  | .true => .true
  | .false => .false

/-- The bit as a wire that holds zero or one. -/
def asEltw : Bitw E → Wire E
  | .false => zero
  | .true => one
  | .p x => x
  | .n x => sub one x
  | .x _ x => sum [Logic.konst half, mulk (-half) x]

def positive (x : Bitw E) : Bitw E := .p (asEltw x)

/-- The bit as a wire that holds one or minus one. -/
def asX : Bitw E → Wire E
  | .true => Logic.konst (-1)
  | .false => one
  | .p x => sum [one, mulk (-2) x]
  | .n x => sum [Logic.konst (-1), mulk 2 x]
  | .x _ x => x

def precious : Bitw E → Bitw E
  | .true => .true
  | .false => .false
  | .p x => .p (Logic.precious x)
  | .n x => .n (Logic.precious x)
  | .x odd x => .x odd (Logic.precious x)

/-- A wire as a bit: it carries the assertion that it holds zero or one. -/
def ofEltw (x : Wire E) : Bitw E :=
  .p (withAssertions (assert0 "is_boolean" (sub x (mul x x))) x)

def ofEltwWithAssertion (x : Wire E) (assertion : Assertions) : Bitw E :=
  .p (withAssertions assertion x)

def notb : Bitw E → Bitw E
  | .true => .false
  | .false => .true
  | .p x => .n x
  | .n x => .p x
  | .x odd x => .x odd (neg x)

def orAssumingAtMostOneTrue : Bitw E → Bitw E → Bitw E
  | .true, _ => .true
  | _, .true => .true
  | .false, b => b
  | a, .false => a
  | .p x, .p y => .p (add x y)
  | .p x, .n y => .n (sub y x)
  | .n x, .p y => .n (sub x y)
  | .n x, .n y => .n (sum [x, y, neg one])
  | a, b => .p (add (asEltw a) (asEltw b))

def sumAssumingAtMostOneTrue (a : List (Bitw E)) : Bitw E := .p (sum (a.map asEltw))

/-- A bit and the negation of a wire. -/
def andNot (x y : Wire E) : Bitw E := .p (sum [Logic.precious x, neg (mul x y)])

def andb : Bitw E → Bitw E → Bitw E
  | .true, b => b
  | a, .true => a
  | .false, _ => .false
  | _, .false => .false
  | .p x, .p y => .p (mul x y)
  | .p x, .n y => andNot x y
  | .n x, .p y => andNot y x
  | .n x, .n y => .n (sum [Logic.precious x, Logic.precious y, neg (mul x y)])
  | a, b => .p (mul (asEltw a) (asEltw b))

def treeAndb (a b : Bitw E) : Bitw E := positive (andb a b)

def orb (a b : Bitw E) : Bitw E := notb (andb (notb a) (notb b))

def treeOrb (a b : Bitw E) : Bitw E := notb (treeAndb (notb a) (notb b))

def xorBase (x y : Wire E) : Wire E :=
  if (2 : E) = 0 then add x y
  else sum [Logic.precious x, Logic.precious y, mulk (-2) (mul x y)]

/-- Negations move out of the exclusive or. -/
def xorb : Bitw E → Bitw E → Bitw E
  | .false, b => b
  | a, .false => a
  | .true, b => notb b
  | a, .true => notb a
  | .x odd x, b => .x odd (mul (asX (.x odd x)) (asX b))
  | a, .x odd y => .x odd (mul (asX a) (asX (.x odd y)))
  | .p x, .p y => .p (xorBase x y)
  | .p x, .n y => notb (.p (xorBase x y))
  | .n x, .p y => notb (.p (xorBase x y))
  | .n x, .n y => .p (xorBase x y)

def treeXorb (a b : Bitw E) : Bitw E :=
  if odd : (2 : E) = 0 then xorb a b
  else match a, b with
    | .false, x => x
    | x, .false => x
    | .true, x => notb x
    | x, .true => notb x
    | a, b => .x odd (mul (asX a) (asX b))

/-- Fold in halves, as a balanced tree. -/
def fold {T R : Type} (f : R → R → R) (base : T → R) (default : R) : List T → R
  | [] => default
  | [x] => base x
  | x :: y :: rest =>
    f (fold f base default ((x :: y :: rest).take ((x :: y :: rest).length / 2)))
      (fold f base default ((x :: y :: rest).drop ((x :: y :: rest).length / 2)))
termination_by a => a.length
decreasing_by
  · simp only [List.length_take, List.length_cons]
    omega
  · simp only [List.length_drop, List.length_cons]
    omega

def parity (a : List (Bitw E)) : Bitw E := fold treeXorb id .false a

def eqb (a b : Bitw E) : Bitw E := notb (xorb a b)

def neqb (a b : Bitw E) : Bitw E := xorb a b

def xor3 (a b c : Bitw E) : Bitw E := xorb a (xorb b c)

def mulbe (b : Bitw E) (e : Wire E) : Wire E := mul (asEltw b) e

def muxe (b : Bitw E) (iftrue iffalse : Wire E) : Wire E :=
  sum [mulbe b iftrue, mulbe (notb b) iffalse]

def muxb (b iftrue iffalse : Bitw E) : Bitw E :=
  orAssumingAtMostOneTrue (andb b iftrue) (andb (notb b) iffalse)

def maj (x y z : Bitw E) : Bitw E :=
  orAssumingAtMostOneTrue (precious (andb x y)) (andb (xorb x y) z)

def ltb (a b : Bitw E) : Bitw E := andb b (notb a)

/-- The lane of a permutation: the exclusive or of a bit with the second unless the first. -/
def chiLaneb (x y z : Bitw E) : Bitw E :=
  if odd : (2 : E) = 0 then xorb x (andb (notb y) z)
  else
    let w := mul (asX x) (asX y)
    .x odd (mulk half (sum [asX x, neg w, mul (sum [asX x, w]) (asX z)]))

def assertFalse (name : String) (x : Bitw E) : Assertions := assert0 name (asEltw x)

def assertTrue (name : String) (x : Bitw E) : Assertions := assertFalse name (notb x)

/-- Assert that two bits are equal. -/
def assertEq (name : String) : Bitw E → Bitw E → Assertions
  | .true, .true => Logic.ok
  | .false, .false => Logic.ok
  | .true, .false => assert0 name (one : Wire E)
  | .false, .true => assert0 name (one : Wire E)
  | .p x, .p y => assert0 name (sub x y)
  | .n x, .n y => assert0 name (sub x y)
  | .x _ x, .x _ y => assert0 name (sub x y)
  | x, y => assert0 name (sub (asEltw x) (asEltw y))

end Boolean

/-! ### Truth values -/

/-- A truth value as a field element. -/
def bit (E : Type) [CompileField E] (b : Bool) : E := if b then 1 else 0

/-- A truth value as a sign. -/
def sign (E : Type) [CompileField E] (b : Bool) : E := if b then -1 else 1

@[simp] theorem bit_true : bit E true = 1 := rfl

@[simp] theorem bit_false : bit E false = 0 := rfl

@[simp] theorem sign_true : sign E true = -1 := rfl

@[simp] theorem sign_false : sign E false = 1 := rfl

theorem bit_injective : Function.Injective (bit E) := by
  intro a b same
  cases a <;> cases b <;> simp_all [CompileField.one_ne_zero, CompileField.one_ne_zero.symm]

theorem bit_not (b : Bool) : bit E (!b) = 1 - bit E b := by cases b <;> simp

theorem bit_and (a b : Bool) : bit E (a && b) = bit E a * bit E b := by
  cases a <;> cases b <;> simp

theorem sign_xor (a b : Bool) : sign E (a ^^ b) = sign E a * sign E b := by
  cases a <;> cases b <;> simp

theorem sign_eq (b : Bool) : sign E b = 1 - 2 * bit E b := by
  cases b
  · simp
  · simp only [sign_true, bit_true]
    ring

/-- **The truth value that a bit stands for**; the assertions of its wire hold. -/
def Bitw.Encodes : Bitw E → Bool → Prop
  | .true, b => b = Bool.true
  | .false, b => b = Bool.false
  | .p w, b => w.Is (bit E b)
  | .n w, b => w.Is (bit E (!b))
  | .x _ w, b => w.Is (sign E b)

namespace Boolean

open Logic CompileField

variable {a b c : Bitw E} {s t u : Bool}

theorem konst_encodes (t : Bool) : (konst t : Bitw E).Encodes t := by cases t <;> rfl

section

variable (ha : a.Encodes s)
include ha

theorem asEltw_is : (asEltw a).Is (bit E s) := by
  cases a with
  | true => exact Wire.Is.one.congr (by rw [show s = true from ha, bit_true])
  | false => exact Wire.Is.zero.congr (by rw [show s = false from ha, bit_false])
  | p x => exact ha
  | n x => exact (Wire.Is.one.sub ha).congr (by rw [bit_not, sub_sub_cancel])
  | x odd x =>
    refine ((Wire.Is.konst half).sum_two (Wire.Is.mulk (-half) ha)).congr ?_
    have halves := half_mul_two odd
    rw [sign_eq]
    linear_combination (bit E s) * halves

theorem asX_is : (asX a).Is (sign E s) := by
  cases a with
  | true => exact (Wire.Is.konst (-1)).congr (by rw [show s = true from ha, sign_true])
  | false => exact Wire.Is.one.congr (by rw [show s = false from ha, sign_false])
  | p x =>
    exact (Wire.Is.one.sum_two (Wire.Is.mulk (-2) ha)).congr (by rw [sign_eq]; ring)
  | n x =>
    exact ((Wire.Is.konst (-1)).sum_two (Wire.Is.mulk 2 ha)).congr
      (by rw [sign_eq, bit_not]; ring)
  | x odd x => exact ha

theorem positive_encodes : (positive a).Encodes s := asEltw_is ha

theorem precious_encodes : (precious a).Encodes s := by
  cases a <;> exact ha

theorem notb_encodes : (notb a).Encodes (!s) := by
  cases a with
  | true => exact congrArg (!·) (show s = true from ha)
  | false => exact congrArg (!·) (show s = false from ha)
  | p x => exact Wire.Is.congr ha (by rw [Bool.not_not])
  | n x => exact ha
  | x odd x => exact (Wire.Is.neg ha).congr (by cases s <;> simp)

end

theorem andNot_encodes {x y : Wire E} (hx : x.Is (bit E s)) (hy : y.Is (bit E (!t))) :
    (andNot x y).Encodes (s && t) :=
  (Wire.Is.sum_two hx (hx.mul hy).neg).congr (by rw [bit_and, bit_not]; ring)

section

variable (ha : a.Encodes s) (hb : b.Encodes t)
include ha hb

theorem andb_encodes : (andb a b).Encodes (s && t) := by
  have product : (Bitw.p (mul (asEltw a) (asEltw b))).Encodes (s && t) :=
    ((asEltw_is ha).mul (asEltw_is hb)).congr (bit_and s t).symm
  cases a with
  | true => simpa [andb, show s = true from ha] using hb
  | false =>
    cases b with
    | true => simpa [andb, show t = true from hb] using ha
    | _ => simp [andb, Bitw.Encodes, show s = false from ha]
  | p x =>
    cases b with
    | true => simpa [andb, show t = true from hb] using ha
    | false => simp [andb, Bitw.Encodes, show t = false from hb]
    | n y => exact andNot_encodes ha hb
    | _ => exact product
  | n x =>
    cases b with
    | true => simpa [andb, show t = true from hb] using ha
    | false => simp [andb, Bitw.Encodes, show t = false from hb]
    | p y =>
      rw [Bool.and_comm]
      exact andNot_encodes hb ha
    | n y =>
      refine (Wire.Is.sum (.cons ha (.cons hb (.cons (Wire.Is.mul ha hb).neg .nil)))).congr ?_
      simp only [List.sum_cons, List.sum_nil, bit_not, bit_and]
      ring
    | _ => exact product
  | x odd x =>
    cases b with
    | true => simpa [andb, show t = true from hb] using ha
    | false => simp [andb, Bitw.Encodes, show t = false from hb]
    | _ => exact product

theorem treeAndb_encodes :
    (treeAndb a b).Encodes (s && t) := positive_encodes (andb_encodes ha hb)

theorem orb_encodes : (orb a b).Encodes (s || t) := by
  have negated := notb_encodes (andb_encodes (notb_encodes ha) (notb_encodes hb))
  rwa [Bool.not_and, Bool.not_not, Bool.not_not] at negated

theorem treeOrb_encodes : (treeOrb a b).Encodes (s || t) := by
  have negated := notb_encodes (treeAndb_encodes (notb_encodes ha) (notb_encodes hb))
  rwa [Bool.not_and, Bool.not_not, Bool.not_not] at negated

end

theorem xorBase_is {x y : Wire E} (hx : x.Is (bit E s)) (hy : y.Is (bit E t)) :
    (xorBase x y).Is (bit E (s ^^ t)) := by
  unfold xorBase
  by_cases even : (2 : E) = 0
  · rw [if_pos even]
    refine (hx.add hy).congr ?_
    have double : (1 : E) + 1 = 0 := by rw [one_add_one_eq_two, even]
    cases s <;> cases t <;> simp [double]
  · rw [if_neg even]
    refine (Wire.Is.sum (.cons hx (.cons hy (.cons (Wire.Is.mulk _ (hx.mul hy)) .nil)))).congr ?_
    simp only [List.sum_cons, List.sum_nil]
    cases s <;> cases t <;> simp
    ring

theorem xorb_encodes (ha : a.Encodes s) (hb : b.Encodes t) : (xorb a b).Encodes (s ^^ t) := by
  have signs : ∀ odd, (Bitw.x odd (mul (asX a) (asX b))).Encodes (s ^^ t) := fun _ =>
    ((asX_is ha).mul (asX_is hb)).congr (sign_xor s t).symm
  cases a with
  | true =>
    obtain rfl : s = true := ha
    cases b with
    | false =>
      obtain rfl : t = false := hb
      rfl
    | _ => simpa [xorb] using notb_encodes hb
  | false =>
    obtain rfl : s = false := ha
    simpa [xorb] using hb
  | p x | n x =>
    cases b with
    | true => simpa [xorb, show t = true from hb] using notb_encodes ha
    | false => simpa [xorb, show t = false from hb] using ha
    | p y | n y => exact (xorBase_is ha hb).congr (by simp)
    | x odd y => exact signs odd
  | x odd x =>
    cases b with
    | true => simpa [xorb, show t = true from hb] using notb_encodes ha
    | false => simpa [xorb, show t = false from hb] using ha
    | _ => exact signs odd

theorem treeXorb_encodes (ha : a.Encodes s) (hb : b.Encodes t) :
    (treeXorb a b).Encodes (s ^^ t) := by
  unfold treeXorb
  by_cases even : (2 : E) = 0
  · rw [dif_pos even]
    exact xorb_encodes ha hb
  · rw [dif_neg even]
    have signs : (Bitw.x even (mul (asX a) (asX b))).Encodes (s ^^ t) :=
      ((asX_is ha).mul (asX_is hb)).congr (sign_xor s t).symm
    cases a with
    | true =>
      obtain rfl : s = true := ha
      cases b with
      | false =>
        obtain rfl : t = false := hb
        rfl
      | _ => simpa using notb_encodes hb
    | false =>
      obtain rfl : s = false := ha
      simpa using hb
    | _ =>
      cases b with
      | true =>
        obtain rfl : t = true := hb
        simpa using notb_encodes ha
      | false =>
        obtain rfl : t = false := hb
        simpa using ha
      | _ => exact signs

/-- **A tree of an associative operation** computes the operation along the list. -/
theorem fold_rel {T R M : Type} {f : R → R → R} {base : T → R} {default : R} {op : M → M → M}
    {unit : M} (rel : R → M → Prop) (assoc : ∀ x y z, op (op x y) z = op x (op y z))
    (left : ∀ x, op unit x = x) (right : ∀ x, op x unit = x) (start : rel default unit)
    {a : List T} {ms : List M} (each : List.Forall₂ (fun x y => rel (base x) y) a ms)
    (step : ∀ {r q x y}, rel r x → rel q y → rel (f r q) (op x y)) :
    rel (fold f base default a) (ms.foldr op unit) := by
  have append : ∀ xs ys : List M, (xs ++ ys).foldr op unit =
      op (xs.foldr op unit) (ys.foldr op unit) := by
    intro xs ys
    induction xs with
    | nil => exact (left _).symm
    | cons x xs ih => rw [List.cons_append, List.foldr_cons, ih, List.foldr_cons, assoc]
  induction a using fold.induct generalizing ms with
  | case1 =>
    cases each
    rw [fold]
    exact start
  | case2 x =>
    obtain ⟨m, _, head, rest, rfl⟩ := List.forall₂_cons_left_iff.mp each
    cases rest
    rw [fold, List.foldr_cons, List.foldr_nil, right]
    exact head
  | case3 x y rest ih ih' =>
    rw [fold, ← List.take_append_drop ((x :: y :: rest).length / 2) ms, append]
    exact step (ih (List.forall₂_take _ each)) (ih' (List.forall₂_drop _ each))

theorem parity_encodes {xs : List (Bitw E)} {bits : List Bool}
    (each : List.Forall₂ Bitw.Encodes xs bits) : (parity xs).Encodes (Lib.xorAll bits) :=
  fold_rel Bitw.Encodes Bool.xor_assoc Bool.false_xor Bool.xor_false
    (show (Bitw.false : Bitw E).Encodes false from rfl) each treeXorb_encodes

section

variable (ha : a.Encodes s) (hb : b.Encodes t) {name : String}
include ha hb

theorem eqb_encodes : (eqb a b).Encodes (s == t) := by
  have negated := notb_encodes (xorb_encodes ha hb)
  rwa [show (!(s ^^ t)) = (s == t) by cases s <;> cases t <;> rfl] at negated

theorem xor3_encodes (hc : c.Encodes u) :
    (xor3 a b c).Encodes (s ^^ (t ^^ u)) := xorb_encodes ha (xorb_encodes hb hc)

theorem neqb_encodes : (neqb a b).Encodes (s != t) :=
  xorb_encodes ha hb

theorem chiLaneb_encodes (hc : c.Encodes u) :
    (chiLaneb a b c).Encodes (s ^^ (!t && u)) := by
  unfold chiLaneb
  by_cases even : (2 : E) = 0
  · rw [dif_pos even]
    exact xorb_encodes ha (andb_encodes (notb_encodes hb) hc)
  · rw [dif_neg even]
    have w := (asX_is ha).mul (asX_is hb)
    refine (Wire.Is.mulk half (Wire.Is.sum (.cons (asX_is ha) (.cons w.neg
      (.cons (((asX_is ha).sum_two w).mul (asX_is hc)) .nil))))).congr ?_
    have halves := half_mul_two even
    simp only [List.sum_cons, List.sum_nil]
    cases t
    · rw [Bool.not_false, Bool.true_and, sign_xor, sign_false]
      linear_combination (sign E s * sign E u) * halves
    · rw [Bool.not_true, Bool.false_and, Bool.xor_false, sign_true]
      linear_combination (sign E s) * halves

theorem ltb_encodes : (ltb a b).Encodes (t && !s) :=
  andb_encodes hb (notb_encodes ha)

theorem orAssumingAtMostOneTrue_encodes (once : ¬ (s = true ∧ t = true)) :
    (orAssumingAtMostOneTrue a b).Encodes (s || t) := by
  have total : (Bitw.p (add (asEltw a) (asEltw b))).Encodes (s || t) := by
    refine ((asEltw_is ha).add (asEltw_is hb)).congr ?_
    cases s <;> cases t <;> simp_all
  cases a with
  | true =>
    obtain rfl : s = true := ha
    rfl
  | false =>
    obtain rfl : s = false := ha
    cases b with
    | true =>
      obtain rfl : t = true := hb
      rfl
    | _ => simpa [orAssumingAtMostOneTrue] using hb
  | p x =>
    cases b with
    | true => simp [orAssumingAtMostOneTrue, Bitw.Encodes, show t = true from hb]
    | false => simpa [orAssumingAtMostOneTrue, show t = false from hb] using ha
    | n y =>
      refine (Wire.Is.sub hb ha).congr ?_
      cases s <;> cases t <;> simp_all
    | _ => exact total
  | n x =>
    cases b with
    | true => simp [orAssumingAtMostOneTrue, Bitw.Encodes, show t = true from hb]
    | false => simpa [orAssumingAtMostOneTrue, show t = false from hb] using ha
    | p y =>
      refine (Wire.Is.sub ha hb).congr ?_
      cases s <;> cases t <;> simp_all
    | n y =>
      refine (Wire.Is.sum (.cons ha (.cons hb (.cons Wire.Is.one.neg .nil)))).congr ?_
      simp only [List.sum_cons, List.sum_nil]
      cases s <;> cases t <;> simp_all
    | _ => exact total
  | x odd x =>
    cases b with
    | true => simp [orAssumingAtMostOneTrue, Bitw.Encodes, show t = true from hb]
    | false => simpa [orAssumingAtMostOneTrue, show t = false from hb] using ha
    | _ => exact total

theorem muxb_encodes (hc : c.Encodes u) :
    (muxb a b c).Encodes (if s then t else u) := by
  have chosen := orAssumingAtMostOneTrue_encodes (andb_encodes ha hb)
    (andb_encodes (notb_encodes ha) hc) (by cases s <;> simp)
  rwa [show (s && t || !s && u) = if s then t else u by cases s <;> simp] at chosen

theorem maj_encodes (hc : c.Encodes u) :
    (maj a b c).Encodes ((s && t) || ((s ^^ t) && u)) :=
  orAssumingAtMostOneTrue_encodes (precious_encodes (andb_encodes ha hb))
    (andb_encodes (xorb_encodes ha hb) hc) (by cases s <;> cases t <;> simp)

end

theorem mulbe_is {e : Wire E} {v : E} (ha : a.Encodes s) (is : e.Is v) :
    (mulbe a e).Is (if s then v else 0) :=
  ((asEltw_is ha).mul is).congr (by cases s <;> simp)

theorem assertFalse_iff (ha : a.Encodes s) :
    assertFalse name a = true ↔ s = false := by
  rw [assertFalse, (asEltw_is ha).assert0]
  cases s <;> simp [CompileField.one_ne_zero]

theorem assertTrue_iff (ha : a.Encodes s) :
    assertTrue name a = true ↔ s = true := by
  rw [assertTrue, assertFalse_iff (notb_encodes ha)]
  cases s <;> simp

theorem sign_injective (odd : (2 : E) ≠ 0) : Function.Injective (sign E) := by
  intro s t same
  have halves := half_mul_two odd
  rw [sign_eq, sign_eq] at same
  exact bit_injective (by linear_combination (bit E t - bit E s) * halves - half * same)

theorem assertEq_iff (ha : a.Encodes s) (hb : b.Encodes t) :
    assertEq name a b = true ↔ s = t := by
  have elements : assert0 name (sub (asEltw a) (asEltw b)) = true ↔ s = t := by
    rw [((asEltw_is ha).sub (asEltw_is hb)).assert0, sub_eq_zero, bit_injective.eq_iff]
  cases a with
  | true => cases b with
    | true => exact iff_of_true rfl ((show s = true from ha).trans (show t = true from hb).symm)
    | false =>
      obtain rfl : s = true := ha
      obtain rfl : t = false := hb
      rw [assertEq, Wire.Is.one.assert0]
      exact iff_of_false CompileField.one_ne_zero Bool.true_eq_false_eq_False
    | _ => exact elements
  | false => cases b with
    | true =>
      obtain rfl : s = false := ha
      obtain rfl : t = true := hb
      rw [assertEq, Wire.Is.one.assert0]
      exact iff_of_false CompileField.one_ne_zero Bool.false_eq_true_eq_False
    | false => exact iff_of_true rfl ((show s = false from ha).trans (show t = false from hb).symm)
    | _ => exact elements
  | p x => cases b with
    | p y =>
      rw [assertEq, (Wire.Is.sub ha hb).assert0, sub_eq_zero, bit_injective.eq_iff]
    | _ => exact elements
  | n x => cases b with
    | n y =>
      rw [assertEq, (Wire.Is.sub ha hb).assert0, sub_eq_zero, bit_injective.eq_iff,
        Bool.not_inj_iff]
    | _ => exact elements
  | x odd x => cases b with
    | x odd y =>
      rw [assertEq, (Wire.Is.sub ha hb).assert0, sub_eq_zero, (sign_injective odd).eq_iff]
    | _ => exact elements

end Boolean

end Longfellow.Gadget
