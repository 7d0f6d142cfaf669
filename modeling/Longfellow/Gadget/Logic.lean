/-
**Wires and assertions of a circuit** (`compile/logic/src/logic.rs`, `eval.rs`).

A circuit is written against the interface `Logic`: arithmetic on wires, assertions that a wire
is zero, and wires that carry assertions. Here a wire is its value together with the fate of the
assertions it carries, and a group of assertions is its fate; the names of the assertions are
kept as the circuits write them.

* `CompileField` — what the circuits ask of a field.
-/

import Longfellow.Lib.BitList

set_option linter.unusedSectionVars false

namespace Longfellow.Gadget

open Lib

/-- A field of a circuit: its elements, and the basis in which bits are packed into elements. -/
class CompileField (E : Type) extends CommRing E where
  one_ne_zero : (1 : E) ≠ 0
  /-- The inverse of two, or zero in a field where two is zero. -/
  half : E
  half_mul_two : (2 : E) ≠ 0 → half * 2 = 1
  pseudoDimension : ℕ
  pseudoDimension_pos : 0 < pseudoDimension
  pseudoBasis : ℕ → E
  /-- Bits up to the dimension are determined by the element they are packed into. -/
  independent : ∀ xs ys : List Bool, xs.length = ys.length → xs.length ≤ pseudoDimension →
    weighted pseudoBasis xs = weighted pseudoBasis ys → xs = ys

/-- A value, and whether the assertions that the wire carries hold. -/
structure Wire (E : Type) where
  value : E
  carried : Bool

/-- Whether some assertions hold. -/
abbrev Assertions := Bool

namespace Logic

variable {E : Type} [CompileField E] [DecidableEq E]

def konst (x : E) : Wire E := ⟨x, true⟩

def zero : Wire E := konst 0

def one : Wire E := konst 1

def precious (x : Wire E) : Wire E := x

def sum (xs : List (Wire E)) : Wire E :=
  xs.foldl (fun acc x => ⟨acc.value + x.value, acc.carried && x.carried⟩) zero

def neg (x : Wire E) : Wire E := ⟨-x.value, x.carried⟩

def add (x y : Wire E) : Wire E := ⟨x.value + y.value, x.carried && y.carried⟩

def sub (x y : Wire E) : Wire E := ⟨x.value - y.value, x.carried && y.carried⟩

def mul (x y : Wire E) : Wire E := ⟨x.value * y.value, x.carried && y.carried⟩

def mulk (e : E) (y : Wire E) : Wire E := ⟨e * y.value, y.carried⟩

def ok : Assertions := true

/-- Assert that a wire is zero. -/
def assert0 (_name : String) (x : Wire E) : Assertions := decide (x.value = 0) && x.carried

/-- The assertions of some groups, under one name. -/
def assertAll (_name : String) (assertions : List Assertions) : Assertions := assertions.all id

/-- Some assertions under numbered names. -/
def assertNumbered (name : String) (assertions : List Assertions) : Assertions :=
  assertAll name (assertions.zipIdx.map fun a => assertAll (name ++ "." ++ toString a.2) [a.1])

/-- The assertions of a body for every index, under numbered names. -/
def assertMapi (name : String) (range : List ℕ) (body : ℕ → Assertions) : Assertions :=
  assertNumbered name (range.map body)

def withAssertions (assertions : Assertions) (x : Wire E) : Wire E :=
  ⟨x.value, x.carried && assertions⟩

def assertEq (name : String) (x y : Wire E) : Assertions := assert0 name (sub x y)

/-- A witness in place of a computed wire. -/
def slicing (name : String) (witness computed : Wire E) : Wire E :=
  withAssertions (assertEq name witness computed) witness

def assertInverse (name : String) (x y : Wire E) : Assertions := assertEq name (mul x y) one

end Logic

/-! ### Values -/

variable {E : Type} [CompileField E] [DecidableEq E]

/-- The wire has a value, and the assertions it carries hold. -/
def Wire.Is (x : Wire E) (v : E) : Prop := x.carried = true ∧ x.value = v

namespace Wire.Is

open Logic

variable {x y : Wire E} {v w : E}

theorem congr (is : x.Is v) (same : v = w) : x.Is w := same ▸ is

theorem konst (v : E) : (Logic.konst v).Is v := ⟨rfl, rfl⟩

theorem zero : (Logic.zero : Wire E).Is 0 := konst 0

theorem one : (Logic.one : Wire E).Is 1 := konst 1

theorem neg (is : x.Is v) : (Logic.neg x).Is (-v) := ⟨is.1, congrArg _ is.2⟩

theorem add (left : x.Is v) (right : y.Is w) : (Logic.add x y).Is (v + w) :=
  ⟨by rw [Logic.add, left.1, right.1, Bool.and_true], by rw [Logic.add, left.2, right.2]⟩

theorem sub (left : x.Is v) (right : y.Is w) : (Logic.sub x y).Is (v - w) :=
  ⟨by rw [Logic.sub, left.1, right.1, Bool.and_true], by rw [Logic.sub, left.2, right.2]⟩

theorem mul (left : x.Is v) (right : y.Is w) : (Logic.mul x y).Is (v * w) :=
  ⟨by rw [Logic.mul, left.1, right.1, Bool.and_true], by rw [Logic.mul, left.2, right.2]⟩

theorem mulk (e : E) (is : y.Is w) : (Logic.mulk e y).Is (e * w) :=
  ⟨is.1, by rw [Logic.mulk, is.2]⟩

theorem sum {xs : List (Wire E)} {vs : List E} (each : List.Forall₂ Wire.Is xs vs) :
    (Logic.sum xs).Is vs.sum := by
  suffices general : ∀ (acc : Wire E) (a : E), acc.Is a →
      (xs.foldl (fun acc x => ⟨acc.value + x.value, acc.carried && x.carried⟩) acc).Is
        (a + vs.sum) from (general Logic.zero 0 zero).congr (zero_add _)
  induction each with
  | nil => exact fun acc a is => is.congr (by rw [List.sum_nil, add_zero])
  | cons head _ ih =>
    intro acc a is
    rw [List.foldl_cons, List.sum_cons, ← add_assoc]
    exact ih _ _ (is.add head)

theorem sum_two (left : x.Is v) (right : y.Is w) : (Logic.sum [x, y]).Is (v + w) :=
  (sum (.cons left (.cons right .nil))).congr (by simp)

theorem withAssertions {assertions : Assertions} (is : x.Is v) (hold : assertions = true) :
    (Logic.withAssertions assertions x).Is v :=
  ⟨by rw [Logic.withAssertions, is.1, hold]; rfl, is.2⟩

theorem assert0 (is : x.Is v) (name : String) : Logic.assert0 name x = true ↔ v = 0 := by
  rw [Logic.assert0, is.1, is.2, Bool.and_true, decide_eq_true_iff]

theorem assertEq (left : x.Is v) (right : y.Is w) (name : String) :
    Logic.assertEq name x y = true ↔ v = w := by
  rw [Logic.assertEq, (left.sub right).assert0, sub_eq_zero]

end Wire.Is

/-! ### Groups of assertions -/

variable {name : String} {assertions : List Assertions}

theorem assertAll_iff :
    Logic.assertAll name assertions = true ↔ ∀ a ∈ assertions, a = true := by
  simp [Logic.assertAll]

theorem assertAll_two {a b : Assertions} :
    Logic.assertAll name [a, b] = true ↔ a = true ∧ b = true := by
  simp [Logic.assertAll]

theorem assertNumbered_iff :
    Logic.assertNumbered name assertions = true ↔ ∀ a ∈ assertions, a = true := by
  have numbered : ∀ a, a ∈ assertions ↔ ∃ k, (a, k) ∈ assertions.zipIdx := by
    intro a
    conv_lhs => rw [← List.zipIdx_map_fst 0 assertions, List.mem_map]
    exact ⟨fun ⟨index, found, same⟩ => ⟨index.2, same ▸ found⟩, fun ⟨k, found⟩ => ⟨_, found, rfl⟩⟩
  rw [Logic.assertNumbered, assertAll_iff]
  simp [Logic.assertAll, numbered]

theorem assertMapi_iff {range : List ℕ} {body : ℕ → Assertions} :
    Logic.assertMapi name range body = true ↔ ∀ i ∈ range, body i = true := by
  rw [Logic.assertMapi, assertNumbered_iff]
  exact List.forall_mem_map

end Longfellow.Gadget
