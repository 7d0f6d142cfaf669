/-
**Decoding of elements to bits** (`circuits/analog_decoder/src/circuit.rs`,
`circuits/bit_plucker/src/circuit.rs`).

An index is encoded as a point. One more table than there are bits, or than there are indices, is
zero at the points of the indices and one at a last point, so it is zero nowhere else; that it is
zero is asserted by every bit that is decoded.

* `decodeBinary_returns`, `decodeUnary_returns`, `unpack_returns` — **the assertions hold exactly at
  the points, and the bits are those of the index.**
-/

import Longfellow.Gadget.Lookup
import Longfellow.Gadget.Routing

set_option linter.unusedSectionVars false

namespace Longfellow.Gadget

open Lib

variable {E : Type} [InvertibleField E] [DecidableEq E]

/-- The assertions that the wire of a bit carries hold. -/
def Bitw.Holds : Bitw E → Prop
  | .true => True
  | .false => True
  | .p w => w.carried = Bool.true
  | .n w => w.carried = Bool.true
  | .x _ w => w.carried = Bool.true

structure BinaryDecoder (E : Type) where
  rangePlucker : Table E
  bits : List (Table E)

structure UnaryDecoder (E : Type) where
  pluckers : List (Table E)

namespace AnalogDecoder

open Logic Lookup Interpolation

/-! ### The circuit -/

def delta (b : Bool) : Wire E := if b then one else zero

/-- The bit of a table at an element, with an assertion. -/
def decodeWithAssertion (plucker : Table E) (encoded : Wire E) (assertion : Assertions) :
    Exec String (Bitw E) := do
  let val ← eval plucker encoded
  return Boolean.ofEltwWithAssertion (precious val) assertion

def decodeBinary (decoder : BinaryDecoder E) (encoded : Wire E) : Exec String (List (Bitw E)) := do
  let rangeOk ← eval decoder.rangePlucker encoded
  let assertInRange := assert0 "assert_in_range" rangeOk
  decoder.bits.mapM fun bitDec => decodeWithAssertion bitDec encoded assertInRange

def decodeUnary (decoder : UnaryDecoder E) (encoded : Wire E) :
    Exec String (Assertions × List (Bitw E)) := do
  let n ← checkedSub decoder.pluckers.length 1
  let rangeOk ← eval (← getAt decoder.pluckers n) encoded
  let assertInRange := assert0 "assert_in_range" rangeOk
  let decoded ← (← slice decoder.pluckers 0 n).mapM fun plucker =>
    decodeWithAssertion plucker encoded assertInRange
  return (assertInRange, decoded)

variable [HasLookupPoints E] {n : ℕ}

def unaryPoint (n i : ℕ) : E := lookupPoint (n + 1) i

def unary (n : ℕ) : Exec String (UnaryDecoder E) := do
  ensure (2 ≤ n) ("unary decoder requires n >= 2, got n = " ++ toString n)
  let size ← Routing.addUsize n 1
  let pluckers ← (List.range size).mapM fun k => table size fun i => some (delta (i == k))
  return ⟨pluckers⟩

def bit (width k : ℕ) : Exec String (Table E) := do
  let n ← Routing.shlUsize width
  table (n + 1) fun i =>
    if i < n then some (Boolean.asEltw (Boolean.konst (i.testBit k))) else none

def binary (width : ℕ) : Exec String (BinaryDecoder E) := do
  let n ← Routing.shlUsize width
  let rangePlucker ← table (n + 1) fun i => some (delta (i == n))
  let bits ← (List.range width).mapM (bit width)
  return ⟨rangePlucker, bits⟩

end AnalogDecoder

namespace BitPlucker

open AnalogDecoder

def pluck (LOGN : ℕ) (decoder : BinaryDecoder E) (e : Wire E) : Exec String (Bitvec E LOGN) := do
  Bitvec.new LOGN (← decodeBinary decoder e)

/-- The next bit, if it is asked for. -/
def unpackBit (LOGN OUT_BITS : ℕ) (b : Bitvec E LOGN) (i : ℕ) (bits : List (Bitw E)) (j : ℕ) :
    Exec String (List (Bitw E)) := do
  let idx := LOGN * i + j
  if idx < OUT_BITS then return bits ++ [← getAt b.bits j]
  else return bits

/-- The bits of the next element. -/
def unpackElt (LOGN OUT_BITS : ℕ) (decoder : BinaryDecoder E) (bits : List (Bitw E))
    (packed : Wire E × ℕ) : Exec String (List (Bitw E)) := do
  let b ← pluck LOGN decoder packed.1
  (List.range LOGN).foldlM (unpackBit LOGN OUT_BITS b packed.2) bits

def unpack (LOGN OUT_BITS : ℕ) (decoder : BinaryDecoder E) (v : List (Wire E)) :
    Exec String (Bitvec E OUT_BITS) := do
  Bitvec.new OUT_BITS (← v.zipIdx.foldlM (unpackElt LOGN OUT_BITS decoder) [])

end BitPlucker

namespace AnalogDecoder

open Logic Lookup Interpolation

variable [HasLookupPoints E] {x : Wire E} {v : E}

/-! ### Tables of deltas and of bits -/

theorem delta_is (b : Bool) : (delta b : Wire E).Is (if b then 1 else 0) := by
  cases b
  · exact Wire.Is.zero
  · exact Wire.Is.one

theorem activeIndices_all (n : ℕ) (f : ℕ → Wire E) :
    activeIndices n (fun i => some (f i)) = List.range n :=
  List.filter_eq_self.mpr fun _ _ => rfl

theorem activeIndices_below (n : ℕ) (f : ℕ → Wire E) :
    activeIndices (n + 1) (fun i => if i < n then some (f i) else none) = List.range n := by
  rw [activeIndices, List.range_succ, List.filter_append, List.filter_eq_self.mpr,
    List.filter_eq_nil_iff.mpr, List.append_nil]
  · intro i member
    obtain rfl := List.mem_singleton.mp member
    simp
  · intro i member
    simp [List.mem_range.mp member]

theorem getD_range {k : ℕ} (inside : k < n) : (List.range n).getD k 0 = k := by
  rw [List.getD_eq_getElem _ _ (by rwa [List.length_range]), List.getElem_range]

variable {fInit : ℕ → Option (Wire E)} {width : ℕ}

theorem apart_points {m : ℕ} (active : activeIndices n fInit = List.range m) :
    Apart m (point n fInit) ↔ Apart m (lookupPoint n : ℕ → E) := by
  have same : ∀ k < m, point n fInit k = lookupPoint n k := by
    intro k inside
    rw [point, active, getD_range inside]
  constructor <;> intro apart i left j right equal
  · exact apart i left j right (by rw [same i left, same j right, equal])
  · exact apart i left j right (by rw [← same i left, ← same j right, equal])

theorem table_all_iff (positive : 0 < n) (f : ℕ → Wire E) (v : ℕ → E)
    (values : ∀ i < n, (f i).Is (v i)) :
    (∃ t, table n (fun i => some (f i)) = .ok t) ↔ Apart n (lookupPoint n : ℕ → E) := by
  have active := activeIndices_all n f
  constructor
  · rintro ⟨t, made⟩
    have apart := (apart_of_table made).2
    rwa [active, List.length_range, apart_points active] at apart
  · intro apart
    have entries : ∀ i < n, ∀ w, (fun i => some (f i)) i = some w → w.Is (v i) :=
      fun i inside w entry => Option.some.inj entry ▸ values i inside
    obtain ⟨t, made, -⟩ := table_returns entries (by rwa [active, List.length_range])
      (by rwa [active, List.length_range, apart_points active])
    exact ⟨t, made⟩

/-- **A table with one at the last index** is zero at the points of the other ones only. -/
theorem rangeTable_exact {t : Table E} (made : table (n + 1) (fun i => some (delta (i == n))) = .ok t)
    (is : x.Is v) : ∃ y e, eval t x = .ok y ∧ y.Is e ∧
      (e = 0 ↔ ∃ i < n, v = lookupPoint (n + 1) i) := by
  have active := activeIndices_all (n + 1) fun i => (delta (i == n) : Wire E)
  obtain ⟨filled, apart⟩ := apart_of_table made
  obtain ⟨t', made', holds⟩ := table_returns (v := fun i => if i == n then 1 else 0)
    (fun i _ w entry => Option.some.inj entry ▸ delta_is _) filled apart
  obtain rfl : t = t' := Except.ok.inj (made.symm.trans made')
  obtain ⟨y, ran, value⟩ := evalPolynomial_is holds is
  refine ⟨y, _, by rw [eval, ran]; rfl, value, ?_⟩
  rw [active, List.length_range] at apart ⊢
  have index : ∀ i ≤ n, point (n + 1) (fun i => some (delta (i == n) : Wire E)) i =
      lookupPoint (n + 1) i := by
    intro i inside
    rw [point, active, getD_range (by omega)]
  rw [eval_coefficient_eq_zero_iff apart]
  · exact exists_congr fun i => and_congr_right fun inside => by rw [index i inside.le]
  · intro i inside
    rw [getD_range (by omega), if_neg (by simpa using inside.ne)]
  · rw [getD_range (by omega), if_pos (by simp)]
    exact CompileField.one_ne_zero

theorem decodeWithAssertion_returns {c : ℕ → Bool}
    (values : ∀ i < n, ∀ w, fInit i = some w → w.Is (Gadget.bit E (c i))) {t : Table E}
    (made : table n fInit = .ok t) (is : x.Is v) (asserted : Bool) :
    ∃ b, decodeWithAssertion t x asserted = .ok b ∧ (b.Holds ↔ asserted = true) ∧
      (asserted = true → ∀ i < n, (fInit i).isSome → v = lookupPoint n i → b.Encodes (c i)) := by
  obtain ⟨y, e, ran, value⟩ := eval_returns values made is
  refine ⟨Boolean.ofEltwWithAssertion y asserted, ?_, ?_, ?_⟩
  · rw [decodeWithAssertion, ran]
    rfl
  · show (y.carried && asserted) = true ↔ asserted = true
    rw [value.1, Bool.true_and]
  · intro holds i inside entry here
    obtain ⟨y', ran', value'⟩ := eval_point values made inside entry (here ▸ is)
    obtain rfl : y = y' := Except.ok.inj (ran.symm.trans ran')
    exact value'.withAssertions holds

/-! ### The binary decoder -/

/-- The element encodes an index. -/
def Encoded (width : ℕ) (v : E) : Prop := ∃ i < 2 ^ width, v = encodingPoint width i

theorem bit_values (n k : ℕ) : ∀ i < n + 1, ∀ w : Wire E, (if i < n then
      some (Boolean.asEltw (Boolean.konst (i.testBit k))) else none) = some w →
    w.Is (Gadget.bit E (i.testBit k)) := by
  intro i _ w entry
  by_cases below : i < n
  · rw [if_pos below] at entry
    exact Option.some.inj entry ▸ Boolean.asEltw_is (Boolean.konst_encodes _)
  · rw [if_neg below] at entry
    cases entry

theorem bit_eq (small : width < 64) (k : ℕ) :
    bit width k = (table (2 ^ width + 1) fun i => if i < 2 ^ width then
      some (Boolean.asEltw (Boolean.konst (i.testBit k))) else none : Exec String (Table E)) := by
  rw [bit, Routing.shlUsize_of_lt small, ok_bind]

/-- **The decoder is made exactly when its points are apart.** -/
theorem binary_returns_iff (width : ℕ) : (∃ d : BinaryDecoder E, binary width = .ok d) ↔
    width < 64 ∧ Apart (2 ^ width + 1) (lookupPoint (2 ^ width + 1) : ℕ → E) := by
  have range := table_all_iff (Nat.succ_pos (2 ^ width))
    (fun i => (delta (i == 2 ^ width) : Wire E)) _ fun i _ => delta_is _
  constructor
  · rintro ⟨d, made⟩
    rw [binary, bind_eq_ok] at made
    obtain ⟨n, shifted, made⟩ := made
    by_cases small : width < 64
    · rw [Routing.shlUsize_of_lt small] at shifted
      obtain rfl := Except.ok.inj shifted
      obtain ⟨t, made, -⟩ := bind_eq_ok.mp made
      exact ⟨small, range.mp ⟨t, made⟩⟩
    · rw [Routing.shlUsize, bind_eq_ok] at shifted
      obtain ⟨_, checked, -⟩ := shifted
      exact absurd (ensure_eq_ok.mp checked) small
  · rintro ⟨small, apart⟩
    obtain ⟨t, made⟩ := range.mpr apart
    obtain ⟨bits, ran, -⟩ := mapM_related (l := List.range width) (f := bit width)
      (g := id) (r := fun (_ : Table E) _ => True) fun k _ => by
        have active := activeIndices_below (2 ^ width) fun i =>
          (Boolean.asEltw (Boolean.konst (i.testBit k)) : Wire E)
        obtain ⟨t, made, -⟩ := table_returns (bit_values (E := E) (2 ^ width) k)
          (by rw [active, List.length_range]; exact Nat.two_pow_pos width) (by
            rw [active, List.length_range, apart_points active]
            exact fun i left j right => apart i (by omega) j (by omega))
        exact ⟨t, (bit_eq small k).trans made, trivial⟩
    refine ⟨⟨t, bits⟩, ?_⟩
    rw [binary, Routing.shlUsize_of_lt small, ok_bind, made, ok_bind, ran, ok_bind, pure_eq_ok]

/-- **The decoded bits**: each carries the assertion that the element encodes an index, and then
they are the bits of the index. -/
theorem decodeBinary_returns {d : BinaryDecoder E} (made : binary width = .ok d)
    (is : x.Is v) : ∃ bits, decodeBinary d x = .ok bits ∧ bits.length = width ∧
      (∀ b ∈ bits, b.Holds ↔ Encoded width v) ∧
      ∀ i < 2 ^ width, v = encodingPoint width i →
        List.Forall₂ Bitw.Encodes bits ((List.range width).map i.testBit) := by
  obtain ⟨small, -⟩ := (binary_returns_iff width).mp ⟨d, made⟩
  rw [binary, Routing.shlUsize_of_lt small, ok_bind, bind_eq_ok] at made
  obtain ⟨t, range, made⟩ := made
  obtain ⟨tables, ran, made⟩ := bind_eq_ok.mp made
  obtain rfl := Except.ok.inj made
  obtain ⟨y, e, evaluated, value, zero⟩ := rangeTable_exact range is
  have asserted : assert0 "assert_in_range" y = true ↔ Encoded width v := (value.assert0 _).trans zero
  have related : List.Forall₂ (fun table k => bit width k = .ok table) tables (List.range width) :=
    List.Forall₂.flip (mapM_eq_ok ran)
  obtain ⟨bits, decoded, each⟩ := mapM_forall₂ (g := id)
    (s := fun b k => (b.Holds ↔ Encoded width v) ∧
      ∀ i < 2 ^ width, v = encodingPoint width i → b.Encodes (i.testBit k))
    (f := fun bitDec => decodeWithAssertion bitDec x (assert0 "assert_in_range" y))
    (fun {table k} made => by
      rw [bit_eq small] at made
      obtain ⟨b, decoded, holds, encodes⟩ :=
        decodeWithAssertion_returns (bit_values _ _) made is (assert0 "assert_in_range" y)
      refine ⟨b, decoded, holds.trans asserted, fun i inside here => ?_⟩
      exact encodes (asserted.mpr ⟨i, inside, here⟩) i (by omega) (by rw [if_pos inside]; rfl) here)
    related
  rw [List.map_id] at each
  refine ⟨bits, ?_, by rw [each.length_eq, List.length_range], fun b member => ?_,
    fun i inside here => ?_⟩
  · rw [decodeBinary, evaluated, ok_bind, decoded]
  · obtain ⟨k, -, holds, -⟩ := exists_of_mem_left each member
    exact holds
  · rw [List.forall₂_map_right_iff]
    exact each.imp fun _ _ spec => spec.2 i inside here

/-! ### The unary decoder -/

/-- **The decoder is made exactly when its points are apart.** -/
theorem unary_returns_iff (n : ℕ) : (∃ d : UnaryDecoder E, unary n = .ok d) ↔
    2 ≤ n ∧ n + 1 < 2 ^ 64 ∧ Apart (n + 1) (lookupPoint (n + 1) : ℕ → E) := by
  have each := fun k => table_all_iff (Nat.succ_pos n) (fun i => (delta (i == k) : Wire E)) _
    fun i _ => delta_is _
  constructor
  · rintro ⟨d, made⟩
    rw [unary, bind_eq_ok] at made
    obtain ⟨_, enough, made⟩ := made
    obtain ⟨size, added, made⟩ := bind_eq_ok.mp made
    rw [Routing.addUsize, bind_eq_ok] at added
    obtain ⟨_, fits, same⟩ := added
    obtain rfl := Except.ok.inj same
    obtain ⟨pluckers, ran, -⟩ := bind_eq_ok.mp made
    obtain ⟨t, -, first⟩ := exists_of_mem_left (mapM_eq_ok ran) (List.mem_range.mpr (Nat.succ_pos n))
    exact ⟨ensure_eq_ok.mp enough, ensure_eq_ok.mp fits, (each 0).mp ⟨t, first⟩⟩
  · rintro ⟨enough, fits, apart⟩
    obtain ⟨pluckers, ran, -⟩ := mapM_related (l := List.range (n + 1)) (g := id)
      (f := fun k => table (n + 1) fun i => some (delta (i == k)))
      (r := fun (_ : Table E) _ => True) fun k _ => by
        obtain ⟨t, made⟩ := (each k).mpr apart
        exact ⟨t, made, trivial⟩
    refine ⟨⟨pluckers⟩, ?_⟩
    rw [unary, ensure_of enough, ok_bind, Routing.addUsize, ensure_of fits, ok_bind, pure_eq_ok,
      ok_bind, ran, ok_bind, pure_eq_ok]

/-- **The decoded bits**: each carries the assertion that the element encodes an index, and then
they are zero but at the index. -/
theorem decodeUnary_returns {d : UnaryDecoder E} (made : unary n = .ok d) (is : x.Is v) :
    ∃ held bits, decodeUnary d x = .ok (held, bits) ∧ bits.length = n ∧
      (held = true ↔ ∃ i < n, v = unaryPoint n i) ∧
      (∀ b ∈ bits, b.Holds ↔ ∃ i < n, v = unaryPoint n i) ∧
      ∀ i < n, v = unaryPoint n i →
        List.Forall₂ Bitw.Encodes bits ((List.range n).map fun k => i == k) := by
  obtain ⟨enough, fits, -⟩ := (unary_returns_iff n).mp ⟨d, made⟩
  rw [unary, ensure_of enough, ok_bind, Routing.addUsize, ensure_of fits, ok_bind, pure_eq_ok,
    ok_bind, bind_eq_ok] at made
  obtain ⟨pluckers, ran, made⟩ := made
  obtain rfl := Except.ok.inj made
  have tables := mapM_eq_ok ran
  have size : pluckers.length = n + 1 := by rw [← tables.length_eq, List.length_range]
  obtain ⟨t, found, range⟩ : ∃ t, getAt pluckers n = (.ok t : Exec String (Table E)) ∧
      table (n + 1) (fun i => some (delta (i == n))) = .ok t := by
    have last := List.Forall₂.get tables (i := n) (by simp) (by omega)
    exact ⟨_, getAt_of_lt (by omega), by simpa using last⟩
  obtain ⟨y, e, evaluated, value, zero⟩ := rangeTable_exact range is
  have asserted : assert0 "assert_in_range" y = true ↔ ∃ i < n, v = unaryPoint n i :=
    (value.assert0 _).trans zero
  have low : List.Forall₂ (fun t k => table (n + 1) (fun i => some (delta (i == k))) = .ok t)
      (pluckers.take n) (List.range n) := by
    have part := List.forall₂_take n tables
    rw [List.range_succ, List.take_left' List.length_range] at part
    exact part.flip
  obtain ⟨bits, decoded, each⟩ := mapM_forall₂ (g := id)
    (s := fun b k => (b.Holds ↔ ∃ i < n, v = unaryPoint n i) ∧
      ∀ i < n, v = unaryPoint n i → b.Encodes (i == k))
    (f := fun plucker => decodeWithAssertion plucker x (assert0 "assert_in_range" y))
    (fun {plucker k} made => by
      obtain ⟨b, decoded, holds, encodes⟩ := decodeWithAssertion_returns (c := fun i => i == k)
        (fun i _ w entry => Option.some.inj entry ▸ delta_is _) made is
        (assert0 "assert_in_range" y)
      refine ⟨b, decoded, holds.trans asserted, fun i inside here => ?_⟩
      exact encodes (asserted.mpr ⟨i, inside, here⟩) i (by omega) rfl here) low
  rw [List.map_id] at each
  refine ⟨assert0 "assert_in_range" y, bits, ?_, by rw [each.length_eq, List.length_range], asserted,
    fun b member => ?_, fun i inside here => ?_⟩
  · have sliced : (slice pluckers 0 n : Exec String (List (Table E))) = .ok (pluckers.take n) := by
      rw [slice_of_le (Nat.zero_le n) (by omega), List.drop_zero, Nat.sub_zero]
    rw [decodeUnary, size, checkedSub_of_le (Nat.le_add_left 1 n), ok_bind,
      Nat.add_sub_cancel, found, ok_bind, evaluated, ok_bind, sliced, ok_bind, decoded, ok_bind, pure_eq_ok]
  · obtain ⟨k, -, holds, -⟩ := exists_of_mem_left each member
    exact holds
  · rw [List.forall₂_map_right_iff]
    exact each.imp fun _ _ spec => spec.2 i inside here

end AnalogDecoder

namespace BitPlucker

open AnalogDecoder Interpolation

variable [HasLookupPoints E]

/-! ### Unpacking -/

/-- The binary digits of an index. -/
def digits (width i : ℕ) : List Bool := (List.range width).map i.testBit

/-- The bits that are decoded from an element. -/
structure DecodedFrom (width : ℕ) (bits : List (Bitw E)) (e : E) : Prop where
  length_eq : bits.length = width
  holds_iff : ∀ b ∈ bits, b.Holds ↔ Encoded width e
  encodes : ∀ i < 2 ^ width, e = encodingPoint width i → List.Forall₂ Bitw.Encodes bits (digits width i)

variable {d : BinaryDecoder E}

theorem pluck_returns (made : binary width = .ok d) {x : Wire E} {e : E} (is : x.Is e) :
    ∃ bv, pluck width d x = .ok bv ∧ DecodedFrom width bv.bits e := by
  obtain ⟨bits, decoded, size, holds, encodes⟩ := decodeBinary_returns made is
  refine ⟨⟨bits, size⟩, ?_, size, holds, encodes⟩
  rw [pluck, decoded, ok_bind, Bitvec.new_eq_ok size]

theorem unpackBits_returns {OUT_BITS i : ℕ} (room : width * i + width ≤ OUT_BITS)
    (bits : List (Bitw E)) (b : Bitvec E width) :
    (List.range width).foldlM (unpackBit width OUT_BITS b i) bits = .ok (bits ++ b.bits) := by
  obtain ⟨t, ran, rfl⟩ := foldlM_range_returns (f := unpackBit width OUT_BITS b i)
    (fun k s => s = bits ++ b.bits.take k) (n := width) (s := bits) (by simp) (by
      rintro j s inside rfl
      have bound : j < b.bits.length := by rwa [b.size]
      refine ⟨bits ++ b.bits.take (j + 1), ?_, rfl⟩
      rw [unpackBit, if_pos (by omega), getAt_of_lt bound, ok_bind, pure_eq_ok, List.append_assoc,
        List.take_concat_get'])
  rw [ran, List.take_of_length_le (by rw [b.size])]

variable {es : List E}

/-- **The bits of some elements**, in groups. -/
theorem unpackElts_returns {OUT_BITS : ℕ} (made : binary width = .ok d) {vs : List (Wire E)}
    (wires : List.Forall₂ Wire.Is vs es) {s : ℕ} (room : width * (s + vs.length) ≤ OUT_BITS)
    (bits : List (Bitw E)) :
    ∃ groups, (vs.zipIdx s).foldlM (unpackElt width OUT_BITS d) bits =
        .ok (bits ++ groups.flatten) ∧ List.Forall₂ (DecodedFrom width) groups es := by
  induction wires generalizing s bits with
  | nil => exact ⟨[], by rw [List.flatten_nil, List.append_nil]; rfl, .nil⟩
  | @cons x e vs es is _ ih =>
    obtain ⟨b, plucked, decoded⟩ := pluck_returns made is
    rw [List.length_cons] at room
    obtain ⟨groups, ran, each⟩ := ih (s := s + 1) (by
      rwa [Nat.add_right_comm, Nat.add_assoc]) (bits ++ b.bits)
    refine ⟨b.bits :: groups, ?_, .cons decoded each⟩
    have here : width * s + width ≤ OUT_BITS := by
      refine le_trans ?_ room
      rw [← Nat.mul_succ]
      exact Nat.mul_le_mul_left width (by omega)
    rw [List.zipIdx_cons, List.foldlM_cons, unpackElt, plucked, ok_bind, unpackBits_returns here,
      ok_bind, ran, List.flatten_cons, List.append_assoc]

/-- What is unpacked from some elements. -/
structure UnpackedFrom {n : ℕ} (width : ℕ) (bv : Bitvec E n) (es : List E) : Prop where
  holds_iff : 0 < width → ((∀ b ∈ bv.bits, b.Holds) ↔ ∀ e ∈ es, Encoded width e)
  encodes : ∀ is : List ℕ, (∀ i ∈ is, i < 2 ^ width) → es = is.map (encodingPoint width) →
    bv.Encodes (is.flatMap (digits width))

variable {groups : List (List (Bitw E))}

theorem groups_hold_iff (wide : 0 < width) (each : List.Forall₂ (DecodedFrom width) groups es) :
    (∀ b ∈ groups.flatten, b.Holds) ↔ ∀ e ∈ es, Encoded width e := by
  induction each with
  | nil => simp
  | @cons bits e _ _ head _ ih =>
    rw [List.flatten_cons, List.forall_mem_append, ih, List.forall_mem_cons]
    refine and_congr_left fun _ => ⟨fun all => ?_, fun encoded b member =>
      (head.holds_iff b member).mpr encoded⟩
    -- There is a bit to carry the assertion.
    obtain ⟨b, member⟩ := List.exists_mem_of_length_pos (head.length_eq ▸ wide)
    exact (head.holds_iff b member).mp (all b member)

theorem groups_encode {is : List ℕ} (inside : ∀ i ∈ is, i < 2 ^ width)
    (each : List.Forall₂ (DecodedFrom width) groups (is.map (encodingPoint width))) :
    List.Forall₂ Bitw.Encodes groups.flatten (is.flatMap (digits width)) := by
  induction is generalizing groups with
  | nil =>
    cases each
    exact .nil
  | cons i is ih =>
    cases each with
    | cons head rest =>
      rw [List.flatten_cons, List.flatMap_cons]
      exact List.rel_append (head.encodes i (inside i (List.mem_cons_self ..)) rfl)
        (ih (fun j member => inside j (List.mem_cons_of_mem _ member)) rest)

theorem length_groups (each : List.Forall₂ (DecodedFrom width) groups es) :
    groups.flatten.length = width * es.length := by
  induction each with
  | nil => rfl
  | cons head _ ih =>
    rw [List.flatten_cons, List.length_append, head.length_eq, ih, List.length_cons]
    ring

/-- **Unpacking is exact.** -/
theorem unpack_returns (made : binary width = .ok d) {vs : List (Wire E)}
    (wires : List.Forall₂ Wire.Is vs es) (size : n = width * vs.length) :
    ∃ bv, unpack width n d vs = .ok bv ∧ UnpackedFrom width bv es := by
  have room : width * (0 + vs.length) ≤ n := by rw [Nat.zero_add, size]
  obtain ⟨groups, ran, each⟩ := unpackElts_returns made wires room []
  have length : groups.flatten.length = n := by rw [length_groups each, size, wires.length_eq]
  refine ⟨⟨groups.flatten, length⟩, ?_, fun wide => groups_hold_iff wide each,
    fun is inside same => groups_encode inside (same ▸ each)⟩
  rw [unpack, ran, ok_bind, List.nil_append, Bitvec.new_eq_ok length]

end BitPlucker

end Longfellow.Gadget
