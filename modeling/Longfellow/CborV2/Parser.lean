/-
**The parser circuit** (`lib/circuits/cbor_parser_v2/cbor.h`).

The prover gives, for every position, whether it is the header of an item, the level it is at, the
length that is left of the token, and at every level how many items are still to come. The circuit
checks that these are updated from one position to the next as the bytes say.

* `ParseFacts`, `assertParse_iff` — what the parser asserts.
-/

import Longfellow.CborV2.ByteDecoder
import Longfellow.CborV2.Plucker

set_option linter.unusedSectionVars false

namespace Longfellow.CborV2

open Lib CircuitField
open scoped BigOperators

variable {E : Type} [CircuitField E] [DecidableEq E] {bytes : Bytes} {sel : ℕ → ℕ → Bool}

/-- What the prover says about a position. -/
structure PositionWitness (E : Type) where
  encodedHeader : E
  encodedSel : E
  slenNext : CEltW E
  ccNext : ℕ → CEltW E
  negSumCounters : CEltW E
  invprodDecode : E
  invprodParse : E

/-- A position as the lexer sees it. -/
structure Lexeme (E : Type) where
  bd : Decode E
  header : BitW E

structure ParseOutput (E : Type) where
  sel : ℕ → BitW E
  ccNext : ℕ → CEltW E

/-! ### The lexer -/

section Decode

open Logic

/-- The length left behind a position: of the token that starts there, or one less than before. -/
def slenUpdate (n : ℕ) (ds : ℕ → Lexeme E) (pw : ℕ → PositionWitness E) (i : ℕ) :
    CEltW E × Assertions :=
  let slen := if i = 0 then Counter.asCounter 0 else (pw (i - 1)).slenNext
  let slenm1 := Counter.add slen Counter.mone
  let length := (ds i).bd.length
  let (length, asserted) :=
    if i + 1 < n then
      let leni := Counter.ite0 (ds i).bd.lengthPlusNextV8 (ds (i + 1)).bd.asCounter
      (Counter.add length leni, true)
    else (length, assertImplies (ds i).header (lnot (ds i).bd.lengthPlusNextV8))
  (Counter.mux (ds i).header length slenm1, asserted)

def assertDecode (n : ℕ) (ds : ℕ → Lexeme E) (pw : ℕ → PositionWitness E) : Assertions :=
  ((List.range n).all fun i => assertImplies (ds i).header (lnot (ds i).bd.invalid)) &&
  assertImplies (ds (n - 1)).header (lnot (ds (n - 1)).bd.countIsNextV8) &&
  ((List.range n).all fun i =>
    let totalSum := Counter.addRange 0 (kNCounters + 2) fun j =>
      if j = 0 then (pw i).slenNext
      else if j = 1 then (pw i).negSumCounters
      else (pw i).ccNext (j - 2)
    Counter.assert0 totalSum) &&
  ((List.range n).all fun i =>
    let (slenNext, asserted) := slenUpdate n ds pw i
    asserted && Counter.assertEq slenNext (pw i).slenNext) &&
  assert1 (ds 0).header &&
  ((List.range n).all fun i =>
    let headerp1 := if i + 1 < n then (ds (i + 1)).header else bit 1
    Counter.assert0 (Counter.ite0 headerp1 (Counter.add (pw i).slenNext Counter.mone))) &&
  ((List.range (n - 1)).all fun i =>
    let snm1 := Counter.add (pw i).slenNext Counter.mone
    let x := mux (ds (i + 1)).header 1 (Counter.znzIndicator snm1)
    assertEq (x * (pw (i + 1)).invprodDecode) 1)

end Decode

/-! ### The parser -/

section Parse

open Logic

/-- The new counters and whether a counter beyond the last one was needed. -/
def countersNext (cc : ℕ → CEltW E) (sel : ℕ → BitW E) (counti : CEltW E) (ds : Lexeme E) :
    (ℕ → CEltW E) × BitW E :=
  let ccNext := fun l => Counter.add (cc l) (Counter.ite0 (land (sel l) ds.header) Counter.mone)
  (List.range kNCounters).foldl (fun (ccNext, overflow) l =>
    let twiceCounti := Counter.add counti counti
    let one := Counter.asCounter 1
    let ifitems := Counter.mux ds.bd.arrayp counti twiceCounti
    let ifnotitems := Counter.ite0 ds.bd.tagp one
    let newc := Counter.mux ds.bd.itemsp ifitems ifnotitems
    let headerAndSel := land (sel l) ds.header
    let tagpOrItemsp := lor ds.bd.tagp ds.bd.itemsp
    let newcEnable := land headerAndSel tagpOrItemsp
    if l + 1 < kNCounters then
      (Function.update ccNext (l + 1) (Counter.mux newcEnable newc (ccNext (l + 1))), overflow)
    else (ccNext, newcEnable)) (ccNext, bit 0)

def assertCounterUpdates (n : ℕ) (ds : ℕ → Lexeme E) (ps : ℕ → ParseOutput E) : Assertions :=
  (List.range n).all fun i =>
    let counti := (ds i).bd.countAsCounter
    let (counti, asserted) :=
      if i + 1 < n then
        (Counter.mux (ds i).bd.countIsNextV8 (ds (i + 1)).bd.asCounter counti, true)
      else (counti, assertImplies (ds i).header (lnot (ds i).bd.countIsNextV8))
    asserted &&
      if 0 < i then
        let cc := (ps (i - 1)).ccNext
        let (ccNext, overflow) := countersNext cc (ps i).sel counti (ds i)
        assertFalse overflow &&
          (List.range kNCounters).all fun l => Counter.assertEq ((ps i).ccNext l) (ccNext l)
      else true

/-- The counters above the selected level are zero. -/
def assertMaximal (ccNext : ℕ → CEltW E) (sel : ℕ → BitW E) : Assertions :=
  ((List.range (kNCounters - 1)).foldl (fun (asserted, b) l =>
    (asserted && Counter.assert0 (Counter.ite0 b (ccNext (l + 1))), lor b (sel (l + 1))))
    (true, sel 0)).1

def assertParse (n : ℕ) (ds : ℕ → Lexeme E) (ps : ℕ → ParseOutput E)
    (pw : ℕ → PositionWitness E) : Assertions :=
  assertCounterUpdates n ds ps &&
  ((List.range n).all fun i =>
    ((List.range kNCounters).all fun l => (List.range' (l + 1) (kNCounters - (l + 1))).all fun m =>
      assertFalse (land ((ps i).sel l) ((ps i).sel m))) &&
    let sum := (List.range kNCounters).foldl (fun sum l => lorExclusive sum ((ps i).sel l)) (bit 0)
    assertImplies (ds i).header sum) &&
  ((List.range kNCounters).all fun l => Counter.assert0 ((ps (n - 1)).ccNext l)) &&
  assert1 ((ps 0).sel 0) &&
  ((List.range (n - 1)).all fun i => assertMaximal (ps i).ccNext (ps (i + 1)).sel) &&
  ((List.range (n - 1)).all fun i =>
    let p := mulRange 0 kNCounters fun l =>
      mux ((ps (i + 1)).sel l) (Counter.znzIndicator ((ps i).ccNext l)) (konst 1)
    assertEq (p * (pw (i + 1)).invprodParse) (konst 1))

end Parse

/-! ### The circuit -/

/-- The wires that the lexer works on, and the assertions of the decoder and the plucker. -/
def decodeAll (input : ℕ → ℕ → BitW E) (pw : ℕ → PositionWitness E) (n : ℕ) :
    (ℕ → Lexeme E) × Assertions :=
  (fun i => ⟨(decodeOneV8 (input i)).1, (BitPlucker.pluck 1 (pw i).encodedHeader).1 0⟩,
    (List.range n).all fun i =>
      (decodeOneV8 (input i)).2 && (BitPlucker.pluck 1 (pw i).encodedHeader).2)

/-- The selector is plucked and the counters are passed through. -/
def parse (pw : ℕ → PositionWitness E) (n : ℕ) : (ℕ → ParseOutput E) × Assertions :=
  (fun i => ⟨(UnaryPlucker.pluck kNCounters (pw i).encodedSel).1, (pw i).ccNext⟩,
    (List.range n).all fun i => (UnaryPlucker.pluck kNCounters (pw i).encodedSel).2)

def decodeAndAssertDecodeAndParse (n : ℕ) (input : ℕ → ℕ → BitW E) (pw : ℕ → PositionWitness E) :
    (ℕ → Lexeme E) × (ℕ → ParseOutput E) × Assertions :=
  let (ds, decoded) := decodeAll input pw n
  let (ps, parsed) := parse pw n
  (ds, ps, decoded && assertDecode n ds pw && parsed && assertParse n ds ps pw)

/-- The input wires of some bytes. -/
def inputWires (bytes : Bytes) : ℕ → ℕ → BitW E := fun i j =>
  .ofElt (ofScalar (((bytes.getD i 0).toNat >>> j) &&& 1))

/-- The witness is accepted for an input. -/
def Accepts (bytes : Bytes) (pw : ℕ → PositionWitness E) : Prop :=
  (decodeAndAssertDecodeAndParse bytes.length (inputWires bytes) pw).2.2 = true

instance (bytes : Bytes) (pw : ℕ → PositionWitness E) : Decidable (Accepts bytes pw) :=
  inferInstanceAs (Decidable (_ = true))

/-! ### What the lexer asserts -/

/-- The assertions of the lexer, for the header bits and the witness. -/
structure DecodeFacts (bytes : Bytes) (header : ℕ → Bool) (pw : ℕ → PositionWitness E) : Prop where
  known : ∀ i < bytes.length, header i = true → supported (bytes.getD i 0) = true
  countInside : header (bytes.length - 1) = true →
    countIsNext (bytes.getD (bytes.length - 1) 0) = false
  checksum : ∀ i < bytes.length, Counter.addRange 0 (kNCounters + 2) (fun j =>
    if j = 0 then (pw i).slenNext else if j = 1 then (pw i).negSumCounters
    else (pw i).ccNext (j - 2)) = counter 0
  lengthInside : ∀ i < bytes.length, ¬ i + 1 < bytes.length → header i = true →
    lengthIsNext (bytes.getD i 0) = false
  length : ∀ i < bytes.length, header i = true → (pw i).slenNext = counter
    (headLength (bytes.getD i 0) +
      if lengthIsNext (bytes.getD i 0) then (bytes.getD (i + 1) 0).toNat else 0 : ℕ)
  counts : ∀ i < bytes.length, header i = false → (pw i).slenNext =
    Counter.add (if i = 0 then counter 0 else (pw (i - 1)).slenNext) (counter (-1))
  first : header 0 = true
  marks : ∀ i < bytes.length, (i + 1 < bytes.length → header (i + 1) = true) →
    (pw i).slenNext = counter 1
  invprod : ∀ i, i + 1 < bytes.length → (if header (i + 1) then (1 : E) else
    Counter.znzIndicator (Counter.add (pw i).slenNext (counter (-1)))) *
      (pw (i + 1)).invprodDecode = 1

section Facts

open Logic

variable {ds : ℕ → Lexeme E} {ps : ℕ → ParseOutput E}
  {pw : ℕ → PositionWitness E} {header : ℕ → Bool}

/-- The wires of the lexer stand for the bytes and the header bits. -/
def Lexes (bytes : Bytes) (header : ℕ → Bool) (ds : ℕ → Lexeme E) : Prop :=
  ∀ i < bytes.length, Decoded (ds i).bd (bytes.getD i 0) ∧ (ds i).header.Encodes (header i)

theorem slenUpdate_asserts (lexes : Lexes bytes header ds) {i : ℕ} (inside : i < bytes.length) :
    (slenUpdate bytes.length ds pw i).2 = true ↔
      (¬ i + 1 < bytes.length → header i = true → lengthIsNext (bytes.getD i 0) = false) := by
  obtain ⟨decoded, isHeader⟩ := lexes i inside
  unfold slenUpdate
  by_cases more : i + 1 < bytes.length
  · simp only [if_pos more]
    exact ⟨fun _ last => absurd more last, fun _ => trivial⟩
  · simp only [if_neg more]
    rw [isHeader.assertImplies_iff decoded.lengthPlusNextV8.lnot, Bool.not_eq_true']
    exact ⟨fun last _ => last, fun last => last more⟩

theorem slenUpdate_eq (lexes : Lexes bytes header ds) {i : ℕ} (inside : i < bytes.length)
    (last : ¬ i + 1 < bytes.length → header i = true → lengthIsNext (bytes.getD i 0) = false) :
    (slenUpdate bytes.length ds pw i).1 =
      if header i then counter (headLength (bytes.getD i 0) +
        if lengthIsNext (bytes.getD i 0) then (bytes.getD (i + 1) 0).toNat else 0 : ℕ)
      else Counter.add (if i = 0 then counter 0 else (pw (i - 1)).slenNext) (counter (-1)) := by
  obtain ⟨decoded, isHeader⟩ := lexes i inside
  have zero : (Counter.asCounter 0 : CEltW E) = counter 0 := asCounter_of_byte (by norm_num)
  unfold slenUpdate
  cases case : header i with
  | false =>
    rw [if_neg Bool.false_ne_true, ← zero, ← mone_eq]
    by_cases more : i + 1 < bytes.length
    · simp only [if_pos more]
      rw [mux_eq' (case ▸ isHeader), if_neg Bool.false_ne_true]
    · simp only [if_neg more]
      rw [mux_eq' (case ▸ isHeader), if_neg Bool.false_ne_true]
  | true =>
    rw [if_pos rfl]
    by_cases more : i + 1 < bytes.length
    · simp only [if_pos more]
      rw [mux_eq' (case ▸ isHeader), if_pos rfl, ite0_eq decoded.lengthPlusNextV8,
        (lexes (i + 1) more).1.asCounter, decoded.length]
      cases lengthIsNext (bytes.getD i 0) with
      | false => rw [if_neg Bool.false_ne_true, if_neg Bool.false_ne_true, cadd_zero]; rfl
      | true => rw [if_pos rfl, if_pos rfl, add_counter]; push_cast; rfl
    · simp only [if_neg more]
      rw [mux_eq' (case ▸ isHeader), if_pos rfl, last more case, if_neg Bool.false_ne_true,
        decoded.length]
      rfl

theorem assertDecode_iff (some : bytes ≠ []) (lexes : Lexes bytes header ds) :
    assertDecode bytes.length ds pw = true ↔ DecodeFacts bytes header pw := by
  have positive : 0 < bytes.length := List.length_pos_iff.mpr some
  have known : ∀ i < bytes.length, assertImplies (ds i).header (lnot (ds i).bd.invalid) = true ↔
      (header i = true → supported (bytes.getD i 0) = true) := by
    intro i inside
    obtain ⟨decoded, isHeader⟩ := lexes i inside
    rw [isHeader.assertImplies_iff decoded.invalid.lnot, Bool.not_not]
  have countInside : assertImplies (ds (bytes.length - 1)).header
      (lnot (ds (bytes.length - 1)).bd.countIsNextV8) = true ↔
        (header (bytes.length - 1) = true →
          countIsNext (bytes.getD (bytes.length - 1) 0) = false) := by
    obtain ⟨decoded, isHeader⟩ := lexes (bytes.length - 1) (by omega)
    rw [isHeader.assertImplies_iff decoded.countIsNextV8.lnot, Bool.not_eq_true']
  have marks : ∀ i < bytes.length,
      Counter.assert0 (Counter.ite0 (if i + 1 < bytes.length then (ds (i + 1)).header else bit 1)
        (Counter.add (pw i).slenNext Counter.mone)) = true ↔
      ((i + 1 < bytes.length → header (i + 1) = true) → (pw i).slenNext = counter 1) := by
    intro i _
    have isHeader : (if i + 1 < bytes.length then (ds (i + 1)).header else bit 1).Encodes
        (decide (i + 1 < bytes.length → header (i + 1) = true)) := by
      by_cases more : i + 1 < bytes.length
      · rw [if_pos more]
        refine (lexes (i + 1) more).2.congr ?_
        cases header (i + 1) <;> simp [more]
      · rw [if_neg more]
        exact (BitW.Encodes.bit 1).of_iff ⟨fun _ reached => absurd reached more, fun _ => one_ne_zero⟩
    rw [assert0_eq_true, ite0_eq isHeader, mone_eq]
    by_cases next : i + 1 < bytes.length → header (i + 1) = true
    · rw [if_pos (decide_eq_true next)]
      refine ⟨fun zero _ => (eq_counter_of_add zero).trans (by norm_num), fun one => ?_⟩
      rw [one next, add_counter]
      norm_num
    · rw [decide_eq_false next, if_neg Bool.false_ne_true]
      exact ⟨fun _ reached => absurd reached next, fun _ => rfl⟩
  have invprod : ∀ i, i < bytes.length - 1 →
      (assertEq (mux (ds (i + 1)).header 1
        (Counter.znzIndicator (Counter.add (pw i).slenNext Counter.mone)) *
          (pw (i + 1)).invprodDecode) 1 = true ↔
      (if header (i + 1) then (1 : E) else
        Counter.znzIndicator (Counter.add (pw i).slenNext (counter (-1)))) *
          (pw (i + 1)).invprodDecode = 1) := by
    intro i inside
    rw [assertEq_iff, (lexes (i + 1) (by omega)).2.mux, mone_eq]
  unfold assertDecode
  simp only [Bool.and_eq_true, List.all_eq_true, List.mem_range, assert0_eq_true,
    (lexes 0 positive).2.assert1_iff, assertEq_eq_true]
  constructor
  · rintro ⟨⟨⟨⟨⟨⟨isKnown, inside⟩, checksum⟩, lengths⟩, first⟩, next⟩, product⟩
    have lastLength : ∀ i < bytes.length, ¬ i + 1 < bytes.length → header i = true →
        lengthIsNext (bytes.getD i 0) = false :=
      fun i below => (slenUpdate_asserts lexes below).mp (lengths i below).1
    have update : ∀ i (below : i < bytes.length), _ = (pw i).slenNext :=
      fun i below => (slenUpdate_eq lexes below (lastLength i below)).symm.trans (lengths i below).2
    refine ⟨fun i below => (known i below).mp (isKnown i below), countInside.mp inside, checksum,
      lastLength, fun i below on => ?_, fun i below off => ?_, first,
      fun i below => (marks i below).mp (assert0_eq_true.mpr (next i below)),
      fun i more => (invprod i (by omega)).mp (product i (by omega))⟩
    · rw [← update i below, if_pos on]
    · rw [← update i below, off, if_neg Bool.false_ne_true]
  · intro facts
    refine ⟨⟨⟨⟨⟨⟨fun i below => (known i below).mpr (facts.known i below),
      countInside.mpr facts.countInside⟩, facts.checksum⟩, fun i below => ⟨?_, ?_⟩⟩, facts.first⟩,
      fun i below => assert0_eq_true.mp ((marks i below).mpr (facts.marks i below))⟩,
      fun i below => (invprod i below).mpr (facts.invprod i (by omega))⟩
    · exact (slenUpdate_asserts lexes below).mpr (facts.lengthInside i below)
    · rw [slenUpdate_eq lexes below (facts.lengthInside i below)]
      cases case : header i with
      | false => rw [if_neg Bool.false_ne_true, facts.counts i below case]
      | true => rw [if_pos rfl, facts.length i below case]

end Facts

/-! ### What the parser asserts -/

/-- The number of children, from the argument. -/
def newCount (b : UInt8) (c : ℕ) : ℕ :=
  if isItems b then if isMap b then c + c else c else if isTag b then 1 else 0

/-- The argument of an array or a map. -/
def countOf (b next : UInt8) : ℕ := if countIsNext b then next.toNat else info b

theorem newCount_eq {b next : UInt8} (known : supported b = true) (branches : opens b = true) :
    newCount b (countOf b next) = childCount b next := by
  have type := major_lt b
  unfold supported at known
  unfold opens isTag isItems at branches
  unfold newCount countOf countIsNext isItems isMap isTag childCount
  simp only [Bool.or_eq_true, decide_eq_true_eq] at branches
  rcases branches with tag | array | map
  · simp [tag]
  · simp only [array, decide_eq_true_eq] at known
    rw [argument_eq b next known]
    simp [array]
  · simp only [map, decide_eq_true_eq] at known
    rw [argument_eq b next known, two_mul]
    simp [map]

/-- The counter at a level behind a position, from the counters before it. -/
def updated (bytes : Bytes) (header : ℕ → Bool) (sel : ℕ → ℕ → Bool) (before : ℕ → CEltW E)
    (i l : ℕ) : CEltW E :=
  if l ≠ 0 ∧ (sel i (l - 1) && header i && opens (bytes.getD i 0)) = true then
    counter (newCount (bytes.getD i 0) (countOf (bytes.getD i 0) (bytes.getD (i + 1) 0)))
  else Counter.add (before l) (if sel i l && header i then counter (-1) else counter 0)

/-- The assertions of the parser, for the header bits, the selectors and the counters. -/
structure ParseFacts (bytes : Bytes) (header : ℕ → Bool) (sel : ℕ → ℕ → Bool)
    (cc : ℕ → ℕ → CEltW E) (invprodParse : ℕ → E) : Prop where
  /-- The counters behind the first position are not updated from anything. -/
  update : ∀ i < bytes.length, 0 < i → ∀ l < kNCounters,
    cc i l = updated bytes header sel (cc (i - 1)) i l
  inside : ∀ i < bytes.length, 0 < i →
    (sel i (kNCounters - 1) && header i && opens (bytes.getD i 0)) = false
  exclusive : ∀ i < bytes.length, ∀ l m, l < m → m < kNCounters → (sel i l && sel i m) = false
  selected : ∀ i < bytes.length, header i = true → ∃ l < kNCounters, sel i l = true
  final : ∀ l < kNCounters, cc (bytes.length - 1) l = counter 0
  first : sel 0 0 = true
  maximal : ∀ i, i + 1 < bytes.length → ∀ l m, l < m → m < kNCounters → sel (i + 1) l = true →
    cc i m = counter 0
  invprod : ∀ i, i + 1 < bytes.length → (∏ l ∈ Finset.range kNCounters,
    if sel (i + 1) l then Counter.znzIndicator (cc i l) else (1 : E)) * invprodParse (i + 1) = 1

section ParseFacts

open Logic

variable {ds : ℕ → Lexeme E} {ps : ℕ → ParseOutput E}
  {pw : ℕ → PositionWitness E} {header : ℕ → Bool}

theorem newc_eq {bd : Decode E} {b : UInt8} (decoded : Decoded bd b) (c : ℕ) :
    Counter.mux bd.itemsp
      (Counter.mux bd.arrayp (counter c) (Counter.add (counter c) (counter c)))
      (Counter.ite0 bd.tagp (Counter.asCounter 1)) = counter (newCount b c) := by
  rw [mux_eq' decoded.itemsp, mux_eq' decoded.arrayp, ite0_eq decoded.tagp, add_counter,
    asCounter_of_byte (show 1 < 256 by norm_num)]
  unfold newCount
  cases isItems b <;> cases isMap b <;> cases isTag b <;> simp

variable {v : ℕ → BitW E} {t : ℕ → Bool}

theorem countersNext_eq {s : Lexeme E} {b : UInt8} {h : Bool} (decoded : Decoded s.bd b)
    (isHeader : s.header.Encodes h) (isSel : ∀ l < kNCounters, (v l).Encodes (t l))
    (cc : ℕ → CEltW E) (c : ℕ) :
    (∀ l < kNCounters, (countersNext cc v (counter c) s).1 l =
      if l ≠ 0 ∧ (t (l - 1) && h && opens b) = true then counter (newCount b c)
      else Counter.add (cc l) (if t l && h then counter (-1) else counter 0)) ∧
    (countersNext cc v (counter c) s).2.Encodes (t (kNCounters - 1) && h && opens b) := by
  have enable : ∀ l < kNCounters, (land (land (v l) s.header) (lor s.bd.tagp s.bd.itemsp)).Encodes
      (t l && h && opens b) :=
    fun l below => ((isSel l below).land isHeader).land (decoded.tagp.lor decoded.itemsp)
  have base : ∀ l < kNCounters, Counter.add (cc l)
      (Counter.ite0 (land (v l) s.header) Counter.mone) =
        Counter.add (cc l) (if t l && h then counter (-1) else counter 0) :=
    fun l below => by rw [ite0_eq ((isSel l below).land isHeader), mone_eq]
  have opened : ∀ l < kNCounters, ∀ x : CEltW E,
      Counter.mux (land (land (v l) s.header) (lor s.bd.tagp s.bd.itemsp))
        (counter (newCount b c)) x = if (t l && h && opens b) = true then counter (newCount b c)
          else x :=
    fun l below x => mux_eq' (enable l below) _ x
  have four : List.range kNCounters = [0, 1, 2, 3] := rfl
  unfold countersNext
  rw [four]
  simp only [List.foldl_cons, List.foldl_nil, newc_eq decoded]
  simp only [kNCounters, Nat.reduceAdd, Nat.reduceLT, if_true, if_false]
  refine ⟨fun l below => ?_, enable 3 (by decide)⟩
  obtain rfl | rfl | rfl | rfl : l = 0 ∨ l = 1 ∨ l = 2 ∨ l = 3 := by omega
  · rw [Function.update_of_ne (by decide), Function.update_of_ne (by decide),
      Function.update_of_ne (by decide), base 0 below]
    simp only [ne_eq, not_true_eq_false, false_and, if_false]
  · rw [Function.update_of_ne (by decide), Function.update_of_ne (by decide), Function.update_self,
      opened 0 (by decide), base 1 below]
    simp only [ne_eq, one_ne_zero, not_false_eq_true, true_and, Nat.sub_self]
  · rw [Function.update_of_ne (by decide), Function.update_self, opened 1 (by decide),
      Function.update_of_ne (by decide), base 2 below]
    simp only [ne_eq, OfNat.ofNat_ne_zero, not_false_eq_true, true_and, Nat.reduceSub]
  · rw [Function.update_self, opened 2 (by decide), Function.update_of_ne (by decide),
      Function.update_of_ne (by decide), base 3 below]
    simp only [ne_eq, OfNat.ofNat_ne_zero, not_false_eq_true, true_and, Nat.reduceSub]

/-- The wires of the parser stand for the selectors. -/
def Selects (bytes : Bytes) (sel : ℕ → ℕ → Bool) (ps : ℕ → ParseOutput E) : Prop :=
  ∀ i < bytes.length, ∀ l < kNCounters, ((ps i).sel l).Encodes (sel i l)

theorem assertCounterUpdates_iff (lexes : Lexes bytes header ds) (selects : Selects bytes sel ps)
    (countInside : header (bytes.length - 1) = true →
      countIsNext (bytes.getD (bytes.length - 1) 0) = false) :
    assertCounterUpdates bytes.length ds ps = true ↔
      ∀ i < bytes.length, 0 < i →
        (sel i (kNCounters - 1) && header i && opens (bytes.getD i 0)) = false ∧
        ∀ l < kNCounters, (ps i).ccNext l =
          updated bytes header sel (ps (i - 1)).ccNext i l := by
  unfold assertCounterUpdates
  simp only [List.all_eq_true, List.mem_range]
  refine forall₂_congr fun i below => ?_
  obtain ⟨decoded, isHeader⟩ := lexes i below
  -- The argument is read from the next position, or asserted not to be there.
  obtain ⟨counti, isCounti, asserted, c, isCount, same⟩ : ∃ counti, (if i + 1 < bytes.length then
      (Counter.mux (ds i).bd.countIsNextV8 (ds (i + 1)).bd.asCounter (ds i).bd.countAsCounter, true)
      else ((ds i).bd.countAsCounter,
        assertImplies (ds i).header (lnot (ds i).bd.countIsNextV8))) = counti ∧ counti.2 = true ∧
      ∃ c : ℕ, counti.1 = counter c ∧
        (header i = true → c = countOf (bytes.getD i 0) (bytes.getD (i + 1) 0)) := by
    refine ⟨_, rfl, ?_⟩
    by_cases more : i + 1 < bytes.length
    · rw [if_pos more]
      refine ⟨rfl, _, ?_, fun _ => rfl⟩
      show Counter.mux _ _ _ = _
      rw [mux_eq' decoded.countIsNextV8, (lexes (i + 1) more).1.asCounter, decoded.countAsCounter]
      unfold countOf
      cases countIsNext (bytes.getD i 0) <;> rfl
    · have last : i = bytes.length - 1 := by omega
      have short : header i = true → countIsNext (bytes.getD i 0) = false := last ▸ countInside
      rw [if_neg more]
      refine ⟨?_, info (bytes.getD i 0), decoded.countAsCounter, fun on => ?_⟩
      · show assertImplies _ _ = true
        rw [isHeader.assertImplies_iff decoded.countIsNextV8.lnot, Bool.not_eq_true']
        exact short
      · rw [countOf, short on, if_neg Bool.false_ne_true]
  rw [isCounti]
  by_cases start : 0 < i
  · obtain ⟨levels, overflow⟩ := countersNext_eq decoded isHeader (selects i below)
      (ps (i - 1)).ccNext c
    simp only [asserted, Bool.true_and, if_pos start, isCount, Bool.and_eq_true, List.all_eq_true,
      List.mem_range, assertEq_eq_true, overflow.assertFalse_iff]
    have level : ∀ l < kNCounters,
        (countersNext (ps (i - 1)).ccNext (ps i).sel (counter c) (ds i)).1 l =
          updated bytes header sel (ps (i - 1)).ccNext i l := by
      intro l inside
      rw [levels l inside, updated]
      cases case : header i with
      | false => simp
      | true => rw [same case]
    refine ⟨fun both _ => ⟨both.1, fun l inside => ?_⟩,
      fun both => ⟨(both start).1, fun l inside => ?_⟩⟩
    · rw [← level l inside, both.2 l inside]
    · rw [level l inside, (both start).2 l inside]
  · simp only [asserted, if_neg start, Bool.and_true]
    exact ⟨fun _ positive => absurd positive start, fun _ => trivial⟩

theorem assertMaximal_iff {cc : ℕ → CEltW E} (isSel : ∀ l < kNCounters, (v l).Encodes (t l)) :
    assertMaximal cc v = true ↔
      ∀ l m, l < m → m < kNCounters → t l = true → cc m = counter 0 := by
  have zero := isSel 0 (by decide)
  have one := isSel 1 (by decide)
  have two := isSel 2 (by decide)
  have conditional : ∀ {b : BitW E} {s : Bool} (_ : b.Encodes s) (c : CEltW E),
      Counter.assert0 (Counter.ite0 b c) = true ↔ (s = true → c = counter 0) := by
    intro b s is c
    rw [assert0_eq_true, ite0_eq is]
    cases s <;> simp
  have three : List.range (kNCounters - 1) = [0, 1, 2] := rfl
  unfold assertMaximal
  rw [three]
  simp only [List.foldl_cons, List.foldl_nil, Bool.true_and, Bool.and_eq_true, Nat.zero_add,
    Nat.reduceAdd, conditional zero, conditional (zero.lor one), conditional ((zero.lor one).lor two),
    Bool.or_eq_true]
  constructor
  · rintro ⟨⟨first, second⟩, third⟩ l m less below on
    obtain rfl | rfl | rfl : m = 1 ∨ m = 2 ∨ m = 3 := by unfold kNCounters at below; omega
    · obtain rfl : l = 0 := by omega
      exact first on
    · obtain rfl | rfl : l = 0 ∨ l = 1 := by omega
      · exact second (.inl on)
      · exact second (.inr on)
    · obtain rfl | rfl | rfl : l = 0 ∨ l = 1 ∨ l = 2 := by omega
      · exact third (.inl (.inl on))
      · exact third (.inl (.inr on))
      · exact third (.inr on)
  · intro all
    refine ⟨⟨all 0 1 (by decide) (by decide), ?_⟩, ?_⟩
    · rintro (on | on)
      · exact all 0 2 (by decide) (by decide) on
      · exact all 1 2 (by decide) (by decide) on
    · rintro ((on | on) | on)
      · exact all 0 3 (by decide) (by decide) on
      · exact all 1 3 (by decide) (by decide) on
      · exact all 2 3 (by decide) (by decide) on

theorem sum_encodes (isSel : ∀ l < kNCounters, (v l).Encodes (t l))
    (exclusive : ∀ l m, l < m → m < kNCounters → (t l && t m) = false) :
    ((List.range kNCounters).foldl (fun sum l => lorExclusive sum (v l)) (bit 0)).Encodes
      (decide (∃ l < kNCounters, t l = true)) := by
  have four : List.range kNCounters = [0, 1, 2, 3] := rfl
  have none : (bit 0 : BitW E).Encodes false := BitW.Encodes.bit 0
  have zero := none.lorExclusive (isSel 0 (by decide)) rfl
  have e01 := exclusive 0 1 (by decide) (by decide)
  have e02 := exclusive 0 2 (by decide) (by decide)
  have e03 := exclusive 0 3 (by decide) (by decide)
  have e12 := exclusive 1 2 (by decide) (by decide)
  have e13 := exclusive 1 3 (by decide) (by decide)
  have e23 := exclusive 2 3 (by decide) (by decide)
  have one := zero.lorExclusive (isSel 1 (by decide)) (by rw [Bool.false_or, e01])
  have two := one.lorExclusive (isSel 2 (by decide)) (by
    rw [Bool.false_or, Bool.and_or_distrib_right, e02, e12, Bool.or_false])
  have three := two.lorExclusive (isSel 3 (by decide)) (by
    rw [Bool.false_or, Bool.and_or_distrib_right, Bool.and_or_distrib_right, e03, e13, e23,
      Bool.or_false, Bool.or_false])
  rw [four]
  refine three.congr ?_
  rw [Bool.eq_iff_iff, Bool.false_or]
  simp only [Bool.or_eq_true, decide_eq_true_eq]
  constructor
  · rintro (((on | on) | on) | on)
    · exact ⟨0, by decide, on⟩
    · exact ⟨1, by decide, on⟩
    · exact ⟨2, by decide, on⟩
    · exact ⟨3, by decide, on⟩
  · rintro ⟨l, below, on⟩
    obtain rfl | rfl | rfl | rfl : l = 0 ∨ l = 1 ∨ l = 2 ∨ l = 3 := by
      unfold kNCounters at below
      omega
    · exact .inl (.inl (.inl on))
    · exact .inl (.inl (.inr on))
    · exact .inl (.inr on)
    · exact .inr on

theorem assertParse_iff (some : bytes ≠ []) (lexes : Lexes bytes header ds)
    (selects : Selects bytes sel ps) (countInside : header (bytes.length - 1) = true →
      countIsNext (bytes.getD (bytes.length - 1) 0) = false) :
    assertParse bytes.length ds ps pw = true ↔ ParseFacts bytes header sel
      (fun i => (ps i).ccNext) (fun i => (pw i).invprodParse) := by
  have positive : 0 < bytes.length := List.length_pos_iff.mpr some
  have apart : ∀ i < bytes.length, ((List.range kNCounters).all fun l =>
      (List.range' (l + 1) (kNCounters - (l + 1))).all fun m =>
        assertFalse (land ((ps i).sel l) ((ps i).sel m))) = true ↔
      ∀ l m, l < m → m < kNCounters → (sel i l && sel i m) = false := by
    intro i below
    simp only [List.all_eq_true, List.mem_range, List.mem_range'_1]
    constructor
    · intro all l m less inside
      have both := (selects i below l (by omega)).land (selects i below m inside)
      exact both.assertFalse_iff.mp (all l (by omega) m (by omega))
    · intro all l inside m between
      have both := (selects i below l inside).land (selects i below m (by omega))
      exact both.assertFalse_iff.mpr (all l m (by omega) (by omega))
  have product : ∀ i, i < bytes.length - 1 →
      (assertEq (mulRange 0 kNCounters (fun l => mux ((ps (i + 1)).sel l)
        (Counter.znzIndicator ((ps i).ccNext l)) (konst 1)) * (pw (i + 1)).invprodParse) (konst 1) =
          true ↔
      (∏ l ∈ Finset.range kNCounters, if sel (i + 1) l then
        Counter.znzIndicator ((ps i).ccNext l) else (1 : E)) * (pw (i + 1)).invprodParse = 1) := by
    intro i inside
    have factors : ∏ l ∈ Finset.range kNCounters, mux ((ps (i + 1)).sel l)
        (Counter.znzIndicator ((ps i).ccNext l)) (konst 1) =
        ∏ l ∈ Finset.range kNCounters, if sel (i + 1) l then
          Counter.znzIndicator ((ps i).ccNext l) else (1 : E) := by
      refine Finset.prod_congr rfl fun l member => ?_
      rw [(selects (i + 1) (by omega) l (Finset.mem_range.mp member)).mux, konst, scalar_one]
    rw [assertEq_iff, mulRange_eq, ← Finset.range_eq_Ico, factors, konst, scalar_one]
  have maximal : ∀ i, i < bytes.length - 1 →
      (assertMaximal (ps i).ccNext (ps (i + 1)).sel = true ↔
        ∀ l m, l < m → m < kNCounters → sel (i + 1) l = true → (ps i).ccNext m = counter 0) :=
    fun i inside => assertMaximal_iff (selects (i + 1) (by omega))
  unfold assertParse
  simp only [Bool.and_eq_true, assertCounterUpdates_iff lexes selects countInside]
  simp only [List.all_eq_true (l := List.range bytes.length),
    List.all_eq_true (l := List.range (bytes.length - 1)), Bool.and_eq_true, List.mem_range,
    (selects 0 positive 0 (by decide)).assert1_iff]
  constructor
  · rintro ⟨⟨⟨⟨⟨updates, each⟩, final⟩, first⟩, top⟩, nonzero⟩
    have exclusive : ∀ i (below : i < bytes.length), _ := fun i below =>
      (apart i below).mp (each i below).1
    refine ⟨fun i below start => (updates i below start).2,
      fun i below start => (updates i below start).1, exclusive, fun i below on => ?_,
      fun l inside => ?_, first, fun i more => (maximal i (by omega)).mp (top i (by omega)),
      fun i more => (product i (by omega)).mp (nonzero i (by omega))⟩
    · have sum := sum_encodes (selects i below) (exclusive i below)
      exact of_decide_eq_true (((lexes i below).2.assertImplies_iff sum).mp (each i below).2 on)
    · exact assert0_eq_true.mp (List.all_eq_true.mp final l (List.mem_range.mpr inside))
  · intro facts
    refine ⟨⟨⟨⟨⟨fun i below start => ⟨facts.inside i below start, facts.update i below start⟩,
      fun i below => ⟨(apart i below).mpr (facts.exclusive i below), ?_⟩⟩, ?_⟩, facts.first⟩,
      fun i inside => (maximal i inside).mpr (facts.maximal i (by omega))⟩,
      fun i inside => (product i inside).mpr (facts.invprod i (by omega))⟩
    · have sum := sum_encodes (selects i below) (facts.exclusive i below)
      exact ((lexes i below).2.assertImplies_iff sum).mpr fun on =>
        decide_eq_true (facts.selected i below on)
    · exact List.all_eq_true.mpr fun l member =>
        assert0_eq_true.mpr (facts.final l (List.mem_range.mp member))

end ParseFacts

/-! ### What the circuit asserts -/

section Accepts

open Logic

variable {pw : ℕ → PositionWitness E}

theorem holds_inputWires (bytes : Bytes) (i : ℕ) :
    Holds 8 (inputWires bytes i : ℕ → BitW E) (bytes.getD i 0).toNat := by
  intro j _
  refine BitW.Encodes.ofElt_iff.mpr ?_
  rw [Nat.testBit_eq_decide_div_mod_eq, Nat.and_one_is_mod, Nat.shiftRight_eq_div_pow]
  obtain zero | one : (bytes.getD i 0).toNat / 2 ^ j % 2 = 0 ∨
      (bytes.getD i 0).toNat / 2 ^ j % 2 = 1 := by omega
  · rw [zero]
    exact scalar_zero
  · rw [one]
    exact scalar_one

theorem inputWires_areBits (bytes : Bytes) (i : ℕ) :
    (decodeOneV8 (inputWires bytes i : ℕ → BitW E)).2 = true := by
  refine List.all_eq_true.mpr fun j member =>
    assertIsBit_iff.mpr ⟨(bytes.getD i 0).toNat.testBit j, ?_⟩
  exact (eval_eq _).trans (holds_inputWires bytes i j (List.mem_range.mp member))

/-- The header bits and the selectors that a witness encodes. -/
def Encoded (n : ℕ) (pw : ℕ → PositionWitness E) (header : ℕ → Bool) (sel : ℕ → ℕ → Bool) : Prop :=
  ∀ i < n, ((BitPlucker.pluck 1 (pw i).encodedHeader).1 0).Encodes (header i) ∧
    ∀ l < kNCounters, ((UnaryPlucker.pluck kNCounters (pw i).encodedSel).1 l).Encodes (sel i l)

/-- **A witness is accepted exactly when its bits satisfy the lexer and the parser.** -/
theorem accepts_iff (some : bytes ≠ []) : Accepts bytes pw ↔
    ∃ header sel, Encoded bytes.length pw header sel ∧ DecodeFacts bytes header pw ∧
      ParseFacts bytes header sel (fun i => (pw i).ccNext) (fun i => (pw i).invprodParse) := by
  unfold Accepts decodeAndAssertDecodeAndParse decodeAll parse
  simp only [Bool.and_eq_true, List.all_eq_true, List.mem_range]
  constructor
  · rintro ⟨⟨⟨decoded, lexed⟩, plucked⟩, parsed⟩
    have isHeader : ∀ i, ∃ t, i < bytes.length →
        ((BitPlucker.pluck 1 (pw i).encodedHeader).1 0).Encodes t := by
      intro i
      by_cases below : i < bytes.length
      · obtain ⟨t, is⟩ := pluckWith_iff.mp (decoded i below).2 0 (by norm_num)
        exact ⟨t, fun _ => is⟩
      · exact ⟨false, fun inside => absurd inside below⟩
    have isSel : ∀ i l, ∃ t, i < bytes.length → l < kNCounters →
        ((UnaryPlucker.pluck kNCounters (pw i).encodedSel).1 l).Encodes t := by
      intro i l
      by_cases below : i < bytes.length ∧ l < kNCounters
      · obtain ⟨t, is⟩ := pluckWith_iff.mp (plucked i below.1) l below.2
        exact ⟨t, fun _ _ => is⟩
      · exact ⟨false, fun inside within => absurd ⟨inside, within⟩ below⟩
    choose header encodesHeader using isHeader
    choose sel encodesSel using isSel
    have lexes : Lexes bytes header fun i =>
        (⟨(decodeOneV8 (inputWires bytes i)).1, (BitPlucker.pluck 1 (pw i).encodedHeader).1 0⟩ :
          Lexeme E) :=
      fun i below => ⟨decodeOneV8_spec (holds_inputWires bytes i), encodesHeader i below⟩
    have decodeFacts := (assertDecode_iff some lexes).mp lexed
    exact ⟨header, sel, fun i below => ⟨encodesHeader i below, fun l => encodesSel i l below⟩,
      decodeFacts, (assertParse_iff some lexes (fun i below l => encodesSel i l below)
        decodeFacts.countInside).mp parsed⟩
  · rintro ⟨header, sel, encoded, decodeFacts, parseFacts⟩
    have lexes : Lexes bytes header fun i =>
        (⟨(decodeOneV8 (inputWires bytes i)).1, (BitPlucker.pluck 1 (pw i).encodedHeader).1 0⟩ :
          Lexeme E) :=
      fun i below => ⟨decodeOneV8_spec (holds_inputWires bytes i), (encoded i below).1⟩
    refine ⟨⟨⟨fun i below => ⟨inputWires_areBits bytes i, pluckWith_iff.mpr fun k first => ?_⟩,
      (assertDecode_iff some lexes).mpr decodeFacts⟩,
      fun i below => pluckWith_iff.mpr fun l inside => ⟨_, (encoded i below).2 l inside⟩⟩,
      (assertParse_iff some lexes (fun i below l => (encoded i below).2 l)
        decodeFacts.countInside).mpr parseFacts⟩
    obtain rfl : k = 0 := by omega
    exact ⟨_, (encoded i below).1⟩

end Accepts

end Longfellow.CborV2
