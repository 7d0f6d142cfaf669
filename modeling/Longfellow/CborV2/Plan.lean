/-
**Witnesses from numbers.**

A prover works with numbers: where the headers are, the level of each, the length that is left of a
token, and the items that are still to come. A plan that fits the bytes becomes an accepted witness.

* `Plan.Fits` — what the numbers have to satisfy.
-/

import Longfellow.CborV2.Parser

set_option linter.unusedSectionVars false

namespace Longfellow.CborV2

open Lib CircuitField
open scoped BigOperators

variable {E : Type} [CircuitField E] [DecidableEq E]

/-- The numbers behind each position. The level is `kNCounters` when nothing is to come. -/
structure Plan where
  header : ℕ → Bool
  level : ℕ → ℕ
  slen : ℕ → ℕ
  cc : ℕ → ℕ → ℕ

namespace Plan

variable (plan : Plan)

/-- The items that are to come at a level behind a position. -/
def updated (bytes : Bytes) (i l : ℕ) : ℕ :=
  if plan.header i then
    if l = plan.level i then plan.cc (i - 1) l - 1
    else if l = plan.level i + 1 ∧ opens (bytes.getD i 0) then
      childCount (bytes.getD i 0) (bytes.getD (i + 1) 0)
    else plan.cc (i - 1) l
  else plan.cc (i - 1) l

/-- The sum that the counters of a position are checked by. -/
def sum (i : ℕ) : ℕ := plan.slen i + ∑ l ∈ Finset.range kNCounters, plan.cc i l

/-- What the numbers of an accepted witness satisfy. Behind the first position they are free. -/
structure Fits (bytes : Bytes) (order : ℕ) : Prop where
  lexed : Lexed bytes plan.header plan.slen
  levels : ∀ i < bytes.length, plan.level i ≤ kNCounters
  atHeader : ∀ i < bytes.length, plan.header i = true → plan.level i < kNCounters
  first : plan.level 0 = 0
  update : ∀ i < bytes.length, 0 < i → ∀ l < kNCounters, plan.cc i l = plan.updated bytes i l
  inside : ∀ i < bytes.length, 0 < i → plan.header i = true → opens (bytes.getD i 0) = true →
    plan.level i + 1 < kNCounters
  final : ∀ l < kNCounters, plan.cc (bytes.length - 1) l = 0
  chosen : ∀ i, i + 1 < bytes.length → plan.level (i + 1) < kNCounters →
    plan.cc i (plan.level (i + 1)) ≠ 0 ∧ ∀ m < kNCounters, plan.level (i + 1) < m → plan.cc i m = 0
  small : ∀ i < bytes.length, plan.slen i < order ∧ ∀ l < kNCounters, plan.cc i l < order

/-- The witness for some numbers. -/
def witness (i : ℕ) : PositionWitness E where
  encodedHeader := bitPluckerPoint 2 (plan.header i).toNat
  encodedSel := bitPluckerPoint (kNCounters + 1) (plan.level i)
  slenNext := counter (plan.slen i : ℕ)
  ccNext l := counter (plan.cc i l : ℕ)
  negSumCounters := counter (-(plan.sum i : ℤ))
  invprodDecode := (if plan.header i then (1 : E)
    else Counter.znzIndicator (counter (plan.slen (i - 1) - 1 : ℕ)))⁻¹
  invprodParse := (if 0 < i ∧ plan.level i < kNCounters then
    Counter.znzIndicator (counter (plan.cc (i - 1) (plan.level i) : ℕ)) else (1 : E))⁻¹

variable {plan} {bytes : Bytes}

instance (header : ℕ → Bool) (slen : ℕ → ℕ) : Decidable (Lexed bytes header slen) :=
  decidable_of_iff
    (header 0 = true ∧ (∀ i < bytes.length, header i = true → supported (bytes.getD i 0) = true ∧
      slen i = tailLength (bytes.getD i 0) (bytes.getD (i + 1) 0) + 1) ∧
    (∀ i < bytes.length, i + 1 < bytes.length →
      (header (i + 1) = false → slen (i + 1) + 1 = slen i) ∧ (header (i + 1) = true ↔ slen i = 1)) ∧
    slen (bytes.length - 1) = 1)
    ⟨fun ⟨first, token, next, last⟩ => ⟨first, token, fun i more => (next i (by omega) more).1,
      fun i more => (next i (by omega) more).2, last⟩,
    fun lexed => ⟨lexed.first, lexed.token, fun i _ more => ⟨lexed.counts i more, lexed.marks i more⟩,
      lexed.last⟩⟩

/-- What fitting says about one position and the next. -/
def FitsAt (plan : Plan) (bytes : Bytes) (order i : ℕ) : Prop :=
  (plan.level i ≤ kNCounters ∧ (plan.header i = true → plan.level i < kNCounters)) ∧
  (0 < i → ∀ l < kNCounters, plan.cc i l = plan.updated bytes i l) ∧
  (0 < i → plan.header i = true → opens (bytes.getD i 0) = true → plan.level i + 1 < kNCounters) ∧
  (i + 1 < bytes.length → plan.level (i + 1) < kNCounters →
    plan.cc i (plan.level (i + 1)) ≠ 0 ∧
      ∀ m < kNCounters, plan.level (i + 1) < m → plan.cc i m = 0) ∧
  plan.slen i < order ∧ ∀ l < kNCounters, plan.cc i l < order

instance (order i : ℕ) : Decidable (plan.FitsAt bytes order i) := by
  unfold FitsAt
  infer_instance

instance (order : ℕ) : Decidable (plan.Fits bytes order) :=
  decidable_of_iff
    (Lexed bytes plan.header plan.slen ∧ plan.level 0 = 0 ∧
    (∀ l < kNCounters, plan.cc (bytes.length - 1) l = 0) ∧
    ∀ i < bytes.length, plan.FitsAt bytes order i)
    ⟨fun ⟨lexed, first, final, each⟩ => ⟨lexed, fun i inside => (each i inside).1.1,
      fun i inside => (each i inside).1.2, first, fun i inside => (each i inside).2.1,
      fun i inside => (each i inside).2.2.1, final,
      fun i more => (each i (by omega)).2.2.2.1 more, fun i inside => (each i inside).2.2.2.2⟩,
    fun fits => ⟨fits.lexed, fits.first, fits.final, fun i inside =>
      ⟨⟨fits.levels i inside, fits.atHeader i inside⟩, fits.update i inside, fits.inside i inside,
        fits.chosen i, fits.small i inside⟩⟩⟩

theorem witness_encoded (fits : plan.Fits bytes (counterOrder E)) :
    Encoded bytes.length (plan.witness : ℕ → PositionWitness E) plan.header
      fun i l => decide (plan.level i = l) :=
  fun i inside => ⟨bitPlucker_point (plan.header i),
    fun _ _ => unaryPlucker_point (by decide) (fits.levels i inside)⟩

theorem znzIndicator_ne_zero {n : ℕ} (some : n ≠ 0) (small : n < counterOrder E) :
    Counter.znzIndicator (counter (n : ℕ) : CEltW E) ≠ 0 := by
  intro zero
  have same : (counter (n : ℕ) : CEltW E) = counter ((0 : ℕ) : ℤ) := znzIndicator_eq_zero.mp zero
  exact some (counter_injective (E := E) small (by omega) same)

theorem witness_checksum (i : ℕ) : Counter.addRange 0 (kNCounters + 2) (fun j =>
    if j = 0 then (plan.witness i : PositionWitness E).slenNext
    else if j = 1 then (plan.witness i).negSumCounters
    else (plan.witness i).ccNext (j - 2)) = counter 0 := by
  rw [addRange_counters 0 (kNCounters + 2) (z := fun j => if j = 0 then (plan.slen i : ℤ)
    else if j = 1 then -(plan.sum i : ℤ) else plan.cc i (j - 2)) fun j _ _ => ?_]
  · congr 1
    simp only [Finset.sum_Ico_eq_sum_range, sum, kNCounters, Finset.sum_range_succ,
      Finset.sum_range_zero]
    push_cast
    norm_num
    ring
  · by_cases first : j = 0
    · rw [if_pos first, if_pos first, witness]
    by_cases second : j = 1
    · rw [if_neg first, if_neg first, if_pos second, if_pos second, witness]
    · rw [if_neg first, if_neg first, if_neg second, if_neg second, witness]

theorem info_small_of_last (fits : plan.Fits bytes (counterOrder E)) {i : ℕ}
    (inside : i < bytes.length) (last : ¬ i + 1 < bytes.length) (on : plan.header i = true) :
    info (bytes.getD i 0) < 24 := by
  obtain ⟨known, length⟩ := fits.lexed.token i inside on
  have one := fits.lexed.last
  rw [show bytes.length - 1 = i by omega, length] at one
  by_contra large
  have positive := argumentLength_pos (by omega) (info_le_of_supported known)
  unfold tailLength at one
  omega

theorem witness_decodes (some : bytes ≠ []) (fits : plan.Fits bytes (counterOrder E)) :
    DecodeFacts bytes plan.header (plan.witness : ℕ → PositionWitness E) := by
  have positive : 0 < bytes.length := List.length_pos_iff.mpr some
  have lexed := fits.lexed
  refine ⟨fun i inside on => (lexed.token i inside on).1, fun on => ?_,
    fun i _ => witness_checksum i, fun i inside last on => ?_, fun i inside on => ?_,
    fun i inside off => ?_, lexed.first, fun i inside next => ?_, fun i more => ?_⟩
  · have small := info_small_of_last fits (by omega) (by omega) on
    rw [countIsNext, decide_eq_false (by omega), Bool.and_false]
  · have small := info_small_of_last fits inside last on
    rw [lengthIsNext, decide_eq_false (by omega), Bool.and_false]
  · obtain ⟨known, length⟩ := lexed.token i inside on
    rw [headLength_eq known] at length
    exact congrArg (fun n : ℕ => counter (n : ℤ)) length
  · have behind : 0 < i := by
      by_contra first
      rw [show i = 0 by omega, lexed.first] at off
      exact Bool.noConfusion off
    have down := lexed.counts (i - 1) (by omega) (by rwa [show i - 1 + 1 = i by omega])
    rw [show i - 1 + 1 = i by omega] at down
    rw [if_neg (by omega)]
    show counter _ = Counter.add (counter _) _
    rw [add_counter]
    congr 1
    omega
  · by_cases more : i + 1 < bytes.length
    · have one := (lexed.marks i more).mp (next more)
      show counter (plan.slen i : ℤ) = _
      rw [one]
      rfl
    · have one := lexed.last
      rw [show bytes.length - 1 = i by omega] at one
      show counter (plan.slen i : ℤ) = _
      rw [one]
      rfl
  · show _ * (if plan.header (i + 1) then (1 : E)
      else Counter.znzIndicator (counter (plan.slen (i + 1 - 1) - 1 : ℕ)))⁻¹ = 1
    rw [Nat.add_sub_cancel]
    cases case : plan.header (i + 1) with
    | true => rw [if_pos rfl, if_pos rfl, inv_one, mul_one]
    | false =>
      -- A length that is counted down is more than one.
      have down := lexed.counts i more case
      have next := lexed.marks i more
      rw [case] at next
      have many : plan.slen i ≠ 1 := fun one => Bool.false_ne_true (next.mpr one)
      have small := (fits.small i (by omega)).1
      rw [if_neg Bool.false_ne_true, if_neg Bool.false_ne_true]
      have same : Counter.add (plan.witness i : PositionWitness E).slenNext (counter (-1)) =
          counter ((plan.slen i - 1 : ℕ) : ℤ) := by
        show Counter.add (counter _) _ = _
        rw [add_counter]
        congr 1
        omega
      rw [same]
      exact mul_inv_cancel₀ (znzIndicator_ne_zero (by omega) (by omega))

theorem updated_eq (fits : plan.Fits bytes (counterOrder E)) {i : ℕ} (inside : i < bytes.length)
    (behind : 0 < i) (l : ℕ) :
    (counter (plan.updated bytes i l : ℕ) : CEltW E) =
      CborV2.updated bytes plan.header (fun i l => decide (plan.level i = l))
        (fun l => counter (plan.cc (i - 1) l : ℕ)) i l := by
  unfold Plan.updated CborV2.updated
  dsimp only
  cases on : plan.header i with
  | false =>
    rw [if_neg Bool.false_ne_true, if_neg (by simp), Bool.and_false, if_neg Bool.false_ne_true,
      cadd_zero]
  | true =>
    have known := (fits.lexed.token i inside on).1
    have low := fits.atHeader i inside on
    rw [if_pos rfl]
    by_cases here : l = plan.level i
    · have chosen := (fits.chosen (i - 1) (by omega) (by rwa [show i - 1 + 1 = i by omega])).1
      rw [show i - 1 + 1 = i by omega] at chosen
      rw [if_pos here, if_neg (by simp; omega),
        if_pos (show (decide (plan.level i = l) && true) = true by simp [here]), add_counter, here]
      congr 1
      omega
    rw [if_neg here]
    by_cases opened : l = plan.level i + 1 ∧ opens (bytes.getD i 0) = true
    · have selected : l ≠ 0 ∧
          (decide (plan.level i = l - 1) && true && opens (bytes.getD i 0)) = true := by
        rw [opened.2, opened.1, Nat.add_sub_cancel, decide_eq_true rfl]
        exact ⟨Nat.succ_ne_zero _, rfl⟩
      rw [if_pos opened, if_pos selected, newCount_eq known opened.2]
    · have other : ¬ (l ≠ 0 ∧
          (decide (plan.level i = l - 1) && true && opens (bytes.getD i 0)) = true) := by
        simp only [Bool.and_true, Bool.and_eq_true, decide_eq_true_eq]
        rintro ⟨some, level, branches⟩
        exact opened ⟨by omega, branches⟩
      rw [if_neg opened, if_neg other,
        if_neg (show ¬ (decide (plan.level i = l) && true) = true by simpa using Ne.symm here),
        cadd_zero]

theorem witness_parses (some : bytes ≠ []) (fits : plan.Fits bytes (counterOrder E)) :
    ParseFacts bytes plan.header (fun i l => decide (plan.level i = l))
      (fun i => (plan.witness i : PositionWitness E).ccNext)
      (fun i => (plan.witness i : PositionWitness E).invprodParse) := by
  have positive : 0 < bytes.length := List.length_pos_iff.mpr some
  refine ⟨fun i inside behind l below => ?_, fun i inside behind => ?_,
    fun i inside l m less below => ?_, fun i inside on => ?_, fun l below => ?_, ?_,
    fun i more l m less below on => ?_, fun i more => ?_⟩
  · show counter (plan.cc i l : ℤ) = _
    rw [fits.update i inside behind l below, updated_eq fits inside behind l]
    rfl
  · rw [← Bool.not_eq_true]
    simp only [Bool.and_eq_true, decide_eq_true_eq]
    rintro ⟨⟨last, on⟩, branches⟩
    have := fits.inside i inside behind on branches
    omega
  · rw [← Bool.not_eq_true]
    simp only [Bool.and_eq_true, decide_eq_true_eq]
    omega
  · exact ⟨plan.level i, fits.atHeader i inside on, decide_eq_true rfl⟩
  · show counter (plan.cc (bytes.length - 1) l : ℤ) = _
    rw [fits.final l below]
    rfl
  · exact decide_eq_true fits.first
  · obtain rfl := of_decide_eq_true on
    show counter (plan.cc i m : ℤ) = _
    rw [(fits.chosen i more (by omega)).2 m below less]
    rfl
  · show (∏ l ∈ Finset.range kNCounters, if decide (plan.level (i + 1) = l) = true then
        Counter.znzIndicator (counter (plan.cc i l : ℕ)) else (1 : E)) *
      (if 0 < i + 1 ∧ plan.level (i + 1) < kNCounters then
        Counter.znzIndicator (counter (plan.cc (i + 1 - 1) (plan.level (i + 1)) : ℕ)) else 1)⁻¹ = 1
    simp only [decide_eq_true_eq, Nat.add_sub_cancel]
    rw [Finset.prod_ite_eq]
    by_cases low : plan.level (i + 1) < kNCounters
    · rw [if_pos (Finset.mem_range.mpr low), if_pos ⟨Nat.succ_pos i, low⟩]
      exact mul_inv_cancel₀ (znzIndicator_ne_zero (fits.chosen i more low).1
        ((fits.small i (by omega)).2 _ low))
    · rw [if_neg (fun member => low (Finset.mem_range.mp member)), if_neg (fun both => low both.2),
        inv_one, mul_one]

end Plan

/-- **The witness of a plan that fits is accepted.** -/
theorem accepts_of_fits {bytes : Bytes} (some : bytes ≠ []) {plan : Plan}
    (fits : plan.Fits bytes (counterOrder E)) :
    Accepts bytes (plan.witness : ℕ → PositionWitness E) :=
  (accepts_iff some).mpr ⟨plan.header, fun i l => decide (plan.level i = l),
    Plan.witness_encoded fits, Plan.witness_decodes some fits, Plan.witness_parses some fits⟩

end Longfellow.CborV2
