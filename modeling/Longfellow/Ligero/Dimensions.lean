/-
**The dimensions of Ligero on a machine of 64 bits** (`runtime/ligero/src/param.rs`).

The constructor is run here with every operation on sizes checked, as the code's own are: a sum or a
product that does not fit, a negative difference or a division by zero is a panic.

* `LigeroParam.Sound` — what holds of the dimensions: the three groups of rows partition the rows,
  everything has a slot, and the sizes of a row are as the prover and the verifier need them.
-/

import Longfellow.Lib.Sizes
import Longfellow.Ligero.Param
import Longfellow.Merkle.Commitment

namespace Longfellow

open Lib Finset

variable {ε E : Type}

/-! ### The constructor with checked sizes -/

/-- The height of a heap. -/
def merkleHeapLenChecked (numLeaves : Nat) : Exec ε Nat :=
  if numLeaves = 0 then pure 0
  else do
    let zeros ← nextPowerOfTwoLog numLeaves
    addSize zeros 1

/-- The layout of the rows behind given dimensions of a row. -/
def LigeroParam.layoutRowsChecked (nw nq : Nat) (config : LigeroConfig) (block w dblock : Nat) :
    Exec ε LigeroParam := do
  let nwrow ← divCeilSize nw w
  let nqtriples ← divCeilSize nq w
  let iq ← addSize 3 nwrow
  let tripled ← mulSize 3 nqtriples
  let nwqrow ← addSize nwrow tripled
  let nrow ← addSize 3 nwqrow
  let blockExt ← checkedSub config.blockEnc dblock
  let mcPathlen ← merkleHeapLenChecked blockExt
  pure
    { geom :=
        { block := block
          dblock := dblock
          r := config.nreq
          blockEnc := config.blockEnc
          nrow := nrow
          nreq := config.nreq
          mcPathlen := mcPathlen }
      nw := nw
      nq := nq
      w := w
      nwrow := nwrow
      nqtriples := nqtriples
      nwqrow := nwqrow
      ildt := 0
      idot := 1
      iquad := 2
      iw := 3
      iq := iq }

/-- The dimensions for `nw` witnesses and `nq` products, if the backend supports them. -/
def LigeroParam.tryNewChecked (nw nq : Nat) (config : LigeroConfig)
    (domain : RangeInterpolatorFactory E) : Exec ε (Option LigeroParam) := do
  let maxSize := 1 <<< 28
  if config.blockEnc > maxSize then return none
  if config.rateinv > maxSize then return none
  let points ← addSize config.blockEnc 1
  let rate ← addSize 2 config.rateinv
  if points < rate then return none
  let block ← divSize points rate
  if ¬domain.canInterpolate ⟨0, block⟩ ⟨block, config.blockEnc⟩ then return none
  if block < config.nreq then return none
  let w ← checkedSub block config.nreq
  if w < config.nreq then return none
  let doubled ← mulSize 2 block
  let dblock ← checkedSub doubled 1
  if config.blockEnc < dblock then return none
  let blockExt ← checkedSub config.blockEnc dblock
  if blockExt < config.nreq then return none
  if ¬domain.canInterpolate ⟨0, dblock⟩ ⟨dblock, config.blockEnc⟩ ∨
      ¬domain.canInterpolate ⟨0, block⟩ ⟨block, dblock⟩ ∨
      ¬domain.canInterpolate ⟨0, block⟩ ⟨dblock, config.blockEnc⟩ then return none
  let param ← layoutRowsChecked nw nq config block w dblock
  return some param

theorem merkleHeapLenChecked_eq {numLeaves : Nat} (fits : numLeaves ≤ 2 ^ 62) :
    (merkleHeapLenChecked numLeaves : Exec ε Nat) = .ok (merkleHeapLen numLeaves) := by
  rw [merkleHeapLenChecked, merkleHeapLen]
  split
  · rfl
  · have height : Nat.clog 2 numLeaves ≤ 62 := (Nat.clog_le_iff_le_pow Nat.one_lt_two).mpr fits
    rw [nextPowerOfTwoLog_of_le (by omega), ok_bind, addSize_of_lt (by omega)]

variable {nw nq : Nat} {config : LigeroConfig}

theorem layoutRowsChecked_eq {block : Nat} (few : nw ≤ 2 ^ 32) (fewProducts : nq ≤ 2 ^ 32)
    (wide : config.blockEnc ≤ 2 ^ 28) (room : config.nreq < block)
    (oracle : 2 * block - 1 ≤ config.blockEnc) :
    (LigeroParam.layoutRowsChecked nw nq config block (block - config.nreq) (2 * block - 1) :
      Exec ε _) = .ok (.layoutRows nw nq config block) := by
  have pos : 0 < block - config.nreq := by omega
  have rows := divCeil_le nw pos
  have triples := divCeil_le nq pos
  rw [LigeroParam.layoutRowsChecked, divCeilSize_of_pos pos, ok_bind, divCeilSize_of_pos pos, ok_bind,
    addSize_of_lt (by omega), ok_bind, mulSize_of_lt (by omega), ok_bind, addSize_of_lt (by omega),
    ok_bind, addSize_of_lt (by omega), ok_bind, checkedSub_of_le oracle, ok_bind,
    merkleHeapLenChecked_eq (by omega)]
  rfl

section Guards

variable {α : Type} {p q : Prop} [Decidable p] [Decidable q]

theorem guard_bind (x : Option α) : (guard p >>= fun _ => x) = if ¬p then none else x := by
  by_cases holds : p <;> simp [guard, holds]

theorem early {x : Exec ε (Option α)} {y : Option α} (rest : ¬p → x = .ok y) :
    (if p then pure none else x) = .ok (if p then none else y) := by
  by_cases holds : p
  · rw [if_pos holds, if_pos holds, pure_eq_ok]
  · rw [if_neg holds, if_neg holds, rest holds]

theorem ite_or (y : Option α) :
    (if p ∨ q then none else y) = if p then none else if q then none else y := by
  by_cases holds : p
  · rw [if_pos holds, if_pos (.inl holds)]
  · simp only [holds, false_or, if_false]

end Guards

/-- **No operation on sizes fails.** -/
theorem tryNewChecked_eq (config : LigeroConfig) (domain : RangeInterpolatorFactory E)
    (few : nw ≤ 2 ^ 32) (fewProducts : nq ≤ 2 ^ 32) :
    (LigeroParam.tryNewChecked nw nq config domain : Exec ε _) =
      .ok (LigeroParam.tryNew nw nq config domain) := by
  have size : 1 <<< 28 = 2 ^ 28 := rfl
  simp only [LigeroParam.tryNewChecked, LigeroParam.tryNew, guard_bind, not_not]
  rw [ite_or, ite_or]
  refine early fun wide => early fun rate => ?_
  rw [size] at wide rate
  rw [addSize_of_lt (by omega), ok_bind, addSize_of_lt (by omega), ok_bind]
  refine early fun tooFew => ?_
  rw [divSize_of_pos (by omega), ok_bind]
  have pos : 0 < (config.blockEnc + 1) / (2 + config.rateinv) :=
    Nat.div_pos (by omega) (by omega)
  have small : (config.blockEnc + 1) / (2 + config.rateinv) ≤ config.blockEnc + 1 :=
    Nat.div_le_self _ _
  generalize (config.blockEnc + 1) / (2 + config.rateinv) = block at pos small ⊢
  refine early fun _ => early fun room => ?_
  rw [checkedSub_of_le (by omega), ok_bind]
  refine early fun half => ?_
  rw [mulSize_of_lt (by omega), ok_bind, checkedSub_of_le (by omega), ok_bind, ite_or]
  refine early fun enough => ?_
  rw [checkedSub_of_le (by omega), ok_bind]
  refine early fun oracle => early fun _ => ?_
  rw [layoutRowsChecked_eq few fewProducts (by omega) (by omega) (by omega)]
  rfl

/-! ### Sound dimensions -/

namespace LigeroParam

variable (param : LigeroParam)

/-- The row and the column of a witness. -/
def witnessSlot (i : Nat) : Nat × Nat := (param.iw + i / param.w, param.geom.r + i % param.w)

/-- The row and the column of an operand of a product, for the operands `0`, `1` and `2`. -/
def productSlot (operand i : Nat) : Nat × Nat :=
  (param.iq + operand * param.nqtriples + i / param.w, param.geom.r + i % param.w)

/-- The columns of a block that hold values. -/
def slotColumns : Finset Nat := Ico param.geom.r param.geom.block

/-- The rows of an operand of the products. -/
def operandRows (operand : Nat) : Finset Nat :=
  Ico (param.iq + operand * param.nqtriples) (param.iq + (operand + 1) * param.nqtriples)

/-- What holds of the dimensions for some counts and a configuration. -/
structure Sound (nw nq : Nat) (config : LigeroConfig) (domain : RangeInterpolatorFactory E) :
    Prop where
  /-- The rows are the masks, the witness rows and the product rows, and no row is of two kinds. -/
  rows : range param.geom.nrow =
    {param.ildt, param.idot, param.iquad} ∪ Ico param.iw param.iq ∪
      (range 3).biUnion param.operandRows
  masks : Disjoint {param.ildt, param.idot, param.iquad} (Ico param.iw param.iq)
  products : Disjoint ({param.ildt, param.idot, param.iquad} ∪ Ico param.iw param.iq)
    ((range 3).biUnion param.operandRows)
  operands : ∀ a b, a ≠ b → Disjoint (param.operandRows a) (param.operandRows b)
  distinct : param.ildt ≠ param.idot ∧ param.ildt ≠ param.iquad ∧ param.idot ≠ param.iquad
  /-- Every witness and every operand of a product has a slot of its own. -/
  witness : ∀ i < nw, param.witnessSlot i ∈ Ico param.iw param.iq ×ˢ param.slotColumns
  product : ∀ operand, ∀ i < nq,
    param.productSlot operand i ∈ param.operandRows operand ×ˢ param.slotColumns
  witness_injective : Function.Injective param.witnessSlot
  product_injective : ∀ operand, Function.Injective (param.productSlot operand)
  /-- A row has a mask for every query, and as many values; its products fit before the columns that
  are committed to, and there is one of these for every query. -/
  queries : param.geom.r = config.nreq ∧ param.geom.nreq = config.nreq
  width : param.geom.r + param.w = param.geom.block
  half : param.geom.r ≤ param.w ∧ 0 < param.w
  dblock : param.geom.dblock = 2 * param.geom.block - 1
  block_le : param.geom.block ≤ param.geom.dblock
  blockEnc : param.geom.blockEnc = config.blockEnc ∧ config.blockEnc ≤ 2 ^ 28
  oracle : param.geom.dblock + param.geom.nreq ≤ param.geom.blockEnc
  path : param.geom.mcPathlen = merkleHeapLen (param.geom.blockEnc - param.geom.dblock)
  /-- The backend interpolates between all the ranges. -/
  ranges : param.Admitted domain

end LigeroParam

theorem slot_injective (w row col : Nat) :
    Function.Injective fun i => (row + i / w, col + i % w) := by
  intro i j same
  obtain ⟨rows, cols⟩ := Prod.mk.inj same
  have split := Nat.div_add_mod i w
  have split' := Nat.div_add_mod j w
  rw [Nat.add_left_cancel rows, Nat.add_left_cancel cols] at split
  exact split.symm.trans split'

theorem mem_slotColumns {param : LigeroParam} (pos : 0 < param.w)
    (width : param.geom.r + param.w = param.geom.block) (i : Nat) :
    param.geom.r + i % param.w ∈ param.slotColumns := by
  have below := Nat.mod_lt i pos
  rw [LigeroParam.slotColumns, mem_Ico]
  omega

theorem mem_biUnion_operandRows {param : LigeroParam} {row : Nat} :
    row ∈ (range 3).biUnion param.operandRows ↔
      param.iq ≤ row ∧ row < param.iq + 3 * param.nqtriples := by
  simp only [mem_biUnion, mem_range, LigeroParam.operandRows, mem_Ico]
  constructor
  · rintro ⟨operand, below, above, inside⟩
    have step : (operand + 1) * param.nqtriples ≤ 3 * param.nqtriples :=
      Nat.mul_le_mul_right _ below
    omega
  · rintro ⟨above, inside⟩
    have pos : 0 < param.nqtriples := by omega
    refine ⟨(row - param.iq) / param.nqtriples, ?_, ?_, ?_⟩
    · exact (Nat.div_lt_iff_lt_mul pos).mpr (by omega)
    · have low := Nat.div_mul_le_self (row - param.iq) param.nqtriples
      omega
    · have high := Nat.lt_div_mul_add pos (a := row - param.iq)
      rw [Nat.succ_mul]
      omega

theorem operandRows_disjoint (param : LigeroParam) {a b : Nat} (other : a ≠ b) :
    Disjoint (param.operandRows a) (param.operandRows b) := by
  rw [Finset.disjoint_left]
  intro row first second
  simp only [LigeroParam.operandRows, mem_Ico] at first second
  obtain before | after := Nat.lt_or_gt_of_ne other
  · have step := Nat.mul_le_mul_right param.nqtriples (show a + 1 ≤ b from before)
    omega
  · have step := Nat.mul_le_mul_right param.nqtriples (show b + 1 ≤ a from after)
    omega

variable {domain : RangeInterpolatorFactory E}

section

variable {param : LigeroParam} (made : LigeroParam.tryNew nw nq config domain = some param)
include made

theorem tryNew_bounds :
    (param.geom.blockEnc = config.blockEnc ∧ config.blockEnc ≤ 2 ^ 28) ∧
      param.geom.r ≤ param.w := by
  unfold LigeroParam.tryNew at made
  simp only [Option.bind_eq_bind, Option.bind_eq_some_iff, Option.guard_eq_some', exists_const,
    Option.pure_def, Option.some.injEq] at made
  obtain ⟨wide, -, room, half, -, -, rfl⟩ := made
  simp only [not_or, not_lt] at wide room half
  exact ⟨⟨rfl, wide.1⟩, half⟩

/-- **The dimensions that are returned are sound.** -/
theorem tryNew_sound :
    param.Sound nw nq config domain := by
  obtain ⟨admitted, isNw, isNq, isNreq⟩ := tryNew_admitted made
  obtain ⟨wide, half⟩ := tryNew_bounds made
  have pos := admitted.w_pos
  have isNrow := admitted.nrow
  have isNwq := admitted.nwqrow
  have isIq := admitted.iq
  have isIw := admitted.iw
  have masks : ∀ row, row ∈ ({param.ildt, param.idot, param.iquad} : Finset Nat) ↔ row < 3 := by
    intro row
    simp only [admitted.ildt, admitted.idot, admitted.iquad, mem_insert, mem_singleton]
    omega
  have room : ∀ i < nw, i / param.w < param.nwrow := fun i inside => by
    rw [admitted.nwrow, isNw]
    exact div_lt_divCeil pos inside
  have room' : ∀ i < nq, i / param.w < param.nqtriples := fun i inside => by
    rw [admitted.nqtriples, isNq]
    exact div_lt_divCeil pos inside
  have block := admitted.block
  refine
    { rows := ?_
      masks := ?_
      products := ?_
      operands := fun a b => operandRows_disjoint param
      distinct := ?_
      witness := fun i inside => ?_
      product := fun operand i inside => ?_
      witness_injective := slot_injective _ _ _
      product_injective := fun operand => slot_injective _ _ _
      queries := ⟨admitted.nreq.symm.trans isNreq, isNreq⟩
      width := block
      half := ⟨half, pos⟩
      dblock := admitted.dblock
      block_le := ?_
      blockEnc := wide
      oracle := admitted.oracle
      path := admitted.mcPathlen
      ranges := admitted }
  · ext row
    simp only [mem_union, masks, mem_biUnion_operandRows, mem_range, mem_Ico]
    omega
  · rw [Finset.disjoint_left]
    intro row first second
    rw [masks] at first
    rw [mem_Ico] at second
    omega
  · rw [Finset.disjoint_left]
    intro row first second
    rw [mem_biUnion_operandRows] at second
    rw [mem_union, masks, mem_Ico] at first
    omega
  · rw [admitted.ildt, admitted.idot, admitted.iquad]
    decide
  · refine mem_product.mpr ⟨mem_Ico.mpr ?_, mem_slotColumns pos block i⟩
    have row := room i inside
    rw [LigeroParam.witnessSlot, isIq, isIw]
    exact ⟨Nat.le_add_right _ _, Nat.add_lt_add_left row _⟩
  · refine mem_product.mpr ⟨mem_Ico.mpr ?_, mem_slotColumns pos block i⟩
    have row := room' i inside
    rw [LigeroParam.productSlot, Nat.succ_mul, ← Nat.add_assoc]
    exact ⟨Nat.le_add_right _ _, Nat.add_lt_add_left row _⟩
  · have shorter := admitted.dblock
    omega

end

/-- **The constructor is safe.** For up to `2 ^ 32` witnesses and products it returns, no operation
on sizes fails, and dimensions that it returns are sound and pass the assertions of `sanity`, none of
whose differences is negative. -/
theorem tryNew_safe (nw nq : Nat) (config : LigeroConfig) (domain : RangeInterpolatorFactory E)
    (few : nw ≤ 2 ^ 32) (fewProducts : nq ≤ 2 ^ 32) :
    (LigeroParam.tryNewChecked nw nq config domain : Exec ε _) =
        .ok (LigeroParam.tryNew nw nq config domain) ∧
      ∀ param, LigeroParam.tryNew nw nq config domain = some param →
        param.Sound nw nq config domain ∧ param.nw = nw ∧ param.nq = nq ∧
          (param.sanity : Exec ε Unit) = .ok () ∧ param.geom.nreq ≤ param.geom.block ∧
          1 ≤ 2 * param.geom.block ∧ param.geom.dblock ≤ param.geom.blockEnc := by
  refine ⟨tryNewChecked_eq config domain few fewProducts, fun param made => ?_⟩
  have sound := tryNew_sound made
  obtain ⟨admitted, isNw, isNq, -⟩ := tryNew_admitted made
  have width := sound.width
  have half := sound.half
  have oracle := sound.oracle
  have queries := admitted.nreq
  exact ⟨sound, isNw, isNq, sanity_returns admitted, by omega, by omega, by omega⟩

/-- One witness and one product in rows of seventeen columns. -/
theorem tryNew_safe_one : ∃ param,
    LigeroParam.tryNew 1 1 ⟨4, 1, 17⟩ (⟨fun _ _ => true, fun _ _ => ⟨id, id⟩, fun i => i⟩ :
      RangeInterpolatorFactory Nat) = some param ∧
    param.Sound 1 1 ⟨4, 1, 17⟩ ⟨fun _ _ => true, fun _ _ => ⟨id, id⟩, fun i => i⟩ := by
  have safe := @tryNew_safe Empty Nat 1 1 ⟨4, 1, 17⟩
    ⟨fun _ _ => true, fun _ _ => ⟨id, id⟩, fun i => i⟩ (by decide) (by decide)
  exact ⟨.layoutRows 1 1 ⟨4, 1, 17⟩ 3, rfl, (safe.2 _ rfl).1⟩

/-- **Without queries there may be no column to commit to**: the dimensions are returned, and the
prover's commitment to the columns behind `dblock` panics. -/
theorem tryNew_no_columns : ∃ param,
    LigeroParam.tryNew 1 1 ⟨0, 0, 1⟩ (⟨fun source destination => decide (source.start < source.stop ∧
      destination.start ≤ destination.stop), fun _ _ => ⟨id, id⟩, fun i => i⟩ :
      RangeInterpolatorFactory Nat) = some param ∧
    ∀ (sha256 : Bytes → Digest) (rng : RandomEngine Nat Nat) (leafData : Nat → Exec Empty Bytes)
      (r : Nat), Merkle.commit sha256 rng (param.geom.blockEnc - param.geom.dblock) leafData r =
        .error (.panic "Cannot construct an empty Merkle heap") :=
  ⟨.layoutRows 1 1 ⟨0, 0, 1⟩ 1, rfl, fun _ _ _ _ => rfl⟩

end Longfellow
