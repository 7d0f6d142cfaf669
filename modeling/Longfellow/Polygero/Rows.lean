/-
**The rows of a Polygero commitment** (`runtime/polygero/src/prover_commitment.rs`).

The prover encodes the two arithmetic masks, the ordinary witness rows, the product triples and the
primary mask on the columns of the oracle, in this order, and then commits to the columns. The third
row of a triple is the product of the first two.

* `Committed`, `committed_encodedRows` — the shape of the encoded rows.
-/

import Longfellow.Lib.Chunks
import Longfellow.Merkle.Commitment
import Longfellow.Polygero.Layout

set_option linter.unusedSectionVars false

namespace Longfellow.Polygero

open Lib PolygeroParam

variable {ε ρ E : Type} {witness : List E} {domain : RangeInterpolatorFactory E}
  {products : List PolygeroProductConstraint} {param : PolygeroParam}

/-! ### Plans -/

/-- A plan, with the range of its samples. -/
structure Encoder (E : Type) where
  source : IndexRange
  plan : InterpolationPlan E

/-- The plan for two ranges. -/
def makeRange (domain : RangeInterpolatorFactory E) (source destination : IndexRange) :
    Exec ε (Encoder E) := do
  let plan ← domain.makeRange source destination
  pure ⟨source, plan⟩

/-- Apply a plan to samples on its source. -/
def Encoder.apply (encoder : Encoder E) (samples : List E) : Exec ε (List E) := do
  ensure (samples.length = encoder.source.len) "wrong source length"
  pure (encoder.plan.apply samples)

def Encoder.applySubfield (encoder : Encoder E) (samples : List E) : Exec ε (List E) := do
  ensure (samples.length = encoder.source.len) "wrong source length"
  pure (encoder.plan.applySubfield samples)

/-- The plans of a backend return a value for each point of their destination. -/
structure Sized (domain : RangeInterpolatorFactory E) : Prop where
  apply : ∀ {source destination}, domain.canInterpolate source destination = true → ∀ xs,
    xs.length = source.len → ((domain.plan source destination).apply xs).length = destination.len
  applySubfield : ∀ {source destination}, domain.canInterpolate source destination = true → ∀ xs,
    xs.length = source.len →
      ((domain.plan source destination).applySubfield xs).length = destination.len

/-! ### Encoding the rows -/

section Code

variable [CommRing E] (param : PolygeroParam) (domain : RangeInterpolatorFactory E)
  (rng : RandomEngine ρ E)

/-- Make a vector `size` long, with zeros at the end. -/
def resize (size : Nat) (samples : List E) : List E :=
  (samples ++ List.replicate (size - samples.length) 0).take size

/-- Copy over a slice of the same length. -/
def copy (dst src : List E) : Exec ε (List E) := do
  ensure (dst.length = src.length) "copy: slice size mismatch"
  pure src

/-- The two arithmetic masks; the second one sums to zero over the witness slots. -/
def encodeArithmeticMasks (w : List (List E)) (r : ρ) : Exec ε (List (List E) × ρ) := do
  let g := param.geom
  let (u, r) := rng.eltFieldSlice g.k r
  let encoderU ← makeRange domain (param.oraclePrefix g.k) param.oracleRange
  let encodedU ← encoderU.apply u
  let (m, r) := rng.eltFieldSlice g.k r
  let rest ← slice m (g.t + 1) m.length
  let m ← setAt m g.t (-(Blas.dot1 rest))
  let encoderM ← makeRange domain ⟨0, g.k⟩ param.oracleRange
  let encodedM ← encoderM.apply m
  pure (w ++ [encodedU, encodedM], r)

/-- One block of the witness behind its masks. A block before the subfield boundary has subfield
masks. -/
def encodeOrdinaryRow (witness : List E) (subfieldBoundary : Nat) (encoder : Encoder E)
    (state : List (List E) × ρ) (row : Nat) : Exec ε (List (List E) × ρ) := do
  let g := param.geom
  let width := g.ordinaryWidth
  let stop := min ((row + 1) * width) witness.length
  let values ← slice witness (row * width) stop
  if stop ≤ subfieldBoundary then do
    let (samples, r) := rng.eltSubfieldSlice g.t state.2
    let samples ← withSlice (resize g.k samples) g.t (g.t + values.length) fun dst => copy dst values
    let encoded ← encoder.applySubfield samples
    pure (state.1 ++ [encoded], r)
  else do
    let (samples, r) := rng.eltFieldSlice g.t state.2
    let samples ← withSlice (resize g.k samples) g.t (g.t + values.length) fun dst => copy dst values
    let encoded ← encoder.apply samples
    pure (state.1 ++ [encoded], r)

def encodeOrdinaryRows (witness : List E) (subfieldBoundary : Nat) (state : List (List E) × ρ) :
    Exec ε (List (List E) × ρ) := do
  let g := param.geom
  let encoder ← makeRange domain ⟨0, g.k⟩ param.oracleRange
  (List.range g.ordinaryRows).foldlM (encodeOrdinaryRow param rng witness subfieldBoundary encoder)
    state

/-- An operand of the products of a group, behind its masks. -/
def encodeOperand (witness : List E) (encoder : Encoder E)
    (operand : PolygeroProductConstraint → Nat) (products : List PolygeroProductConstraint) (r : ρ) :
    Exec ε (List E × ρ) := do
  let g := param.geom
  let (samples, r) := rng.eltFieldSlice g.t r
  let samples ← (List.range products.length).foldlM (fun samples j => do
    let product ← getAt products j
    let value ← getAt witness (operand product)
    setAt samples (g.t + j) value) (resize g.productDimension samples)
  let encoded ← encoder.apply samples
  pure (encoded, r)

/-- The two inputs of a group of products, and their product. -/
def encodeGroup (witness : List E) (encoder : Encoder E) (state : List (List E) × ρ)
    (products : List PolygeroProductConstraint) : Exec ε (List (List E) × ρ) := do
  let (x, r) ← encodeOperand param rng witness encoder (·.x) products state.2
  let (y, r) ← encodeOperand param rng witness encoder (·.y) products r
  let z ← Blas.mul x y
  pure (state.1 ++ [x, y, z], r)

def encodeProductRows (witness : List E) (state : List (List E) × ρ) :
    Exec ε (List (List E) × ρ) :=
  if param.products = [] then pure state
  else do
    let g := param.geom
    let encoder ← makeRange domain ⟨0, g.productDimension⟩ param.oracleRange
    let width ← checkedSub g.productDimension g.t
    ensure (width ≠ 0) "chunk size must be non-zero"
    (chunks width param.products).foldlM (encodeGroup param rng witness encoder) state

/-- The primary mask. -/
def encodeFstar (state : List (List E) × ρ) : Exec ε (List (List E) × ρ) := do
  let g := param.geom
  let (primary, r) := rng.eltFieldSlice (g.k + g.s) state.2
  let encoder ← makeRange domain (param.oraclePrefix (g.k + g.s)) param.oracleRange
  let encoded ← encoder.apply primary
  pure (state.1 ++ [encoded], r)

/-- All rows: the masks, the witness, the triples and the primary mask. -/
def encodeRows (witness : List E) (subfieldBoundary : Nat) (r : ρ) :
    Exec ε (List (List E) × ρ) := do
  let state ← encodeArithmeticMasks param domain rng [] r
  let state ← encodeOrdinaryRows param domain rng witness subfieldBoundary state
  let state ← encodeProductRows param domain rng witness state
  encodeFstar param domain rng state

/-- The hashes of a column and of two children, with the context of the invocation. -/
structure ColumnHashes (E : Type) where
  leaf : Nat → List E → MerkleNonce → Digest
  node : Digest → Digest → Digest

variable (hashes : ColumnHashes E)

/-- Draw the salts of the columns. -/
def drawSalts : Nat → ρ → Exec ε (List MerkleNonce × ρ)
  | 0, r => pure ([], r)
  | n + 1, r => do
    let (bytes, r) := rng.bytes 32 r
    let salt ← Merkle.toNonce bytes
    let (salts, r) ← drawSalts n r
    pure (salt :: salts, r)

/-- Salt and hash every column. -/
def commitColumns (w : List (List E)) (r : ρ) :
    Exec ε ((MerkleHeap × List MerkleNonce) × ρ) := do
  let (salts, r) ← drawSalts rng param.geom.n r
  let leaves ← (List.range param.geom.n).mapM fun j => do
    let column ← w.mapM fun row => getAt row j
    let salt ← getAt salts j
    pure (hashes.leaf j column salt)
  let tree ← MerkleHeap.newWithHash leaves hashes.node
  pure ((tree, salts), r)

end Code

/-! ### Ranges that are supported -/

/-- The ranges that the backend interpolates between. -/
structure Capacity (geom : PolygeroGeometry) (domain : RangeInterpolatorFactory E) : Prop where
  rows : domain.canInterpolate ⟨0, geom.k⟩ ⟨geom.k, geom.k + geom.n⟩ = true
  vanishing : domain.canInterpolate ⟨0, geom.k + 1⟩ ⟨geom.k, geom.k + geom.n⟩ = true
  product : domain.canInterpolate ⟨0, geom.productDimension⟩ ⟨geom.k, geom.k + geom.n⟩ = true
  constraint : domain.canInterpolate ⟨0, geom.k⟩ ⟨geom.k, geom.k + 2 * geom.k⟩ = true
  free : domain.canInterpolate ⟨geom.k, geom.k + geom.k⟩ ⟨geom.k, geom.k + geom.n⟩ = true
  primary : domain.canInterpolate ⟨geom.k, geom.k + (geom.k + geom.s)⟩ ⟨geom.k, geom.k + geom.n⟩ =
    true
  batchingPrefix : domain.canInterpolate ⟨geom.k, geom.k + (geom.s + 1)⟩
    ⟨geom.k, geom.k + (geom.k + geom.s)⟩ = true
  batching : domain.canInterpolate ⟨geom.k, geom.k + (geom.s + 1)⟩ ⟨geom.k, geom.k + geom.n⟩ = true
  response : domain.canInterpolate ⟨geom.k, geom.k + 2 * geom.k⟩ ⟨0, geom.k + geom.n⟩ = true

theorem eq_of_checkedAdd {a b c : Nat} (fits : checkedAdd a b = some c) : c = a + b := by
  unfold checkedAdd at fits
  split at fits
  · exact (Option.some.inj fits).symm
  · cases fits

theorem eq_of_checkedMul {a b c : Nat} (fits : checkedMul a b = some c) : c = a * b := by
  unfold checkedMul at fits
  split at fits
  · exact (Option.some.inj fits).symm
  · cases fits

theorem capacity_of_canInterpolate {geom : PolygeroGeometry}
    (can : PolygeroConfig.canInterpolate ⟨geom.k, geom.s, geom.n, geom.t⟩ domain = true) :
    Capacity geom domain := by
  unfold PolygeroConfig.canInterpolate at can
  split at can
  · rename_i stop work double isStop isWork isDouble
    obtain rfl := eq_of_checkedAdd isStop
    obtain rfl := eq_of_checkedAdd isWork
    obtain rfl := eq_of_checkedMul isDouble
    split at can
    · cases can
    · simp only [List.all_cons, List.all_nil, Bool.and_true, Bool.and_eq_true, Nat.mul_two] at can
      obtain ⟨rows, vanishing, product, constraint, free, primary, before, batching, response⟩ := can
      rw [← Nat.two_mul] at constraint response
      exact ⟨rows, vanishing, product, constraint, free, primary, before, batching, response⟩
  · cases can

theorem tryNew_capacity {nw : Nat}
    {config : PolygeroConfig}
    (made : tryNew nw products config domain = .ok param) : Capacity param.geom domain := by
  obtain ⟨rfl, -, capable⟩ := tryNew_eq_ok.mp made
  exact capacity_of_canInterpolate capable

/-! ### What is encoded -/

/-- Some values behind masks, with zeros at the end. -/
def behindMasks [Zero E] (size : Nat) (masks values : List E) : List E :=
  masks ++ (values ++ List.replicate (size - masks.length - values.length) 0)

/-- What the prover draws for the rows. -/
structure Masks (E : Type) where
  u : List E
  m : List E
  ordinary : Nat → List E
  operands : Nat → List E × List E
  fstar : List E

section Samples

variable [CommRing E] (param : PolygeroParam) (domain : RangeInterpolatorFactory E)
  (witness : List E) (subfieldBoundary : Nat) (masks : Masks E)

/-- The block of a row is before the subfield boundary. -/
def Declared (row : Nat) : Prop :=
  min ((row + 1) * param.geom.ordinaryWidth) witness.length ≤ subfieldBoundary

/-- The logical entries of an ordinary row. -/
def ordinarySamples (row : Nat) : List E :=
  behindMasks param.geom.k (masks.ordinary row) (chunk param.geom.ordinaryWidth witness row)

/-- The logical entries of an operand of a group of products. -/
def operandSamples (operand : PolygeroProductConstraint → Nat) (drawn : List E) (group : Nat) :
    List E :=
  behindMasks param.geom.productDimension drawn
    ((chunk param.geom.productWidth param.products group).map fun p => witness.getD (operand p) 0)

instance (row : Nat) : Decidable (Declared param witness subfieldBoundary row) :=
  inferInstanceAs (Decidable (_ ≤ _))

/-- The encoded row of a block. -/
def ordinaryRow (plan : InterpolationPlan E) (samples : List E) (row : Nat) : List E :=
  if Declared param witness subfieldBoundary row then plan.applySubfield samples
  else plan.apply samples

/-- The encoded operands of a group of products. -/
def operandRows (drawn : List E × List E) (group : Nat) : List E × List E :=
  let plan := domain.plan ⟨0, param.geom.productDimension⟩ param.oracleRange
  (plan.apply (operandSamples param witness (·.x) drawn.1 group),
    plan.apply (operandSamples param witness (·.y) drawn.2 group))

/-- The rows of a triple: the third is the product of the others. -/
def triple (pair : List E × List E) : List (List E) :=
  [pair.1, pair.2, List.zipWith (· * ·) pair.1 pair.2]

/-- All rows before the primary mask, from what is drawn. -/
def batchedRows : List (List E) :=
  [(domain.plan (param.oraclePrefix param.geom.k) param.oracleRange).apply masks.u,
    (domain.plan ⟨0, param.geom.k⟩ param.oracleRange).apply masks.m] ++
  (List.range param.geom.ordinaryRows).map (fun row =>
    ordinaryRow param witness subfieldBoundary (domain.plan ⟨0, param.geom.k⟩ param.oracleRange)
      (ordinarySamples param witness masks row) row) ++
  (List.range param.geom.productGroups).flatMap fun group =>
    triple (operandRows param domain witness (masks.operands group) group)

/-- All rows, from what is drawn. -/
def encodedRows : List (List E) :=
  batchedRows param domain witness subfieldBoundary masks ++
    [(domain.plan (param.oraclePrefix (param.geom.k + param.geom.s)) param.oracleRange).apply
      masks.fstar]

/-- What is drawn: the masks in their lengths. The second arithmetic mask sums to zero over the
witness slots, and the masks of a declared row are from the subfield. -/
structure Masks.For (rng : RandomEngine ρ E) : Prop where
  u : masks.u.length = param.geom.k
  m : masks.m.length = param.geom.k
  zero : (masks.m.drop param.geom.t).sum = 0
  ordinary : ∀ row < param.geom.ordinaryRows, (masks.ordinary row).length = param.geom.t ∧
    (Declared param witness subfieldBoundary row →
      ∃ r, masks.ordinary row = (rng.eltSubfieldSlice param.geom.t r).1)
  operands : ∀ group < param.geom.productGroups,
    (masks.operands group).1.length = param.geom.t ∧ (masks.operands group).2.length = param.geom.t
  fstar : masks.fstar.length = param.geom.k + param.geom.s

end Samples

/-! ### The encoded rows -/

section Returns

variable [CommRing E]
  {rng : RandomEngine ρ E}

@[simp] theorem len_oracleRange : param.oracleRange.len = param.geom.n :=
  Nat.add_sub_cancel_left ..

@[simp] theorem len_oraclePrefix (length : Nat) : (param.oraclePrefix length).len = length :=
  Nat.add_sub_cancel_left ..

@[simp] theorem len_zero (length : Nat) : (⟨0, length⟩ : IndexRange).len = length := Nat.sub_zero _

variable {size : Nat} {drawn values : List E}

theorem length_behindMasks (room : drawn.length + values.length ≤ size) :
    (behindMasks size drawn values).length = size := by
  simp only [behindMasks, List.length_append, List.length_replicate]
  omega

theorem resize_eq (room : drawn.length ≤ size) :
    resize size drawn = behindMasks size drawn [] := by
  rw [resize, List.take_of_length_le (by simp; omega), behindMasks, List.nil_append, List.length_nil,
    Nat.sub_zero]

theorem place_eq (room : drawn.length + values.length ≤ size) :
    (withSlice (resize size drawn) drawn.length (drawn.length + values.length)
      (fun dst => copy dst values) : Exec ε _) = .ok (behindMasks size drawn values) := by
  have long : (behindMasks size drawn []).length = size :=
    length_behindMasks (show drawn.length + 0 ≤ size by omega)
  rw [resize_eq (by omega)]
  have window : (((behindMasks size drawn []).drop drawn.length).take
      (drawn.length + values.length - drawn.length)).length = values.length := by
    rw [List.length_take, List.length_drop, long]
    omega
  have copied : (copy (((behindMasks size drawn []).drop drawn.length).take
      (drawn.length + values.length - drawn.length)) values : Exec ε _) = .ok values := by
    rw [copy, ensure_of window, ok_bind, pure_eq_ok]
  rw [withSlice_of_le (Nat.le_add_right ..) (by rw [long]; exact room) copied]
  have rest : size - drawn.length - 0 - values.length = size - drawn.length - values.length := by
    omega
  simp only [behindMasks, List.nil_append, List.length_nil, List.take_left, List.drop_append,
    List.drop_replicate, rest, List.append_assoc, Nat.add_sub_cancel_left]
  simp

theorem set_behindMasks (value : E) (room : drawn.length + values.length < size) :
    (behindMasks size drawn values).set (drawn.length + values.length) value =
      behindMasks size drawn (values ++ [value]) := by
  have split : size - drawn.length - values.length =
      size - drawn.length - (values.length + 1) + 1 := by omega
  rw [behindMasks, split, List.replicate_succ, List.set_append_right _ _ (Nat.le_add_right ..),
    Nat.add_sub_cancel_left, List.set_append_right _ _ le_rfl, Nat.sub_self, List.set_cons_zero,
    behindMasks, List.length_append, List.length_singleton, List.append_assoc]
  rfl

variable (rng)

theorem encodeArithmeticMasks_eq (capacity : Capacity param.geom domain)
    (valid : param.geom.Valid) (w : List (List E)) (r : ρ) : ∃ u m r',
      (encodeArithmeticMasks param domain rng w r : Exec ε _) =
        .ok (w ++ [(domain.plan (param.oraclePrefix param.geom.k) param.oracleRange).apply u,
          (domain.plan ⟨0, param.geom.k⟩ param.oracleRange).apply m], r') ∧
      u.length = param.geom.k ∧ m.length = param.geom.k ∧ (m.drop param.geom.t).sum = 0 := by
  have below := valid.queries_lt
  have free : domain.canInterpolate (param.oraclePrefix param.geom.k) param.oracleRange = true :=
    capacity.free
  have rows : domain.canInterpolate ⟨0, param.geom.k⟩ param.oracleRange = true := capacity.rows
  generalize drawn : rng.eltFieldSlice param.geom.k (rng.eltFieldSlice param.geom.k r).2 = draw
  have size : draw.1.length = param.geom.k := by rw [← drawn]; simp
  have rest : (slice draw.1 (param.geom.t + 1) draw.1.length : Exec ε _) =
      .ok (draw.1.drop (param.geom.t + 1)) := by
    rw [slice_of_le (by omega) le_rfl, List.take_of_length_le (by rw [List.length_drop])]
  have last : param.geom.t < draw.1.length := by omega
  refine ⟨(rng.eltFieldSlice param.geom.k r).1,
    draw.1.set param.geom.t (-(Blas.dot1 (draw.1.drop (param.geom.t + 1)))), draw.2, ?_, by simp,
    by simpa using size, ?_⟩
  · have sizeU : (rng.eltFieldSlice param.geom.k r).1.length =
        (param.oraclePrefix param.geom.k).len := by simp
    simp only [encodeArithmeticMasks, makeRange, makeRange_eq free, makeRange_eq rows, ok_bind,
      pure_eq_ok, Encoder.apply, ensure_of sizeU, drawn, rest, setAt_of_lt last]
    rw [ensure_of (by simpa using size), ok_bind, ok_bind]
  · have long : param.geom.t < (draw.1.set param.geom.t
        (-(Blas.dot1 (draw.1.drop (param.geom.t + 1))))).length := by rwa [List.length_set]
    rw [List.drop_eq_getElem_cons long, List.getElem_set_self, List.drop_set_of_lt (Nat.lt_succ_self _),
      List.sum_cons, Blas.dot1_eq, neg_add_cancel]

theorem encodeOrdinaryRow_eq (valid : param.geom.Valid)
    (size : witness.length = param.geom.nw) (subfieldBoundary : Nat) (plan : InterpolationPlan E)
    {row : Nat} (inside : row < param.geom.ordinaryRows) (state : List (List E) × ρ) :
    ∃ (drawn : List E) (r' : ρ), (drawn.length = param.geom.t ∧
        (Declared param witness subfieldBoundary row →
          ∃ r, drawn = (rng.eltSubfieldSlice param.geom.t r).1)) ∧
      (encodeOrdinaryRow param rng witness subfieldBoundary ⟨⟨0, param.geom.k⟩, plan⟩ state row :
        Exec ε _) = .ok (state.1 ++ [ordinaryRow param witness subfieldBoundary plan
          (behindMasks param.geom.k drawn (chunk param.geom.ordinaryWidth witness row)) row], r') := by
  have start := mul_lt_of_lt_divCeil valid.ordinaryWidth_pos inside
  have width : param.geom.t + param.geom.ordinaryWidth = param.geom.k :=
    Nat.add_sub_cancel' valid.queries_lt.le
  have ordered : row * param.geom.ordinaryWidth ≤
      min ((row + 1) * param.geom.ordinaryWidth) witness.length := by
    rw [Nat.succ_mul]
    omega
  have cut : (slice witness (row * param.geom.ordinaryWidth)
      (min ((row + 1) * param.geom.ordinaryWidth) witness.length) : Exec ε _) =
        .ok (chunk param.geom.ordinaryWidth witness row) := by
    rw [slice_of_le ordered (Nat.min_le_right _ _), chunk]
    refine congrArg Except.ok (List.take_eq_take_iff.mpr ?_)
    rw [List.length_drop, Nat.succ_mul]
    omega
  have few := length_chunk_le param.geom.ordinaryWidth witness row
  have room : ∀ {drawn : List E}, drawn.length = param.geom.t →
      drawn.length + (chunk param.geom.ordinaryWidth witness row).length ≤ param.geom.k :=
    fun long => by omega
  have placed : ∀ {drawn : List E}, drawn.length = param.geom.t →
      (withSlice (resize param.geom.k drawn) param.geom.t
        (param.geom.t + (chunk param.geom.ordinaryWidth witness row).length)
        (fun dst => copy dst (chunk param.geom.ordinaryWidth witness row)) : Exec ε _) =
        .ok (behindMasks param.geom.k drawn (chunk param.geom.ordinaryWidth witness row)) := by
    intro drawn long
    have placed := place_eq (ε := ε) (room long)
    rwa [long] at placed
  by_cases declared : Declared param witness subfieldBoundary row
  · have long := length_eltSubfieldSlice rng param.geom.t state.2
    refine ⟨(rng.eltSubfieldSlice param.geom.t state.2).1,
      (rng.eltSubfieldSlice param.geom.t state.2).2, ⟨long, fun _ => ⟨_, rfl⟩⟩, ?_⟩
    have samples := length_behindMasks (room long)
    have within : min ((row + 1) * param.geom.ordinaryWidth) witness.length ≤ subfieldBoundary :=
      declared
    rw [encodeOrdinaryRow, cut, ok_bind, if_pos within, ordinaryRow, if_pos declared]
    simp only [placed long, ok_bind, Encoder.applySubfield]
    rw [ensure_of (by rw [samples, len_zero]), ok_bind, pure_eq_ok]
    rfl
  · have long := length_eltFieldSlice rng param.geom.t state.2
    refine ⟨(rng.eltFieldSlice param.geom.t state.2).1, (rng.eltFieldSlice param.geom.t state.2).2,
      ⟨long, fun here => absurd here declared⟩, ?_⟩
    have samples := length_behindMasks (room long)
    have beyond : ¬min ((row + 1) * param.geom.ordinaryWidth) witness.length ≤ subfieldBoundary :=
      declared
    rw [encodeOrdinaryRow, cut, ok_bind, if_neg beyond, ordinaryRow, if_neg declared]
    simp only [placed long, ok_bind, Encoder.apply]
    rw [ensure_of (by rw [samples, len_zero]), ok_bind, pure_eq_ok]
    rfl

theorem encodeOperand_eq (plan : InterpolationPlan E)
    (operand : PolygeroProductConstraint → Nat)
    (inside : ∀ p ∈ products, operand p < witness.length)
    (room : param.geom.t + products.length ≤ param.geom.productDimension) (r : ρ) :
    ∃ (drawn : List E) (r' : ρ), drawn.length = param.geom.t ∧
      (encodeOperand param rng witness ⟨⟨0, param.geom.productDimension⟩, plan⟩ operand products r :
        Exec ε _) = .ok (plan.apply (behindMasks param.geom.productDimension drawn
          (products.map fun p => witness.getD (operand p) 0)), r') := by
  have long := length_eltFieldSlice rng param.geom.t r
  set drawn := (rng.eltFieldSlice param.geom.t r).1 with isDrawn
  set values := products.map fun p => witness.getD (operand p) 0 with isValues
  have count : values.length = products.length := List.length_map _
  obtain ⟨samples, ran, isSamples⟩ := foldlM_range_returns (ε := ε) (f := fun samples j => (do
      let product ← getAt products j
      let value ← getAt witness (operand product)
      setAt samples (param.geom.t + j) value : Exec ε (List E)))
    (fun j samples => samples = behindMasks param.geom.productDimension drawn (values.take j))
    (n := products.length) (s := resize param.geom.productDimension drawn)
    (by rw [resize_eq (by omega), List.take_zero])
    fun {j now} below isNow => by
      have here : operand products[j] < witness.length := inside _ (List.getElem_mem below)
      have value : values[j]? = some witness[operand products[j]] := by
        rw [isValues, List.getElem?_map, List.getElem?_eq_getElem below, Option.map_some,
          List.getD_eq_getElem _ _ here]
      have done : (values.take j).length = j := by
        rw [List.length_take]
        omega
      have room' : drawn.length + (values.take j).length < param.geom.productDimension := by omega
      have set := set_behindMasks witness[operand products[j]] room'
      rw [done, long] at set
      refine ⟨_, ?_, rfl⟩
      rw [getAt_of_lt below, ok_bind, getAt_of_lt here, ok_bind, isNow, setAt_of_lt, set,
        List.take_add_one, value]
      · rfl
      · rw [length_behindMasks (by omega)]
        omega
  refine ⟨drawn, (rng.eltFieldSlice param.geom.t r).2, long, ?_⟩
  rw [← count, List.take_length] at isSamples
  rw [encodeOperand]
  simp only [← isDrawn, ran, ok_bind, isSamples, Encoder.apply]
  rw [ensure_of (by rw [length_behindMasks (by omega), len_zero]), ok_bind, pure_eq_ok, ok_bind,
    pure_eq_ok]

theorem length_operandRows (sized : Sized domain) (capacity : Capacity param.geom domain)
    (positive : param.geom.t < param.geom.productDimension) (witness : List E)
    (drawn : List E × List E) (group : Nat)
    (long : drawn.1.length = param.geom.t ∧ drawn.2.length = param.geom.t) :
    (operandRows param domain witness drawn group).1.length = param.geom.n ∧
      (operandRows param domain witness drawn group).2.length = param.geom.n := by
  have can : domain.canInterpolate ⟨0, param.geom.productDimension⟩ param.oracleRange = true :=
    capacity.product
  have samples : ∀ (operand : PolygeroProductConstraint → Nat) {drawn : List E},
      drawn.length = param.geom.t → (operandSamples param witness operand drawn group).length =
        (⟨0, param.geom.productDimension⟩ : IndexRange).len := by
    intro operand drawn long
    have few := length_chunk_le param.geom.productWidth param.products group
    rw [PolygeroGeometry.productWidth] at few
    rw [operandSamples, length_behindMasks, len_zero]
    rw [List.length_map, PolygeroGeometry.productWidth]
    omega
  have first := sized.apply can _ (samples (·.x) long.1)
  have second := sized.apply can _ (samples (·.y) long.2)
  rw [len_oracleRange] at first second
  exact ⟨first, second⟩

theorem encodeGroup_eq (sized : Sized domain) (capacity : Capacity param.geom domain)
    (admitted : param.Admitted) (size : witness.length = param.geom.nw)
    (positive : param.geom.t < param.geom.productDimension) (group : Nat)
    (state : List (List E) × ρ) : ∃ (drawn : List E × List E) (r' : ρ),
      (drawn.1.length = param.geom.t ∧ drawn.2.length = param.geom.t) ∧
      (encodeGroup param rng witness ⟨⟨0, param.geom.productDimension⟩,
        domain.plan ⟨0, param.geom.productDimension⟩ param.oracleRange⟩ state
        (chunk param.geom.productWidth param.products group) : Exec ε _) =
          .ok (state.1 ++ triple (operandRows param domain witness drawn group), r') := by
  have few := length_chunk_le param.geom.productWidth param.products group
  rw [PolygeroGeometry.productWidth] at few
  have inside : ∀ p ∈ chunk param.geom.productWidth param.products group,
      p.x < witness.length ∧ p.y < witness.length := fun p member => by
    have constraint := admitted.inside p (List.mem_of_mem_drop (List.mem_of_mem_take member))
    rw [size]
    exact ⟨constraint.1, constraint.2.1⟩
  have room : param.geom.t + (chunk param.geom.productWidth param.products group).length ≤
      param.geom.productDimension := by
    rw [PolygeroGeometry.productWidth]
    omega
  obtain ⟨x, r', sizeX, ranX⟩ := encodeOperand_eq (ε := ε) rng
    (domain.plan ⟨0, param.geom.productDimension⟩ param.oracleRange) (·.x)
    (fun p member => (inside p member).1) room state.2
  obtain ⟨y, r'', sizeY, ranY⟩ := encodeOperand_eq (ε := ε) rng
    (domain.plan ⟨0, param.geom.productDimension⟩ param.oracleRange) (·.y)
    (fun p member => (inside p member).2) room r'
  refine ⟨(x, y), r'', ⟨sizeX, sizeY⟩, ?_⟩
  obtain ⟨longX, longY⟩ := length_operandRows sized capacity positive witness (x, y) group
    ⟨sizeX, sizeY⟩
  have product : (Blas.mul (operandRows param domain witness (x, y) group).1
      (operandRows param domain witness (x, y) group).2 : Exec ε _) = .ok _ :=
    Blas.elementwise_eq (longX.trans longY.symm)
  simp only [operandRows, operandSamples] at product
  rw [encodeGroup, ranX, ok_bind]
  simp only [ranY, ok_bind, product, pure_eq_ok, triple, operandRows, operandSamples]

theorem encodeProductRows_eq (sized : Sized domain) (capacity : Capacity param.geom domain)
    (admitted : param.Admitted) (size : witness.length = param.geom.nw)
    (state : List (List E) × ρ) : ∃ (drawn : Nat → List E × List E) (r' : ρ),
      (∀ group < param.geom.productGroups,
        (drawn group).1.length = param.geom.t ∧ (drawn group).2.length = param.geom.t) ∧
      (encodeProductRows param domain rng witness state : Exec ε _) =
        .ok (state.1 ++ (List.range param.geom.productGroups).flatMap fun group =>
          triple (operandRows param domain witness (drawn group) group), r') := by
  have count := admitted.count
  by_cases none : param.products = []
  · rw [none, List.length_nil] at count
    have groups : param.geom.productGroups = 0 := by
      rw [PolygeroGeometry.productGroups, if_pos count.symm]
    refine ⟨fun _ => ([], []), state.2, fun group below => by omega, ?_⟩
    rw [encodeProductRows, if_pos none, pure_eq_ok, groups, List.range_zero, List.flatMap_nil,
      List.append_nil]
  have some : 0 < param.geom.nq := by
    rw [← count]
    exact List.length_pos_of_ne_nil none
  have fits := admitted.valid.products some
  have positive := admitted.valid.productWidth_pos some
  have can : domain.canInterpolate ⟨0, param.geom.productDimension⟩ param.oracleRange = true :=
    capacity.product
  have groups : divCeil param.products.length param.geom.productWidth =
      param.geom.productGroups := by
    rw [count, PolygeroGeometry.productGroups, if_neg some.ne']
  obtain ⟨drawn, r', each, ran⟩ := foldlM_append_returns (ε := ε)
    (f := fun state group => encodeGroup param rng witness ⟨⟨0, param.geom.productDimension⟩,
      domain.plan ⟨0, param.geom.productDimension⟩ param.oracleRange⟩ state
      (chunk param.geom.productWidth param.products group))
    (fun _ drawn => drawn.1.length = param.geom.t ∧ drawn.2.length = param.geom.t)
    (fun group drawn => triple (operandRows param domain witness drawn group))
    (fun group _ state => encodeGroup_eq rng sized capacity admitted size fits group state) state
  refine ⟨drawn, r', each, ?_⟩
  rw [encodeProductRows, if_neg none]
  simp only [makeRange, makeRange_eq can, ok_bind, pure_eq_ok, checkedSub_of_le fits.le]
  rw [ensure_of (show param.geom.productDimension - param.geom.t ≠ 0 from positive.ne'), ok_bind,
    ← ran, chunks, List.foldlM_map]
  rw [← groups]
  rfl

theorem encodeOrdinaryRows_eq (capacity : Capacity param.geom domain)
    (valid : param.geom.Valid) (size : witness.length = param.geom.nw)
    (subfieldBoundary : Nat) (state : List (List E) × ρ) : ∃ (drawn : Nat → List E) (r' : ρ),
      (∀ row < param.geom.ordinaryRows, (drawn row).length = param.geom.t ∧
        (Declared param witness subfieldBoundary row →
          ∃ r, drawn row = (rng.eltSubfieldSlice param.geom.t r).1)) ∧
      (encodeOrdinaryRows param domain rng witness subfieldBoundary state : Exec ε _) =
        .ok (state.1 ++ (List.range param.geom.ordinaryRows).map fun row =>
          ordinaryRow param witness subfieldBoundary
            (domain.plan ⟨0, param.geom.k⟩ param.oracleRange)
            (behindMasks param.geom.k (drawn row) (chunk param.geom.ordinaryWidth witness row)) row,
          r') := by
  have can : domain.canInterpolate ⟨0, param.geom.k⟩ param.oracleRange = true := capacity.rows
  obtain ⟨drawn, r', each, ran⟩ := foldlM_append_returns (ε := ε)
    (f := encodeOrdinaryRow param rng witness subfieldBoundary
      ⟨⟨0, param.geom.k⟩, domain.plan ⟨0, param.geom.k⟩ param.oracleRange⟩)
    (fun row drawn => drawn.length = param.geom.t ∧
      (Declared param witness subfieldBoundary row →
        ∃ r, drawn = (rng.eltSubfieldSlice param.geom.t r).1))
    (fun row drawn => [ordinaryRow param witness subfieldBoundary
      (domain.plan ⟨0, param.geom.k⟩ param.oracleRange)
      (behindMasks param.geom.k drawn (chunk param.geom.ordinaryWidth witness row)) row])
    (fun row below state => encodeOrdinaryRow_eq rng valid size subfieldBoundary _ below state) state
  refine ⟨drawn, r', each, ?_⟩
  rw [← List.map_eq_flatMap] at ran
  rw [encodeOrdinaryRows]
  simp only [makeRange, makeRange_eq can, ok_bind, pure_eq_ok, ran]

theorem encodeFstar_eq (capacity : Capacity param.geom domain) (state : List (List E) × ρ) :
    ∃ (drawn : List E) (r' : ρ), drawn.length = param.geom.k + param.geom.s ∧
      (encodeFstar param domain rng state : Exec ε _) = .ok (state.1 ++
        [(domain.plan (param.oraclePrefix (param.geom.k + param.geom.s)) param.oracleRange).apply
          drawn], r') := by
  have can : domain.canInterpolate (param.oraclePrefix (param.geom.k + param.geom.s))
    param.oracleRange = true := capacity.primary
  have long := length_eltFieldSlice rng (param.geom.k + param.geom.s) state.2
  refine ⟨_, (rng.eltFieldSlice (param.geom.k + param.geom.s) state.2).2, long, ?_⟩
  simp only [encodeFstar, makeRange, makeRange_eq can, ok_bind, pure_eq_ok, Encoder.apply]
  rw [ensure_of (by rw [long, len_oraclePrefix]), ok_bind, ok_bind]

/-- **The encoder returns the rows of what it draws.** -/
theorem encodeRows_eq (sized : Sized domain) (capacity : Capacity param.geom domain)
    (admitted : param.Admitted) (size : witness.length = param.geom.nw)
    (subfieldBoundary : Nat) (r : ρ) : ∃ (masks : Masks E) (r' : ρ),
      masks.For param witness subfieldBoundary rng ∧
      (encodeRows param domain rng witness subfieldBoundary r : Exec ε _) =
        .ok (encodedRows param domain witness subfieldBoundary masks, r') := by
  obtain ⟨u, m, r₁, ranMasks, sizeU, sizeM, zero⟩ := encodeArithmeticMasks_eq (ε := ε) rng
    capacity admitted.valid [] r
  obtain ⟨ordinary, r₂, each, ranOrdinary⟩ := encodeOrdinaryRows_eq (ε := ε) rng capacity
    admitted.valid size subfieldBoundary (_, r₁)
  obtain ⟨operands, r₃, inputs, ranProducts⟩ := encodeProductRows_eq (ε := ε) rng sized capacity
    admitted size (_, r₂)
  obtain ⟨fstar, r₄, sizeF, ranFstar⟩ := encodeFstar_eq (ε := ε) rng capacity (_, r₃)
  refine ⟨⟨u, m, ordinary, operands, fstar⟩, r₄, ⟨sizeU, sizeM, zero, each, inputs, sizeF⟩, ?_⟩
  rw [encodeRows, ranMasks, ok_bind, ranOrdinary, ok_bind, ranProducts, ok_bind, ranFstar]
  rfl

/-- The shape of committed rows: a value for every column of the oracle in every row, and every
virtual row the product of the two rows before it. -/
structure Committed (param : PolygeroParam) (w : List (List E)) : Prop where
  count : w.length = param.geom.nrow
  width : ∀ row ∈ w, row.length = param.geom.n
  product : ∀ row, param.isProductOutput row = true →
    w.getD row [] = List.zipWith (· * ·) (w.getD (row - 2) []) (w.getD (row - 1) [])

theorem length_triple (pair : List E × List E) : (triple pair).length = 3 := rfl

theorem committed_of_rows {u m fstar : List E} (ordinary : List (List E))
    (pairs : List (List E × List E)) (sizes : u.length = param.geom.n ∧ m.length = param.geom.n ∧
      fstar.length = param.geom.n) (ordinaryRows : ordinary.length = param.geom.ordinaryRows)
    (each : ∀ row ∈ ordinary, row.length = param.geom.n)
    (groups : pairs.length = param.geom.productGroups)
    (inputs : ∀ pair ∈ pairs, pair.1.length = param.geom.n ∧ pair.2.length = param.geom.n) :
    Committed param ([u, m] ++ ordinary ++ pairs.flatMap triple ++ [fstar]) := by
  refine ⟨?_, ?_, fun row virtual => ?_⟩
  · rw [List.length_append, List.length_append, List.length_append,
      length_flatMap_of_length fun pair _ => length_triple pair, ordinaryRows, groups,
      PolygeroGeometry.nrow, PolygeroGeometry.dataRows]
    simp only [List.length_cons, List.length_nil]
    omega
  · intro row member
    simp only [List.append_assoc, List.mem_append, List.mem_cons, List.not_mem_nil, or_false,
      List.mem_flatMap, triple] at member
    rcases member with (rfl | rfl) | isOrdinary | ⟨pair, isPair, rfl | rfl | rfl⟩ | rfl
    · exact sizes.1
    · exact sizes.2.1
    · exact each row isOrdinary
    · exact (inputs pair isPair).1
    · exact (inputs pair isPair).2
    · rw [List.length_zipWith, (inputs pair isPair).1, (inputs pair isPair).2, Nat.min_self]
    · exact sizes.2.2
  · obtain ⟨i, group, rfl⟩ := param.isProductOutput_iff.mp virtual
    rw [← groups] at group
    have place : ∀ part < 3, ([u, m] ++ ordinary ++ pairs.flatMap triple ++ [fstar]).getD
        (2 + param.geom.ordinaryRows + (3 * i + part)) [] = (triple pairs[i]).getD part [] := by
      intro part small
      have before : ([u, m] ++ ordinary).length = 2 + param.geom.ordinaryRows := by
        simp [ordinaryRows]
        omega
      have inside : 3 * i + part < (pairs.flatMap triple).length := by
        rw [length_flatMap_of_length fun pair _ => length_triple pair]
        omega
      rw [List.append_assoc, List.getD_append_right _ _ _ _ (by omega), before,
        Nat.add_sub_cancel_left, List.getD_append _ _ _ _ inside,
        getD_flatMap_of_length (fun pair _ => length_triple pair) group small]
    have first : 2 + param.geom.ordinaryRows + (3 * i + 2) - 2 =
        2 + param.geom.ordinaryRows + (3 * i + 0) := by omega
    have second : 2 + param.geom.ordinaryRows + (3 * i + 2) - 1 =
        2 + param.geom.ordinaryRows + (3 * i + 1) := by omega
    rw [first, second, place 0 (by omega), place 1 (by omega), place 2 (by omega)]
    rfl

theorem committed_encodedRows (sized : Sized domain) (capacity : Capacity param.geom domain)
    (valid : param.geom.Valid) {subfieldBoundary : Nat} {masks : Masks E}
    (drawn : masks.For param witness subfieldBoundary rng) :
    Committed param (encodedRows param domain witness subfieldBoundary masks) := by
  have width : param.geom.t + param.geom.ordinaryWidth = param.geom.k :=
    Nat.add_sub_cancel' valid.queries_lt.le
  have free : domain.canInterpolate (param.oraclePrefix param.geom.k) param.oracleRange = true :=
    capacity.free
  have rows : domain.canInterpolate ⟨0, param.geom.k⟩ param.oracleRange = true := capacity.rows
  have primary : domain.canInterpolate (param.oraclePrefix (param.geom.k + param.geom.s))
    param.oracleRange = true := capacity.primary
  have sizeU := sized.apply free masks.u (by rw [drawn.u, len_oraclePrefix])
  have sizeM := sized.apply rows masks.m (by rw [drawn.m, len_zero])
  have sizeF := sized.apply primary masks.fstar (by rw [drawn.fstar, len_oraclePrefix])
  have oracle : param.oracleRange.len = param.geom.n := len_oracleRange
  rw [oracle] at sizeU sizeM sizeF
  have committed := committed_of_rows
    ((List.range param.geom.ordinaryRows).map fun row =>
      ordinaryRow param witness subfieldBoundary (domain.plan ⟨0, param.geom.k⟩ param.oracleRange)
        (ordinarySamples param witness masks row) row)
    ((List.range param.geom.productGroups).map fun group =>
      operandRows param domain witness (masks.operands group) group) ⟨sizeU, sizeM, sizeF⟩
    (by simp) (fun values member => ?_) (by simp) fun pair member => ?_
  · rwa [List.flatMap_map] at committed
  · obtain ⟨row, isRow, rfl⟩ := List.mem_map.mp member
    have few := length_chunk_le param.geom.ordinaryWidth witness row
    have long := (drawn.ordinary row (List.mem_range.mp isRow)).1
    have samples : (ordinarySamples param witness masks row).length =
        (⟨0, param.geom.k⟩ : IndexRange).len := by
      rw [ordinarySamples, length_behindMasks (by omega), len_zero]
    rw [ordinaryRow, ← oracle]
    split
    · exact sized.applySubfield rows _ samples
    · exact sized.apply rows _ samples
  · obtain ⟨group, isGroup, rfl⟩ := List.mem_map.mp member
    have inside := List.mem_range.mp isGroup
    have some : 0 < param.geom.nq := by
      by_contra none
      rw [PolygeroGeometry.productGroups, if_pos (by omega)] at inside
      omega
    exact length_operandRows sized capacity (valid.products some) witness _ group
      (drawn.operands group inside)

/-- **The encoder returns committed rows.** -/
theorem encodeRows_returns (sized : Sized domain) (capacity : Capacity param.geom domain)
    (admitted : param.Admitted) (size : witness.length = param.geom.nw)
    (subfieldBoundary : Nat) (r : ρ) : ∃ w r',
      (encodeRows param domain rng witness subfieldBoundary r : Exec ε _) = .ok (w, r') ∧
      Committed param w := by
  obtain ⟨masks, r', drawn, ran⟩ := encodeRows_eq (ε := ε) rng sized capacity admitted size
    subfieldBoundary r
  exact ⟨_, r', ran, committed_encodedRows rng sized capacity admitted.valid drawn⟩

/-! ### The commitment to the columns -/

variable {rng}

theorem drawSalts_returns (fills : Merkle.FillsBytes rng) (n : Nat) (r : ρ) : ∃ salts r',
    (drawSalts rng n r : Exec ε _) = .ok (salts, r') ∧ salts.length = n := by
  induction n generalizing r with
  | zero => exact ⟨[], r, rfl, rfl⟩
  | succ n ih =>
    obtain ⟨salt, isSalt⟩ := Merkle.toNonce_returns (ε := ε) (fills 32 r)
    obtain ⟨salts, r', ran, size⟩ := ih (rng.bytes 32 r).2
    refine ⟨salt :: salts, r', ?_, by rw [List.length_cons, size]⟩
    simp only [drawSalts, isSalt, ok_bind, ran, pure_eq_ok]

/-- The values of the rows in a column. -/
def column (w : List (List E)) (j : Nat) : List E := w.map fun row => row.getD j 0

theorem column_returns {w : List (List E)} (committed : Committed param w) {j : Nat}
    (inside : j < param.geom.n) :
    (w.mapM (fun row => getAt row j) : Exec ε (List E)) = .ok (column w j) := by
  refine mapM_eq_ok_map fun row member => ?_
  have bound : j < row.length := by rw [committed.width row member]; exact inside
  rw [getAt_of_lt bound, List.getD_eq_getElem _ _ bound]

/-- The leaves of the commitment. -/
def leaves (hashes : ColumnHashes E) (n : Nat) (w : List (List E)) (salts : List MerkleNonce) :
    List Digest :=
  (List.range n).map fun j => hashes.leaf j (column w j) (salts.getD j ⟨Vector.replicate 32 0⟩)

/-- **The commitment to the columns.** -/
theorem commitColumns_returns (hashes : ColumnHashes E) (fills : Merkle.FillsBytes rng)
    (valid : param.geom.Valid) {w : List (List E)} (committed : Committed param w) (r : ρ) :
    ∃ tree salts r', (commitColumns param rng hashes w r : Exec ε _) = .ok ((tree, salts), r') ∧
      salts.length = param.geom.n ∧ Built hashes.node (leaves hashes param.geom.n w salts) tree := by
  obtain ⟨salts, r', drawn, size⟩ := drawSalts_returns (ε := ε) fills param.geom.n r
  have positive : 1 ≤ param.geom.n := by
    have := valid.queries_lt
    have := valid.primary
    omega
  obtain ⟨tree, isTree, built⟩ : ∃ tree,
      (MerkleHeap.newWithHash (leaves hashes param.geom.n w salts) hashes.node : Exec ε _) =
        .ok tree ∧ Built hashes.node (leaves hashes param.geom.n w salts) tree :=
    newWithHash_built (by simpa [leaves] using positive)
  have isLeaves : ((List.range param.geom.n).mapM (fun j => do
      let column ← w.mapM fun row => getAt row j
      let salt ← getAt salts j
      pure (hashes.leaf j column salt)) : Exec ε (List Digest)) =
        .ok (leaves hashes param.geom.n w salts) := by
    refine mapM_eq_ok_map fun j member => ?_
    have inside : j < param.geom.n := List.mem_range.mp member
    have bound : j < salts.length := by omega
    rw [column_returns committed inside, ok_bind, getAt_of_lt bound, ok_bind, pure_eq_ok,
      List.getD_eq_getElem _ _ bound]
  refine ⟨tree, salts, r', ?_, size, built⟩
  rw [commitColumns, drawn]
  simp only [ok_bind]
  rw [isLeaves, ok_bind, isTree, ok_bind, pure_eq_ok]

end Returns

end Longfellow.Polygero
