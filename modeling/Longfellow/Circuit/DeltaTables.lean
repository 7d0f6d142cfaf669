/-
**Delta tables** (`core/proto/src/cache.rs`, `core/proto/src/reader/lfc1.rs`).

The reader of the older format looks its deltas up in a table behind a cache, which forgets; the
compiler uses a table behind a map, which does not. A table that forgets stores a delta again, but an
index that it hands out is one of the delta. So what a circuit expands to does not depend on the table.

* `DeltaTable.dedupAll_returns` — **every sequence of lookups**.
-/

import Longfellow.Circuit.Accepted
import Longfellow.Compile.Agreement
import Longfellow.Lib.Agree

namespace Longfellow

open Lib

variable {ε B C E : Type}

/-! ### The exact table -/

/-- The table, and the index of every delta in it. -/
structure ExactDeltaTableBuilder where
  deltas : List TermDelta
  map : List (TermDelta × UInt32)
  deriving DecidableEq, Repr

namespace ExactDeltaTableBuilder

def new : ExactDeltaTableBuilder := ⟨[], []⟩

/-- The index of a delta, which is stored at its first occurrence. -/
def dedup (db : ExactDeltaTableBuilder) (d : TermDelta) : UInt32 × ExactDeltaTableBuilder :=
  match db.map.lookup d with
  | some index => (index, db)
  | none =>
    let index := UInt32.ofNat db.deltas.length
    (index, ⟨db.deltas ++ [d], db.map ++ [(d, index)]⟩)

/-- The map has the first index of every delta. -/
def Indexed (db : ExactDeltaTableBuilder) : Prop :=
  ∀ d, db.map.lookup d = (db.deltas.idxOf? d).map UInt32.ofNat

theorem indexed_new : Indexed new := fun _ => rfl

/-- **A lookup through the map** is a lookup in the table. -/
theorem Indexed.dedup {db : ExactDeltaTableBuilder} (indexed : Indexed db) (d : TermDelta) :
    (db.dedup d).1 = (Compile.dedupExact db.deltas d).1 ∧
      (db.dedup d).2.deltas = (Compile.dedupExact db.deltas d).2 ∧ (db.dedup d).2.Indexed := by
  have known := indexed d
  rw [ExactDeltaTableBuilder.dedup, Compile.dedupExact]
  cases found : db.deltas.idxOf? d with
  | some i =>
    rw [found, Option.map_some] at known
    rw [known]
    exact ⟨rfl, rfl, indexed⟩
  | none =>
    rw [found, Option.map_none] at known
    rw [known]
    refine ⟨rfl, rfl, fun other => ?_⟩
    have stored : (db.deltas ++ [d]).idxOf? other =
        (db.deltas.idxOf? other).or (if d == other then some db.deltas.length else none) := by
      rw [List.idxOf?, List.findIdx?_append, ← List.idxOf?]
      cases same : d == other <;> simp [same]
    rw [List.lookup_append, indexed other, stored, List.lookup_cons, List.lookup_nil]
    cases db.deltas.idxOf? other with
    | some i => rfl
    | none =>
      rw [Option.map_none, Option.none_or, Option.none_or, Bool.beq_comm (a := d)]
      cases other == d <;> rfl

end ExactDeltaTableBuilder

/-! ### Tables -/

/-- A table of deltas: a lookup returns, the table only grows at its end, and while its entries have
indices the index returned is one of the delta. -/
structure DeltaTable (B : Type) where
  new : B
  dedup : B → TermDelta → Exec String (UInt32 × B)
  deltas : B → List TermDelta
  Valid : B → Prop
  valid_new : Valid new
  deltas_new : deltas new = []
  dedup_returns : ∀ {db} (d : TermDelta), Valid db → ∃ index db', dedup db d = .ok (index, db') ∧
    Valid db' ∧ deltas db <+: deltas db' ∧ (deltas db').length ≤ (deltas db).length + 1 ∧
    ((deltas db').length ≤ 2 ^ 32 → (deltas db')[index.toNat]? = some d)

namespace DeltaTable

/-- The table behind a cache. -/
def approximate (cacheSize : Nat) (positive : 0 < cacheSize) :
    DeltaTable ApproximateDeltaTableBuilder where
  new := .new cacheSize
  dedup := ApproximateDeltaTableBuilder.dedup
  deltas := (·.deltas)
  Valid := ApproximateDeltaTableBuilder.Kept
  valid_new := (ApproximateDeltaTableBuilder.sound_new cacheSize positive).kept
  deltas_new := rfl
  dedup_returns d kept := ApproximateDeltaTableBuilder.dedup_returns kept d

/-- The table behind a map. -/
def exact : DeltaTable ExactDeltaTableBuilder where
  new := .new
  dedup db d := .ok (db.dedup d)
  deltas := (·.deltas)
  Valid := ExactDeltaTableBuilder.Indexed
  valid_new := ExactDeltaTableBuilder.indexed_new
  deltas_new := rfl
  dedup_returns {db} d indexed := by
    obtain ⟨index, deltas, later⟩ := indexed.dedup d
    obtain ⟨grown, growth, -, points⟩ := Compile.dedupExact_spec db.deltas d
    refine ⟨(db.dedup d).1, (db.dedup d).2, rfl, later, ?_⟩
    rw [index, deltas]
    exact ⟨grown, growth, points⟩

end DeltaTable

/-- Look up a sequence of deltas. -/
def dedupAll (dedup : B → TermDelta → Exec ε (UInt32 × B)) :
    B → List TermDelta → Exec ε (List UInt32 × B)
  | db, [] => pure ([], db)
  | db, d :: ds => do
    let (index, db) ← dedup db d
    let (indices, db) ← dedupAll dedup db ds
    pure (index :: indices, db)

/-- **Every sequence of lookups**: each index that was returned is one of its delta at the end. -/
theorem DeltaTable.dedupAll_returns (table : DeltaTable B) {db : B} (valid : table.Valid db)
    (ds : List TermDelta) :
    ∃ indices db', dedupAll table.dedup db ds = .ok (indices, db') ∧ table.Valid db' ∧
      table.deltas db <+: table.deltas db' ∧
      ((table.deltas db').length ≤ 2 ^ 32 →
        List.Forall₂ (fun index d => (table.deltas db')[index.toNat]? = some d) indices ds) := by
  induction ds generalizing db with
  | nil => exact ⟨[], db, rfl, valid, List.prefix_rfl, fun _ => .nil⟩
  | cons d ds ih =>
    obtain ⟨index, next, looked, validNext, grown, -, points⟩ := table.dedup_returns d valid
    obtain ⟨indices, db', ran, valid', grown', all⟩ := ih validNext
    refine ⟨index :: indices, db', ?_, valid', grown.trans grown', fun fits => ?_⟩
    · rw [dedupAll, looked, ok_bind]
      dsimp only
      rw [ran, ok_bind, pure_eq_ok]
    · have here := points (grown'.length_le.trans fits)
      exact .cons (getElem?_of_prefixed grown' here) (all fits)

/-! ### The reader through a table -/

section Reader

variable (table : DeltaTable B)

/-- `readTerm` through any table. -/
def readTermThrough (numconst : Nat) (state : B × List UInt32) (chunk : Bytes) :
    Exec String (B × List UInt32) := do
  let deltaG := readU24 chunk
  let deltaH0 := readU24 (chunk.drop 3)
  let deltaH1 := readU24 (chunk.drop 6)
  let vi := readU24 (chunk.drop 9)
  check (vi.toNat < numconst) s!"Constant index out of bounds: {vi.toNat} >= {numconst}"
  let (idx, db) ← table.dedup state.1
    ⟨decodeDelta deltaG, decodeDelta deltaH0, decodeDelta deltaH1, vi⟩
  pure (db, state.2 ++ [idx])

/-- `readLayerLfc1` through any table. -/
def readLayerThrough (reader : CircuitReader E) (numconst totalTerms : Nat) :
    Reader String (Layer × Nat) := do
  let (logw, nw) ← readDimensions readNumStream
  let nterms ← readNumStream
  demand (nterms ≤ maxTermsPerLayer)
    s!"Excessive layer term count: {nterms} (max {maxTermsPerLayer})"
  let totalTerms ← liftM (addTerms reader totalTerms nterms)
  let (db, deltaSegment) ← readRecords 12 255 ("Failed to read terms batch: " ++ fillError)
    (readTermThrough table numconst) nterms (table.new, [])
  pure (Layer.newUncompressed nw logw (table.deltas db) deltaSegment, totalTerms)

/-- `fromStreamLfc1Inner` through any table. -/
def fromStreamLfc1Through (sha256 : Bytes → Vector UInt8 32) (reader : CircuitReader E)
    (enforceCircuitId : Bool) : Reader String (Circuit E) := do
  let header ← readHeader readNumStream
  let numconst ← readNumConst readNumStream
  checkFieldId reader header.fid
  let constants ← readMany (readConstant reader.f) numconst
  let layers ← readLayers (readLayerThrough table reader numconst) header.nl 0
  finishCircuit sha256 reader enforceCircuitId (header.toRaw constants layers)

end Reader

theorem fromStreamLfc1Through_approximate (sha256 : Bytes → Vector UInt8 32)
    (reader : CircuitReader E) (enforce : Bool) :
    fromStreamLfc1Through (.approximate 65521 (by decide)) sha256 reader enforce =
      fromStreamLfc1Inner sha256 reader enforce := rfl

/-! ### Two tables -/

section Alike

variable {table : DeltaTable B} {table' : DeltaTable C} {count numconst : Nat}
  {state : B × List UInt32}

/-- What the terms so far left in a table: the indices of their deltas. -/
structure Selects (table : DeltaTable B) (count : Nat) (ds : List TermDelta)
    (state : B × List UInt32) : Prop where
  valid : table.Valid state.1
  size : (table.deltas state.1).length ≤ count
  selects : List.Forall₂ (fun index d => (table.deltas state.1)[index.toNat]? = some d) state.2 ds

theorem Selects.start (table : DeltaTable B) : Selects table 0 [] (table.new, []) :=
  ⟨table.valid_new, (congrArg List.length table.deltas_new).le, .nil⟩

theorem Selects.dedup {ds : List TermDelta}
    (selects : Selects table count ds state) (few : count < 2 ^ 32) (d : TermDelta) :
    ∃ index db, table.dedup state.1 d = .ok (index, db) ∧
      Selects table (count + 1) (ds ++ [d]) (db, state.2 ++ [index]) := by
  obtain ⟨index, db, looked, valid, grown, growth, points⟩ := table.dedup_returns d selects.valid
  have size := selects.size
  refine ⟨index, db, looked, valid, by dsimp only; omega, ?_⟩
  refine List.rel_append ?_ (.cons (points (by omega)) .nil)
  exact selects.selects.imp fun _ _ found => getElem?_of_prefixed grown found

/-- The states of two readers after the same terms. -/
def SameDeltas (table : DeltaTable B) (table' : DeltaTable C) (numconst count : Nat)
    (state : B × List UInt32) (state' : C × List UInt32) : Prop :=
  ∃ ds, (∀ d ∈ ds, d.kIndex.toNat < numconst) ∧ Selects table count ds state ∧
    Selects table' count ds state'

theorem alike_readTerm (few : count < 2 ^ 32) {state' : C × List UInt32}
    (chunk : Bytes) (same : SameDeltas table table' numconst count state state') :
    Alike (readTermThrough table numconst state chunk) (readTermThrough table' numconst state' chunk)
      (SameDeltas table table' numconst (count + 1)) := by
  obtain ⟨ds, inside, selects, selects'⟩ := same
  refine (alike_self _).bind fun _ _ passed => ?_
  have below := check_eq_ok.mp passed.2
  set d : TermDelta := ⟨decodeDelta (readU24 chunk), decodeDelta (readU24 (chunk.drop 3)),
    decodeDelta (readU24 (chunk.drop 6)), readU24 (chunk.drop 9)⟩ with d_eq
  obtain ⟨index, db, looked, later⟩ := selects.dedup few d
  obtain ⟨index', db', looked', later'⟩ := selects'.dedup few d
  refine alike_ok (by rw [looked]; rfl) (by rw [looked']; rfl) ⟨ds ++ [d], ?_, later, later'⟩
  intro other member
  rcases List.mem_append.mp member with old | new
  · exact inside other old
  · obtain rfl := List.mem_singleton.mp new
    exact below

/-- **A layer.** -/
theorem alikeReader_layer (reader : CircuitReader E) (constants : List E) (totalTerms : Nat) :
    AlikeReader (readLayerThrough table reader constants.length totalTerms)
      (readLayerThrough table' reader constants.length totalTerms)
      fun a b => SameLayer constants constants a.1 b.1 ∧ b.2 = a.2 := by
  refine (alikeReader_self _).bind fun dims' dims same => ?_
  subst same
  refine safeReader_numStream.alike.bind fun nterms' nterms ⟨same, small⟩ => ?_
  subst same
  refine (alikeReader_self _).bind fun _ _ _ => ?_
  refine (alikeReader_self _).bind fun total total' same => ?_
  subst same
  have few : nterms ≤ 2 ^ 24 := Nat.le_of_lt small
  have start : SameDeltas table table' constants.length 0 (table.new, []) (table'.new, []) :=
    ⟨[], fun _ member => absurd member List.not_mem_nil, Selects.start table, Selects.start table'⟩
  refine (alikeReader_records (SameDeltas table table' constants.length)
    (fun count state state' chunk below same => alike_readTerm (by omega) chunk same) start
    (Nat.zero_add nterms)).bind fun state state' ⟨ds, inside, selects, selects'⟩ => ?_
  obtain ⟨terms, summed, -⟩ := accumulate_returns (ε := String) Wires.zero inside
  have expanded := terms_newUncompressed dims.2 dims.1 selects.selects summed
  have expanded' := terms_newUncompressed dims.2 dims.1 selects'.selects summed
  exact alikeReader_pure ⟨⟨rfl, rfl, terms, expanded, expanded',
    (Layer.numTerms_of_terms expanded).1, (Layer.numTerms_of_terms expanded').1⟩, rfl⟩

theorem alikeReader_layers (reader : CircuitReader E) (constants : List E) (count totalTerms : Nat) :
    AlikeReader (readLayers (readLayerThrough table reader constants.length) count totalTerms)
      (readLayers (readLayerThrough table' reader constants.length) count totalTerms)
      (List.Forall₂ (SameLayer constants constants)) := by
  induction count generalizing totalTerms with
  | zero => exact alikeReader_pure .nil
  | succ count ih =>
    refine (alikeReader_layer reader constants totalTerms).bind
      fun (layer, total) (layer', total') ⟨same, totals⟩ => ?_
    obtain rfl : total' = total := totals
    refine (ih total').bind fun layers layers' others => ?_
    exact alikeReader_pure (.cons same others)

variable {sha256 : Bytes → Vector UInt8 32}

theorem alikeReader_finish (reader : CircuitReader E) (enforce : Bool) {raw raw' : RawCircuit E}
    (same : SameCircuit raw raw') (constants : raw'.constants = raw.constants) :
    AlikeReader (finishCircuit sha256 reader enforce raw) (finishCircuit sha256 reader enforce raw')
      fun a b => SameCircuit a.raw b.raw ∧ b.id = a.id := by
  have valid : validateRawCircuit raw' = validateRawCircuit raw := by
    rw [validateRawCircuit, validateRawCircuit, same.noutput, same.npublicInput, same.ninput,
      constants, same.layers.length_eq]
  have id : (computeId sha256 reader.f raw' : Exec String _) = computeId sha256 reader.f raw :=
    computeId_congr same
  refine (alikeReader_self _).bind fun read read' isSame => ?_
  subst isSame
  rw [valid]
  refine (alikeReader_self _).bind fun _ _ _ => ?_
  cases enforce with
  | false => exact alikeReader_pure ⟨same, rfl⟩
  | true =>
    rw [if_pos rfl, if_pos rfl, id]
    refine (alikeReader_self _).bind fun computed computed' isSame => ?_
    subst isSame
    exact (alikeReader_self _).bind fun _ _ _ => alikeReader_pure ⟨same, rfl⟩

/-- **The reader, through one table and through another**: it fails alike, or it returns circuits
with the same terms. -/
theorem alikeReader_lfc1 (table : DeltaTable B) (table' : DeltaTable C) (reader : CircuitReader E)
    (enforce : Bool) :
    AlikeReader (fromStreamLfc1Through table sha256 reader enforce)
      (fromStreamLfc1Through table' sha256 reader enforce)
      fun a b => SameCircuit a.raw b.raw ∧ b.id = a.id := by
  refine (alikeReader_self _).bind fun header' header same => ?_
  subst same
  refine (alikeReader_self _).bind fun numconst' numconst same => ?_
  subst same
  refine (alikeReader_self _).bind fun _ _ _ => ?_
  refine (safeReader_many (safeReader_constant reader.f) numconst).alike.bind
    fun constants' constants ⟨same, size, _⟩ => ?_
  subst same
  subst size
  refine (alikeReader_layers reader constants header.nl 0).bind fun layers layers' same => ?_
  exact alikeReader_finish reader enforce ⟨rfl, rfl, rfl, rfl, rfl, same⟩ rfl

end Alike

/-- **Delta tables are exact** whatever the cache forgets: for every number of buckets and every
sequence of deltas each index returned is one of its delta at the end, and the reader of the older
format fails or expands as it does through the table behind a map. -/
theorem deltaTables_exact (cacheSize : Nat) (ds : List TermDelta)
    (sha256 : Bytes → Vector UInt8 32) (reader : CircuitReader E) (enforce : Bool) (bytes : Bytes) :
    (0 < cacheSize → ∃ indices db, (dedupAll ApproximateDeltaTableBuilder.dedup (.new cacheSize) ds :
      Exec String _) = .ok (indices, db)) ∧
    (∀ indices db, (dedupAll ApproximateDeltaTableBuilder.dedup (.new cacheSize) ds :
        Exec String _) = .ok (indices, db) → db.deltas.length ≤ 2 ^ 32 →
      List.Forall₂ (fun index d => db.deltas[index.toNat]? = some d) indices ds) ∧
    Alike ((fromStreamLfc1Inner sha256 reader enforce).run bytes)
      ((fromStreamLfc1Through .exact sha256 reader enforce).run bytes)
      fun a b => (SameCircuit a.1.raw b.1.raw ∧ b.1.id = a.1.id) ∧ b.2 = a.2 := by
  refine ⟨fun positive => ?_, fun indices db ran fits => ?_, ?_⟩
  · have valid := (DeltaTable.approximate cacheSize positive).valid_new
    obtain ⟨indices, db, ran, -⟩ := DeltaTable.dedupAll_returns _ valid ds
    exact ⟨indices, db, ran⟩
  · obtain rfl | positive := Nat.eq_zero_or_pos cacheSize
    · -- Without buckets there is no lookup.
      cases ds with
      | nil =>
        obtain ⟨rfl, rfl⟩ := Prod.mk.inj (Except.ok.inj ran)
        exact .nil
      | cons d ds => cases ran
    · have valid := (DeltaTable.approximate cacheSize positive).valid_new
      obtain ⟨indices', db', ran', -, -, all⟩ := DeltaTable.dedupAll_returns _ valid ds
      obtain ⟨rfl, rfl⟩ := Prod.mk.inj (Except.ok.inj (ran'.symm.trans ran))
      exact all fits
  · rw [← fromStreamLfc1Through_approximate]
    exact alikeReader_lfc1 _ .exact reader enforce bytes

/-- One bucket for three deltas: two of them are forgotten and stored again. -/
theorem deltaTables_exact_one_bucket :
    let ds : List TermDelta := [⟨1, 0, 0, 0⟩, ⟨2, 0, 0, 0⟩, ⟨3, 0, 0, 0⟩, ⟨1, 0, 0, 0⟩, ⟨3, 0, 0, 0⟩,
      ⟨2, 0, 0, 0⟩]
    ∃ db, (dedupAll ApproximateDeltaTableBuilder.dedup (.new 1) ds : Exec String _) =
        .ok ([0, 1, 2, 3, 2, 4], db) ∧ db.deltas.length = 5 ∧
      List.Forall₂ (fun (index : UInt32) d => db.deltas[index.toNat]? = some d) [0, 1, 2, 3, 2, 4]
        ds := by
  refine ⟨_, rfl, rfl, ?_⟩
  exact (deltaTables_exact 1 _ zeroHash smallReader false []).2.1 _ _ rfl (by decide)

end Longfellow
