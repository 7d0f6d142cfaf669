/-
**The circuit reader of the other implementation** (`lib/proto/circuit_reader.h`).

The reader rebuilds the wires of a gate as 64-bit sizes, checks them gate by gate, and stores the
differences as 32-bit words in one table of deltas for all layers. The other reader decodes the
differences alone, in 32-bit arithmetic, and has a table for every layer.

* `agree_circuit` — **a circuit that both accept** has the same counts and the same terms.
-/

import Longfellow.Circuit.Lfc1
import Longfellow.Cpp.Circuit
import Longfellow.Lib.Agree

namespace Longfellow.Cpp

open Lib

variable {ε E : Type}

/-! ### The buffer -/

/-- Return no circuit unless at least `n` bytes remain. -/
def needBytes (n : ℕ) : Reader Unit Unit := fun buf => do
  check (n ≤ buf.length) ()
  pure ((), buf)

/-- The next `n` bytes. -/
def next (n : ℕ) : Reader Unit Bytes := fun buf => do
  ensure (n ≤ buf.length) "have(n)"
  pure (buf.take n, buf.drop n)

/-- The next `n` bytes, in an array. -/
def nextInto (n : ℕ) : Reader Unit (Vector UInt8 n) := fun buf =>
  if enough : n ≤ buf.length then
    pure (⟨(buf.take n).toArray, size_take enough⟩, buf.drop n)
  else abort "have(n)"

/-! ### The reader -/

def kBytesPerSizeT : ℕ := 3

abbrev kIdSize : ℕ := 32

def kMaxLayers : ℕ := 10000

def kMaxBindings : ℕ := 40

def kMaxValidWireId : ℕ := 0xFFFFFFFE

def kMaxValidIndex : ℕ := 0xFFFFFFFF

def readNum : Reader Unit ℕ := do
  let p ← next kBytesPerSizeT
  let r := leValue p
  liftM (ensure (r < 2 ^ 64 - 1) "Violating small wire-label assumption" : Exec Unit Unit)
  pure r

def readFieldId : Reader Unit ℕ := readNum

def readSize : Reader Unit ℕ := readNum

/-- An index from its difference to the previous one, with the sign in the lowest bit. -/
def readIndex (prevInd : UInt64) : Reader Unit UInt64 := do
  let delta := UInt64.ofNat (← readNum)
  pure (if delta &&& 1 ≠ 0 then prevInd - (delta >>> 1) else prevInd + (delta >>> 1))

def readConstant (f : Field E) : Reader Unit E := do
  let bytes ← next f.kBytes
  liftM (okOr (f.ofBytesField bytes) ())

/-- The header: a circuit without layers, and the coefficients. -/
def readHeader (f : Field E) (fieldId : FieldID) :
    Reader Unit (Circuit E × List E) := do
  needBytes (8 * kBytesPerSizeT + 1)
  let version ← next 1
  demand (leValue version = 1) ()
  let fidAsSizeT ← readFieldId
  let nv ← readSize
  let nc ← readSize
  let npubIn ← readSize
  let subfieldBoundary ← readSize
  let ninputs ← readSize
  let nl ← readSize
  let numconst ← readSize
  demand (¬ (nv = 0 ∨ nv > kMaxValidWireId ∨ nc = 0 ∨ nl = 0 ∨ nl > kMaxLayers ∨
    fidAsSizeT ≠ fieldId.code ∨ ninputs > kMaxValidWireId ∨ npubIn > ninputs ∨
    subfieldBoundary > ninputs ∨ numconst > kMaxValidIndex)) ()
  let need ← liftM (okOr (checkedMul numconst f.kBytes) ())
  needBytes need
  let constants ← readMany (readConstant f) numconst
  let logv ← liftM (lg nv : Exec Unit ℕ)
  let logc ← liftM (lg nc : Exec Unit ℕ)
  pure (⟨nv, logv, nc, logc, nl, ninputs, npubIn, subfieldBoundary, [], Vector.replicate 32 0⟩,
    constants)

/-- The gates of a layer, each from the wires of the one before. -/
def readQuads (maxG nw numconst : ℕ) : ℕ → UInt64 → UInt64 → UInt64 →
    ApproximateDeltaTableBuilder → Reader Unit (List UInt32 × ApproximateDeltaTableBuilder)
  | 0, _, _, _, db => pure ([], db)
  | nq + 1, prevg, prevhl, prevhr, db => do
    let g ← readIndex prevg
    demand (¬ g.toNat ≥ maxG) ()
    let hl ← readIndex prevhl
    let hr ← readIndex prevhr
    demand (¬ (hl.toNat ≥ nw ∨ hr.toNat ≥ nw)) ()
    let vi ← readNum
    demand (¬ vi ≥ numconst) ()
    let (di, db) ← liftM (db.dedup ⟨(g - prevg).toUInt32, (hl - prevhl).toUInt32,
      (hr - prevhr).toUInt32, UInt32.ofNat vi⟩ :
        Exec Unit (UInt32 × ApproximateDeltaTableBuilder))
    let (vc, db) ← readQuads maxG nw numconst nq g hl hr db
    pure (di :: vc, db)

/-- A layer before the table of deltas is complete. -/
structure LayerRead where
  nw : ℕ
  logw : ℕ
  vc : List UInt32

def readLayer (maxG numconst : ℕ) (db : ApproximateDeltaTableBuilder) :
    Reader Unit (LayerRead × ApproximateDeltaTableBuilder) := do
  needBytes (3 * kBytesPerSizeT)
  let lw ← readSize
  demand (¬ (lw > kMaxBindings ∨ ¬ lw > 0)) ()
  let nw ← readSize
  demand (¬ (¬ nw > 0 ∨ nw < lw ∨ nw > kMaxValidWireId ∨ nw > 2 ^ lw)) ()
  let nq ← readSize
  demand (¬ (¬ nq > 0 ∨ nq > kMaxValidIndex)) ()
  let need ← liftM (okOr (checkedMul (4 * kBytesPerSizeT) nq) ())
  needBytes need
  liftM (ensure (nq > 0) "Quad n > 0" : Exec Unit Unit)
  let (vc, db) ← readQuads maxG nw numconst nq 0 0 0 db
  pure (⟨nw, lw, vc⟩, db)

/-- The layers: the outputs of one are the inputs of the next. -/
def readLayers (numconst : ℕ) : ℕ → ℕ → ApproximateDeltaTableBuilder →
    Reader Unit (List LayerRead × ApproximateDeltaTableBuilder)
  | 0, _, db => pure ([], db)
  | nl + 1, maxG, db => do
    let (layer, db) ← readLayer maxG numconst db
    let (layers, db) ← readLayers numconst nl layer.nw db
    pure (layer :: layers, db)

/-- A layer over the table that all layers share. -/
def LayerRead.toLayer (constants : List E) (deltaTable : List TermDelta) (layer : LayerRead) :
    Layer E := ⟨layer.nw, layer.logw, ⟨layer.vc, deltaTable, constants⟩⟩

/-- A circuit, or nothing when the bytes are in error. -/
def fromBytes (sha256 : Bytes → Vector UInt8 32) (f : Field E) (fieldId : FieldID)
    (enforceCircuitId : Bool) : Reader Unit (Circuit E) := do
  let (c, constants) ← readHeader f fieldId
  let (layers, db) ← readLayers constants.length c.nl c.nv (.new 8209)
  let c := { c with l := layers.map (LayerRead.toLayer constants db.deltas) }
  needBytes kIdSize
  let id ← nextInto kIdSize
  let c := { c with id := id }
  if enforceCircuitId then do
    let idtmp ← liftM (circuitId sha256 f c : Exec Unit (Vector UInt8 32))
    demand (idtmp = id) ()
    pure c
  else pure c

/-! ### Numbers -/

variable {n : ℕ}

theorem next_eq_ok {bytes chunk rest : Bytes} :
    (next n).run bytes = .ok (chunk, rest) ↔ chunk.length = n ∧ bytes = chunk ++ rest := by
  have plain : (takeBytes n ()).run bytes = .ok (chunk, rest) ↔
      (next n).run bytes = .ok (chunk, rest) := by
    show (if n > bytes.length then (raise () : Exec Unit (Bytes × Bytes))
      else pure (bytes.take n, bytes.drop n)) = _ ↔
        (ensure (n ≤ bytes.length) "have(n)" >>= fun _ => _) = _
    by_cases enough : n ≤ bytes.length
    · rw [if_neg (Nat.not_lt.mpr enough), ensure_of enough, ok_bind]
    · rw [if_pos (Nat.not_le.mp enough), ensure, if_neg enough]
      exact ⟨fun ran => absurd ran (raise_ne_ok _ _), fun ran => by cases ran⟩
  rw [← plain, takeBytes_eq_ok]

variable {error : String}

theorem agree_next :
    Agree (next n) (takeBytes n error) fun bytes bytes' => bytes' = bytes ∧ bytes.length = n := by
  intro bytes chunk chunk' rest rest' ran ran'
  obtain ⟨size, rfl⟩ := next_eq_ok.mp ran
  obtain ⟨size', split⟩ := takeBytes_eq_ok.mp ran'
  obtain ⟨rfl, rfl⟩ := List.append_inj split (size.trans size'.symm)
  exact ⟨⟨rfl, size⟩, rfl⟩

theorem Agree.needBytes {α β : Type} {following : Unit → Reader Unit α} {second : Reader String β}
    {rel : α → β → Prop} (tail : Agree (following ()) second rel) :
    Agree (Cpp.needBytes n >>= following) second rel := by
  refine Agree.lookLeft (fun bytes c rest ran => ?_) fun _ => tail
  obtain ⟨_, _, ran⟩ := bind_eq_ok.mp ran
  exact (Prod.mk.inj (Except.ok.inj ran)).2.symm

theorem agree_numBytes : Agree readNum (takeBytes 3 error) fun n slice =>
    slice.length = 3 ∧ n = leValue slice ∧ n < 2 ^ 24 := by
  intro bytes n slice rest rest' ran ran'
  obtain ⟨p, middle, taken, ran⟩ := reader_bind_eq_ok.mp ran
  obtain ⟨_, middle', lifted, ran⟩ := reader_bind_eq_ok.mp ran
  obtain ⟨_, rfl⟩ := reader_lift_eq_ok.mp lifted
  obtain ⟨rfl, rfl⟩ := reader_pure_eq_ok.mp ran
  obtain ⟨⟨rfl, size⟩, rfl⟩ := agree_next bytes p slice _ rest' taken ran'
  have small := leValue_lt slice
  rw [size] at small
  exact ⟨⟨size, rfl, small⟩, rfl⟩

theorem agree_num : Agree readNum readNumStream fun n n' => n' = n ∧ n < 2 ^ 24 := by
  intro bytes n n' rest rest' ran ran'
  obtain ⟨buf, middle, taken, ran'⟩ := reader_bind_eq_ok.mp ran'
  obtain ⟨rfl, rfl⟩ := reader_pure_eq_ok.mp ran'
  obtain ⟨⟨_, value, small⟩, rfl⟩ := agree_numBytes bytes n buf rest _ ran taken
  exact ⟨⟨value.symm, small⟩, rfl⟩

/-- **A difference is decoded to the same word in both.** -/
theorem readIndex_delta (prevInd : UInt64) {code : ℕ} (small : code < 2 ^ 24) :
    ((if UInt64.ofNat code &&& 1 ≠ 0 then prevInd - (UInt64.ofNat code >>> 1)
      else prevInd + (UInt64.ofNat code >>> 1)) - prevInd).toUInt32 =
        decodeDelta (UInt32.ofNat code) := by
  have value : (UInt64.ofNat code).toNat = code :=
    UInt64.toNat_ofNat_of_lt' (small.trans (by decide))
  have value' : (UInt32.ofNat code).toNat = code :=
    UInt32.toNat_ofNat_of_lt' (small.trans (by decide))
  have low : (UInt64.ofNat code &&& 1).toNat = code % 2 := by
    rw [UInt64.toNat_and, value]
    exact Nat.and_one_is_mod _
  have parity : UInt64.ofNat code &&& 1 ≠ 0 ↔ ¬ code % 2 = 0 := by
    rw [← low]
    exact not_congr UInt64.toNat_inj.symm
  have halved : (UInt64.ofNat code >>> 1).toNat = code / 2 := by
    rw [UInt64.toNat_shiftRight, value]
    simp [Nat.shiftRight_eq_div_pow]
  have halved' : (UInt32.ofNat code >>> 1).toNat = code / 2 := by
    rw [UInt32.toNat_shiftRight, value']
    simp [Nat.shiftRight_eq_div_pow]
  have bound := prevInd.toNat_lt
  rw [decodeDelta_eq, value']
  apply UInt32.toNat_inj.mp
  by_cases even : code % 2 = 0
  · rw [if_neg (not_not.mpr even ∘ parity.mp), if_pos even, UInt64.toNat_toUInt32,
      UInt64.toNat_sub, UInt64.toNat_add, halved, halved']
    omega
  · rw [if_pos (parity.mpr even), if_neg even, UInt64.toNat_toUInt32, UInt64.toNat_sub,
      UInt64.toNat_sub, UInt32.toNat_neg, halved, halved']
    simp only [UInt32.size]
    omega

theorem readU24_append {slice : Bytes} (size : slice.length = 3) (rest : Bytes) :
    readU24 (slice ++ rest) = UInt32.ofNat (leValue slice) := by
  rw [readU24, List.take_append_of_le_length size.ge, List.take_of_length_le size.le]

theorem agree_index (prevInd : UInt64) :
    Agree (readIndex prevInd) (takeBytes 3 error) fun ind slice =>
      slice.length = 3 ∧ ∀ rest, decodeDelta (readU24 (slice ++ rest)) =
        (ind - prevInd).toUInt32 := by
  intro bytes ind slice rest rest' ran ran'
  obtain ⟨n, middle, read, ran⟩ := reader_bind_eq_ok.mp ran
  obtain ⟨rfl, rfl⟩ := reader_pure_eq_ok.mp ran
  obtain ⟨⟨size, rfl, small⟩, rfl⟩ := agree_numBytes bytes n slice _ rest' read ran'
  refine ⟨⟨size, fun rest => ?_⟩, rfl⟩
  rw [readU24_append size]
  exact (readIndex_delta prevInd small).symm

/-! ### Layers -/

/-- The indices select the deltas. -/
abbrev SelectsDeltas (table : List TermDelta) (indices : List UInt32) (deltas : List TermDelta) :
    Prop := List.Forall₂ (fun index d => table[index.toNat]? = some d) indices deltas

variable {table table' : List TermDelta}

theorem SelectsDeltas.mono {indices : List UInt32} {deltas : List TermDelta}
    (selects : SelectsDeltas table indices deltas) (grown : table <+: table') :
    SelectsDeltas table' indices deltas :=
  selects.imp fun _ _ found => getElem?_of_prefixed grown found

/-- What the two readers make of the gates of a layer: tables that have grown, and indices that
select the same deltas. -/
structure QuadsAgree (numconst count : ℕ) (db db' : ApproximateDeltaTableBuilder)
    (before : List UInt32) (left : List UInt32 × ApproximateDeltaTableBuilder)
    (right : ApproximateDeltaTableBuilder × List UInt32) : Prop where
  sound : left.2.Sound
  grown : db.deltas <+: left.2.deltas
  grown' : db'.deltas <+: right.1.deltas
  size : left.2.deltas.length ≤ db.deltas.length + count
  deltas : ∃ segment deltas, right.2 = before ++ segment ∧
    SelectsDeltas left.2.deltas left.1 deltas ∧ SelectsDeltas right.1.deltas segment deltas ∧
    ∀ d ∈ deltas, d.kIndex.toNat < numconst

variable {numconst : ℕ}

variable {db' : ApproximateDeltaTableBuilder}

theorem readTerm_gate {before : List UInt32} {first second third last : Bytes} {d : TermDelta}
    {vi : ℕ} (fromG : first.length = 3 ∧ ∀ rest, decodeDelta (readU24 (first ++ rest)) = d.g)
    (fromHl : second.length = 3 ∧ ∀ rest, decodeDelta (readU24 (second ++ rest)) = d.h0)
    (fromHr : third.length = 3 ∧ ∀ rest, decodeDelta (readU24 (third ++ rest)) = d.h1)
    (fromVi : last.length = 3 ∧ vi = leValue last ∧ vi < 2 ^ 24) (isVi : d.kIndex = UInt32.ofNat vi)
    (inside : vi < numconst) :
    readTerm numconst (db', before) (first ++ (second ++ (third ++ last))) =
      db'.dedup d >>= fun (idx, db) => pure (db, before ++ [idx]) := by
  have drop6 : ∀ bytes : Bytes, bytes.drop 6 = (bytes.drop 3).drop 3 := fun bytes => by
    rw [List.drop_drop]
  have drop9 : ∀ bytes : Bytes, bytes.drop 9 = ((bytes.drop 3).drop 3).drop 3 := fun bytes => by
    rw [List.drop_drop, List.drop_drop]
  have index : readU24 last = d.kIndex := by
    have read := readU24_append fromVi.1 []
    rwa [List.append_nil, ← fromVi.2.1, ← isVi] at read
  have value : d.kIndex.toNat = vi := by
    rw [isVi]
    exact UInt32.toNat_ofNat_of_lt' (fromVi.2.2.trans (by decide))
  unfold readTerm
  rw [drop6, drop9, List.drop_left' fromG.1, List.drop_left' fromHl.1, List.drop_left' fromHr.1]
  dsimp only
  rw [fromG.2, fromHl.2, fromHr.2, index, value, check_of inside, ok_bind]

variable {db : ApproximateDeltaTableBuilder}

variable {maxG : ℕ}

/-- **The gates of a layer.** -/
theorem agree_quads {nw nq : ℕ} {prevg prevhl prevhr : UInt64} {before : List UInt32}
    (sound : db.Sound) (sound' : db'.Sound) (fits : db.deltas.length + nq ≤ 2 ^ 32)
    (fits' : db'.deltas.length + nq ≤ 2 ^ 32) :
    Agree (readQuads maxG nw numconst nq prevg prevhl prevhr db)
      (readEach 12 error (readTerm numconst) nq (db', before))
      (QuadsAgree numconst nq db db' before) := by
  -- Induction over the gates: each is one delta, and one lookup in either table.
  induction nq generalizing prevg prevhl prevhr db db' before with
  | zero =>
    exact agree_pure ⟨sound, List.prefix_rfl, List.prefix_rfl, le_rfl, [], [],
      (List.append_nil _).symm, .nil, .nil, by simp⟩
  | succ nq ih =>
    unfold readQuads readEach
    refine Agree.splitRight 3 9 ?_
    refine (agree_index prevg).bind fun g first fromG => Agree.demandLeft fun _ => ?_
    refine Agree.splitRight 3 6 ?_
    refine (agree_index prevhl).bind fun hl second fromHl => ?_
    refine Agree.splitRight 3 3 ?_
    refine (agree_index prevhr).bind fun hr third fromHr => Agree.demandLeft fun _ => ?_
    refine agree_numBytes.bind fun vi last fromVi => Agree.demandLeft fun inside => ?_
    refine Agree.liftLeft fun stop stored => ?_
    obtain ⟨di, next⟩ := stop
    refine Agree.liftRight fun stop' read => ?_
    obtain ⟨next', after⟩ := stop'
    set d : TermDelta := ⟨(g - prevg).toUInt32, (hl - prevhl).toUInt32, (hr - prevhr).toUInt32,
      UInt32.ofNat vi⟩ with d_eq
    have below : vi < numconst := Nat.not_le.mp inside
    rw [readTerm_gate (d := d) fromG fromHl fromHr fromVi rfl below] at read
    obtain ⟨index, found, looked, validNext, grownNext, points, growth⟩ :=
      ApproximateDeltaTableBuilder.dedup_spec (ε := Unit) sound (by omega) d
    obtain ⟨rfl, rfl⟩ := Prod.mk.inj (Except.ok.inj (stored.symm.trans looked))
    obtain ⟨index', found', looked', validNext', grownNext', points', growth'⟩ :=
      ApproximateDeltaTableBuilder.dedup_spec (ε := String) sound' (by omega) d
    rw [looked', ok_bind] at read
    obtain ⟨rfl, rfl⟩ := Prod.mk.inj (Except.ok.inj read)
    refine (ih validNext validNext' (by omega) (by omega)).andReturnLeft fun left right agree => ?_
    obtain ⟨segment, deltas, whole, selects, selects', coefficients⟩ := agree.deltas
    have size : left.2.deltas.length ≤ db.deltas.length + (nq + 1) := by
      have later := agree.size
      omega
    refine ⟨agree.sound, grownNext.trans agree.grown, grownNext'.trans agree.grown', size,
      index' :: segment, d :: deltas, ?_, ?_, ?_, ?_⟩
    · rw [whole, List.append_assoc, List.singleton_append]
    · exact .cons (getElem?_of_prefixed agree.grown points) selects
    · exact .cons (getElem?_of_prefixed agree.grown' points') selects'
    · refine List.forall_mem_cons.mpr ⟨?_, coefficients⟩
      exact (UInt32.toNat_ofNat_of_lt' (fromVi.2.2.trans (by decide))).trans_lt below

/-- A layer of either reader: the same dimensions, and indices that select the same deltas. -/
structure LayerRead.Matches (numconst : ℕ) (deltaTable : List TermDelta) (left : LayerRead)
    (right : Longfellow.Layer) : Prop where
  nw : right.nw = left.nw
  logw : right.logw = left.logw
  deltas : ∃ table segment deltas, right = Layer.newUncompressed left.nw left.logw table segment ∧
    SelectsDeltas deltaTable left.vc deltas ∧ SelectsDeltas table segment deltas ∧
    ∀ d ∈ deltas, d.kIndex.toNat < numconst

variable {right : Longfellow.Layer}

theorem LayerRead.Matches.mono {left : LayerRead} (isSame : left.Matches numconst table right)
    (grown : table <+: table') : left.Matches numconst table' right := by
  obtain ⟨other, segment, deltas, whole, selects, selects', coefficients⟩ := isSame.deltas
  exact ⟨isSame.nw, isSame.logw, other, segment, deltas, whole, selects.mono grown, selects',
    coefficients⟩

/-- What the two readers make of a layer: a table that has grown by no more than the terms. -/
structure LayersAgree (numconst nterms : ℕ) (db : ApproximateDeltaTableBuilder)
    (left : LayerRead × ApproximateDeltaTableBuilder) (right : Longfellow.Layer) : Prop where
  sound : left.2.Sound
  grown : db.deltas <+: left.2.deltas
  size : left.2.deltas.length ≤ db.deltas.length + nterms
  isSame : left.1.Matches numconst left.2.deltas right

variable {totalTerms : ℕ} {reader : CircuitReader E}

theorem addTerms_eq_ok {nterms total : ℕ}
    (added : addTerms reader totalTerms nterms = .ok total) (budget : reader.maxTotalTerms ≤ 2 ^ 32) :
    total = totalTerms + nterms ∧ total ≤ reader.maxTotalTerms := by
  obtain ⟨_, within, added⟩ := bind_eq_ok.mp added
  obtain rfl := Except.ok.inj added
  have below := check_eq_ok.mp within
  refine ⟨?_, below⟩
  unfold saturatingAdd at below ⊢
  omega

section

variable (budget : reader.maxTotalTerms ≤ 2 ^ 32) (sound : db.Sound)
  (fits : db.deltas.length ≤ totalTerms)
include budget sound fits

/-- **A layer.** -/
theorem agree_layer :
    Agree (readLayer maxG numconst db) (readLayerLfc1 reader numconst totalTerms)
      fun left right => ∃ nterms, right.2 = totalTerms + nterms ∧
        right.2 ≤ reader.maxTotalTerms ∧ LayersAgree numconst nterms db left right.1 := by
  unfold readLayer readLayerLfc1 readDimensions
  refine Agree.needBytes ?_
  rw [bind_assoc]
  refine agree_num.bind fun lw logw sameLw => ?_
  obtain ⟨rfl, _⟩ := sameLw
  rw [bind_assoc]
  refine Agree.demandLeft fun _ => Agree.demandRight fun _ => ?_
  rw [bind_assoc]
  refine agree_num.bind fun nw nw' sameNw => ?_
  obtain ⟨rfl, _⟩ := sameNw
  rw [bind_assoc]
  refine Agree.demandLeft fun _ => Agree.demandRight fun _ => ?_
  rw [pure_bind]
  refine agree_num.bind fun nq nterms sameNq => ?_
  obtain ⟨rfl, few⟩ := sameNq
  refine Agree.demandLeft fun _ => Agree.demandRight fun _ => ?_
  refine Agree.liftRight fun total added => ?_
  obtain ⟨rfl, within⟩ := addTerms_eq_ok added budget
  refine Agree.liftLeft fun _ _ => Agree.needBytes (Agree.liftLeft fun _ _ => ?_)
  have empty := ApproximateDeltaTableBuilder.sound_new 65521 (by decide)
  have start : (ApproximateDeltaTableBuilder.new 65521).deltas.length + nterms ≤ 2 ^ 32 := by
    rw [ApproximateDeltaTableBuilder.new, List.length_nil]
    omega
  refine (agree_records (agree_quads sound empty (by omega) start)).bind
    fun left right agree => agree_pure ?_
  obtain ⟨segment, deltas, whole, selects, selects', coefficients⟩ := agree.deltas
  refine ⟨nterms, rfl, within, agree.sound, agree.grown, agree.size, rfl, rfl, right.1.deltas,
    segment, deltas, ?_, selects, selects', coefficients⟩
  rw [whole, List.nil_append]

/-- **The layers**: one table of one reader, and many of the other. -/
theorem agree_layers {nl : ℕ} :
    Agree (readLayers numconst nl maxG db)
      (Longfellow.readLayers (readLayerLfc1 reader numconst) nl totalTerms)
      fun left right => db.deltas <+: left.2.deltas ∧ left.1.length = nl ∧
        List.Forall₂ (LayerRead.Matches numconst left.2.deltas) left.1 right := by
  induction nl generalizing maxG db totalTerms with
  | zero => exact agree_pure ⟨List.prefix_rfl, rfl, .nil⟩
  | succ nl ih =>
    unfold readLayers Longfellow.readLayers
    refine (agree_layer budget sound fits).bind fun left right agree => ?_
    obtain ⟨nterms, total, _, layers⟩ := agree
    have fits' : left.2.deltas.length ≤ right.2 := by
      have size := layers.size
      omega
    refine (ih layers.sound fits').bind fun lefts rights later => agree_pure ?_
    obtain ⟨grown, count, others⟩ := later
    exact ⟨layers.grown.trans grown, congrArg (· + 1) count,
      .cons (layers.isSame.mono grown) others⟩

end

theorem LayerRead.Matches.sameAs {constants : List E} {deltaTable : List TermDelta}
    {left : LayerRead} (isSame : left.Matches constants.length deltaTable right) :
    (left.toLayer constants deltaTable).SameAs constants right := by
  obtain ⟨table, segment, deltas, whole, selects, selects', coefficients⟩ := isSame.deltas
  obtain ⟨terms, summed, _⟩ := accumulate_returns (ε := String) Wires.zero coefficients
  have looked : (left.vc.mapM fun di => getAt deltaTable di.toNat : Exec String _) = .ok deltas :=
    mapM_of_forall₂ (selects.imp fun _ _ found => getAt_eq_ok.mpr found)
  refine ⟨isSame.nw, isSame.logw, terms, ?_, ?_⟩
  · rw [LayerRead.toLayer, Quad.corners, looked, ok_bind, summed]
  · rw [whole, terms_newUncompressed _ _ selects' summed]

/-! ### Circuits -/

/-- What the two readers make of a header. -/
structure HeadersAgree (c : Circuit E) (header : Header) : Prop where
  outputs : 0 < c.nv
  nv : header.nv = c.nv
  logv : header.logv = c.logv
  isLog : c.logv = lgLoop c.nv
  nc : c.nc = 1
  logc : c.logc = 0
  npubIn : header.npubIn = c.npubIn
  subfieldBoundary : header.subfieldBoundary = c.subfieldBoundary
  ninputs : header.ninputs = c.ninputs
  nl : header.nl = c.nl

variable {f : Field E}

theorem agree_constant (same : SameField f reader.f) :
    Agree (readConstant f) (Longfellow.readConstant reader.f) (fun k k' => k' = k) := by
  unfold readConstant Longfellow.readConstant
  rw [← same.kBytes]
  refine agree_next.bind fun bytes bytes' taken => ?_
  obtain ⟨rfl, size⟩ := taken
  rw [same.ofBytes _ size]
  cases reader.f.bytesToElement bytes' with
  | error e =>
    intro _ _ _ _ _ ran _
    cases ran
  | ok k =>
    intro bytes a b rest rest' ran ran'
    obtain ⟨rfl, rfl⟩ := reader_pure_eq_ok.mp ran'
    obtain ⟨found, rfl⟩ := reader_lift_eq_ok.mp ran
    exact ⟨Except.ok.inj found, rfl⟩

/-- **The header and the coefficients**, in front of anything. -/
theorem agree_header (same : SameField f reader.f) {α β : Type}
    {following : Circuit E × List E → Reader Unit α}
    {following' : Header → ℕ → List E → Reader String β} {rel : α → β → Prop}
    (tail : ∀ c constants header, HeadersAgree c header →
      Agree (following (c, constants)) (following' header constants.length constants) rel) :
    Agree (readHeader f reader.fieldId >>= following) (do
      let verBuf ← takeBytes 1 "Empty or incomplete stream buffer"
      demand (leValue verBuf = 1)
        s!"Unsupported LFC1 header: expected 1, got {leValue verBuf}"
      let header ← Longfellow.readHeader readNumStream
      let numconst ← readNumConst readNumStream
      checkFieldId reader header.fid
      let constants ← readMany (Longfellow.readConstant reader.f) numconst
      following' header numconst constants) rel := by
  unfold readHeader Longfellow.readHeader readNumConst checkFieldId readFieldId readSize
  simp only [bind_assoc, pure_bind]
  refine Agree.needBytes ?_
  refine agree_next.bind fun version verBuf _ => ?_
  refine Agree.demandLeft fun _ => Agree.demandRight fun _ => ?_
  refine agree_num.bind fun fid fid' sameFid => ?_
  refine agree_num.bind fun nv nv' sameNv => Agree.demandRight fun _ => ?_
  refine Agree.liftRight fun logv' isLog' => Agree.demandRight fun _ => ?_
  refine agree_num.bind fun nc nc' sameNc => Agree.demandRight fun oneCopy => ?_
  refine agree_num.bind fun npubIn npubIn' sameNpubIn => Agree.demandRight fun _ => ?_
  refine agree_num.bind fun boundary boundary' sameBoundary => Agree.demandRight fun _ => ?_
  refine agree_num.bind fun ninputs ninputs' sameNinputs => Agree.demandRight fun _ => ?_
  refine agree_num.bind fun nl nl' sameNl => Agree.demandRight fun _ => ?_
  refine agree_num.bind fun numconst numconst' sameNumconst => Agree.demandRight fun _ => ?_
  refine Agree.demandRight fun _ => Agree.demandLeft fun sane => ?_
  refine Agree.liftLeft fun need _ => Agree.needBytes ?_
  obtain ⟨rfl, _⟩ := sameNumconst
  refine (agree_many (agree_constant same) _).bind fun constants constants' both => ?_
  obtain ⟨rfl, sameConstants⟩ := both
  refine Agree.liftLeft fun logv isLog => Agree.liftLeft fun logc isLogc => ?_
  obtain rfl : constants' = constants := by
    rw [List.forall₂_iff_get] at sameConstants
    exact List.ext_get sameConstants.1.symm fun i right left => sameConstants.2 i left right
  obtain ⟨⟨rfl, _⟩, ⟨rfl, _⟩, ⟨rfl, _⟩⟩ := And.intro sameNv (And.intro sameNc sameNpubIn)
  obtain ⟨⟨rfl, _⟩, ⟨rfl, _⟩, ⟨rfl, _⟩⟩ := And.intro sameBoundary (And.intro sameNinputs sameNl)
  have outputs : 0 < nv' := Nat.pos_of_ne_zero fun zero => sane (.inl zero)
  obtain rfl := oneCopy
  rw [lg_of_pos outputs] at isLog
  rw [lg_of_pos Nat.one_pos, show lgLoop 1 = 0 from rfl] at isLogc
  rw [ceilLog2_of_pos outputs] at isLog'
  obtain ⟨rfl, rfl, rfl⟩ := And.intro (Except.ok.inj isLog) (And.intro (Except.ok.inj isLogc)
    (Except.ok.inj isLog'))
  exact tail _ _ _ ⟨outputs, rfl, rfl, rfl, rfl, rfl, rfl, rfl, rfl, rfl⟩

theorem agree_id :
    Agree (nextInto n) (takeVector n error) fun id id' => id' = id := by
  have plain : ∀ bytes id rest, (nextInto n).run bytes = .ok (id, rest) →
      (takeVector n ()).run bytes = .ok (id, rest) := by
    intro bytes id rest ran
    change (if enough : n ≤ bytes.length then _ else _) = _ at ran
    split at ran
    · rename_i enough
      exact (dif_pos enough).trans ran
    · cases ran
  intro bytes id id' rest rest' ran ran'
  have left := takeVector_eq_ok.mp (plain bytes id rest ran)
  have right := takeVector_eq_ok.mp ran'
  obtain ⟨sameId, sameRest⟩ := List.append_inj (right.symm.trans left) (by simp)
  exact ⟨Vector.toList_inj.mp sameId, sameRest⟩

variable {sha256 : Bytes → Vector UInt8 32}

/-- **A circuit that both readers accept.** -/
theorem agree_circuit (same : SameField f reader.f) (budget : reader.maxTotalTerms ≤ 2 ^ 32)
    (enforce enforce' : Bool) :
    Agree (fromBytes sha256 f reader.fieldId enforce) (fromBytesLfc1 sha256 reader enforce')
      fun c circuit => c.OneCopy ∧ c.SameAs circuit.raw ∧ circuit.raw.logv = c.logv ∧
        circuit.id = c.id := by
  unfold fromBytes fromBytesLfc1 fromStreamLfc1Inner
  refine agree_header same fun c constants header isSame => ?_
  have empty := ApproximateDeltaTableBuilder.sound_new 8209 (by decide)
  rw [isSame.nl]
  refine (agree_layers budget empty (Nat.zero_le 0)).bind fun (layers, db) layers' agree => ?_
  obtain ⟨_, count, each⟩ := agree
  refine Agree.needBytes ?_
  unfold finishCircuit
  refine agree_id.bind fun id id' sameId => Agree.liftRight fun _ _ => ?_
  obtain rfl := sameId
  -- The identifiers may be compared, which changes nothing.
  have final : ∀ circuit : Circuit E, circuit = { c with
      l := layers.map (LayerRead.toLayer constants db.deltas), id := id' } →
      circuit.OneCopy ∧ circuit.SameAs (header.toRaw constants layers') ∧
        (header.toRaw constants layers').logv = circuit.logv ∧ id' = circuit.id := by
    rintro circuit rfl
    refine ⟨⟨isSame.outputs, isSame.isLog, isSame.nc, isSame.logc, ?_⟩,
      ⟨isSame.nv, isSame.npubIn, isSame.subfieldBoundary, isSame.ninputs, ?_⟩, isSame.logv, rfl⟩
    · rw [List.length_map, count]
    · exact List.forall₂_map_left_iff.mpr (each.imp fun _ _ same => same.sameAs)
  cases enforce <;> cases enforce'
  · exact agree_pure (final _ rfl)
  · exact Agree.liftRight fun _ _ => Agree.demandRight fun _ => agree_pure (final _ rfl)
  · exact Agree.liftLeft fun _ _ => Agree.demandLeft fun _ => agree_pure (final _ rfl)
  · exact Agree.liftLeft fun _ _ => Agree.demandLeft fun _ =>
      Agree.liftRight fun _ _ => Agree.demandRight fun _ => agree_pure (final _ rfl)

end Longfellow.Cpp
