/-
**Circuits of the other implementation** (`lib/sumcheck/circuit.h`, `quad.h`, `circuit_id.h`).

A layer holds indices into a table of deltas, and an iterator sums the deltas up to corners. The
table and the coefficients may be shared between layers.

* `circuitId_eq` — **the two identifiers of a circuit are one**.
-/

import Longfellow.Circuit.Basic
import Mathlib.Data.Fin.Basic

namespace Longfellow.Cpp

open Lib

variable {ε E : Type}

/-- What the reader, the writer and the identifier ask of a field. -/
structure Field (E : Type) where
  kBytes : ℕ
  kCharacteristicTwo : Bool
  kBits : ℕ
  mone : E
  ofBytesField : Bytes → Option E
  toBytesField : E → Bytes

/-- Two implementations of one field. -/
structure SameField (f : Field E) (g : SerializableField E) : Prop where
  kBytes : f.kBytes = g.serializedSizeBytes
  ofBytes : ∀ bytes, bytes.length = f.kBytes →
    f.ofBytesField bytes = (g.bytesToElement bytes).toOption
  toBytes : f.toBytesField = g.toBytes
  isBinary : f.kCharacteristicTwo = g.isBinary
  kBits : g.isBinary = true → f.kBits = g.serializedSizeBytes * 8
  mone : g.isBinary = false → f.toBytesField f.mone = g.serializedMone

/-- A prime field whose elements are numbers below the modulus. -/
def primeField (p size : ℕ) [NeZero p] : Field (Fin p) where
  kBytes := size
  kCharacteristicTwo := false
  kBits := size * 8
  mone := -1
  ofBytesField bytes := if below : leValue bytes < p then some ⟨leValue bytes, below⟩ else none
  toBytesField e := leBytes size e.val

theorem sameField_primeField {p size : ℕ} [NeZero p] :
    SameField (primeField p size) (Longfellow.primeField p size) := by
  refine ⟨rfl, fun bytes sized => ?_, rfl, rfl, Bool.noConfusion, fun _ => ?_⟩
  · have sized' : ¬ bytes.length ≠ size := not_not.mpr sized
    unfold primeField Longfellow.primeField
    dsimp only
    rw [if_neg sized']
    by_cases below : leValue bytes < p
    · rw [dif_pos below, dif_pos below]
      rfl
    · rw [dif_neg below, dif_neg below]
      rfl
  · obtain ⟨n, rfl⟩ := Nat.exists_eq_succ_of_ne_zero (NeZero.ne p)
    show leBytes size (-1 : Fin (n + 1)).val = leBytes size n
    rw [Fin.coe_neg_one]

/-- The gates of a layer: an index into the table of deltas for each. -/
structure Quad (E : Type) where
  vc : List UInt32
  deltaTable : List TermDelta
  kvec : List E
  deriving DecidableEq

def Quad.size (quad : Quad E) : ℕ := quad.vc.length

/-- The corners that an iterator visits, each one the sum of the deltas up to it. -/
def Quad.corners (quad : Quad E) : Exec ε (List (Term E)) := do
  let deltas ← quad.vc.mapM fun di => getAt quad.deltaTable di.toNat
  accumulate quad.kvec Wires.zero deltas

structure Layer (E : Type) where
  nw : ℕ
  logw : ℕ
  quad : Quad E
  deriving DecidableEq

structure Circuit (E : Type) where
  nv : ℕ
  logv : ℕ
  nc : ℕ
  logc : ℕ
  nl : ℕ
  ninputs : ℕ
  npubIn : ℕ
  subfieldBoundary : ℕ
  l : List (Layer E)
  id : Vector UInt8 32
  deriving DecidableEq

/-! ### The logarithm -/

/-- The rounds of halving until one is left, no more than `fuel`. -/
def lgRounds : ℕ → ℕ → ℕ
  | 0, _ => 0
  | fuel + 1, n => if 1 < n then lgRounds fuel (n / 2 + n % 2) + 1 else 0

/-- The rounds of halving until one is left. -/
def lgLoop (n : ℕ) : ℕ := lgRounds n n

/-- The ceiling of the base-2 logarithm. -/
def lg (n : ℕ) : Exec ε ℕ := do
  ensure (0 < n) "n > 0"
  pure (lgLoop n)

theorem lgRounds_eq {fuel n : ℕ} (enough : n + 2 ≤ fuel) :
    lgRounds fuel (n + 2) = (n + 1).log2 + 1 := by
  induction fuel generalizing n with
  | zero => exact absurd enough (by omega)
  | succ fuel ih =>
    rw [lgRounds, if_pos (by omega)]
    match n with
    | 0 => cases fuel <;> rfl
    | n + 1 =>
      have halved : (n + 1 + 2) / 2 + (n + 1 + 2) % 2 = n / 2 + 2 := by omega
      rw [halved, ih (by omega), Nat.log2_def (n + 1 + 1), if_pos (by omega),
        show (n + 1 + 1) / 2 = n / 2 + 1 by omega]

theorem lg_of_pos {n : ℕ} (positive : 0 < n) : (lg n : Exec ε ℕ) = .ok (lgLoop n) := by
  rw [lg, ensure_of positive, ok_bind, pure_eq_ok]

/-- **The two logarithms are one.** -/
theorem ceilLog2_of_pos {n : ℕ} (positive : 0 < n) :
    (ceilLog2 n : Exec ε ℕ) = .ok (lgLoop n) := by
  match n with
  | 1 => rfl
  | n + 2 =>
    rw [lgLoop, lgRounds_eq le_rfl]
    rfl

/-! ### The identifier -/

section

variable (sha256 : Bytes → Vector UInt8 32) (f : Field E)

def cornerBytes (ec : Term E) : Bytes :=
  update8 ec.g.toNat ++ update8 ec.h0.toNat ++ update8 ec.h1.toNat ++ f.toBytesField ec.k

def layerBytes (layer : Layer E) : Exec ε Bytes := do
  let corners ← layer.quad.corners
  pure (update8 layer.nw ++ update8 layer.logw ++ update8 layer.quad.size ++
    corners.flatMap (cornerBytes f))

def headerBytes (c : Circuit E) : Bytes :=
  (if f.kCharacteristicTwo then update8 2 ++ update8 f.kBits
    else update8 1 ++ f.toBytesField f.mone) ++
  update8 c.nv ++ update8 c.logv ++ update8 c.nc ++ update8 c.logc ++ update8 c.nl ++
  update8 c.ninputs ++ update8 c.npubIn ++ update8 c.subfieldBoundary

/-- The identifier of a circuit: the hash of its header and of its corners. -/
def circuitId (c : Circuit E) : Exec ε (Vector UInt8 32) := do
  let layers ← c.l.mapM (layerBytes f)
  pure (sha256 (headerBytes f c ++ layers.flatten))

end

/-! ### The same circuit in both implementations -/

/-- Two layers with the same dimensions and the same terms. -/
structure Layer.SameAs (constants : List E) (layer : Layer E) (layer' : Longfellow.Layer) : Prop where
  nw : layer'.nw = layer.nw
  logw : layer'.logw = layer.logw
  terms : ∃ terms : List (Term E), (layer.quad.corners : Exec String _) = .ok terms ∧
    (layer'.terms constants : Exec String _) = .ok terms

/-- Two circuits with the same counts and the same terms in every layer. -/
structure Circuit.SameAs (c : Circuit E) (raw : RawCircuit E) : Prop where
  noutput : raw.noutput = c.nv
  npublicInput : raw.npublicInput = c.npubIn
  subfieldBoundary : raw.subfieldBoundary = c.subfieldBoundary
  ninput : raw.ninput = c.ninputs
  layers : List.Forall₂ (Layer.SameAs raw.constants) c.l raw.layers

/-- What the compiler and the reader derive from the rest of a circuit with one copy. -/
structure Circuit.OneCopy (c : Circuit E) : Prop where
  nv : 0 < c.nv
  logv : c.logv = lgLoop c.nv
  nc : c.nc = 1
  logc : c.logc = 0
  nl : c.nl = c.l.length

theorem Quad.size_eq {quad : Quad E} {terms : List (Term E)}
    (ran : (quad.corners : Exec ε _) = .ok terms) : quad.size = terms.length := by
  obtain ⟨deltas, looked, summed⟩ := bind_eq_ok.mp ran
  rw [length_accumulate summed, Quad.size, (mapM_eq_ok looked).length_eq]

variable {f : Field E} {g : SerializableField E} (same : SameField f g)
include same

theorem layerBytes_eq {constants : List E} {layer : Layer E} {layer' : Longfellow.Layer}
    (sameLayer : layer.SameAs constants layer') :
    (layerBytes f layer : Exec String Bytes) = Longfellow.layerBytes g constants layer' := by
  obtain ⟨terms, left, right⟩ := sameLayer.terms
  have each : cornerBytes f = termBytes g := by
    funext ec
    rw [cornerBytes, termBytes, same.toBytes]
  rw [layerBytes, Longfellow.layerBytes, left, ok_bind, right,
    (Layer.numTerms_of_terms right).1, ok_bind, ok_bind, Quad.size_eq left, each, sameLayer.nw,
    sameLayer.logw]

/-- **The two identifiers of a circuit with one copy are one.** -/
theorem circuitId_eq {sha256 : Bytes → Vector UInt8 32} {c : Circuit E} {raw : RawCircuit E}
    (sameCircuit : c.SameAs raw) (one : c.OneCopy) (logv : raw.logv = c.logv) :
    (circuitId sha256 f c : Exec String _) = computeId sha256 g raw := by
  have header : headerBytes f c = Longfellow.headerBytes g raw := by
    unfold headerBytes Longfellow.headerBytes
    rw [sameCircuit.noutput, sameCircuit.ninput, sameCircuit.npublicInput,
      sameCircuit.subfieldBoundary, ← sameCircuit.layers.length_eq, one.nc, one.logc, one.nl, logv,
      same.isBinary]
    cases binary : g.isBinary with
    | true => rw [if_pos rfl, if_pos rfl, same.kBits binary]
    | false => rw [if_neg Bool.false_ne_true, if_neg Bool.false_ne_true, same.mone binary]
  have layers : (c.l.mapM (layerBytes f) : Exec String (List Bytes)) =
      raw.layers.mapM (Longfellow.layerBytes g raw.constants) := by
    have pairs := sameCircuit.layers
    generalize c.l = left at pairs
    generalize raw.layers = right at pairs
    induction pairs with
    | nil => rfl
    | cons head _ ih => rw [List.mapM_cons, List.mapM_cons, layerBytes_eq same head, ih]
  rw [circuitId, computeId, header, layers]

end Longfellow.Cpp
