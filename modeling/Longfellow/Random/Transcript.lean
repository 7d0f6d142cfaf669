/-
**Transcripts and random engines** (`runtime/random/src/lib.rs`,
`runtime/random/src/transcript.rs`).

Prover and verifier write messages to a transcript and sample challenges from it. The protocols use
it through the operations below only, and what is proved about them holds for all of them: every
way to turn the messages written so far into challenges is an instance. So is every tape of the
random engine of a prover.
-/

import Longfellow.Lib.Codec

namespace Longfellow

open Lib

/-- The operations of a transcript with states `σ` over elements `E`. -/
structure Transcript (σ E : Type) where
  writeBytes : Bytes → σ → σ
  writeEltField : E → σ → σ
  writeEltFieldSlice : List E → σ → σ
  eltField : σ → E × σ

variable {σ E : Type}

/-- Sample a list of elements. -/
def Transcript.eltFieldSlice (ts : Transcript σ E) : Nat → σ → List E × σ
  | 0, t => ([], t)
  | len + 1, t =>
    let (e, t) := ts.eltField t
    let (es, t) := ts.eltFieldSlice len t
    (e :: es, t)

theorem Transcript.length_eltFieldSlice (ts : Transcript σ E) (len : Nat) (t : σ) :
    (ts.eltFieldSlice len t).1.length = len := by
  induction len generalizing t with
  | zero => rfl
  | succ len ih => simp [eltFieldSlice, ih]

/-- The bytes of a label. -/
def ascii (label : String) : Bytes := label.toUTF8.toList

/-- The operations of a random engine with states `ρ` over elements `E`. -/
structure RandomEngine (ρ E : Type) where
  bytes : Nat → ρ → Bytes × ρ
  eltField : ρ → E × ρ
  eltSubfield : ρ → E × ρ

variable {ρ : Type}

/-- Draw a list of elements. -/
def drawMany (draw : ρ → E × ρ) : Nat → ρ → List E × ρ
  | 0, r => ([], r)
  | len + 1, r =>
    let (e, r) := draw r
    let (es, r) := drawMany draw len r
    (e :: es, r)

/-- Draw a list of field elements. -/
def RandomEngine.eltFieldSlice (rng : RandomEngine ρ E) : Nat → ρ → List E × ρ :=
  drawMany rng.eltField

/-- Draw a list of subfield elements. -/
def RandomEngine.eltSubfieldSlice (rng : RandomEngine ρ E) : Nat → ρ → List E × ρ :=
  drawMany rng.eltSubfield

@[simp] theorem length_drawMany (draw : ρ → E × ρ) (len : Nat) (r : ρ) :
    (drawMany draw len r).1.length = len := by
  induction len generalizing r with
  | zero => rfl
  | succ len ih => simp [drawMany, ih]

@[simp] theorem length_eltFieldSlice (rng : RandomEngine ρ E) (len : Nat) (r : ρ) :
    (rng.eltFieldSlice len r).1.length = len := length_drawMany _ _ _

@[simp] theorem length_eltSubfieldSlice (rng : RandomEngine ρ E) (len : Nat) (r : ρ) :
    (rng.eltSubfieldSlice len r).1.length = len := length_drawMany _ _ _

end Longfellow
