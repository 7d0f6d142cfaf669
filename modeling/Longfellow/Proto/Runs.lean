/-
**Runs of field elements.** Both proof formats compress their opened columns by alternating runs
of full-field and subfield elements, written by the same loop (`LigeroProof::write_to_buf` in
`runtime/proto/src/ligero.rs`, `write_rows` in `runtime/proto/src/polygero.rs`).

* `writeEltRuns_returns`, `length_writeEltRuns` — when the writer returns, and how much it writes;
* `reads_eltRuns`, `canonical_eltRuns` — the round trip and its converse, for each format's own
  guard on a run's length and its own reader of a run's elements.
-/

import Longfellow.Lib.RunLength
import Longfellow.Proto.Util

namespace Longfellow

open Lib

variable {E : Type}

section Writer

variable (f : SerializableField E) (sf : Subfield E)

/-- The bytes of an element in a run of its class: compact in the subfield, full outside. -/
def writeRunElt (subfieldRun : Bool) (x : E) : Exec IoError Bytes :=
  if subfieldRun then writeSubfieldElt sf x else pure (writeEltField f x)

/-- The alternating runs of a list of elements by subfield membership, full-field run first. -/
def writeEltRuns (elts : List E) : Exec IoError Bytes :=
  writeRuns sf.contains writeSize4bytes (writeRunElt f sf) (elts.length + 1) false elts

/-- The encoding of an element in a run of the given class. -/
def runElt (subfieldRun : Bool) (x : E) : Bytes :=
  if subfieldRun then sf.toBytes x else f.toBytes x

/-- Every contiguous block of elements of one class is shorter than the limit. -/
def RunsBelow (limit : Nat) (elts : List E) : Prop :=
  ∀ (flag : Bool) (run : List E), run <:+: elts → (∀ a ∈ run, sf.contains a = flag) →
    run.length < limit

end Writer

variable {f : SerializableField E} {sf : Subfield E} {elts : List E} {bytes : Bytes}

theorem mapM_writeRunElt {flag : Bool} {run : List E} (uniform : ∀ a ∈ run, sf.contains a = flag) :
    run.mapM (writeRunElt f sf flag) = .ok (run.map (runElt f sf flag)) := by
  refine mapM_eq_ok_map fun x member => ?_
  cases flag with
  | false => rfl
  | true => exact writeSubfieldElt_eq_ok.mpr ⟨uniform x member, rfl⟩

theorem writeEltRuns_returns (short : RunsBelow sf (2 ^ 32) elts) :
    ∃ bytes, writeEltRuns f sf elts = .ok bytes := by
  refine writeRuns_returns true (le_refl _) (by simp) fun {flag run} inside uniform => ?_
  exact ⟨_, _, writeSize4bytes_eq_ok.mpr ⟨short flag run inside uniform, rfl⟩,
    mapM_writeRunElt uniform⟩

theorem length_flatMap_runElt (narrow : sf.serializedSizeBytes ≤ f.serializedSizeBytes)
    (flag : Bool) (run : List E) :
    run.length * sf.serializedSizeBytes ≤ (run.flatMap (runElt f sf flag)).length := by
  induction run with
  | nil => simp
  | cons x run ih =>
    have head : sf.serializedSizeBytes ≤ (runElt f sf flag x).length := by
      cases flag with
      | false => exact narrow.trans (f.length_toBytes x).ge
      | true => exact (sf.length_toBytes x).ge
    rw [List.flatMap_cons, List.length_append, List.length_cons, Nat.add_mul, Nat.one_mul]
    omega

theorem length_writeEltRuns
    (narrow : sf.serializedSizeBytes ≤ f.serializedSizeBytes) (some : elts ≠ [])
    (written : writeEltRuns f sf elts = .ok bytes) :
    elts.length * sf.serializedSizeBytes + 4 ≤ bytes.length := by
  have bound := length_writeRuns sf.serializedSizeBytes 4 ?_ ?_ written
  · rwa [if_neg some] at bound
  · intro n w lengthWritten
    rw [(writeSize4bytes_eq_ok.mp lengthWritten).2, length_leBytes]
  · intro flag run ws uniform bodyWritten
    rw [mapM_writeRunElt uniform] at bodyWritten
    obtain rfl := Except.ok.inj bodyWritten
    exact length_flatMap_runElt narrow flag run

section Runs

variable {allow : Bool → Nat → Nat → Exec IoError Unit}
  {readBody : Bool → Nat → Reader IoError (List E)}

theorem reads_eltRuns
    (admits : ∀ {flag first run rest}, run ++ rest <:+ elts → (∀ a ∈ run, sf.contains a = flag) →
      (run = [] → first = true) → allow first (run ++ rest).length run.length = .ok ())
    (bodies : ∀ {flag run}, (∀ a ∈ run, sf.contains a = flag) →
      Reads (readBody flag run.length) (run.flatMap (runElt f sf flag)) run)
    (written : writeEltRuns f sf elts = .ok bytes) :
    Reads (readRuns readSize4bytes allow readBody (elts.length + 1) false true elts.length)
      bytes elts := by
  refine reads_runs (le_refl _) (by simp) ?_ ?_ written
  · intro flag first run rest w inside uniform emptyFirst lengthWritten
    obtain ⟨fits, rfl⟩ := writeSize4bytes_eq_ok.mp lengthWritten
    exact ⟨reads_size4bytes fits, admits inside uniform emptyFirst⟩
  · intro flag run ws uniform bodyWritten
    rw [mapM_writeRunElt uniform] at bodyWritten
    obtain rfl := Except.ok.inj bodyWritten
    exact bodies uniform

theorem canonical_eltRuns {rest : Bytes} {count : Nat}
    (guards : ∀ {first remaining n}, allow first remaining n = .ok () →
      n ≤ remaining ∧ (n = 0 → first = true)) (bodies : ∀ flag n, Canonical (readBody flag n)
      (fun run => run.length = n ∧ ∀ a ∈ run, sf.contains a = flag)
      (fun run => run.flatMap (runElt f sf flag)))
    (ran : (readRuns readSize4bytes allow readBody (count + 1) false true count).run bytes =
      .ok (elts, rest)) :
    elts.length = count ∧ ∃ w, writeEltRuns f sf elts = .ok w ∧ bytes = w ++ rest := by
  obtain ⟨size, _, rewrites⟩ : elts.length = count ∧ (true = false → _) ∧
      ∀ bound, elts.length + Bool.toNat true ≤ bound → ∃ w, writeRuns sf.contains
        writeSize4bytes (writeRunElt f sf) bound false elts = .ok w ∧ bytes = w ++ rest := by
    refine canonical_runs ?_ guards ?_ ran
    · intro bytes n rest ran
      obtain ⟨fits, whole⟩ := canonical_size4bytes ran
      exact ⟨_, writeSize4bytes_eq_ok.mpr ⟨fits, rfl⟩, whole⟩
    · intro flag n bytes run rest ran
      obtain ⟨⟨size, uniform⟩, whole⟩ := bodies flag n ran
      exact ⟨size, uniform, _, mapM_writeRunElt uniform, whole⟩
  exact ⟨size, rewrites (elts.length + 1) (le_refl _)⟩

end Runs

end Longfellow
