/-
**Readers that find the end of their own codes.**

A reader is self-delimiting when whatever it accepts begins with a code that it accepts in the same
way in front of any other bytes. Such codes can be put one after the other without lengths. The
property composes along the reader's shape, as `Reads` does:

* `SelfDelimiting.reads_whole` — **a code that was accepted alone is read back in front of
  anything**.
-/

import Longfellow.Lib.RoundTrip

namespace Lib

variable {ε α β σ : Type}

/-- What the reader accepts starts with a code, and it reads the code off any other bytes too. -/
def SelfDelimiting (reader : Reader ε α) : Prop :=
  ∀ bytes a rest, reader.run bytes = .ok (a, rest) →
    ∃ code, bytes = code ++ rest ∧ Reads reader code a

variable {reader : Reader ε α}

theorem SelfDelimiting.reads_whole (delimits : SelfDelimiting reader) {code : Bytes} {a : α}
    (accepted : reader.run code = .ok (a, [])) : Reads reader code a := by
  obtain ⟨code', split, read⟩ := delimits _ _ _ accepted
  rw [List.append_nil] at split
  exact split ▸ read

/-! ### Sequences -/

theorem selfDelimiting_pure (a : α) : SelfDelimiting (pure a : Reader ε α) := by
  intro bytes b rest ran
  obtain ⟨rfl, rfl⟩ := reader_pure_eq_ok.mp ran
  exact ⟨[], rfl, Reads.pure a⟩

theorem selfDelimiting_lift (x : Exec ε α) : SelfDelimiting (liftM x : Reader ε α) := by
  intro bytes a rest ran
  obtain ⟨holds, rfl⟩ := reader_lift_eq_ok.mp ran
  exact ⟨[], rfl, Reads.lift holds⟩

theorem selfDelimiting_demand (cond : Prop) [Decidable cond] (error : ε) :
    SelfDelimiting (demand cond error) := selfDelimiting_lift _

theorem SelfDelimiting.bind {next : α → Reader ε β} (head : SelfDelimiting reader)
    (tail : ∀ a, SelfDelimiting (next a)) :
    SelfDelimiting (reader >>= next) := by
  intro bytes b rest ran
  obtain ⟨a, middle, first, second⟩ := reader_bind_eq_ok.mp ran
  obtain ⟨front, rfl, readFront⟩ := head _ _ _ first
  obtain ⟨back, rfl, readBack⟩ := tail a _ _ _ second
  exact ⟨front ++ back, (List.append_assoc ..).symm, readFront.bind readBack⟩

/-! ### Bytes -/

theorem selfDelimiting_takeBytes (count : Nat) (eof : ε) :
    SelfDelimiting (takeBytes count eof) := by
  intro bytes chunk rest ran
  obtain ⟨size, rfl⟩ := takeBytes_eq_ok.mp ran
  exact ⟨chunk, rfl, reads_takeBytes size⟩

theorem selfDelimiting_takeVector (count : Nat) (eof : ε) :
    SelfDelimiting (takeVector count eof) := by
  intro bytes data rest ran
  obtain rfl := takeVector_eq_ok.mp ran
  exact ⟨data.toList, rfl, reads_takeVector data⟩

/-! ### Loops -/

theorem selfDelimiting_many (each : SelfDelimiting reader) (count : Nat) :
    SelfDelimiting (readMany reader count) := by
  induction count with
  | zero => exact selfDelimiting_pure []
  | succ count ih => exact each.bind fun a => ih.bind fun as => selfDelimiting_pure (a :: as)

theorem selfDelimiting_records (width batch : Nat) (eof : ε) (step : σ → Bytes → Exec ε σ)
    (remaining : Nat) (s : σ) :
    SelfDelimiting (readRecords width batch eof step remaining s) := by
  -- Strong induction on the records left: a turn of the loop takes one batch off the front.
  induction remaining using Nat.strong_induction_on generalizing s with
  | _ remaining ih =>
    unfold readRecords
    by_cases done : remaining = 0
    · rw [if_pos done]
      exact selfDelimiting_pure s
    rw [if_neg done]
    refine (selfDelimiting_takeBytes _ _).bind fun buffer => ?_
    refine (selfDelimiting_lift _).bind fun next => ?_
    apply ih
    omega

end Lib
