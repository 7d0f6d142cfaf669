/-
**Loops that draw until a draw is accepted.**

Such a loop has no bound of its own: on a source that never offers an acceptable draw it runs
forever. `drawUntil` runs it for a number of rounds and raises `running` when these are used up, so
that a loop that is still running is neither a result nor a panic.

* `Accepted.reached` — **enough rounds give what is accepted**.
-/

import Longfellow.Lib.Exec

set_option linter.unusedSectionVars false

namespace Lib

/-- A loop has not ended in the rounds it was given. -/
inductive Running where
  | running
  deriving DecidableEq, Repr

variable {α σ : Type} (accept : α → Prop) [DecidablePred accept]

/-- Draw until a draw is accepted, in a number of rounds. -/
def drawUntil (draw : σ → Exec Running (α × σ)) : Nat → σ → Exec Running (α × σ)
  | 0, _ => raise .running
  | rounds + 1, s => do
    let (a, s) ← draw s
    if accept a then pure (a, s) else drawUntil draw rounds s

/-- The first draw that is accepted, and the state after it. -/
inductive Accepted (draw : σ → α × σ) : σ → α → σ → Prop where
  | now {s : σ} : accept (draw s).1 → Accepted draw s (draw s).1 (draw s).2
  | later {s t : σ} {a : α} : ¬ accept (draw s).1 → Accepted draw (draw s).2 a t →
      Accepted draw s a t

/-- The draw after `skipped` others. -/
def drawAfter (draw : σ → α × σ) : Nat → σ → α
  | 0, s => (draw s).1
  | skipped + 1, s => drawAfter draw skipped (draw s).2

variable {accept} {draw : σ → Exec Running (α × σ)} {pureDraw : σ → α × σ} {s t : σ} {a : α}

theorem Accepted.holds (accepted : Accepted accept pureDraw s a t) : accept a := by
  induction accepted with
  | now holds => exact holds
  | later _ _ ih => exact ih

section Rounds

variable (runs : ∀ s, draw s = .ok (pureDraw s))
include runs

theorem drawUntil_succ (rounds : Nat) (s : σ) : drawUntil accept draw (rounds + 1) s =
    if accept (pureDraw s).1 then .ok (pureDraw s)
    else drawUntil accept draw rounds (pureDraw s).2 := by
  rw [drawUntil, runs, ok_bind]
  rfl

variable (accept) in
theorem drawUntil_cases (rounds : Nat) (s : σ) :
    (∃ a t, drawUntil accept draw rounds s = .ok (a, t) ∧ Accepted accept pureDraw s a t) ∨
      drawUntil accept draw rounds s = .error (.err .running) := by
  induction rounds generalizing s with
  | zero => exact .inr rfl
  | succ rounds ih =>
    rw [drawUntil_succ runs]
    by_cases holds : accept (pureDraw s).1
    · rw [if_pos holds]
      exact .inl ⟨_, _, rfl, .now holds⟩
    · rw [if_neg holds]
      obtain ⟨a, t, ran, accepted⟩ | still := ih (pureDraw s).2
      · exact .inl ⟨a, t, ran, .later holds accepted⟩
      · exact .inr still

/-- **Enough rounds give what is accepted.** -/
theorem Accepted.reached (accepted : Accepted accept pureDraw s a t) :
    ∃ enough, ∀ rounds ≥ enough, drawUntil accept draw rounds s = .ok (a, t) := by
  induction accepted with
  | now holds =>
    refine ⟨1, fun rounds enough => ?_⟩
    obtain ⟨rounds, rfl⟩ := Nat.exists_eq_add_of_le' enough
    rw [drawUntil_succ runs, if_pos holds]
  | later fails _ ih =>
    obtain ⟨enough, ran⟩ := ih
    refine ⟨enough + 1, fun rounds more => ?_⟩
    obtain ⟨rounds, rfl⟩ := Nat.exists_eq_add_of_le' (show 1 ≤ rounds by omega)
    rw [drawUntil_succ runs, if_neg fails]
    exact ran rounds (by omega)

end Rounds

variable (accept) in
theorem exists_accepted :
    (∃ a t, Accepted accept pureDraw s a t) ↔ ∃ skipped, accept (drawAfter pureDraw skipped s) := by
  constructor
  · rintro ⟨a, t, accepted⟩
    induction accepted with
    | now holds => exact ⟨0, holds⟩
    | later _ _ ih =>
      obtain ⟨skipped, holds⟩ := ih
      exact ⟨skipped + 1, holds⟩
  · rintro ⟨skipped, holds⟩
    induction skipped generalizing s with
    | zero => exact ⟨_, _, .now holds⟩
    | succ skipped ih =>
      by_cases here : accept (pureDraw s).1
      · exact ⟨_, _, .now here⟩
      · obtain ⟨a, t, accepted⟩ := ih holds
        exact ⟨a, t, .later here accepted⟩

end Lib
