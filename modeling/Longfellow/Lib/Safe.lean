/-
**Code that does not panic.**

`Safe x post` says that a call returns a value with the property `post` or an error, and never
panics; `SafeReader` says it of a reader on every byte string. Both are proved along the shape of the
code:

* `Safe.bind`, `SafeReader.bind` — **sequences**: what the first part guarantees is what the second
  may use.
-/

import Longfellow.Lib.RoundTrip

namespace Lib

variable {ε δ α β σ : Type}

/-- The call does not panic, and what it returns satisfies the postcondition. -/
def Safe (x : Exec ε α) (post : α → Prop) : Prop :=
  (∃ a, x = .ok a ∧ post a) ∨ ∃ error, x = raise error

variable {x : Exec ε α} {post : α → Prop} {a : α}

theorem Safe.of_ok (safe : Safe x post) (ran : x = .ok a) : post a := by
  rcases safe with ⟨a', ran', holds⟩ | ⟨error, failed⟩
  · obtain rfl : a' = a := Except.ok.inj (ran'.symm.trans ran)
    exact holds
  · exact absurd (failed.symm.trans ran) (raise_ne_ok _ _)

theorem safe_ok (ran : x = .ok a) (holds : post a) :
    Safe x post := .inl ⟨a, ran, holds⟩

theorem safe_pure (holds : post a) : Safe (pure a : Exec ε α) post :=
  safe_ok rfl holds

theorem safe_raise (error : ε) (post : α → Prop) : Safe (raise error : Exec ε α) post :=
  .inr ⟨error, rfl⟩

theorem safe_check (cond : Prop) [Decidable cond] (error : ε) :
    Safe (check cond error) fun _ => cond := by
  by_cases holds : cond
  · exact safe_ok (check_of holds) holds
  · exact .inr ⟨error, if_neg holds⟩

variable {xs : List α}

theorem safe_getAt {i : Nat} (bound : i < xs.length) :
    Safe (getAt xs i : Exec ε α) (· ∈ xs) := safe_ok (getAt_of_lt bound) (List.getElem_mem bound)

theorem safe_okOr (x : Option α) (error : ε) : Safe (okOr x error) fun a => x = some a := by
  cases x with
  | none => exact safe_raise _ _
  | some a => exact safe_pure rfl

theorem Safe.mapErr {x : Exec δ α} (safe : Safe x post) (handle : δ → ε) :
    Safe (mapErr (fun e => raise (handle e)) x) post := by
  rcases safe with ⟨a, rfl, holds⟩ | ⟨error, rfl⟩
  · exact safe_ok rfl holds
  · exact .inr ⟨handle error, rfl⟩

theorem Safe.mono {post' : α → Prop} (safe : Safe x post) (weaker : ∀ a, post a → post' a) :
    Safe x post' := by
  rcases safe with ⟨a, ran, holds⟩ | failed
  · exact .inl ⟨a, ran, weaker a holds⟩
  · exact .inr failed

theorem Safe.remember (safe : Safe x post) :
    Safe x fun a => x = .ok a ∧ post a := by
  rcases safe with ⟨a, ran, holds⟩ | failed
  · exact .inl ⟨a, ran, ran, holds⟩
  · exact .inr failed

variable {f : α → Exec ε β}

/-- **A sequence.** -/
theorem Safe.bind {first : α → Prop} {post : β → Prop} (safe : Safe x first)
    (next : ∀ a, first a → Safe (f a) post) : Safe (x >>= f) post := by
  rcases safe with ⟨a, rfl, holds⟩ | ⟨error, rfl⟩
  · exact next a holds
  · exact safe_raise error post

/-- **A loop that keeps an invariant of the items done so far.** -/
theorem safe_foldlM {f : σ → α → Exec ε σ} (inv : σ → Prop) {s : σ} (start : inv s)
    (step : ∀ s, ∀ x ∈ xs, inv s → Safe (f s x) inv) : Safe (xs.foldlM f s) inv := by
  induction xs generalizing s with
  | nil => exact safe_pure start
  | cons x xs ih =>
    rw [List.foldlM_cons]
    exact (step s x (List.mem_cons_self ..) start).bind fun next holds =>
      ih holds fun s y member => step s y (List.mem_cons_of_mem _ member)

/-- **A loop that collects.** -/
theorem safe_mapM {post : β → Prop} (each : ∀ x ∈ xs, Safe (f x) post) :
    Safe (xs.mapM f) fun ys => ∀ y ∈ ys, post y := by
  induction xs with
  | nil => exact safe_pure (by simp)
  | cons x xs ih =>
    rw [List.mapM_cons]
    refine (each x (List.mem_cons_self ..)).bind fun y holds => ?_
    refine (ih fun later member => each later (List.mem_cons_of_mem _ member)).bind
      fun ys others => ?_
    exact safe_pure (List.forall_mem_cons.mpr ⟨holds, others⟩)

/-- **A loop that tests.** -/
theorem safe_allM {test : α → Exec ε Bool} (each : ∀ x ∈ xs, Safe (test x) fun _ => True) :
    Safe (xs.allM test) fun _ => True := by
  induction xs with
  | nil => exact safe_pure trivial
  | cons x xs ih =>
    refine (each x (List.mem_cons_self ..)).bind fun passed _ => ?_
    cases passed with
    | false => exact safe_pure trivial
    | true => exact ih fun later member => each later (List.mem_cons_of_mem _ member)

/-- **A loop of calls for their effect.** -/
theorem safe_forM {f : α → Exec ε Unit} (each : ∀ x ∈ xs, Safe (f x) fun _ => True) :
    Safe (xs.forM f) fun _ => True := by
  induction xs with
  | nil => exact safe_pure trivial
  | cons x xs ih =>
    exact (each x (List.mem_cons_self ..)).bind fun _ _ =>
      ih fun later member => each later (List.mem_cons_of_mem _ member)

/-! ### Calls with one known panic -/

/-- The call panics when `bad` holds, and is safe otherwise. -/
structure SafeUnless (bad : Prop) (x : Exec ε α) (post : α → Prop) : Prop where
  panics : bad → ∃ message, x = abort message
  safe : ¬bad → Safe x post

theorem SafeUnless.of_ok {bad : Prop} (cases : SafeUnless bad x post) (ran : x = .ok a) :
    post a := by
  by_cases holds : bad
  · obtain ⟨message, panicked⟩ := cases.panics holds
    exact absurd (panicked.symm.trans ran) (abort_ne_ok _ _)
  · exact (cases.safe holds).of_ok ran

/-- The call returns a value or an error. -/
def Total (x : Exec ε α) : Prop := (∃ a, x = .ok a) ∨ ∃ error, x = raise error

theorem Safe.total (safe : Safe x post) : Total x := by
  rcases safe with ⟨a, ran, _⟩ | failed
  · exact .inl ⟨a, ran⟩
  · exact .inr failed

theorem total_ok (a : α) : Total (.ok a : Exec ε α) := .inl ⟨a, rfl⟩

theorem not_total_abort (message : String) : ¬ Total (abort message : Exec ε α) := by
  rintro (⟨a, ran⟩ | ⟨error, failed⟩)
  · exact abort_ne_ok message a ran
  · cases failed

theorem Asserts.total_iff {cond : Prop} (asserts : Asserts x cond a) :
    Total x ↔ cond := by
  by_cases holds : cond
  · rw [asserts.returns holds]
    exact iff_of_true (total_ok a) holds
  · obtain ⟨message, panicked⟩ := asserts.panics holds
    rw [panicked]
    exact iff_of_false (not_total_abort message) holds

theorem Asserts.returns_iff {cond : Prop} (asserts : Asserts x cond a) :
    (∃ b, x = .ok b) ↔ cond := by
  refine ⟨fun ⟨b, returned⟩ => ?_, fun holds => ⟨a, asserts.returns holds⟩⟩
  rw [← asserts.total_iff, returned]
  exact total_ok b

/-- **A sequence is total** when its first part is, and its second part after what the first one
returned. -/
theorem total_bind :
    Total (x >>= f) ↔ Total x ∧ ∀ a, x = .ok a → Total (f a) := by
  match x with
  | .ok a =>
    rw [ok_bind]
    exact ⟨fun total => ⟨total_ok a, fun b same => Except.ok.inj same ▸ total⟩,
      fun total => total.2 a rfl⟩
  | .error (.panic message) =>
    exact ⟨fun total => absurd total (not_total_abort message),
      fun total => absurd total.1 (not_total_abort message)⟩
  | .error (.err error) =>
    exact ⟨fun _ => ⟨.inr ⟨error, rfl⟩, nofun⟩, fun _ => .inr ⟨error, rfl⟩⟩

/-- **The call is total exactly when its one panic is excluded.** -/
theorem SafeUnless.total_iff {bad : Prop} (cases : SafeUnless bad x post) : Total x ↔ ¬bad := by
  constructor
  · rintro (⟨a, ran⟩ | ⟨error, failed⟩) holds
    · obtain ⟨message, panicked⟩ := cases.panics holds
      exact abort_ne_ok message a (panicked.symm.trans ran)
    · obtain ⟨message, panicked⟩ := cases.panics holds
      cases panicked.symm.trans failed
  · intro excluded
    rcases cases.safe excluded with ⟨a, ran, _⟩ | failed
    · exact .inl ⟨a, ran⟩
    · exact .inr failed

/-! ### Readers -/

/-- On every byte string the reader does not panic, and what it returns satisfies the
postcondition. -/
def SafeReader (reader : Reader ε α) (post : α → Prop) : Prop :=
  ∀ bytes, Safe (reader.run bytes) fun result => post result.1

variable {reader : Reader ε α}

theorem SafeReader.on (post : α → Prop) (safe : SafeReader reader post) (bytes : Bytes) :
    Safe (reader.run bytes) fun result => post result.1 := safe bytes

theorem safeReader_pure (holds : post a) :
    SafeReader (pure a : Reader ε α) post := fun _ => safe_pure holds

theorem safeReader_lift (safe : Safe x post) :
    SafeReader (liftM x : Reader ε α) post := by
  intro bytes
  rcases safe with ⟨a, rfl, holds⟩ | ⟨error, rfl⟩
  · exact safe_pure holds
  · exact .inr ⟨error, rfl⟩

theorem safeReader_demand (cond : Prop) [Decidable cond] (error : ε) :
    SafeReader (demand cond error) fun _ => cond := safeReader_lift (safe_check cond error)

theorem SafeReader.mono {post' : α → Prop} (safe : SafeReader reader post)
    (weaker : ∀ a, post a → post' a) : SafeReader reader post' :=
  fun bytes => (safe bytes).mono fun result => weaker result.1

/-- **A sequence.** -/
theorem SafeReader.bind {next : α → Reader ε β} {first : α → Prop} {post : β → Prop}
    (safe : SafeReader reader first) (later : ∀ a, first a → SafeReader (next a) post) :
    SafeReader (reader >>= next) post := by
  intro bytes
  rw [StateT.run_bind]
  exact (safe bytes).bind fun result holds => later result.1 holds result.2

theorem safeReader_takeBytes (count : Nat) (eof : ε) :
    SafeReader (takeBytes count eof) fun chunk => chunk.length = count := by
  intro bytes
  show Safe (if _ then _ else _) _
  split
  · exact safe_raise _ _
  · exact safe_pure (by simp only [List.length_take]; omega)

theorem safeReader_takeVector (count : Nat) (eof : ε) :
    SafeReader (takeVector count eof) fun _ => True := by
  intro bytes
  show Safe (if _ : _ then _ else _) _
  split
  · exact safe_pure trivial
  · exact safe_raise _ _

/-- **A counted loop.** -/
theorem safeReader_many (each : SafeReader reader post) (count : Nat) :
    SafeReader (readMany reader count) fun as => as.length = count ∧ ∀ a ∈ as, post a := by
  induction count with
  | zero => exact safeReader_pure ⟨rfl, by simp⟩
  | succ count ih =>
    refine each.bind fun a holds => ih.bind fun as others => safeReader_pure ?_
    exact ⟨by rw [List.length_cons, others.1], List.forall_mem_cons.mpr ⟨holds, others.2⟩⟩

theorem safeReader_mapM {reader : α → Reader ε β} {post : β → Prop}
    (each : ∀ x ∈ xs, SafeReader (reader x) post) :
    SafeReader (xs.mapM reader) fun ys => ∀ y ∈ ys, post y := by
  induction xs with
  | nil => exact safeReader_pure (by simp)
  | cons x xs ih =>
    rw [List.mapM_cons]
    refine (each x (List.mem_cons_self ..)).bind fun y holds => ?_
    refine (ih fun other member => each other (List.mem_cons_of_mem _ member)).bind fun ys all => ?_
    exact safeReader_pure (List.forall_mem_cons.mpr ⟨holds, all⟩)

/-- **A loop of readers for their effect.** -/
theorem safeReader_forM {reader : α → Reader ε Unit}
    (each : ∀ x ∈ xs, SafeReader (reader x) fun _ => True) :
    SafeReader (xs.forM reader) fun _ => True := by
  induction xs with
  | nil => exact safeReader_pure trivial
  | cons x xs ih =>
    exact (each x (List.mem_cons_self ..)).bind fun _ _ =>
      ih fun later member => each later (List.mem_cons_of_mem _ member)

variable {step : σ → Bytes → Exec δ σ}

variable {i total : Nat} {s : σ} (inv : Nat → σ → Prop)
  (each : ∀ i s chunk, i < total → inv i s → Safe (step s chunk) (inv (i + 1)))
include inv each

theorem safe_foldRecords {width : Nat} {count : Nat} (buffer : Bytes) (start : inv i s)
    (within : i + count ≤ total) :
    Safe (foldRecords width step count buffer s) (inv (i + count)) := by
  induction count generalizing i buffer s with
  | zero => exact safe_pure start
  | succ count ih =>
    refine (each i s _ (by omega) start).bind fun next holds => ?_
    rw [← Nat.add_assoc, Nat.add_right_comm]
    exact ih _ holds (by omega)

/-- **Records in batches**, with an invariant of the number of records done. -/
theorem safeReader_records {width batch : Nat} {eof : δ} {remaining : Nat} (start : inv i s)
    (all : i + remaining = total) :
    SafeReader (readRecords width batch eof step remaining s) (inv total) := by
  induction remaining using Nat.strong_induction_on generalizing i s with
  | _ remaining ih =>
    unfold readRecords
    by_cases done : remaining = 0
    · rw [if_pos done]
      obtain rfl : i = total := by omega
      exact safeReader_pure start
    · rw [if_neg done]
      refine (safeReader_takeBytes _ eof).bind fun buffer _ => ?_
      refine (safeReader_lift (safe_foldRecords inv each buffer start (by omega))).bind
        fun next holds => ?_
      exact ih (remaining - min remaining (batch + 1)) (by omega) holds (by omega)

end Lib
