/-
**Alternating run-length encodings.**

A list whose items fall into two classes is written as maximal runs of alternating class, each
behind its length. The first run has class `false` and is the only one that may be empty.

The section's variables are the class of an item, the encodings of a length and of an item, and
the reader's parts: the length, the reader's own guard on it, and the body of a run.

* `canonical_runs` — **every accepted encoding is the written one**: writing what the reader
  returned gives back exactly the bytes it consumed.
-/

import Longfellow.Lib.Safe

namespace Lib

variable {ε α : Type}

section Runs

variable (cls : α → Bool) (writeLen : Nat → Exec ε Bytes) (writeItem : Bool → α → Exec ε Bytes)
  (readLen : Reader ε Nat) (allow : Bool → Nat → Nat → Exec ε Unit)
  (readBody : Bool → Nat → Reader ε (List α))

/-- Write a list as alternating runs, starting with the given class. -/
def writeRuns : Nat → Bool → List α → Exec ε Bytes
  | _, _, [] => pure []
  | 0, _, _ :: _ => abort "loop bound reached"
  | fuel + 1, flag, a :: items => do
    let run := (a :: items).takeWhile fun a => cls a == flag
    let length ← writeLen run.length
    let body ← run.mapM (writeItem flag)
    let rest ← writeRuns fuel (!flag) ((a :: items).drop run.length)
    pure (length ++ body.flatten ++ rest)

/-- Read `remaining` items as alternating runs; `first` marks the run that may be empty. -/
def readRuns : Nat → Bool → Bool → Nat → Reader ε (List α)
  | _, _, _, 0 => pure []
  | 0, _, _, _ + 1 => liftM (abort "loop bound reached" : Exec ε (List α))
  | fuel + 1, flag, first, remaining + 1 => do
    let length ← readLen
    liftM (allow first (remaining + 1) length)
    let run ← readBody flag length
    let rest ← readRuns fuel (!flag) false (remaining + 1 - length)
    pure (run ++ rest)

end Runs

section Laws

variable {cls : α → Bool} {writeLen : Nat → Exec ε Bytes} {writeItem : Bool → α → Exec ε Bytes}
  {readLen : Reader ε Nat} {allow : Bool → Nat → Nat → Exec ε Unit}
  {readBody : Bool → Nat → Reader ε (List α)}

/-- A list is a run of the given class followed by nothing or by an item of the other class. -/
structure RunSplit (cls : α → Bool) (flag : Bool) (run rest : List α) : Prop where
  uniform : ∀ a ∈ run, cls a = flag
  stops : ∀ a, rest.head? = some a → cls a = !flag

theorem exists_runSplit (cls : α → Bool) (flag : Bool) (items : List α) :
    ∃ run rest, items = run ++ rest ∧ RunSplit cls flag run rest := by
  induction items with
  | nil => exact ⟨[], [], rfl, by simp, by simp⟩
  | cons a items ih =>
    by_cases same : cls a = flag
    · obtain ⟨run, rest, rfl, uniform, stops⟩ := ih
      exact ⟨a :: run, rest, rfl, by simpa using ⟨same, uniform⟩, stops⟩
    · refine ⟨[], a :: items, rfl, by simp, fun b next => ?_⟩
      obtain rfl : a = b := by simpa using next
      cases flag <;> simpa using same

variable {flag : Bool} {run rest : List α}

theorem RunSplit.takeWhile_eq (split : RunSplit cls flag run rest) :
    (run ++ rest).takeWhile (fun a => cls a == flag) = run := by
  rw [List.takeWhile_append_of_pos (by simpa using split.uniform)]
  cases rest with
  | nil => simp
  | cons b rest =>
    have other := split.stops b rfl
    rw [List.takeWhile_cons_of_neg (by simp [other]), List.append_nil]

variable {fuel : Nat}

theorem writeRuns_run (split : RunSplit cls flag run rest) (some : run ++ rest ≠ []) :
    writeRuns cls writeLen writeItem (fuel + 1) flag (run ++ rest) = (do
      let length ← writeLen run.length
      let body ← run.mapM (writeItem flag)
      let later ← writeRuns cls writeLen writeItem fuel (!flag) rest
      pure (length ++ body.flatten ++ later)) := by
  obtain ⟨a, items, shape⟩ := List.exists_cons_of_ne_nil some
  rw [shape, writeRuns, ← shape]
  simp only [split.takeWhile_eq, List.drop_left]

variable {bytes : Bytes}

theorem writeRuns_run_ok (split : RunSplit cls flag run rest) (some : run ++ rest ≠ [])
    (written : writeRuns cls writeLen writeItem (fuel + 1) flag (run ++ rest) = .ok bytes) :
    ∃ length body later, writeLen run.length = .ok length ∧ run.mapM (writeItem flag) = .ok body ∧
      writeRuns cls writeLen writeItem fuel (!flag) rest = .ok later ∧
      length ++ body.flatten ++ later = bytes := by
  rw [writeRuns_run split some] at written
  obtain ⟨length, lengthWritten, written⟩ := bind_eq_ok.mp written
  obtain ⟨body, bodyWritten, written⟩ := bind_eq_ok.mp written
  obtain ⟨later, laterWritten, written⟩ := bind_eq_ok.mp written
  exact ⟨length, body, later, lengthWritten, bodyWritten, laterWritten, by simpa using written⟩

variable {remaining : Nat} {first : Bool}

theorem readRuns_run (pos : remaining ≠ 0) :
    readRuns readLen allow readBody (fuel + 1) flag first remaining = (do
      let length ← readLen
      liftM (allow first remaining length)
      let run ← readBody flag length
      let rest ← readRuns readLen allow readBody fuel (!flag) false (remaining - length)
      pure (run ++ rest)) := by
  obtain ⟨count, rfl⟩ : ∃ count, remaining = count + 1 := ⟨remaining - 1, by omega⟩
  rw [readRuns]

theorem RunSplit.eq_nil (split : RunSplit cls flag run rest) (nonempty : run ++ rest ≠ [])
    (starts : first = false → ∀ a, (run ++ rest).head? = some a → cls a = flag) (empty : run = []) :
    first = true := by
  subst empty
  cases first with
  | true => rfl
  | false =>
    obtain ⟨a, next⟩ : ∃ a, rest.head? = some a := by
      cases rest with
      | nil => exact absurd rfl nonempty
      | cons a rest => exact ⟨a, rfl⟩
    have clash : flag = !flag := (starts rfl a next).symm.trans (split.stops a next)
    exact absurd clash (by simp)

theorem RunSplit.shorter (emptyFirst : run = [] → first = true)
    (enough : (run ++ rest).length + first.toNat ≤ fuel + 1) :
    rest.length + Bool.toNat false ≤ fuel := by
  rw [List.length_append] at enough
  rw [Bool.toNat_false]
  by_cases none : run = []
  · rw [emptyFirst none, Bool.toNat_true] at enough
    omega
  · have := List.length_pos_iff.mpr none
    omega

variable {items : List α}

/-- **The writer returns** when each maximal run is written. -/
theorem writeRuns_returns (first : Bool) (enough : items.length + first.toNat ≤ fuel)
    (starts : first = false → ∀ a, items.head? = some a → cls a = flag)
    (runs : ∀ {flag run}, run <:+: items → (∀ a ∈ run, cls a = flag) →
      ∃ w ws, writeLen run.length = .ok w ∧ run.mapM (writeItem flag) = .ok ws) :
    ∃ bytes, writeRuns cls writeLen writeItem fuel flag items = .ok bytes := by
  induction fuel generalizing first flag items with
  | zero =>
    obtain rfl : items = [] := List.length_eq_zero_iff.mp (by omega)
    exact ⟨[], rfl⟩
  | succ fuel ih =>
    by_cases empty : items = []
    · subst empty
      exact ⟨[], rfl⟩
    obtain ⟨run, rest, rfl, split⟩ := exists_runSplit cls flag items
    obtain ⟨w, ws, lengthWritten, bodyWritten⟩ :=
      runs List.infix_append_left split.uniform
    obtain ⟨later, restWritten⟩ := ih false (RunSplit.shorter (split.eq_nil empty starts) enough)
      (fun _ => split.stops) (fun inside => runs (List.infix_append_of_infix_right inside))
    refine ⟨w ++ ws.flatten ++ later, ?_⟩
    rw [writeRuns_run split empty, lengthWritten, ok_bind, bodyWritten, ok_bind, restWritten,
      ok_bind, pure_eq_ok]

theorem length_writeRuns (width header : Nat)
    (headers : ∀ {n w}, writeLen n = .ok w → header ≤ w.length)
    (bodies : ∀ {flag : Bool} {run : List α} {ws}, (∀ a ∈ run, cls a = flag) →
      run.mapM (writeItem flag) = .ok ws → run.length * width ≤ ws.flatten.length)
    (written : writeRuns cls writeLen writeItem fuel flag items = .ok bytes) :
    items.length * width + (if items = [] then 0 else header) ≤ bytes.length := by
  induction fuel generalizing flag items bytes with
  | zero =>
    cases items with
    | nil => simp
    | cons a items => exact absurd written (abort_ne_ok _ _)
  | succ fuel ih =>
    by_cases empty : items = []
    · simp [empty]
    rw [if_neg empty]
    obtain ⟨run, rest, rfl, split⟩ := exists_runSplit cls flag items
    obtain ⟨lengthBytes, bodyBytes, restBytes, lengthWritten, bodyWritten, restWritten, rfl⟩ :=
      writeRuns_run_ok split empty written
    have head := headers lengthWritten
    have body := bodies split.uniform bodyWritten
    have tail := ih restWritten
    simp only [List.length_append, Nat.add_mul]
    omega

/-- **Round trip of alternating runs.** If the length and the body of each maximal run are read
back, the whole list is. -/
theorem reads_runs {fuel' : Nat} (enough : items.length + first.toNat ≤ fuel')
    (starts : first = false → ∀ a, items.head? = some a → cls a = flag)
    (lengths : ∀ {flag first run rest w}, run ++ rest <:+ items → (∀ a ∈ run, cls a = flag) →
      (run = [] → first = true) → writeLen run.length = .ok w →
      Reads readLen w run.length ∧ allow first (run ++ rest).length run.length = .ok ())
    (bodies : ∀ {flag run ws}, (∀ a ∈ run, cls a = flag) → run.mapM (writeItem flag) = .ok ws →
      Reads (readBody flag run.length) ws.flatten run)
    (written : writeRuns cls writeLen writeItem fuel flag items = .ok bytes) :
    Reads (readRuns readLen allow readBody fuel' flag first items.length) bytes items := by
  induction fuel generalizing fuel' flag first items bytes with
  | zero =>
    cases items with
    | nil =>
      obtain rfl : ([] : Bytes) = bytes := by simpa [writeRuns] using written
      cases fuel' <;> exact Reads.pure []
    | cons a items => exact absurd written (abort_ne_ok _ _)
  | succ fuel ih =>
    by_cases empty : items = []
    · subst empty
      obtain rfl : ([] : Bytes) = bytes := by simpa [writeRuns] using written
      cases fuel' <;> exact Reads.pure []
    obtain ⟨run, rest, rfl, split⟩ := exists_runSplit cls flag items
    have positive : (run ++ rest).length ≠ 0 := by simpa using empty
    have emptyFirst : run = [] → first = true := split.eq_nil empty starts
    obtain ⟨fuel', rfl⟩ : ∃ k, fuel' = k + 1 := ⟨fuel' - 1, by omega⟩
    obtain ⟨lengthBytes, bodyBytes, restBytes, lengthWritten, bodyWritten, restWritten, rfl⟩ :=
      writeRuns_run_ok split empty written
    obtain ⟨readsLen, admitted⟩ :=
      lengths (List.suffix_refl _) split.uniform emptyFirst lengthWritten
    have readsRest : Reads (readRuns readLen allow readBody fuel' (!flag) false rest.length)
        restBytes rest := by
      refine ih (RunSplit.shorter emptyFirst enough) (fun _ => split.stops) ?_ restWritten
      intro flag' first' run' rest' w inside
      exact lengths (inside.trans (List.suffix_append run rest))
    have remainder : (run ++ rest).length - run.length = rest.length := by simp
    rw [readRuns_run positive, List.append_assoc]
    refine readsLen.bind (Reads.guarded (Reads.lift admitted)
      ((bodies split.uniform bodyWritten).bind ?_))
    rw [remainder]
    exact readsRest.andReturn fun later => run ++ later

/-- **What is accepted is what is written.** If the reader's guard admits an empty run only in
front, and its length and body readers accept only what the writer produces for a run of the
announced class, then the items it returns are written as exactly the bytes it consumed. -/
theorem canonical_runs {rest : Bytes}
    (lengths : ∀ {bytes n rest}, readLen.run bytes = .ok (n, rest) →
      ∃ w, writeLen n = .ok w ∧ bytes = w ++ rest)
    (guards : ∀ {first remaining n}, allow first remaining n = .ok () →
      n ≤ remaining ∧ (n = 0 → first = true))
    (bodies : ∀ {flag n bytes run rest}, (readBody flag n).run bytes = .ok (run, rest) →
      run.length = n ∧ (∀ a ∈ run, cls a = flag) ∧
        ∃ ws, run.mapM (writeItem flag) = .ok ws ∧ bytes = ws.flatten ++ rest)
    (ran : (readRuns readLen allow readBody fuel flag first remaining).run bytes =
      .ok (items, rest)) :
    items.length = remaining ∧ (first = false → ∀ a, items.head? = some a → cls a = flag) ∧
      ∀ bound, items.length + first.toNat ≤ bound →
        ∃ w, writeRuns cls writeLen writeItem bound flag items = .ok w ∧ bytes = w ++ rest := by
  induction fuel generalizing flag first remaining bytes items with
  | zero =>
    cases remaining with
    | zero =>
      obtain ⟨rfl, rfl⟩ := reader_pure_eq_ok.mp ran
      exact ⟨rfl, by simp, fun bound _ => ⟨[], by cases bound <;> rfl, rfl⟩⟩
    | succ remaining => exact absurd (reader_lift_eq_ok.mp ran).1 (abort_ne_ok _ _)
  | succ fuel ih =>
    by_cases none : remaining = 0
    · subst none
      obtain ⟨rfl, rfl⟩ := reader_pure_eq_ok.mp ran
      exact ⟨rfl, by simp, fun bound _ => ⟨[], by cases bound <;> rfl, rfl⟩⟩
    rw [readRuns_run none, reader_bind_eq_ok] at ran
    obtain ⟨length, afterLength, lengthRead, ran⟩ := ran
    obtain ⟨_, afterGuard, guarded, ran⟩ := reader_bind_eq_ok.mp ran
    obtain ⟨admitted, rfl⟩ := reader_lift_eq_ok.mp guarded
    obtain ⟨run, afterRun, runRead, ran⟩ := reader_bind_eq_ok.mp ran
    obtain ⟨later, final, laterRead, ran⟩ := reader_bind_eq_ok.mp ran
    obtain ⟨rfl, rfl⟩ := reader_pure_eq_ok.mp ran
    obtain ⟨lengthBytes, lengthWritten, rfl⟩ := lengths lengthRead
    obtain ⟨within, emptyFirst⟩ := guards admitted
    obtain ⟨rfl, uniform, bodyBytes, bodyWritten, rfl⟩ := bodies runRead
    obtain ⟨count, starts, rewrites⟩ := ih laterRead
    have split : RunSplit cls flag run later := ⟨uniform, starts rfl⟩
    have total : (run ++ later).length = remaining := by
      rw [List.length_append, count]
      omega
    have some : run ++ later ≠ [] := fun empty => by
      rw [empty] at total
      exact none total.symm
    refine ⟨total, ?_, ?_⟩
    · intro notFirst a next
      cases run with
      | nil => exact absurd (emptyFirst rfl) (by simp [notFirst])
      | cons b run =>
        obtain rfl : b = a := by simpa using next
        exact uniform b (List.mem_cons_self ..)
    · intro bound enough
      have positive : 0 < (run ++ later).length := List.length_pos_iff.mpr some
      obtain ⟨bound, rfl⟩ : ∃ k, bound = k + 1 := ⟨bound - 1, by omega⟩
      obtain ⟨restBytes, restWritten, rfl⟩ := rewrites bound
        (RunSplit.shorter (fun empty => emptyFirst (by rw [empty, List.length_nil])) enough)
      refine ⟨lengthBytes ++ bodyBytes.flatten ++ restBytes, ?_, by simp⟩
      rw [writeRuns_run split some, lengthWritten, ok_bind, bodyWritten, ok_bind, restWritten,
        ok_bind, pure_eq_ok]

/-- **The reader of runs does not panic** when its parts do not. -/
theorem safeReader_runs (lengths : SafeReader readLen fun _ => True)
    (guards : ∀ first remaining n, Safe (allow first remaining n) fun _ =>
      n ≤ remaining ∧ (n = 0 → first = true))
    (bodies : ∀ flag n, SafeReader (readBody flag n) fun run => run.length = n)
    (enough : remaining + first.toNat ≤ fuel) :
    SafeReader (readRuns readLen allow readBody fuel flag first remaining) fun items =>
      items.length = remaining := by
  induction fuel generalizing flag first remaining with
  | zero =>
    obtain rfl : remaining = 0 := by omega
    exact safeReader_pure rfl
  | succ fuel ih =>
    by_cases none : remaining = 0
    · subst none
      exact safeReader_pure rfl
    rw [readRuns_run none]
    refine lengths.bind fun length _ => ?_
    refine (safeReader_lift (guards first remaining length)).bind
      fun _ ⟨within, emptyFirst⟩ => ?_
    -- An admitted length makes progress, or it is the empty run in front.
    have smaller : remaining - length + Bool.toNat false ≤ fuel := by
      rw [Bool.toNat_false]
      by_cases empty : length = 0
      · rw [emptyFirst empty, Bool.toNat_true] at enough
        omega
      · omega
    refine (bodies flag length).bind fun run size => (ih smaller).bind fun rest count => ?_
    refine safeReader_pure ?_
    rw [List.length_append, size, count]
    omega

end Laws

end Lib
