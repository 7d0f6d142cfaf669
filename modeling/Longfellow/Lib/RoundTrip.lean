/-
**Writers that can panic, against their readers.**

A writer of a format asserts limits as it goes, so it is a computation of a byte string.
`RoundTrip writer reader a` says that the writer returns and that the reader takes `a` off its
output. The property composes along the two programs:

* `roundTrip_all` — **a counted loop**, and `reads_records` — a loop that reads records of a fixed
  size in batches.
-/

import Longfellow.Lib.Codec

namespace Lib

variable {ε δ α β σ : Type}

/-- Write one byte string after the other. -/
def append (first second : Exec ε Bytes) : Exec ε Bytes := do
  let head ← first
  let tail ← second
  pure (head ++ tail)

/-- Write a list of values one after the other. -/
def writeAll (write : α → Exec ε Bytes) : List α → Exec ε Bytes
  | [] => pure []
  | a :: as => append (write a) (writeAll write as)

/-- The writer returns, and the reader takes `a` off what it wrote. -/
def RoundTrip (writer : Exec ε Bytes) (reader : Reader δ α) (a : α) : Prop :=
  ∃ bytes, writer = .ok bytes ∧ Reads reader bytes a

variable {writer : Exec ε Bytes} {reader : Reader δ α} {a : α} {bytes : Bytes}

theorem RoundTrip.reads (trip : RoundTrip writer reader a) (wrote : writer = .ok bytes) :
    Reads reader bytes a := by
  obtain ⟨bytes', wrote', read⟩ := trip
  obtain rfl := Except.ok.inj (wrote.symm.trans wrote')
  exact read

variable {first second : Exec ε Bytes}

theorem append_ok {head tail : Bytes} (wrote : first = .ok head) (then_ : second = .ok tail) :
    append first second = .ok (head ++ tail) := by
  rw [append, wrote, ok_bind, then_, ok_bind, pure_eq_ok]

theorem append_eq_ok :
    append first second = .ok bytes ↔
      ∃ head tail, first = .ok head ∧ second = .ok tail ∧ bytes = head ++ tail := by
  constructor
  · intro wrote
    obtain ⟨head, wroteHead, wrote⟩ := bind_eq_ok.mp wrote
    obtain ⟨tail, wroteTail, wrote⟩ := bind_eq_ok.mp wrote
    exact ⟨head, tail, wroteHead, wroteTail, (Except.ok.inj wrote).symm⟩
  · rintro ⟨head, tail, wroteHead, wroteTail, rfl⟩
    exact append_ok wroteHead wroteTail

variable {write : α → Exec ε Bytes}

theorem wrote_of_writeAll {as : List α} (wrote : writeAll write as = .ok bytes) :
    ∀ a ∈ as, ∃ part, write a = .ok part := by
  induction as generalizing bytes with
  | nil => exact fun a member => absurd member List.not_mem_nil
  | cons a as ih =>
    obtain ⟨head, tail, wroteHead, wroteTail, _⟩ := append_eq_ok.mp wrote
    exact List.forall_mem_cons.mpr ⟨⟨head, wroteHead⟩, ih wroteTail⟩

variable {next : α → Reader δ β}

variable {b : β}

theorem RoundTrip.append (head : RoundTrip first reader a) (tail : RoundTrip second (next a) b) :
    RoundTrip (Lib.append first second) (reader >>= next) b := by
  obtain ⟨_, wrote, read⟩ := head
  obtain ⟨_, wroteTail, readTail⟩ := tail
  exact ⟨_, append_ok wrote wroteTail, read.bind readTail⟩

theorem RoundTrip.demanded {cond : Prop} [Decidable cond] {error : δ} {next : Unit → Reader δ β}
    (holds : cond) (tail : RoundTrip writer (next ()) b) :
    RoundTrip writer (demand cond error >>= next) b := by
  obtain ⟨bytes, wrote, read⟩ := tail
  exact ⟨bytes, wrote, Reads.demanded holds read⟩

/-- A computation of the reader in front of a field. -/
theorem RoundTrip.lifted {x : Exec δ α} (holds : x = .ok a) (tail : RoundTrip writer (next a) b) :
    RoundTrip writer (liftM x >>= next) b := by
  obtain ⟨bytes, wrote, read⟩ := tail
  exact ⟨bytes, wrote, Reads.guarded (Reads.lift holds) read⟩

/-- A last field with a computation of its value. -/
theorem RoundTrip.andReturn (head : RoundTrip writer reader a) (g : α → β) :
    RoundTrip writer (reader >>= fun a => pure (g a)) (g a) := by
  obtain ⟨bytes, wrote, read⟩ := head
  exact ⟨bytes, wrote, read.andReturn g⟩

theorem RoundTrip.checked (head : RoundTrip writer reader a) (passes : Reads (next a) [] b) :
    RoundTrip writer (reader >>= next) b := by
  obtain ⟨bytes, wrote, read⟩ := head
  exact ⟨bytes, wrote, read.checked passes⟩

theorem RoundTrip.ensured {cond : Prop} [Decidable cond] {message : String} (holds : cond)
    (tail : RoundTrip writer reader a) :
    RoundTrip (ensure cond message >>= fun _ => writer) reader a := by
  rw [ensure_of holds, ok_bind]
  exact tail

theorem roundTrip_pure (bytes : Bytes) (read : Reads reader bytes a) :
    RoundTrip (pure bytes : Exec ε Bytes) reader a := ⟨bytes, rfl, read⟩

/-- **A counted loop.** -/
theorem roundTrip_all {as : List α} (each : ∀ a ∈ as, RoundTrip (write a) reader a) :
    RoundTrip (writeAll write as) (readMany reader as.length) as := by
  induction as with
  | nil => exact roundTrip_pure [] (Reads.pure [])
  | cons a as ih =>
    have tail := ih fun b member => each b (List.mem_cons_of_mem _ member)
    exact (each a (List.mem_cons_self ..)).append (tail.andReturn (a :: ·))

/-! ### Records in batches -/

/-- Run a step on each of the `count` records of `width` bytes in a buffer. -/
def foldRecords (width : Nat) (step : σ → Bytes → Exec δ σ) : Nat → Bytes → σ → Exec δ σ
  | 0, _, s => pure s
  | count + 1, buffer, s => do
    let s ← step s (buffer.take width)
    foldRecords width step count (buffer.drop width) s

/-- Read records of `width` bytes, at most `batch + 1` of them at a time, and run a step on
each. -/
def readRecords (width batch : Nat) (eof : δ) (step : σ → Bytes → Exec δ σ) (remaining : Nat)
    (s : σ) : Reader δ σ :=
  if remaining = 0 then pure s
  else do
    let size := min remaining (batch + 1)
    let buffer ← takeBytes (size * width) eof
    let s ← liftM (foldRecords width step size buffer s)
    readRecords width batch eof step (remaining - size) s
termination_by remaining
decreasing_by omega

variable {width : Nat} {records : List Bytes}

variable {step : σ → Bytes → Exec δ σ}

variable (sized : ∀ record ∈ records, record.length = width)
include sized

theorem foldRecords_flatten (s : σ) :
    foldRecords width step records.length records.flatten s = records.foldlM step s := by
  induction records generalizing s with
  | nil => rfl
  | cons record records ih =>
    have size := sized record (List.mem_cons_self ..)
    rw [List.length_cons, foldRecords, List.flatten_cons, List.foldlM_cons, ← size,
      List.take_left, List.drop_left]
    congr 1
    funext next
    rw [size]
    exact ih (fun later member => sized later (List.mem_cons_of_mem _ member)) next

theorem length_flatten_records :
    records.flatten.length = records.length * width := by
  induction records with
  | nil => simp
  | cons record records ih =>
    rw [List.flatten_cons, List.length_append, List.length_cons,
      ih fun later member => sized later (List.mem_cons_of_mem _ member),
      sized record (List.mem_cons_self ..), Nat.succ_mul, Nat.add_comm]

/-- **Batches make no difference**: the loop returns what the steps return on the records in
order. -/
theorem reads_records {batch : Nat} {eof : δ} {s t : σ} (ran : records.foldlM step s = .ok t) :
    Reads (readRecords width batch eof step records.length s) records.flatten t := by
  -- Strong induction on the records left: a turn of the loop takes one batch off the front.
  induction size : records.length using Nat.strong_induction_on generalizing records s with
  | _ n ih =>
    subst size
    unfold readRecords
    by_cases done : records.length = 0
    · obtain rfl := List.eq_nil_of_length_eq_zero done
      obtain rfl : s = t := by simpa using ran
      exact Reads.pure s
    rw [if_neg done]
    set count := min records.length (batch + 1) with count_eq
    have firstSized : ∀ record ∈ records.take count, record.length = width :=
      fun record member => sized record (List.mem_of_mem_take member)
    have firstLength : (records.take count).length = count := by
      rw [List.length_take]
      omega
    rw [← List.take_append_drop count records, List.foldlM_append, bind_eq_ok] at ran
    obtain ⟨middle, ranFirst, ranRest⟩ := ran
    have split : records.flatten = (records.take count).flatten ++ (records.drop count).flatten := by
      rw [← List.flatten_append, List.take_append_drop]
    rw [split]
    refine (reads_takeBytes ?_).bind ?_
    · rw [length_flatten_records firstSized, firstLength]
    have folded : foldRecords width step count (records.take count).flatten s = .ok middle := by
      rw [← ranFirst, ← foldRecords_flatten firstSized, firstLength]
    have restLength : (records.drop count).length = records.length - count := List.length_drop
    exact Reads.guarded (Reads.lift folded) (ih (records.length - count) (by omega)
      (fun record member => sized record (List.mem_of_mem_drop member)) ranRest restLength)

end Lib
