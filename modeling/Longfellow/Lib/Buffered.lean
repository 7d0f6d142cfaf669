/-
**Buffered streams.**

A stream delivers its bytes in chunks of any sizes, and shows at most the rest of the current chunk
at a time. A reader over a stream *refines* a reader over a byte string when it returns the same
value, leaves the same bytes and fails in the same way, however the bytes are cut into chunks.

* `Refines`, `Refines.bind` — **the refinement composes along a program**.
-/

import Longfellow.Lib.Codec

namespace Lib

variable {ε α β : Type}

/-- The chunks a stream has left, the current one first. Only the end of the stream is shown as an
empty buffer. -/
structure BufStream where
  chunks : List Bytes
  filled : ∀ chunk ∈ chunks, chunk ≠ []

namespace BufStream

/-- All bytes that are left. -/
def bytes (s : BufStream) : Bytes := s.chunks.flatten

/-- The current buffer; empty at the end of the stream. -/
def fillBuf (s : BufStream) : Bytes := s.chunks.headD []

/-- Mark bytes of the current buffer as read. -/
def consume (s : BufStream) (n : Nat) : BufStream :=
  match s with
  | ⟨[], filled⟩ => ⟨[], filled⟩
  | ⟨buf :: later, filled⟩ =>
    if empty : buf.drop n = [] then
      ⟨later, fun chunk member => filled chunk (List.mem_cons_of_mem _ member)⟩
    else ⟨buf.drop n :: later, by
      rintro chunk (_ | ⟨_, member⟩)
      · exact empty
      · exact filled chunk (List.mem_cons_of_mem _ member)⟩

theorem bytes_eq (s : BufStream) : s.bytes = s.fillBuf ++ (s.chunks.drop 1).flatten := by
  obtain ⟨chunks, filled⟩ := s
  cases chunks <;> rfl

theorem bytes_of_fillBuf_nil {s : BufStream} (empty : s.fillBuf = []) : s.bytes = [] := by
  obtain ⟨chunks, filled⟩ := s
  cases chunks with
  | nil => rfl
  | cons buf later => exact absurd empty (filled buf (List.mem_cons_self ..))

theorem bytes_consume (s : BufStream) {n : Nat} (buffered : n ≤ s.fillBuf.length) :
    (s.consume n).bytes = s.bytes.drop n := by
  obtain ⟨chunks, filled⟩ := s
  cases chunks with
  | nil => simp [consume, bytes]
  | cons buf later =>
    have inside : n ≤ buf.length := buffered
    have left : (buf :: later).flatten.drop n = buf.drop n ++ later.flatten := by
      rw [List.flatten_cons, List.drop_append_of_le_length inside]
    unfold consume bytes
    simp only [left]
    split
    · rename_i empty
      rw [empty, List.nil_append]
    · rfl

end BufStream

/-- A reader advances through a stream. -/
abbrev BufReader (ε α : Type) := StateT BufStream (Exec ε) α

/-- Read one byte, or fail at the end of the stream. -/
def readExact1 (eof : ε) : BufReader ε Bytes := fun s =>
  match s.fillBuf with
  | [] => raise eof
  | b :: _ => pure ([b], s.consume 1)

/-- The reader does on every stream what the other reader does on its bytes. -/
def Refines (reader : BufReader ε α) (plain : Reader ε α) : Prop :=
  ∀ s, (reader.run s).map (fun (a, s) => (a, s.bytes)) = plain.run s.bytes

theorem refines_pure (a : α) : Refines (pure a : BufReader ε α) (pure a) := fun _ => rfl

theorem refines_lift (x : Exec ε α) : Refines (liftM x : BufReader ε α) (liftM x) := fun _ => by
  cases x <;> rfl

/-- **The refinement of a sequence.** -/
theorem Refines.bind {reader : BufReader ε α} {plain : Reader ε α} {next : α → BufReader ε β}
    {plainNext : α → Reader ε β} (head : Refines reader plain)
    (tail : ∀ a, Refines (next a) (plainNext a)) : Refines (reader >>= next) (plain >>= plainNext) := by
  intro s
  rw [StateT.run_bind, StateT.run_bind, ← head s]
  cases reader.run s with
  | error e => rfl
  | ok result => exact tail result.1 result.2

theorem refines_readExact1 (eof : ε) : Refines (readExact1 eof) (takeBytes 1 eof) := by
  intro s
  show (match s.fillBuf with
    | [] => (raise eof : Exec ε (Bytes × BufStream))
    | b :: _ => pure ([b], s.consume 1)).map _ = if 1 > s.bytes.length then raise eof
      else pure (s.bytes.take 1, s.bytes.drop 1)
  cases buffer : s.fillBuf with
  | nil =>
    rw [BufStream.bytes_of_fillBuf_nil buffer]
    rfl
  | cons b rest =>
    have left := s.bytes_eq
    rw [buffer, List.cons_append] at left
    have consumed := s.bytes_consume (n := 1) (by rw [buffer]; simp)
    rw [left, List.drop_one, List.tail_cons] at consumed
    rw [left, if_neg (by simp)]
    simp only [pure_eq_ok, Except.map, consumed]
    rfl

/-- A reader that refines one which takes a value off a byte string takes it off every stream of
these bytes, and leaves what follows. -/
theorem Refines.reads {reader : BufReader ε α} {plain : Reader ε α} (refines : Refines reader plain)
    {s : BufStream} {a : α} {rest : Bytes} :
    (∃ s', reader.run s = .ok (a, s') ∧ s'.bytes = rest) ↔ plain.run s.bytes = .ok (a, rest) := by
  rw [← refines s]
  cases reader.run s with
  | error e => simp [Except.map]
  | ok result =>
    obtain ⟨b, s'⟩ := result
    simp [Except.map, Prod.ext_iff, and_assoc]

end Lib
