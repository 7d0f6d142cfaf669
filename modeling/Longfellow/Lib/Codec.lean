/-
**Byte readers and the encodings they accept.**

A reader takes a value off the front of a byte string, or fails. Two properties relate a reader to
an encoding, and both compose along the reader's own shape:

* `Reads reader bytes a` — the reader returns `a` from `bytes` and leaves exactly what follows;
* `Canonical reader valid encode` — **whatever the reader accepts is an encoding**: a returned
  value is valid and its encoding is exactly the bytes consumed.

`Reads.bind` and `reader_bind_eq_ok` take a sequence apart, `reads_many` and `canonical_many` are
the rules for a counted loop, and the little-endian numbers of a fixed width are the base case
(`leValue_leBytes`, `leBytes_leValue`).
-/

import Longfellow.Lib.Exec
import Mathlib.Tactic.Ring

namespace Lib

/-- A byte string. -/
abbrev Bytes := List UInt8

/-- A reader advances through a byte string. -/
abbrev Reader (ε α : Type) := StateT Bytes (Exec ε) α

variable {ε α β : Type}

/-- The reader returns `a` from `bytes`, whatever follows them. -/
def Reads (reader : Reader ε α) (bytes : Bytes) (a : α) : Prop :=
  ∀ rest, reader.run (bytes ++ rest) = .ok (a, rest)

/-- What the reader accepts is valid, and its encoding is what was consumed. -/
def Canonical (reader : Reader ε α) (valid : α → Prop) (encode : α → Bytes) : Prop :=
  ∀ {bytes a rest}, reader.run bytes = .ok (a, rest) → valid a ∧ bytes = encode a ++ rest

/-! ### Sequences -/

variable {reader : Reader ε α} {next : α → Reader ε β} {bytes rest : Bytes} {b : β}

theorem reader_bind_eq_ok : (reader >>= next).run bytes = .ok (b, rest) ↔
      ∃ a middle, reader.run bytes = .ok (a, middle) ∧ (next a).run middle = .ok (b, rest) := by
  rw [StateT.run_bind, bind_eq_ok]
  exact Prod.exists

variable {a : α}

@[simp] theorem reader_pure_eq_ok {b : α} :
    (pure a : Reader ε α).run bytes = .ok (b, rest) ↔ a = b ∧ bytes = rest := by
  simp [StateT.run_pure]

theorem reader_lift_eq_ok {x : Exec ε α} :
    (liftM x : Reader ε α).run bytes = .ok (a, rest) ↔ x = .ok a ∧ bytes = rest := by
  cases x with
  | error e => simp [liftM, monadLift, MonadLift.monadLift, StateT.lift, StateT.run]
  | ok value => simp [liftM, monadLift, MonadLift.monadLift, StateT.lift, StateT.run]

theorem lift_ok_bind (a : α) (next : α → Reader ε β) :
    ((liftM (.ok a : Exec ε α) : Reader ε α) >>= next) = next a := rfl

theorem Reads.pure (a : α) : Reads (pure a : Reader ε α) [] a := fun _ => rfl

theorem Reads.lift {x : Exec ε α} (holds : x = .ok a) :
    Reads (liftM x : Reader ε α) [] a := fun _ => reader_lift_eq_ok.mpr ⟨holds, rfl⟩

theorem Reads.bind {first second : Bytes} (head : Reads reader first a)
    (tail : Reads (next a) second b) :
    Reads (reader >>= next) (first ++ second) b := fun rest => by
  rw [List.append_assoc]
  exact reader_bind_eq_ok.mpr ⟨a, second ++ rest, head _, tail rest⟩

theorem Reads.checked (head : Reads reader bytes a) (passes : Reads (next a) [] b) :
    Reads (reader >>= next) bytes b := fun rest =>
  reader_bind_eq_ok.mpr ⟨a, rest, head rest, passes rest⟩

theorem Reads.andReturn (head : Reads reader bytes a) (g : α → β) :
    Reads (reader >>= fun a => Pure.pure (g a)) bytes (g a) :=
  head.checked (Reads.pure (g a))

theorem Reads.guarded {guard : Reader ε α} (passes : Reads guard [] a)
    (tail : Reads (next a) bytes b) :
    Reads (guard >>= next) bytes b := passes.bind tail

/-- A check that reads nothing. -/
def demand (cond : Prop) [Decidable cond] (error : ε) : Reader ε Unit := liftM (check cond error)

theorem Reads.demanded {cond : Prop} [Decidable cond] {error : ε} {next : Unit → Reader ε β}
    (holds : cond) (tail : Reads (next ()) bytes b) :
    Reads (demand cond error >>= next) bytes b :=
  Reads.guarded (Reads.lift (check_of holds)) tail

/-! ### Counted loops -/

/-- Read `count` values in a row. -/
def readMany (reader : Reader ε α) : Nat → Reader ε (List α)
  | 0 => pure []
  | count + 1 => do
    let a ← reader
    let as ← readMany reader count
    pure (a :: as)

variable {encode : α → Bytes}

theorem reads_many {as : List α} (each : ∀ a ∈ as, Reads reader (encode a) a) :
    Reads (readMany reader as.length) (as.flatMap encode) as := by
  induction as with
  | nil => exact Reads.pure []
  | cons a as ih =>
    have tail := ih fun b member => each b (List.mem_cons_of_mem _ member)
    rw [List.flatMap_cons]
    refine (each a (List.mem_cons_self ..)).bind ?_
    exact tail.andReturn (a :: ·)

theorem canonical_many {valid : α → Prop} (each : Canonical reader valid encode) (count : Nat) :
    Canonical (readMany reader count) (fun as => as.length = count ∧ ∀ a ∈ as, valid a)
      (fun as => as.flatMap encode) := by
  induction count with
  | zero =>
    intro bytes as rest ran
    obtain ⟨rfl, rfl⟩ := reader_pure_eq_ok.mp ran
    exact ⟨⟨rfl, by simp⟩, rfl⟩
  | succ count ih =>
    intro bytes as rest ran
    rw [readMany, reader_bind_eq_ok] at ran
    obtain ⟨a, middle, head, ran⟩ := ran
    rw [reader_bind_eq_ok] at ran
    obtain ⟨tail, final, later, ran⟩ := ran
    obtain ⟨rfl, rfl⟩ := reader_pure_eq_ok.mp ran
    obtain ⟨holds, rfl⟩ := each head
    obtain ⟨⟨rfl, all⟩, rfl⟩ := ih later
    refine ⟨⟨rfl, ?_⟩, ?_⟩
    · intro b member
      rcases List.mem_cons.mp member with rfl | member
      · exact holds
      · exact all b member
    · simp only [List.flatMap_cons, List.append_assoc]

theorem reads_mapM {reader : β → Reader ε α} {bs : List β} {as : List α}
    (each : List.Forall₂ (fun b a => Reads (reader b) (encode a) a) bs as) :
    Reads (bs.mapM reader) (as.flatMap encode) as := by
  induction each with
  | nil => exact Reads.pure []
  | cons head _ ih =>
    rw [List.mapM_cons, List.flatMap_cons]
    exact head.bind (ih.andReturn _)

theorem canonical_mapM {reader : β → Reader ε α} {valid : β → α → Prop}
    (each : ∀ b, Canonical (reader b) (valid b) encode) (bs : List β) :
    Canonical (bs.mapM reader) (fun as => List.Forall₂ valid bs as)
      (fun as => as.flatMap encode) := by
  induction bs with
  | nil =>
    intro bytes as rest ran
    obtain ⟨rfl, rfl⟩ := reader_pure_eq_ok.mp ran
    exact ⟨List.Forall₂.nil, rfl⟩
  | cons b bs ih =>
    intro bytes as rest ran
    rw [List.mapM_cons] at ran
    obtain ⟨a, _, head, ran⟩ := reader_bind_eq_ok.mp ran
    obtain ⟨tail, _, later, ran⟩ := reader_bind_eq_ok.mp ran
    obtain ⟨rfl, rfl⟩ := reader_pure_eq_ok.mp ran
    obtain ⟨holds, rfl⟩ := each b head
    obtain ⟨all, rfl⟩ := ih later
    exact ⟨List.Forall₂.cons holds all, by simp only [List.flatMap_cons, List.append_assoc]⟩

/-! ### Raw bytes -/

/-- Take the next `count` bytes, or fail with the given error. -/
def takeBytes (count : Nat) (eof : ε) : Reader ε Bytes := fun bytes =>
  if count > bytes.length then raise eof else pure (bytes.take count, bytes.drop count)

variable {count : Nat} {eof : ε}

theorem reads_takeBytes (size : bytes.length = count) :
    Reads (takeBytes count eof) bytes bytes := fun rest => by
  have enough : ¬ count > (bytes ++ rest).length := by
    rw [List.length_append]
    omega
  show (if _ then _ else _) = _
  rw [if_neg enough, ← size, List.take_left, List.drop_left]
  rfl

theorem takeBytes_eq_ok {chunk : Bytes} :
    (takeBytes count eof).run bytes = .ok (chunk, rest) ↔
      chunk.length = count ∧ bytes = chunk ++ rest := by
  constructor
  · intro ran
    have ran' : (if count > bytes.length then (raise eof : Exec ε (Bytes × Bytes))
        else pure (bytes.take count, bytes.drop count)) = .ok (chunk, rest) := ran
    split at ran'
    · exact absurd ran' (raise_ne_ok _ _)
    · obtain ⟨rfl, rfl⟩ : bytes.take count = chunk ∧ bytes.drop count = rest := by
        simpa using ran'
      refine ⟨by rw [List.length_take]; omega, (List.take_append_drop count bytes).symm⟩
  · rintro ⟨size, rfl⟩
    exact reads_takeBytes size rest

theorem size_take {α : Type} {xs : List α} (enough : count ≤ xs.length) :
    (xs.take count).toArray.size = count := by simpa using enough

/-- Take the next `count` bytes as a vector, or fail with the given error. -/
def takeVector (count : Nat) (eof : ε) : Reader ε (Vector UInt8 count) := fun bytes =>
  if enough : count ≤ bytes.length then
    pure (⟨(bytes.take count).toArray, size_take enough⟩, bytes.drop count)
  else raise eof

theorem takeVector_eq_ok {data : Vector UInt8 count} :
    (takeVector count eof).run bytes = .ok (data, rest) ↔ bytes = data.toList ++ rest := by
  show (if _ : _ then _ else _) = _ ↔ _
  constructor
  · intro ran
    split at ran
    · obtain ⟨first, rfl⟩ : (bytes.take count).toArray = data.toArray ∧ bytes.drop count = rest := by
        simpa using ran
      rw [Vector.toList, ← first, List.take_append_drop]
    · exact absurd ran (raise_ne_ok _ _)
  · rintro rfl
    have size : data.toList.length = count := by simp
    have enough : count ≤ (data.toList ++ rest).length := by
      rw [List.length_append]
      omega
    rw [dif_pos enough]
    simp only [pure_eq_ok, Except.ok.injEq, Prod.mk.injEq]
    rw [List.drop_append_of_le_length size.ge, List.drop_eq_nil_of_le size.le]
    refine ⟨?_, rfl⟩
    apply Vector.toArray_inj.mp
    show (List.take count (data.toList ++ rest)).toArray = data.toArray
    rw [List.take_append_of_le_length size.ge, List.take_of_length_le size.le]
    exact data.toArray.toArray_toList

theorem reads_takeVector (data : Vector UInt8 count) :
    Reads (takeVector count eof) data.toList data := fun _ => takeVector_eq_ok.mpr rfl

/-! ### Little-endian numbers -/

/-- The `width` low bytes of a number, least significant first. -/
def leBytes : Nat → Nat → Bytes
  | 0, _ => []
  | width + 1, value => UInt8.ofNat value :: leBytes width (value / 256)

/-- The number a byte string stands for, least significant byte first. -/
def leValue : Bytes → Nat
  | [] => 0
  | byte :: bytes => byte.toNat + 256 * leValue bytes

@[simp] theorem length_leBytes (width value : Nat) : (leBytes width value).length = width := by
  induction width generalizing value with
  | zero => rfl
  | succ width ih => simp [leBytes, ih]

theorem leValue_leBytes {width value : Nat} (fits : value < 256 ^ width) :
    leValue (leBytes width value) = value := by
  induction width generalizing value with
  | zero =>
    have : value = 0 := by simpa using fits
    simp [leBytes, leValue, this]
  | succ width ih =>
    have small : value / 256 < 256 ^ width := by
      rw [pow_succ] at fits
      omega
    rw [leBytes, leValue, ih small, UInt8.toNat_ofNat']
    omega

theorem leBytes_leValue (bytes : Bytes) : leBytes bytes.length (leValue bytes) = bytes := by
  induction bytes with
  | nil => rfl
  | cons byte bytes ih =>
    have low := byte.toNat_lt
    have head : UInt8.ofNat (byte.toNat + 256 * leValue bytes) = byte := by
      apply UInt8.toNat_inj.mp
      rw [UInt8.toNat_ofNat']
      omega
    have tail : (byte.toNat + 256 * leValue bytes) / 256 = leValue bytes := by omega
    rw [List.length_cons, leBytes, leValue, head, tail, ih]

theorem leValue_lt (bytes : Bytes) : leValue bytes < 256 ^ bytes.length := by
  induction bytes with
  | nil => simp [leValue]
  | cons byte bytes ih =>
    have low := byte.toNat_lt
    rw [leValue, List.length_cons, pow_succ]
    omega

/-- A number in some bytes, the highest one first. -/
def beBytes (width value : Nat) : Bytes := (leBytes width value).reverse

/-- The number of some bytes, the highest one first. -/
def beValue (bytes : Bytes) : Nat := leValue bytes.reverse

@[simp] theorem length_beBytes (width value : Nat) : (beBytes width value).length = width := by
  rw [beBytes, List.length_reverse, length_leBytes]

end Lib
