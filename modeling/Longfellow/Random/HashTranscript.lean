/-
**The hash transcript** (`runtime/random/src/transcript.rs`).

A transcript absorbs every message into a hash, each message behind a tag and (but for a single
element) a length. Challenge bytes come from a block cipher in counter mode that is keyed with the
digest of what was absorbed, lazily at the first draw after a write. The hash and the cipher are
functions here (`Primitives`), and the state of the hasher is the bytes it was fed.

* `absorb_injective` — **a stream of messages is read back from its bytes**: the encoding of a
  message is prefix-free.
-/

import Longfellow.Proto.Util

namespace Longfellow

open Lib

/-! ### The generator -/

/-- The hash and the block cipher of a transcript. -/
structure Primitives where
  sha256 : Bytes → Vector UInt8 32
  aes256 : Vector UInt8 32 → Vector UInt8 16 → Vector UInt8 16

/-- The generator that runs the cipher in counter mode, with a partly used block. -/
structure FsPrf where
  key : Vector UInt8 32
  blockCounter : Nat
  readPointer : Nat
  outputBuffer : Vector UInt8 16
  deriving DecidableEq

/-- The maximum number of blocks of one generator. -/
def maxPrfBlocks : Nat := 0x10000000000

namespace FsPrf

def new (key : Vector UInt8 32) : FsPrf := ⟨key, 0, 16, Vector.replicate 16 0⟩

variable (prims : Primitives)

/-- The input block of a counter value: eight bytes of counter, eight of padding. -/
def counterBlock (blockCounter : Nat) : Vector UInt8 16 :=
  ⟨(leBytes 8 blockCounter ++ leBytes 8 0).toArray, by simp⟩

/-- Encrypt the next counter value into the buffer. -/
def refill (g : FsPrf) : Exec Empty FsPrf := do
  ensure (g.blockCounter < maxPrfBlocks) "too many blocks"
  pure { g with
    outputBuffer := prims.aes256 g.key (counterBlock g.blockCounter)
    blockCounter := g.blockCounter + 1
    readPointer := 0 }

/-- One byte of output. -/
def byte (g : FsPrf) : Exec Empty (UInt8 × FsPrf) := do
  let g ← (if g.readPointer = 16 then refill prims g else pure g : Exec Empty FsPrf)
  let out ← getAt g.outputBuffer.toList g.readPointer
  pure (out, { g with readPointer := g.readPointer + 1 })

/-- The next `len` bytes of output. -/
def bytes : Nat → FsPrf → Exec Empty (Bytes × FsPrf)
  | 0, g => pure ([], g)
  | len + 1, g => do
    let (out, g) ← byte prims g
    let (rest, g) ← bytes len g
    pure (out :: rest, g)

/-- Two draws in a row are one draw of both lengths. -/
theorem bytes_add (a b : Nat) (g : FsPrf) :
    bytes prims (a + b) g = (do
      let (first, g) ← bytes prims a g
      let (second, g) ← bytes prims b g
      pure (first ++ second, g)) := by
  induction a generalizing g with
  | zero =>
    simp only [Nat.zero_add, bytes, pure_eq_ok, ok_bind]
    cases bytes prims b g <;> rfl
  | succ a ih =>
    rw [Nat.add_right_comm, bytes, bytes]
    cases byte prims g with
    | error fault => rfl
    | ok head =>
      simp only [ok_bind, ih]
      cases bytes prims a head.2 with
      | error fault => rfl
      | ok first =>
        simp only [pure_eq_ok, ok_bind]
        cases bytes prims b first.2 <;> rfl

end FsPrf

/-! ### Messages -/

/-- A slice: its length is a size of 64 bits. -/
abbrev Slice (α : Type) := { xs : List α // xs.length < 2 ^ 64 }

/-- A call that writes to a transcript. -/
inductive Write (E : Type) where
  | bytes (data : Slice UInt8)
  | zeros (n : Fin (2 ^ 64))
  | eltField (e : E)
  | eltFieldSlice (es : Slice E)
  deriving DecidableEq

/-- The tags of byte strings, elements and arrays. -/
def tagBstr : UInt8 := 0
def tagFieldElem : UInt8 := 1
def tagArray : UInt8 := 2

/-- The bytes fed to the hasher so far, and the generator of the draws since the last write. -/
structure HashTranscript where
  hashAccumulator : Bytes
  pseudorandomGenerator : Option FsPrf
  deriving DecidableEq

namespace HashTranscript

variable {E : Type} (f : SerializableField E) (prims : Primitives)

/-- Feed the hasher; the generator is dropped. -/
def writeUntyped (data : Bytes) (t : HashTranscript) : HashTranscript :=
  ⟨t.hashAccumulator ++ data, none⟩

def tag (value : UInt8) (t : HashTranscript) : HashTranscript := writeUntyped [value] t

def length (x : Nat) (t : HashTranscript) : HashTranscript := writeUntyped (leBytes 8 x) t

def writeBytes (data : Bytes) (t : HashTranscript) : HashTranscript :=
  writeUntyped data (length data.length (tag tagBstr t))

/-- Transcripts start with a write of their initial bytes. -/
def new (init : Bytes) : HashTranscript := writeBytes init ⟨[], none⟩

/-- The size of the buffer of zeros. -/
def bufSize : Nat := 8192

/-- Feed `n` zeros, a buffer at a time. -/
def writeZeros (n : Nat) (t : HashTranscript) : HashTranscript :=
  if bufSize ≤ n then
    writeZeros (n - bufSize) (writeUntyped (List.replicate bufSize 0) t)
  else if 0 < n then writeUntyped (List.replicate n 0) t
  else t
termination_by n
decreasing_by
  have : bufSize = 8192 := rfl
  omega

def write0 (n : Nat) (t : HashTranscript) : HashTranscript :=
  writeZeros n (length n (tag tagBstr t))

/-- Serialize an element through a buffer of 128 bytes. -/
def writeUntypedElt (e : E) (t : HashTranscript) : Exec Empty HashTranscript := do
  ensure (f.serializedSizeBytes ≤ 128) "range end index out of range for slice of length 128"
  pure (writeUntyped (f.toBytes e) t)

def writeEltField (e : E) (t : HashTranscript) : Exec Empty HashTranscript :=
  writeUntypedElt f e (tag tagFieldElem t)

def writeEltFieldSlice (es : List E) (t : HashTranscript) : Exec Empty HashTranscript :=
  es.foldlM (fun t e => writeUntypedElt f e t) (length es.length (tag tagArray t))

/-- The write a call asks for. -/
def write : Write E → HashTranscript → Exec Empty HashTranscript
  | .bytes data, t => pure (writeBytes data.1 t)
  | .zeros n, t => pure (write0 n t)
  | .eltField e, t => writeEltField f e t
  | .eltFieldSlice es, t => writeEltFieldSlice f es.1 t

/-- The digest of everything absorbed. -/
def getHash (t : HashTranscript) : Vector UInt8 32 := prims.sha256 t.hashAccumulator

/-- Challenge bytes; the generator is keyed at the first draw after a write. -/
def bytes (len : Nat) (t : HashTranscript) : Exec Empty (Bytes × HashTranscript) := do
  let g := t.pseudorandomGenerator.getD (FsPrf.new (t.getHash prims))
  let (out, g) ← FsPrf.bytes prims len g
  pure (out, { t with pseudorandomGenerator := some g })

/-! ### What a write absorbs -/

/-- The bytes a call adds to the hash. -/
def encode : Write E → Bytes
  | .bytes data => tagBstr :: (leBytes 8 data.1.length ++ data.1)
  | .zeros n => tagBstr :: (leBytes 8 n ++ List.replicate n 0)
  | .eltField e => tagFieldElem :: f.toBytes e
  | .eltFieldSlice es => tagArray :: (leBytes 8 es.1.length ++ es.1.flatMap f.toBytes)

theorem writeUntyped_writeUntyped (first second : Bytes) (t : HashTranscript) :
    writeUntyped second (writeUntyped first t) = writeUntyped (first ++ second) t := by
  simp only [writeUntyped, List.append_assoc]

theorem writeZeros_eq (n : Nat) (t : HashTranscript) (fresh : t.pseudorandomGenerator = none) :
    writeZeros n t = writeUntyped (List.replicate n 0) t := by
  fun_induction writeZeros n t with
  | case1 n t large ih =>
    have split : bufSize + (n - bufSize) = n := Nat.add_sub_cancel' large
    rw [ih rfl, writeUntyped_writeUntyped, List.replicate_append_replicate, split]
  | case2 n t large positive => rfl
  | case3 n t large none =>
    obtain rfl : n = 0 := by omega
    simp only [writeUntyped, List.replicate_zero, List.append_nil, ← fresh]

variable {t after : HashTranscript}

theorem foldlM_writeUntypedElt {es : List E} {data : Bytes}
    (ran : es.foldlM (fun t e => writeUntypedElt f e t) (writeUntyped data t) = .ok after) :
    after = writeUntyped (data ++ es.flatMap f.toBytes) t := by
  refine foldlM_preserves
    (fun done after => after = writeUntyped (data ++ done.flatMap f.toBytes) t) ?_ ?_ ran
  · rw [List.flatMap_nil, List.append_nil]
  · rintro done e _ next - rfl stepped
    obtain ⟨_, _, stepped⟩ := bind_eq_ok.mp stepped
    rw [← Except.ok.inj stepped, writeUntyped_writeUntyped, List.append_assoc,
      List.flatMap_append, List.flatMap_singleton]

variable {w : Write E}

theorem write_eq (ran : write f w t = .ok after) :
    after = writeUntyped (encode f w) t := by
  cases w with
  | bytes data =>
    rw [← Except.ok.inj ran]
    simp only [writeBytes, length, tag, writeUntyped_writeUntyped, encode]
    rfl
  | zeros n =>
    rw [← Except.ok.inj ran]
    rw [write0, length, writeZeros_eq n.val (writeUntyped _ _) rfl]
    simp only [tag, writeUntyped_writeUntyped, encode, List.append_assoc]
    rfl
  | eltField e =>
    obtain ⟨_, _, ran⟩ := bind_eq_ok.mp ran
    rw [← Except.ok.inj ran, tag, writeUntyped_writeUntyped]
    rfl
  | eltFieldSlice es =>
    rw [write, writeEltFieldSlice, length, tag, writeUntyped_writeUntyped] at ran
    rw [foldlM_writeUntypedElt f ran, List.append_assoc]
    rfl

/-! ### The encoding is prefix-free -/

/-- Zeros and a byte string of zeros are the same message. -/
def normal : Write E → Write E
  | .zeros n => .bytes ⟨List.replicate n 0, by rw [List.length_replicate]; exact n.isLt⟩
  | w => w

theorem encode_normal (w : Write E) : encode f (normal w) = encode f w := by
  cases w <;> simp [normal, encode]

theorem normal_cases (w : Write E) : (∃ data, normal w = .bytes data) ∨
    (∃ e, normal w = .eltField e) ∨ ∃ es, normal w = .eltFieldSlice es := by
  cases w <;> simp [normal]

theorem toBytes_inj {f : SerializableField E} (lawful : LawfulField f) {e e' : E}
    (same : f.toBytes e = f.toBytes e') : e = e' := by
  have parsed := lawful.parse_toBytes e
  rw [same, lawful.parse_toBytes e'] at parsed
  exact (Except.ok.inj parsed).symm

variable {rest rest' : Bytes}

theorem lengthBytes_inj {n n' : Nat} (small : n < 2 ^ 64) (small' : n' < 2 ^ 64)
    (same : leBytes 8 n ++ rest = leBytes 8 n' ++ rest') : n = n' ∧ rest = rest' := by
  obtain ⟨lengths, tails⟩ := List.append_inj same (by rw [length_leBytes, length_leBytes])
  have values := congrArg leValue lengths
  rw [leValue_leBytes small, leValue_leBytes small'] at values
  exact ⟨values, tails⟩

theorem flatMap_toBytes_inj {f : SerializableField E} (lawful : LawfulField f) {es es' : List E}
    (sizes : es.length = es'.length)
    (same : es.flatMap f.toBytes ++ rest = es'.flatMap f.toBytes ++ rest') :
    es = es' ∧ rest = rest' := by
  induction es generalizing es' with
  | nil =>
    obtain rfl := List.eq_nil_of_length_eq_zero sizes.symm
    exact ⟨rfl, same⟩
  | cons e es ih =>
    obtain ⟨e', es', rfl⟩ := List.exists_cons_of_length_eq_add_one sizes.symm
    simp only [List.flatMap_cons, List.append_assoc] at same
    obtain ⟨heads, tails⟩ := List.append_inj same (by rw [f.length_toBytes, f.length_toBytes])
    obtain ⟨rfl, rfl⟩ := ih (by simpa using sizes) tails
    exact ⟨by rw [toBytes_inj lawful heads], rfl⟩

/-- **The encoding of a message is prefix-free.** -/
theorem encode_append_inj {f : SerializableField E} (lawful : LawfulField f) {w' : Write E}
    (same : encode f w ++ rest = encode f w' ++ rest') :
    normal w = normal w' ∧ rest = rest' := by
  rw [← encode_normal f w, ← encode_normal f w'] at same
  obtain ⟨data, isBytes⟩ | ⟨e, isElt⟩ | ⟨es, isArray⟩ := normal_cases w
  · obtain ⟨data', isBytes'⟩ | ⟨e', isElt'⟩ | ⟨es', isArray'⟩ := normal_cases w'
    · rw [isBytes, isBytes', encode, encode, List.cons_append, List.cons_append, List.append_assoc,
        List.append_assoc] at same
      obtain ⟨sizes, same⟩ := lengthBytes_inj data.2 data'.2 (List.cons.inj same).2
      obtain ⟨contents, rests⟩ := List.append_inj same sizes
      exact ⟨by rw [isBytes, isBytes', Subtype.ext contents], rests⟩
    · rw [isBytes, isElt'] at same
      exact absurd (List.cons.inj same).1 (by decide)
    · rw [isBytes, isArray'] at same
      exact absurd (List.cons.inj same).1 (by decide)
  · obtain ⟨data', isBytes'⟩ | ⟨e', isElt'⟩ | ⟨es', isArray'⟩ := normal_cases w'
    · rw [isElt, isBytes'] at same
      exact absurd (List.cons.inj same).1 (by decide)
    · rw [isElt, isElt'] at same
      have same := (List.cons.inj same).2
      obtain ⟨heads, rests⟩ := List.append_inj same (by rw [f.length_toBytes, f.length_toBytes])
      exact ⟨by rw [isElt, isElt', toBytes_inj lawful heads], rests⟩
    · rw [isElt, isArray'] at same
      exact absurd (List.cons.inj same).1 (by decide)
  · obtain ⟨data', isBytes'⟩ | ⟨e', isElt'⟩ | ⟨es', isArray'⟩ := normal_cases w'
    · rw [isArray, isBytes'] at same
      exact absurd (List.cons.inj same).1 (by decide)
    · rw [isArray, isElt'] at same
      exact absurd (List.cons.inj same).1 (by decide)
    · rw [isArray, isArray', encode, encode, List.cons_append, List.cons_append, List.append_assoc,
        List.append_assoc] at same
      obtain ⟨sizes, same⟩ := lengthBytes_inj es.2 es'.2 (List.cons.inj same).2
      obtain ⟨contents, rests⟩ := flatMap_toBytes_inj lawful sizes same
      exact ⟨by rw [isArray, isArray', Subtype.ext contents], rests⟩

theorem encode_ne_nil (w : Write E) : encode f w ≠ [] := by
  cases w <;> exact List.cons_ne_nil _ _

/-- **Equal streams of bytes come from equal sequences of messages.** -/
theorem absorb_injective {f : SerializableField E} (lawful : LawfulField f) {ws ws' : List (Write E)}
    (same : ws.flatMap (encode f) = ws'.flatMap (encode f)) :
    ws.map normal = ws'.map normal := by
  induction ws generalizing ws' with
  | nil =>
    cases ws' with
    | nil => rfl
    | cons w' ws' =>
      rw [List.flatMap_cons, List.flatMap_nil] at same
      exact absurd (List.append_eq_nil_iff.mp same.symm).1 (encode_ne_nil f w')
  | cons w ws ih =>
    cases ws' with
    | nil =>
      rw [List.flatMap_cons, List.flatMap_nil] at same
      exact absurd (List.append_eq_nil_iff.mp same).1 (encode_ne_nil f w)
    | cons w' ws' =>
      rw [List.flatMap_cons, List.flatMap_cons] at same
      obtain ⟨heads, tails⟩ := encode_append_inj lawful same
      rw [List.map_cons, List.map_cons, heads, ih tails]

/-! ### Runs -/

/-- A call of a run: a write, or a draw of some bytes. -/
inductive Call (E : Type) where
  | write (w : Write E)
  | draw (len : Nat)

/-- The writes of a run, in order. -/
def writeLog : List (Call E) → List (Write E)
  | [] => []
  | .write w :: calls => w :: writeLog calls
  | .draw _ :: calls => writeLog calls

/-- Make the calls of a run; the bytes drawn come with the final state. -/
def run : List (Call E) → HashTranscript → Exec Empty (List Bytes × HashTranscript)
  | [], t => pure ([], t)
  | .write w :: calls, t => do
    let t ← write f w t
    run calls t
  | .draw len :: calls, t => do
    let (out, t) ← bytes prims len t
    let (outs, t) ← run calls t
    pure (out :: outs, t)

theorem bytes_hashAccumulator {len : Nat} {out : Bytes} (ran : bytes prims len t = .ok (out, after)) :
    after.hashAccumulator = t.hashAccumulator := by
  obtain ⟨g, _, ran⟩ := bind_eq_ok.mp ran
  rw [← (Prod.mk.inj (Except.ok.inj ran)).2]

variable {calls : List (Call E)} {outs : List Bytes}

theorem run_hashAccumulator (ran : run f prims calls t = .ok (outs, after)) :
    after.hashAccumulator = t.hashAccumulator ++ (writeLog calls).flatMap (encode f) := by
  induction calls generalizing t outs with
  | nil =>
    rw [← (Prod.mk.inj (Except.ok.inj ran)).2, writeLog, List.flatMap_nil, List.append_nil]
  | cons call calls ih =>
    cases call with
    | write w =>
      obtain ⟨next, wrote, ran⟩ := bind_eq_ok.mp ran
      rw [ih ran, write_eq f wrote, writeLog, List.flatMap_cons, ← List.append_assoc]
      rfl
    | draw len =>
      obtain ⟨⟨out, next⟩, drew, ran⟩ := bind_eq_ok.mp ran
      obtain ⟨⟨outs', last⟩, later, final⟩ := bind_eq_ok.mp ran
      obtain ⟨-, rfl⟩ := Prod.mk.inj (Except.ok.inj final)
      rw [ih later, bytes_hashAccumulator prims drew, writeLog]

/-- **A write forgets the draws before it**: the state it leaves is a function of the bytes
absorbed. -/
theorem write_forgets {t' after' : HashTranscript}
    (absorbed : t.hashAccumulator = t'.hashAccumulator) (ran : write f w t = .ok after)
    (ran' : write f w t' = .ok after') : after = after' := by
  rw [write_eq f ran, write_eq f ran', writeUntyped, writeUntyped, absorbed]

theorem bytes_add (a b : Nat) (t : HashTranscript) :
    bytes prims (a + b) t = (do
      let (first, t) ← bytes prims a t
      let (second, t) ← bytes prims b t
      pure (first ++ second, t)) := by
  simp only [bytes, FsPrf.bytes_add]
  generalize t.pseudorandomGenerator.getD (FsPrf.new (getHash prims t)) = g
  cases FsPrf.bytes prims a g with
  | error fault => rfl
  | ok first =>
    simp only [ok_bind, pure_eq_ok, Option.getD_some]
    cases FsPrf.bytes prims b first.2 <;> rfl

theorem run_append (first second : List (Call E)) (t : HashTranscript) :
    run f prims (first ++ second) t = (do
      let (outs, t) ← run f prims first t
      let (outs', t) ← run f prims second t
      pure (outs ++ outs', t)) := by
  induction first generalizing t with
  | nil =>
    simp only [List.nil_append, run, pure_eq_ok, ok_bind]
    cases run f prims second t <;> rfl
  | cons call calls ih =>
    cases call with
    | write w =>
      rw [List.cons_append, run, run]
      cases write f w t with
      | error fault => rfl
      | ok next => exact ih next
    | draw len =>
      rw [List.cons_append, run, run]
      cases bytes prims len t with
      | error fault => rfl
      | ok drawn =>
        simp only [ok_bind, ih]
        cases run f prims calls drawn.2 with
        | error fault => rfl
        | ok ran =>
          simp only [ok_bind, pure_eq_ok]
          cases run f prims second ran.2 <;> rfl

theorem run_write_eq_ok {start : HashTranscript}
    (ran : run f prims (calls ++ [.write w]) start = .ok (outs, after)) :
    ∃ outs before, run f prims calls start = .ok (outs, before) ∧ write f w before = .ok after := by
  rw [run_append] at ran
  obtain ⟨⟨outs', before⟩, first, ran⟩ := bind_eq_ok.mp ran
  obtain ⟨⟨_, last⟩, second, ran⟩ := bind_eq_ok.mp ran
  obtain ⟨-, rfl⟩ := Prod.mk.inj (Except.ok.inj ran)
  obtain ⟨next, wrote, ended⟩ := bind_eq_ok.mp second
  obtain ⟨-, rfl⟩ := Prod.mk.inj (Except.ok.inj ended)
  exact ⟨outs', before, first, wrote⟩

theorem run_write_forgets {calls' : List (Call E)} {start start' after' : HashTranscript}
    {outs' : List Bytes} (absorbed : start.hashAccumulator = start'.hashAccumulator)
    (log : writeLog calls = writeLog calls')
    (ran : run f prims (calls ++ [.write w]) start = .ok (outs, after))
    (ran' : run f prims (calls' ++ [.write w]) start' = .ok (outs', after')) :
    after = after' := by
  obtain ⟨_, before, first, wrote⟩ := run_write_eq_ok f prims ran
  obtain ⟨_, before', first', wrote'⟩ := run_write_eq_ok f prims ran'
  refine write_forgets f ?_ wrote wrote'
  rw [run_hashAccumulator f prims first, run_hashAccumulator f prims first', absorbed, log]

/-- **Challenges follow the writes.** Two runs absorb the same bytes exactly when their writes are
the same, up to zeros written as such or as a byte string; after a write every later call of a run
answers as in any other run with the same writes, whatever was drawn before; and drawing in two
parts is drawing at once. -/
theorem challenges_follow_writes {f : SerializableField E} (lawful : LawfulField f) :
    (∀ (init : Bytes) (calls calls' : List (Call E)) (outs outs' : List Bytes)
        (after after' : HashTranscript),
      run f prims calls (new init) = .ok (outs, after) →
      run f prims calls' (new init) = .ok (outs', after') →
      (after.hashAccumulator = after'.hashAccumulator ↔
        (writeLog calls).map normal = (writeLog calls').map normal)) ∧
    (∀ (init : Bytes) (calls calls' : List (Call E)) (w : Write E) (outs outs' : List Bytes)
        (after after' : HashTranscript),
      writeLog calls = writeLog calls' →
      run f prims (calls ++ [.write w]) (new init) = .ok (outs, after) →
      run f prims (calls' ++ [.write w]) (new init) = .ok (outs', after') →
      ∀ later, run f prims later after = run f prims later after') ∧
    (∀ (a b : Nat) (t : HashTranscript),
      bytes prims (a + b) t = (do
        let (first, t) ← bytes prims a t
        let (second, t) ← bytes prims b t
        pure (first ++ second, t))) := by
  refine ⟨?_, ?_, bytes_add prims⟩
  · intro init calls calls' outs outs' after after' ran ran'
    rw [run_hashAccumulator f prims ran, run_hashAccumulator f prims ran', List.append_cancel_left_eq]
    refine ⟨absorb_injective lawful, fun same => ?_⟩
    have encoded := congrArg (List.flatMap (encode f)) same
    simpa only [List.flatMap_map, encode_normal] using encoded
  · intro init calls calls' w outs outs' after after' log ran ran' later
    rw [run_write_forgets f prims rfl log ran ran']

/-- A hash and a cipher for a check by hand: sums of bytes. -/
def sumPrimitives : Primitives where
  sha256 data := Vector.ofFn fun i => UInt8.ofNat (leValue data + i)
  aes256 key block := Vector.ofFn fun i => key[i] + block[i]

/-- Bytes drawn before an element is written do not change the draws after it, and leave no trace
in the hash. -/
theorem challenges_follow_writes_drawn : ∃ (outs outs' : List Bytes) (after after' : HashTranscript),
    run (primeField 7 1) sumPrimitives ([.draw 3] ++ [.write (.eltField 5)]) (new [1, 2]) =
      .ok (outs, after) ∧
    run (primeField 7 1) sumPrimitives ([] ++ [.write (.eltField 5)]) (new [1, 2]) =
      .ok (outs', after') ∧
    after.hashAccumulator = after'.hashAccumulator ∧
    ∀ later, run (primeField 7 1) sumPrimitives later after =
      run (primeField 7 1) sumPrimitives later after' := by
  have lawful : LawfulField (primeField 7 1) := lawful_primeField (by decide)
  have facts := challenges_follow_writes sumPrimitives lawful
  refine ⟨_, _, _, _, rfl, rfl, ?_, ?_⟩
  · exact (facts.1 [1, 2] ([.draw 3] ++ [.write (.eltField 5)]) ([] ++ [.write (.eltField 5)])
      _ _ _ _ rfl rfl).mpr rfl
  · exact facts.2.1 [1, 2] [.draw 3] [] (.eltField 5) _ _ _ _ rfl rfl rfl

end HashTranscript

end Longfellow
