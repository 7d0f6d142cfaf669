/-
**SHA-256** (`circuits/sha256/src/concrete.rs`, `circuits/sha256msg/src/concrete.rs`).

One block of 64 rounds with all its values, which a circuit takes as its witness, and the padded
message with the blocks of a whole buffer.

* `padSha256Message_decides` — **the padded buffer**: the message, one bit, zeros and the length,
  then zeros up to the blocks of the circuit; the call fails when the message does not fit, and
  never panics.
-/

import Longfellow.Lib.Safe
import Mathlib.Data.List.FinRange

namespace Longfellow.Sha256

open Lib

variable {ε : Type}

abbrev Word := BitVec 32

def k : Vector Word 64 := #v[
  0x428a2f98, 0x71374491, 0xb5c0fbcf, 0xe9b5dba5, 0x3956c25b, 0x59f111f1, 0x923f82a4, 0xab1c5ed5,
  0xd807aa98, 0x12835b01, 0x243185be, 0x550c7dc3, 0x72be5d74, 0x80deb1fe, 0x9bdc06a7, 0xc19bf174,
  0xe49b69c1, 0xefbe4786, 0x0fc19dc6, 0x240ca1cc, 0x2de92c6f, 0x4a7484aa, 0x5cb0a9dc, 0x76f988da,
  0x983e5152, 0xa831c66d, 0xb00327c8, 0xbf597fc7, 0xc6e00bf3, 0xd5a79147, 0x06ca6351, 0x14292967,
  0x27b70a85, 0x2e1b2138, 0x4d2c6dfc, 0x53380d13, 0x650a7354, 0x766a0abb, 0x81c2c92e, 0x92722c85,
  0xa2bfe8a1, 0xa81a664b, 0xc24b8b70, 0xc76c51a3, 0xd192e819, 0xd6990624, 0xf40e3585, 0x106aa070,
  0x19a4c116, 0x1e376c08, 0x2748774c, 0x34b0bcb5, 0x391c0cb3, 0x4ed8aa4a, 0x5b9cca4f, 0x682e6ff3,
  0x748f82ee, 0x78a5636f, 0x84c87814, 0x8cc70208, 0x90befffa, 0xa4506ceb, 0xbef9a3f7, 0xc67178f2]

def initial : Vector Word 8 := #v[
  0x6a09e667, 0xbb67ae85, 0x3c6ef372, 0xa54ff53a, 0x510e527f, 0x9b05688c, 0x1f83d9ab, 0x5be0cd19]

def ch (x y z : Word) : Word := (x &&& y) ^^^ (~~~x &&& z)

def maj (x y z : Word) : Word := (x &&& y) ^^^ (x &&& z) ^^^ (y &&& z)

def bigSigma0 (x : Word) : Word := x.rotateRight 2 ^^^ x.rotateRight 13 ^^^ x.rotateRight 22

def bigSigma1 (x : Word) : Word := x.rotateRight 6 ^^^ x.rotateRight 11 ^^^ x.rotateRight 25

def sigma0 (x : Word) : Word := x.rotateRight 7 ^^^ x.rotateRight 18 ^^^ x >>> 3

def sigma1 (x : Word) : Word := x.rotateRight 17 ^^^ x.rotateRight 19 ^^^ x >>> 10

/-! ### One block -/

structure ConcreteGiven where
  inputBlock : Vector Word 16
  h0 : Vector Word 8

structure ConcreteDerived where
  outw : Vector Word 48
  oute : Vector Word 64
  outa : Vector Word 64
  h1 : Vector Word 8

/-- The words of the rounds: those of the block and those made from them. -/
def schedule (inputBlock : Vector Word 16) : Vector Word 64 :=
  (List.finRange 48).foldl (fun w i =>
    w.set (i.val + 16) (w[i.val] + sigma0 w[i.val + 1] + w[i.val + 9] + sigma1 w[i.val + 14]))
    (inputBlock ++ (Vector.replicate 48 0 : Vector Word 48))

/-- The working variables. -/
structure Registers where
  a : Word
  b : Word
  c : Word
  d : Word
  e : Word
  f : Word
  g : Word
  h : Word

def Registers.ofState (h0 : Vector Word 8) : Registers :=
  ⟨h0[0], h0[1], h0[2], h0[3], h0[4], h0[5], h0[6], h0[7]⟩

/-- One round, with its constant and its word. -/
def Registers.round (s : Registers) (k w : Word) : Registers :=
  let temp1 := s.h + bigSigma1 s.e + ch s.e s.f s.g + k + w
  let temp2 := bigSigma0 s.a + maj s.a s.b s.c
  ⟨temp1 + temp2, s.a, s.b, s.c, s.d + temp1, s.e, s.f, s.g⟩

/-- The working variables after all rounds, and two of them after each round. -/
def rounds (w : Vector Word 64) (start : Registers) :
    Registers × Vector Word 64 × Vector Word 64 :=
  (List.finRange 64).foldl (fun (s, oute, outa) i =>
    let s := s.round k[i.val] w[i.val]
    (s, oute.set i.val s.e, outa.set i.val s.a))
    (start, Vector.replicate 64 0, Vector.replicate 64 0)

def blockDerived (given : ConcreteGiven) : ConcreteDerived :=
  let w := schedule given.inputBlock
  let (s, oute, outa) := rounds w (Registers.ofState given.h0)
  let h0 := given.h0
  { outw := w.extract 16 64
    oute, outa
    h1 := #v[h0[0] + s.a, h0[1] + s.b, h0[2] + s.c, h0[3] + s.d, h0[4] + s.e, h0[5] + s.f,
      h0[6] + s.g, h0[7] + s.h] }

/-- The values of a block in the order of the circuit. -/
def ConcreteDerived.modernElements (derived : ConcreteDerived) : List Word :=
  derived.outw.toList ++ derived.oute.toList ++ derived.outa.toList ++ derived.h1.toList

/-- The values of a block in the order of the first circuits. -/
def ConcreteDerived.legacyElements (derived : ConcreteDerived) : List Word :=
  derived.outw.toList ++ (derived.oute.toList.zip derived.outa.toList).flatMap
    (fun pair => [pair.1, pair.2]) ++ derived.h1.toList

/-! ### A whole message -/

/-- The length changed, with a byte for what is missing. -/
def resize (xs : Bytes) (len : ℕ) (b : UInt8) : Bytes :=
  xs.take len ++ List.replicate (len - xs.length) b

/-- The padded message: its blocks, its length, and its bytes. -/
def padSha256Message (preimage : Bytes) (maxBlocks : ℕ) : Exec String (ℕ × ℕ × Bytes) := do
  let padded := preimage ++ [0x80]
  let nblocks := divCeil (padded.length + 8) 64
  check (nblocks ≤ maxBlocks) ("preimage length " ++ toString preimage.length ++ " requires " ++
    toString nblocks ++ " blocks, which exceeds max_blocks=" ++ toString maxBlocks)
  let nblocks := if nblocks = 0 then 1 else nblocks
  let targetLen := nblocks * 64 - 8
  let padded := padded ++ List.replicate (targetLen - padded.length) 0
  let padded := padded ++ beBytes 8 (preimage.length * 8)
  ensure (padded.length = nblocks * 64) "assertion `left == right` failed"
  ensure (padded.length ≤ maxBlocks * 64)
    "assertion failed: padded_preimage.len() <= max_blocks * 64"
  return (nblocks, preimage.length, resize padded (maxBlocks * 64) 0)

/-- A word of a block, the highest byte first. -/
def blockWord (block : Bytes) (j : ℕ) : Exec ε Word := do
  let b0 ← getAt block (j * 4)
  let b1 ← getAt block (j * 4 + 1)
  let b2 ← getAt block (j * 4 + 2)
  let b3 ← getAt block (j * 4 + 3)
  return b0.toBitVec ++ b1.toBitVec ++ b2.toBitVec ++ b3.toBitVec

def inputBlock (block : Bytes) : Exec ε (Vector Word 16) :=
  Vector.ofFnM fun j => blockWord block j.val

/-- One block of the buffer, or of zeros behind it. -/
def blockAt (paddedPreimage : Bytes) (i : ℕ) : Exec ε Bytes :=
  if i < paddedPreimage.length / 64 then slice paddedPreimage (i * 64) ((i + 1) * 64)
  else pure (List.replicate 64 0)

/-- The values of one more block, behind the state so far and the values so far. -/
def blockStep (s : Vector Word 8 × List ConcreteDerived) (block : Vector Word 16) :
    Vector Word 8 × List ConcreteDerived :=
  let next := blockDerived ⟨block, s.1⟩
  (next.h1, s.2 ++ [next])

/-- The values of the blocks one after the other. -/
def sha256MsgDerived (paddedPreimage : Bytes) (initialState : Vector Word 8) (maxBlocks : ℕ) :
    Exec ε (List ConcreteDerived) := do
  let last ← (List.range maxBlocks).foldlM (fun s i => do
    let block ← inputBlock (← blockAt paddedPreimage i)
    return blockStep s block) (initialState, [])
  return last.2

/-- What is given to the circuit of a message. -/
structure MsgGiven where
  paddedPreimage : Bytes
  nblocks : ℕ
  lengthBytes : ℕ
  expectedHash : Vector Word 8

def msgGiven (preimage : Bytes) (expectedHash : Vector Word 8) (maxBlocks : ℕ) :
    Exec String MsgGiven := do
  let (nblocks, lengthBytes, paddedPreimage) ← padSha256Message preimage maxBlocks
  let shaDerived ← sha256MsgDerived paddedPreimage expectedHash maxBlocks
  let expectedHash ←
    if 0 < nblocks then do
      let last ← getAt shaDerived (nblocks - 1)
      pure last.h1
    else pure expectedHash
  return ⟨paddedPreimage, nblocks, lengthBytes, expectedHash⟩

/-- The witness of a message. -/
def msgDerived (given : MsgGiven) (maxBlocks : ℕ) : Exec ε (List ConcreteDerived) :=
  sha256MsgDerived given.paddedPreimage initial maxBlocks

/-! ### The padding -/

/-- The blocks that a message of a length takes. -/
def blocksFor (len : ℕ) : ℕ := divCeil (len + 9) 64

/-- What follows a message of a length in its last block. -/
def padding (len : ℕ) : Bytes :=
  0x80 :: (List.replicate (blocksFor len * 64 - 9 - len) 0 ++ beBytes 8 (len * 8))

/-- The buffer of a message that fits. -/
def paddedBuffer (preimage : Bytes) (maxBlocks : ℕ) : Bytes :=
  preimage ++ padding preimage.length ++
    List.replicate ((maxBlocks - blocksFor preimage.length) * 64) 0

theorem le_blocksFor (len : ℕ) : len + 9 ≤ blocksFor len * 64 := le_divCeil_mul _ (by decide)

theorem blocksFor_pos (len : ℕ) : 0 < blocksFor len := by
  have room := le_blocksFor len
  omega

theorem length_padding (len : ℕ) : len + (padding len).length = blocksFor len * 64 := by
  have room := le_blocksFor len
  rw [padding, List.length_cons, List.length_append, List.length_replicate, length_beBytes]
  omega

variable {maxBlocks : ℕ}

theorem length_paddedBuffer {preimage : Bytes} (fits : blocksFor preimage.length ≤ maxBlocks) :
    (paddedBuffer preimage maxBlocks).length = maxBlocks * 64 := by
  have size := length_padding preimage.length
  have scaled := Nat.mul_le_mul_right 64 fits
  rw [paddedBuffer, List.length_append, List.length_append, List.length_replicate, size,
    Nat.sub_mul]
  omega

/-- **The padded message**, exactly when it fits. -/
theorem padSha256Message_decides (preimage : Bytes) (maxBlocks : ℕ) :
    Decides (padSha256Message preimage maxBlocks) (blocksFor preimage.length ≤ maxBlocks)
      (blocksFor preimage.length, preimage.length, paddedBuffer preimage maxBlocks) := by
  have blocks : divCeil ((preimage ++ [0x80]).length + 8) 64 = blocksFor preimage.length := by
    rw [List.length_append, List.length_singleton, blocksFor]
  unfold padSha256Message
  dsimp only
  rw [blocks, if_neg (blocksFor_pos preimage.length).ne']
  refine ((decides_check _ _).bind fun fits => ?_).congr (iff_of_eq (and_true _))
  have scaled := Nat.mul_le_mul_right 64 fits
  have zeros : blocksFor preimage.length * 64 - 8 - (preimage ++ [0x80]).length =
      blocksFor preimage.length * 64 - 9 - preimage.length := by
    rw [List.length_append, List.length_singleton]
    omega
  have whole : preimage ++ [0x80] ++
      List.replicate (blocksFor preimage.length * 64 - 8 - (preimage ++ [0x80]).length) 0 ++
      beBytes 8 (preimage.length * 8) = preimage ++ padding preimage.length := by
    rw [zeros, padding, List.append_assoc, List.append_assoc, List.singleton_append]
  rw [whole]
  have size : (preimage ++ padding preimage.length).length = blocksFor preimage.length * 64 := by
    rw [List.length_append, length_padding]
  have resized : resize (preimage ++ padding preimage.length) (maxBlocks * 64) 0 =
      paddedBuffer preimage maxBlocks := by
    rw [resize, List.take_of_length_le (by rw [size]; exact scaled), size, paddedBuffer,
      Nat.sub_mul]
  rw [ensure_of size, ok_bind, ensure_of (by rw [size]; exact scaled), ok_bind, resized]
  exact decides_pure _

/-! ### The blocks of the buffer -/

/-- A word of a buffer, the highest byte first. -/
def wordAt (bytes : Bytes) (j : ℕ) : Word :=
  (bytes.getD (j * 4) 0).toBitVec ++ (bytes.getD (j * 4 + 1) 0).toBitVec ++
    (bytes.getD (j * 4 + 2) 0).toBitVec ++ (bytes.getD (j * 4 + 3) 0).toBitVec

/-- The words of a block of a buffer. -/
def blockWords (bytes : Bytes) (i : ℕ) : Vector Word 16 :=
  Vector.ofFn fun j => wordAt bytes (i * 16 + j.val)

/-- The values of the first blocks of a buffer, and the state behind them. -/
def messageValues (bytes : Bytes) (initialState : Vector Word 8) (count : ℕ) :
    Vector Word 8 × List ConcreteDerived :=
  (List.range count).foldl (fun s i => blockStep s (blockWords bytes i)) (initialState, [])

theorem messageValues_succ (bytes : Bytes) (initialState : Vector Word 8) (count : ℕ) :
    messageValues bytes initialState (count + 1) =
      blockStep (messageValues bytes initialState count) (blockWords bytes count) := by
  rw [messageValues, List.range_succ, List.foldl_append]
  rfl

@[simp] theorem length_messageValues (bytes : Bytes) (initialState : Vector Word 8) (count : ℕ) :
    (messageValues bytes initialState count).2.length = count := by
  induction count with
  | zero => rfl
  | succ count ih =>
    rw [messageValues_succ, blockStep, List.length_append, ih, List.length_singleton]

variable {bytes : Bytes}

theorem blockWord_of_block {i : ℕ} (inside : (i + 1) * 64 ≤ bytes.length) {j : ℕ} (word : j < 16) :
    (blockWord ((bytes.drop (i * 64)).take 64) j : Exec ε Word) = .ok (wordAt bytes (i * 16 + j)) := by
  have byte : ∀ o < 64, (getAt ((bytes.drop (i * 64)).take 64) o : Exec ε UInt8) =
      .ok (bytes.getD (i * 64 + o) 0) := by
    intro o small
    have there : i * 64 + o < bytes.length := by omega
    rw [getAt_eq_ok, List.getElem?_take, if_pos small, List.getElem?_drop,
      List.getD_eq_getElem?_getD, List.getElem?_eq_getElem there, Option.getD_some]
  rw [blockWord, byte _ (by omega), byte _ (by omega), byte _ (by omega), byte _ (by omega),
    wordAt, Nat.add_mul, show i * 16 * 4 = i * 64 by ring]
  rfl

theorem inputBlock_of_block {i : ℕ} (inside : (i + 1) * 64 ≤ bytes.length) :
    (blockAt bytes i >>= inputBlock : Exec ε _) = .ok (blockWords bytes i) := by
  have block : i < bytes.length / 64 := by omega
  rw [blockAt, if_pos block, slice_of_le (by omega) inside, ok_bind, inputBlock,
    show (i + 1) * 64 - i * 64 = 64 by omega]
  rw [show (fun j : Fin 16 => blockWord ((bytes.drop (i * 64)).take 64) j.val) =
    fun j => pure (wordAt bytes (i * 16 + j.val)) from
      funext fun j => blockWord_of_block inside j.isLt]
  exact Vector.ofFnM_pure

/-- **The values of a buffer of whole blocks.** -/
theorem sha256MsgDerived_eq (initialState : Vector Word 8) (size : bytes.length = maxBlocks * 64) :
    (sha256MsgDerived bytes initialState maxBlocks : Exec ε _) =
      .ok (messageValues bytes initialState maxBlocks).2 := by
  have each : ∀ {s : Vector Word 8 × List ConcreteDerived} {i : ℕ}, i ∈ List.range maxBlocks →
      True → ((do
        let block ← inputBlock (← blockAt bytes i)
        return blockStep s block) : Exec ε _) = .ok (blockStep s (blockWords bytes i)) ∧
        True := by
    intro s i member _
    have inside : (i + 1) * 64 ≤ bytes.length := by
      rw [size]
      exact Nat.mul_le_mul_right 64 (List.mem_range.mp member)
    refine ⟨?_, trivial⟩
    rw [← bind_assoc, inputBlock_of_block inside, ok_bind, pure_eq_ok]
  rw [sha256MsgDerived, foldlM_eq_ok_foldl (fun _ => True) trivial each, ok_bind]
  rfl

/-- What is given of a message that fits. -/
def msgGivenOf (preimage : Bytes) (state : Vector Word 8) (maxBlocks : ℕ) : MsgGiven where
  paddedPreimage := paddedBuffer preimage maxBlocks
  nblocks := blocksFor preimage.length
  lengthBytes := preimage.length
  expectedHash :=
    (messageValues (paddedBuffer preimage maxBlocks) state (blocksFor preimage.length)).1

/-- The bytes of a state, the highest one of each word first. -/
def stateBytes (state : Vector Word 8) : Vector UInt8 32 :=
  Vector.ofFn fun i => UInt8.ofNat (state[i.val / 4] >>> (24 - 8 * (i.val % 4))).toNat

/-- The hash of a message. -/
def digest (message : Bytes) : Vector UInt8 32 :=
  let blocks := blocksFor message.length
  stateBytes (messageValues (paddedBuffer message blocks) initial blocks).1

theorem messageValues_last (bytes : Bytes) (initialState : Vector Word 8) {i count : ℕ}
    (inside : i < count) :
    ((messageValues bytes initialState count).2[i]?.map ConcreteDerived.h1) =
      some (messageValues bytes initialState (i + 1)).1 := by
  induction count with
  | zero => omega
  | succ count ih =>
    have size := length_messageValues bytes initialState count
    rw [messageValues_succ, blockStep]
    by_cases last : i = count
    · subst last
      rw [List.getElem?_append_right size.le, size, Nat.sub_self, messageValues_succ]
      rfl
    · rw [List.getElem?_append_left (by omega)]
      exact ih (by omega)

/-- **What is given of a message**, exactly when it fits. -/
theorem msgGiven_decides (preimage : Bytes) (state : Vector Word 8) (maxBlocks : ℕ) :
    Decides (msgGiven preimage state maxBlocks) (blocksFor preimage.length ≤ maxBlocks)
      (msgGivenOf preimage state maxBlocks) := by
  unfold msgGiven
  refine ((padSha256Message_decides preimage maxBlocks).bind fun fits => ?_).congr
    (iff_of_eq (and_true _))
  have pos := blocksFor_pos preimage.length
  have last := messageValues_last (paddedBuffer preimage maxBlocks) state
    (show blocksFor preimage.length - 1 < maxBlocks by omega)
  obtain ⟨values, found, final⟩ := Option.map_eq_some_iff.mp last
  rw [Nat.sub_add_cancel pos] at final
  dsimp only
  rw [sha256MsgDerived_eq state (length_paddedBuffer fits), ok_bind, if_pos pos,
    getAt_eq_ok.mpr found, ok_bind, pure_eq_ok, ok_bind, final]
  exact decides_pure _

theorem msgDerived_eq {preimage : Bytes} (state : Vector Word 8)
    (fits : blocksFor preimage.length ≤ maxBlocks) :
    (msgDerived (msgGivenOf preimage state maxBlocks) maxBlocks : Exec ε _) =
      .ok (messageValues (paddedBuffer preimage maxBlocks) initial maxBlocks).2 :=
  sha256MsgDerived_eq initial (length_paddedBuffer fits)

end Longfellow.Sha256
