/-
**CBOR items** (`mdoc_zk/circuits/src/cbor/parse.rs`, `mdoc_zk/circuits/src/cbor/cbor_encode.rs`).

The parser reads one item of definite length from a position of a byte string, with the span of
every item. A text is kept as its bytes, which the parser checks to be UTF-8. Items nest at most 64
deep; the recursion is on the levels that are left.

* `parseVal_safe` — **the parser never panics**, on any bytes and from any position inside them, and
  an item that it returns ends inside them.
-/

import Longfellow.Lib.Safe

namespace Longfellow.Mdoc

open Lib

/-! ### UTF-8 -/

/-- Why bytes are not a text: the length of the text before, and of the bytes that are wrong, or
nothing when the bytes end too early. -/
structure Utf8Error where
  validUpTo : ℕ
  errorLen : Option ℕ
  deriving DecidableEq

def Utf8Error.message (e : Utf8Error) : String :=
  match e.errorLen with
  | some len => "invalid utf-8 sequence of " ++ toString len ++ " bytes from index " ++
      toString e.validUpTo
  | none => "incomplete utf-8 byte sequence from index " ++ toString e.validUpTo

/-- The number of bytes of a character, by its first one. -/
def utf8CharWidth (first : UInt8) : ℕ :=
  if first ≤ 0x7f then 1
  else if 0xc2 ≤ first ∧ first ≤ 0xdf then 2
  else if 0xe0 ≤ first ∧ first ≤ 0xef then 3
  else if 0xf0 ≤ first ∧ first ≤ 0xf4 then 4
  else 0

def isContinuation (b : UInt8) : Bool := 0x80 ≤ b && b ≤ 0xbf

/-- The second bytes that may follow a first one of a character of three or four bytes. -/
def isSecond (first second : UInt8) : Bool :=
  if first = 0xe0 then 0xa0 ≤ second && second ≤ 0xbf
  else if first = 0xed then 0x80 ≤ second && second ≤ 0x9f
  else if first = 0xf0 then 0x90 ≤ second && second ≤ 0xbf
  else if first = 0xf4 then 0x80 ≤ second && second ≤ 0x8f
  else isContinuation second

/-- The first error of some bytes, which stand behind a text of a length. -/
def utf8Error (validUpTo : ℕ) : Bytes → Option Utf8Error
  | [] => none
  | a :: rest =>
    match utf8CharWidth a, rest with
    | 1, rest => utf8Error (validUpTo + 1) rest
    | 2, b :: rest =>
      if isContinuation b then utf8Error (validUpTo + 2) rest else some ⟨validUpTo, some 1⟩
    | 3, b :: c :: rest =>
      if isSecond a b then
        if isContinuation c then utf8Error (validUpTo + 3) rest else some ⟨validUpTo, some 2⟩
      else some ⟨validUpTo, some 1⟩
    | 4, b :: c :: d :: rest =>
      if isSecond a b then
        if isContinuation c then
          if isContinuation d then utf8Error (validUpTo + 4) rest else some ⟨validUpTo, some 3⟩
        else some ⟨validUpTo, some 2⟩
      else some ⟨validUpTo, some 1⟩
    | 0, _ => some ⟨validUpTo, some 1⟩
    -- The bytes end inside a character: the bytes that are there are checked first.
    | _, b :: c :: _ =>
      if isSecond a b then
        if isContinuation c then some ⟨validUpTo, none⟩ else some ⟨validUpTo, some 2⟩
      else some ⟨validUpTo, some 1⟩
    | _, b :: _ => if isSecond a b then some ⟨validUpTo, none⟩ else some ⟨validUpTo, some 1⟩
    | _, [] => some ⟨validUpTo, none⟩

/-! ### Items -/

/-- A value and the positions of its first byte and of the byte behind its last one. -/
structure Spanned (α : Type) where
  value : α
  start : ℕ
  stop : ℕ

inductive CborValue where
  | integer (n : ℤ)
  | bytes (b : Bytes)
  | text (s : Bytes)
  | array (items : List (Spanned CborValue))
  | map (pairs : List (Spanned CborValue × Spanned CborValue))
  | tag (n : ℕ) (inner : Spanned CborValue)
  | simple (n : ℕ)
  | float16 (bits : ℕ)
  | float32 (bits : ℕ)
  | float64 (bits : ℕ)

abbrev CborElement := Spanned CborValue

def maxDepth : ℕ := 64

namespace CborParser

def readByte (data : Bytes) (offset : ℕ) : Exec String (UInt8 × ℕ) := do
  check (offset < data.length) "Unexpected EOF"
  let b ← getAt data offset
  return (b, offset + 1)

def readBytes (data : Bytes) (len offset : ℕ) : Exec String (Bytes × ℕ) := do
  check (offset + len < 2 ^ 64) "CBOR length overflow"
  check (offset + len ≤ data.length) "Unexpected EOF"
  return ((data.drop offset).take len, offset + len)

/-- A number of bytes as one number. -/
def readNumber (data : Bytes) (len offset : ℕ) : Exec String (ℕ × ℕ) := do
  let (bytes, offset) ← readBytes data len offset
  return (beValue bytes, offset)

/-- The argument of an item, from the low bits of its first byte on. -/
def readVal (data : Bytes) (info offset : ℕ) : Exec String (ℕ × ℕ) :=
  if info ≤ 23 then return (info, offset)
  else if info = 24 then do
    let (b, offset) ← readByte data offset
    return (b.toNat, offset)
  else if info = 25 then readNumber data 2 offset
  else if info = 26 then readNumber data 4 offset
  else if info = 27 then readNumber data 8 offset
  else raise ("Unsupported length info: " ++ toString info)

/-- Read `count` times. -/
def repeated {α : Type} (item : ℕ → Exec String (α × ℕ)) :
    ℕ → ℕ → Exec String (List α × ℕ)
  | 0, offset => return ([], offset)
  | count + 1, offset => do
    let (x, offset) ← item offset
    let (xs, offset) ← repeated item count offset
    return (x :: xs, offset)

/-- A value of the last major type. -/
def simpleValue (info val : ℕ) : Exec String CborValue :=
  if info ≤ 23 then return .simple info
  else if info = 24 then do
    check (val < 2 ^ 8) "CBOR simple value does not fit u8"
    return .simple val
  else if info = 25 then do
    check (val < 2 ^ 16) "CBOR half-float bits do not fit u16"
    return .float16 val
  else if info = 26 then do
    check (val < 2 ^ 32) "CBOR float bits do not fit u32"
    return .float32 val
  else if info = 27 then return .float64 val
  else raise ("Unsupported simple value info: " ++ toString info)

def text (bytes : Bytes) : Exec String CborValue :=
  match utf8Error 0 bytes with
  | none => return .text bytes
  | some e => raise e.message

/-- What follows the argument of an item, with the reader of the items inside it. -/
def payload (data : Bytes) (item : ℕ → Exec String (CborElement × ℕ)) (major info val offset : ℕ) :
    Exec String (CborValue × ℕ) :=
  match major with
  | 0 => return (.integer val, offset)
  | 1 => return (.integer (-1 - val), offset)
  | 2 => do
    let (bytes, offset) ← readBytes data val offset
    return (.bytes bytes, offset)
  | 3 => do
    let (bytes, offset) ← readBytes data val offset
    let value ← text bytes
    return (value, offset)
  | 4 => do
    let (items, offset) ← repeated item val offset
    return (.array items, offset)
  | 5 => do
    let (pairs, offset) ← repeated (fun offset => do
      let (k, offset) ← item offset
      let (v, offset) ← item offset
      return ((k, v), offset)) val offset
    return (.map pairs, offset)
  | 6 => do
    let (inner, offset) ← item offset
    return (.tag val inner, offset)
  | 7 => do
    let value ← simpleValue info val
    return (value, offset)
  | major => raise ("Unsupported major type: " ++ toString major)

/-- One item, with the levels of nesting that are left. -/
def parseVal (data : Bytes) : ℕ → ℕ → Exec String (CborElement × ℕ)
  | 0, _ => raise "CBOR nesting limit exceeded"
  | levels + 1, start => do
    let (b, offset) ← readByte data start
    let info := (b &&& 0x1f).toNat
    let (val, offset) ← readVal data info offset
    let (value, stop) ← payload data (parseVal data levels) (b >>> 5).toNat info val offset
    return (⟨value, start, stop⟩, stop)

/-- One item that takes up all bytes. -/
def parseExact (data : Bytes) : Exec String CborElement := do
  let (element, offset) ← parseVal data (maxDepth + 1) 0
  check (offset = data.length)
    ("Trailing data after CBOR item: " ++ toString (data.length - offset) ++ " bytes")
  return element

/-! ### The parser does not panic -/

/-- From every position inside the bytes the reader does not panic, and ends inside them. -/
def Advances {α : Type} (data : Bytes) (reader : ℕ → Exec String (α × ℕ)) : Prop :=
  ∀ offset ≤ data.length, Safe (reader offset) fun r => offset ≤ r.2 ∧ r.2 ≤ data.length

variable {data : Bytes} {α β : Type}

theorem Advances.bind {reader : ℕ → Exec String (α × ℕ)} {next : α → ℕ → Exec String (β × ℕ)}
    (first : Advances data reader) (later : ∀ a, Advances data (next a)) :
    Advances data fun offset => reader offset >>= fun r => next r.1 r.2 := fun offset inside =>
  (first offset inside).bind fun r ends => (later r.1 r.2 ends.2).mono fun _ ends' =>
    ⟨ends.1.trans ends'.1, ends'.2⟩

theorem advances_pure (a : α) : Advances data fun offset => pure (a, offset) :=
  fun offset inside => safe_pure ⟨le_refl offset, inside⟩

theorem advances_raise (message : String) :
    Advances data fun _ => (raise message : Exec String (α × ℕ)) :=
  fun _ _ => safe_raise message _

theorem advances_lift {x : Exec String α} (safe : Safe x fun _ => True) :
    Advances data fun offset => x >>= fun a => pure (a, offset) := fun offset inside =>
  safe.bind fun _ _ => safe_pure ⟨le_refl offset, inside⟩

theorem readByte_advances : Advances data (readByte data) := by
  intro offset inside
  refine (safe_check _ _).bind fun _ more => ?_
  exact (safe_getAt more).bind fun b _ => safe_pure ⟨Nat.le_succ offset, more⟩

theorem readBytes_advances (len : ℕ) : Advances data (readBytes data len) := by
  intro offset inside
  refine (safe_check _ _).bind fun _ _ => (safe_check _ _).bind fun _ fits => ?_
  exact safe_pure ⟨Nat.le_add_right offset len, fits⟩

theorem readNumber_advances (len : ℕ) : Advances data (readNumber data len) :=
  (readBytes_advances len).bind fun bytes => advances_pure (beValue bytes)

theorem readVal_advances (info : ℕ) : Advances data (readVal data info) := by
  unfold readVal
  intro offset inside
  split_ifs
  · exact advances_pure info offset inside
  · exact (readByte_advances.bind fun b => advances_pure b.toNat) offset inside
  · exact readNumber_advances 2 offset inside
  · exact readNumber_advances 4 offset inside
  · exact readNumber_advances 8 offset inside
  · exact advances_raise _ offset inside

theorem repeated_advances {item : ℕ → Exec String (α × ℕ)} (each : Advances data item)
    (count : ℕ) : Advances data (repeated item count) := by
  induction count with
  | zero => exact advances_pure []
  | succ count ih => exact each.bind fun x => ih.bind fun xs => advances_pure (x :: xs)

theorem simpleValue_safe (info val : ℕ) : Safe (simpleValue info val) fun _ => True := by
  unfold simpleValue
  split_ifs
  · exact safe_pure trivial
  · exact (safe_check _ _).bind fun _ _ => safe_pure trivial
  · exact (safe_check _ _).bind fun _ _ => safe_pure trivial
  · exact (safe_check _ _).bind fun _ _ => safe_pure trivial
  · exact safe_pure trivial
  · exact safe_raise _ _

theorem text_safe (bytes : Bytes) : Safe (text bytes) fun _ => True := by
  unfold text
  split
  · exact safe_pure trivial
  · exact safe_raise _ _

theorem payload_advances {item : ℕ → Exec String (CborElement × ℕ)} (each : Advances data item)
    (major info val : ℕ) : Advances data (payload data item major info val) := by
  unfold payload
  split
  · exact advances_pure _
  · exact advances_pure _
  · exact (readBytes_advances val).bind fun bytes => advances_pure _
  · exact (readBytes_advances val).bind fun bytes => advances_lift (text_safe bytes)
  · exact (repeated_advances each val).bind fun items => advances_pure _
  · exact (repeated_advances (each.bind fun k => each.bind fun v => advances_pure (k, v)) val).bind
      fun pairs => advances_pure _
  · exact each.bind fun inner => advances_pure _
  · exact advances_lift (simpleValue_safe info val)
  · exact advances_raise _

/-- **The parser never panics**: an item that it returns starts at its position and ends inside the
bytes. -/
theorem parseVal_safe (levels : ℕ) {start : ℕ} (inside : start ≤ data.length) :
    Safe (parseVal data levels start) fun r =>
      r.1.start = start ∧ r.1.stop = r.2 ∧ start ≤ r.2 ∧ r.2 ≤ data.length := by
  induction levels generalizing start with
  | zero => exact safe_raise _ _
  | succ levels ih =>
    have each : Advances data (parseVal data levels) := fun offset within =>
      (ih within).mono fun _ ends => ends.2.2
    refine (readByte_advances start inside).bind fun first ends => ?_
    refine (readVal_advances _ first.2 ends.2).bind fun argument ends' => ?_
    refine (payload_advances each _ _ _ argument.2 ends'.2).bind fun result ends'' => ?_
    exact safe_pure ⟨rfl, rfl, (ends.1.trans ends'.1).trans ends''.1, ends''.2⟩

theorem parseExact_safe (data : Bytes) :
    Safe (parseExact data) fun e => e.start = 0 ∧ e.stop = data.length := by
  refine (parseVal_safe _ (Nat.zero_le _)).bind fun r ends => ?_
  refine (safe_check _ _).bind fun _ all => safe_pure ⟨ends.1, ends.2.1.trans all⟩

end CborParser

end Longfellow.Mdoc
