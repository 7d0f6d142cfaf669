/-
**Scalar and fixed-size messages** (`runtime/proto/src/util.rs`).

Field and subfield elements, four-byte sizes and 32-byte strings, each with its reader and writer.
A field and a subfield enter as their codecs (`SerializableField`, `Subfield`); what the proof
formats need of them is collected in `LawfulField` and `LawfulSubfield`.

* `reads_eltField`, `canonical_eltField`, and the same two facts for subfield elements, sizes and
  32-byte strings: each reader returns what its writer wrote, and accepts nothing else.
-/

import Longfellow.Lib.Codec

namespace Longfellow

open Lib

/-! ### Errors -/

/-- The kinds of `std::io::Error` the codecs return. -/
inductive ErrorKind where
  | unexpectedEof
  | invalidData
  | invalidInput
  deriving DecidableEq, Repr

/-- A `std::io::Error`: its kind and its message. -/
structure IoError where
  kind : ErrorKind
  message : String
  deriving DecidableEq, Repr

/-- An error of kind `InvalidData`. -/
def invalidData (message : String) : IoError := ⟨.invalidData, message⟩

/-- An error of kind `UnexpectedEof`. -/
def unexpectedEof (message : String) : IoError := ⟨.unexpectedEof, message⟩

/-! ### Fields and subfields -/

/-- The `SerializableField` trait: elements of `E` as byte strings of a fixed size. -/
structure SerializableField (E : Type) where
  isBinary : Bool
  serializedSizeBytes : Nat
  toBytes : E → Bytes
  bytesToElement : Bytes → Except String E
  serializedMone : Bytes
  length_toBytes : ∀ e, (toBytes e).length = serializedSizeBytes

/-- The `Subfield` trait: a class of elements of `E` with a compact encoding of its own. -/
structure Subfield (E : Type) where
  contains : E → Bool
  serializedSizeBytes : Nat
  toBytes : E → Bytes
  bytesToElement : Bytes → Except String E
  length_toBytes : ∀ e, (toBytes e).length = serializedSizeBytes

/-- The element parser inverts the serializer and rejects every other byte string. -/
structure LawfulField {E : Type} (f : SerializableField E) : Prop where
  parse_toBytes : ∀ e, f.bytesToElement (f.toBytes e) = .ok e
  canonical : ∀ {bytes e}, f.bytesToElement bytes = .ok e → f.toBytes e = bytes

/-- The subfield parser returns members only and inverts the serializer on them. -/
structure LawfulSubfield {E : Type} (sf : Subfield E) : Prop where
  parse_toBytes : ∀ {e}, sf.contains e = true → sf.bytesToElement (sf.toBytes e) = .ok e
  contains_of_parse : ∀ {bytes e}, sf.bytesToElement bytes = .ok e → sf.contains e = true

variable {E : Type} (f : SerializableField E) (sf : Subfield E)

/-- The codec of a prime field: the residue in little-endian order, with residues that are not
reduced rejected. -/
def primeField (p size : Nat) [NeZero p] : SerializableField (Fin p) where
  isBinary := false
  serializedSizeBytes := size
  toBytes e := leBytes size e.val
  bytesToElement bytes :=
    if bytes.length ≠ size then .error "Invalid size"
    else if inside : leValue bytes < p then .ok ⟨leValue bytes, inside⟩
    else .error "Out of bounds"
  serializedMone := leBytes size (p - 1)
  length_toBytes e := length_leBytes size e.val

theorem lawful_primeField {p size : Nat} [NeZero p] (fits : p ≤ 256 ^ size) :
    LawfulField (primeField p size) := by
  refine ⟨fun e => ?_, fun {bytes e} parsed => ?_⟩
  · have value : leValue (leBytes size e.val) = e.val := leValue_leBytes (by omega)
    simp [primeField, value]
  · simp only [primeField, ne_eq, ite_not] at parsed ⊢
    split at parsed
    · rename_i sized
      split at parsed
      · obtain rfl := Except.ok.inj parsed
        exact sized ▸ leBytes_leValue bytes
      · cases parsed
    · cases parsed

/-- A field as its own subfield. -/
def wholeSubfield : Subfield E where
  contains _ := true
  serializedSizeBytes := f.serializedSizeBytes
  toBytes := f.toBytes
  bytesToElement := f.bytesToElement
  length_toBytes := f.length_toBytes

theorem lawful_wholeSubfield {f : SerializableField E} (lawful : LawfulField f) :
    LawfulSubfield (wholeSubfield f) :=
  ⟨fun _ => lawful.parse_toBytes _, fun _ => rfl⟩

/-! ### Readers and writers -/

/-- The outcome of an element parser, its message turned into an error. -/
def parsed (outcome : Except String E) (describe : String → IoError) : Exec IoError E :=
  match outcome with
  | .ok e => pure e
  | .error message => raise (describe message)

/-- Read a single serialized field element. -/
def readEltField : Reader IoError E := do
  let chunk ← takeBytes f.serializedSizeBytes (unexpectedEof "EOF reading proof element")
  liftM (parsed (f.bytesToElement chunk) fun e => invalidData e.quote)

/-- Read a vector of field elements. -/
def readVecField (n : Nat) : Reader IoError (List E) := readMany (readEltField f) n

/-- The bytes that serialize a field element. -/
def writeEltField (e : E) : Bytes := f.toBytes e

/-- The bytes that serialize a subfield element, if it is one. -/
def writeSubfieldElt (x : E) : Exec IoError Bytes := do
  check (sf.contains x = true) (invalidData "element not in subfield")
  pure (sf.toBytes x)

/-- Read a subfield element. -/
def readSubfieldElt : Reader IoError E := do
  let chunk ← takeBytes sf.serializedSizeBytes (unexpectedEof "EOF reading subfield element")
  let elt ← liftM (parsed (sf.bytesToElement chunk)
    fun e => invalidData ("Failed to parse subfield element: " ++ e.quote))
  liftM (check (sf.toBytes elt = chunk) (invalidData "Non-canonical subfield element encoding"))
  pure elt

/-- The four bytes of a size. -/
def writeSize4bytes {ε : Type} (val : Nat) : Exec ε Bytes := do
  ensure (val ≤ 2 ^ 32 - 1) "size does not fit in u32"
  pure (leBytes 4 val)

/-- Read a size of four bytes. -/
def readSize4bytes : Reader IoError Nat := do
  let chunk ← takeBytes 4 (unexpectedEof "EOF reading size")
  pure (leValue chunk)

/-- Read exactly 32 bytes, as digests and nonces are. -/
def readBytes32 : Reader IoError (Vector UInt8 32) :=
  takeVector 32 (unexpectedEof "EOF reading 32 bytes")

/-- Take a fixed marker off the front. -/
def readMagic (magic : Bytes) (mismatch : IoError) : Reader IoError Unit := fun bytes =>
  if bytes.take magic.length = magic then pure ((), bytes.drop magic.length) else raise mismatch

/-- Fail unless the bytes that are left pass a test. -/
def checkLeft (test : Bytes → Bool) (error : IoError) : Reader IoError Unit := fun bytes =>
  if test bytes then pure ((), bytes) else raise error

/-! ### Each reader inverts its writer -/

variable {f sf}

@[simp] theorem parsed_eq_ok {outcome : Except String E} {describe : String → IoError} {e : E} :
    parsed outcome describe = .ok e ↔ outcome = .ok e := by
  cases outcome <;> simp [parsed]

theorem reads_eltField (lawful : LawfulField f) (e : E) :
    Reads (readEltField f) (writeEltField f e) e := by
  have parses := lawful.parse_toBytes e
  refine (reads_takeBytes (f.length_toBytes e)).checked (Reads.lift ?_)
  exact parsed_eq_ok.mpr parses

theorem canonical_eltField (lawful : LawfulField f) :
    Canonical (readEltField f) (fun _ => True) (writeEltField f) := by
  intro bytes e rest ran
  obtain ⟨chunk, middle, taken, ran⟩ := reader_bind_eq_ok.mp ran
  obtain ⟨parses, rfl⟩ := reader_lift_eq_ok.mp ran
  obtain ⟨_, rfl⟩ := takeBytes_eq_ok.mp taken
  exact ⟨trivial, by rw [writeEltField, lawful.canonical (parsed_eq_ok.mp parses)]⟩

variable {bytes : Bytes}

theorem writeSubfieldElt_eq_ok {x : E} :
    writeSubfieldElt sf x = .ok bytes ↔ sf.contains x = true ∧ bytes = sf.toBytes x := by
  rw [writeSubfieldElt, bind_eq_ok]
  simp only [check_eq_ok, pure_eq_ok, Except.ok.injEq]
  constructor
  · rintro ⟨_, member, rfl⟩
    exact ⟨member, rfl⟩
  · rintro ⟨member, rfl⟩
    exact ⟨(), member, rfl⟩

theorem reads_subfieldElt (lawful : LawfulSubfield sf) {x : E} (member : sf.contains x = true) :
    Reads (readSubfieldElt sf) (sf.toBytes x) x := by
  refine (reads_takeBytes (sf.length_toBytes x)).checked ?_
  refine Reads.guarded (Reads.lift (parsed_eq_ok.mpr (lawful.parse_toBytes member))) ?_
  exact Reads.guarded (Reads.lift (check_of rfl)) (Reads.pure x)

theorem canonical_subfieldElt (lawful : LawfulSubfield sf) :
    Canonical (readSubfieldElt sf) (fun x => sf.contains x = true) sf.toBytes := by
  intro bytes x rest ran
  obtain ⟨chunk, afterChunk, taken, ran⟩ := reader_bind_eq_ok.mp ran
  obtain ⟨elt, afterParse, parse, ran⟩ := reader_bind_eq_ok.mp ran
  obtain ⟨_, afterCheck, checked, ran⟩ := reader_bind_eq_ok.mp ran
  obtain ⟨rfl, rfl⟩ := reader_pure_eq_ok.mp ran
  obtain ⟨canonical, rfl⟩ := reader_lift_eq_ok.mp checked
  obtain ⟨parses, rfl⟩ := reader_lift_eq_ok.mp parse
  obtain ⟨_, rfl⟩ := takeBytes_eq_ok.mp taken
  exact ⟨lawful.contains_of_parse (parsed_eq_ok.mp parses), by rw [check_eq_ok.mp canonical]⟩

theorem writeSize4bytes_eq_ok {ε : Type} {val : Nat} :
    (writeSize4bytes val : Exec ε Bytes) = .ok bytes ↔ val < 2 ^ 32 ∧ bytes = leBytes 4 val := by
  rw [writeSize4bytes, bind_eq_ok]
  simp only [ensure_eq_ok, pure_eq_ok, Except.ok.injEq]
  constructor
  · rintro ⟨_, fits, rfl⟩
    exact ⟨by omega, rfl⟩
  · rintro ⟨fits, rfl⟩
    exact ⟨(), by omega, rfl⟩

theorem reads_size4bytes {val : Nat} (fits : val < 2 ^ 32) :
    Reads readSize4bytes (leBytes 4 val) val := by
  have value : leValue (leBytes 4 val) = val := leValue_leBytes (by simpa using fits)
  have taken : Reads (takeBytes 4 (unexpectedEof "EOF reading size")) (leBytes 4 val) _ :=
    reads_takeBytes (length_leBytes 4 val)
  have whole := taken.andReturn leValue
  rwa [value] at whole

theorem canonical_size4bytes : Canonical readSize4bytes (fun n => n < 2 ^ 32) (leBytes 4) := by
  intro bytes n rest ran
  obtain ⟨chunk, middle, taken, ran⟩ := reader_bind_eq_ok.mp ran
  obtain ⟨rfl, rfl⟩ := reader_pure_eq_ok.mp ran
  obtain ⟨size, rfl⟩ := takeBytes_eq_ok.mp taken
  have bound := leValue_lt chunk
  rw [size] at bound
  exact ⟨by simpa using bound, by rw [← size, leBytes_leValue]⟩

variable {rest : Bytes} {test : Bytes → Bool}

theorem readBytes32_eq_ok {data : Vector UInt8 32} :
    readBytes32.run bytes = .ok (data, rest) ↔ bytes = data.toList ++ rest := takeVector_eq_ok

theorem reads_bytes32 (data : Vector UInt8 32) : Reads readBytes32 data.toList data :=
  reads_takeVector data

theorem canonical_bytes32 : Canonical readBytes32 (fun _ => True) Vector.toList :=
  fun ran => ⟨trivial, readBytes32_eq_ok.mp ran⟩

theorem readMagic_eq_ok {magic : Bytes} {mismatch : IoError} :
    (readMagic magic mismatch).run bytes = .ok ((), rest) ↔ bytes = magic ++ rest := by
  show (if _ then _ else _) = _ ↔ _
  by_cases same : bytes.take magic.length = magic
  · rw [if_pos same]
    simp only [pure_eq_ok, Except.ok.injEq, Prod.mk.injEq, true_and]
    constructor
    · rintro rfl
      conv_lhs => rw [← List.take_append_drop magic.length bytes, same]
    · rintro rfl
      rw [List.drop_left]
  · rw [if_neg same]
    refine ⟨fun ran => absurd ran (raise_ne_ok _ _), ?_⟩
    rintro rfl
    exact absurd List.take_left same

theorem reads_magic (magic : Bytes) (mismatch : IoError) :
    Reads (readMagic magic mismatch) magic () := fun _ => readMagic_eq_ok.mpr rfl

theorem checkLeft_eq_ok {error : IoError} :
    (checkLeft test error).run bytes = .ok ((), rest) ↔ test bytes = true ∧ bytes = rest := by
  show (if _ then _ else _) = _ ↔ _
  cases passes : test bytes <;> simp

theorem Reads.checkedLeft {α : Type} {error : IoError}
    {next : Unit → Reader IoError α} {a : α} (passes : ∀ rest, test (bytes ++ rest) = true)
    (tail : Reads (next ()) bytes a) :
    Reads (checkLeft test error >>= next) bytes a := fun rest =>
  reader_bind_eq_ok.mpr ⟨(), bytes ++ rest, checkLeft_eq_ok.mpr ⟨passes rest, rfl⟩, tail rest⟩

end Longfellow
