/-
**Circuit archives** (`core/proto/src/archive/`).

An archive holds named circuits. The newer format writes the metadata and a table of lengths in
front of the payloads. The older one is two circuits one after the other, of signatures and of
hashes, and the reader finds the boundary by reading the first circuit.

* `archive_roundTrips_iff` — **when the two formats give an archive back.** The older one forgets
  the order of its circuits and writes neither the version nor the combined identifier.
-/

import Longfellow.Algebra.Gf2128
import Longfellow.Circuit.Lfc2
import Longfellow.Lib.SelfDelimiting
import Longfellow.Mdoc.Parse
import Longfellow.Sha256.Concrete

namespace Longfellow

open Lib

/-! ### Archives -/

def lfaVersion : UInt8 := 1

structure ArchiveEntry where
  name : String
  circuitId : Vector UInt8 32
  payload : Bytes
  deriving DecidableEq

structure CircuitArchive where
  version : UInt8
  circuitVersion : UInt32
  combinedId : Vector UInt8 32
  createdAt : String
  author : String
  generatorTool : String
  description : String
  entries : List ArchiveEntry
  deriving DecidableEq

structure CircuitArchiveBuilder where
  circuitVersion : Option UInt32
  createdAt : Option String
  author : Option String
  generatorTool : Option String
  description : Option String
  entries : List ArchiveEntry

section

variable (sha256 : Bytes → Vector UInt8 32)

def computeCombinedId (entries : List ArchiveEntry) : Vector UInt8 32 :=
  sha256 (entries.flatMap fun entry => entry.circuitId.toList)

def CircuitArchiveBuilder.build (builder : CircuitArchiveBuilder) : CircuitArchive where
  version := lfaVersion
  circuitVersion := builder.circuitVersion.getD 0
  combinedId := computeCombinedId sha256 builder.entries
  createdAt := builder.createdAt.getD "2026-07-15T00:00:00Z"
  author := builder.author.getD "Google LLC"
  generatorTool := builder.generatorTool.getD "rzkl-compiler v0.1.0"
  description := builder.description.getD ""
  entries := builder.entries

end

def CircuitArchive.get (archive : CircuitArchive) (name : String) : Option ArchiveEntry :=
  archive.entries.find? fun entry => entry.name = name

/-! ### The newer format -/

/-- The marker `LFA2`. -/
def lfa2Magic : Bytes := [0x4C, 0x46, 0x41, 0x32]

def writeUtf8String (s : String) : Bytes :=
  serializeUleb128 (Mdoc.utf8 s).length ++ Mdoc.utf8 s

/-- The line of an entry in the table in front of the payloads. -/
def writeMetadata (entry : ArchiveEntry) : Bytes :=
  writeUtf8String entry.name ++ (entry.circuitId.toList ++ serializeUleb128 entry.payload.length)

/-- An archive after its marker. -/
def lfa2Body (archive : CircuitArchive) : Bytes :=
  [archive.version] ++ (serializeUleb128 archive.circuitVersion.toNat ++
    (archive.combinedId.toList ++ (writeUtf8String archive.createdAt ++
    (writeUtf8String archive.author ++ (writeUtf8String archive.generatorTool ++
    (writeUtf8String archive.description ++ (serializeUleb128 archive.entries.length ++
    (archive.entries.flatMap writeMetadata ++ archive.entries.flatMap ArchiveEntry.payload))))))))

def toBytesLfa2 (archive : CircuitArchive) : Bytes := lfa2Magic ++ lfa2Body archive

/-- Bytes as a text. -/
def fromUtf8 (fieldName : String) (buf : Bytes) : Exec String String :=
  match String.fromUTF8? ⟨buf.toArray⟩ with
  | some s => pure s
  | none => raise ("Invalid UTF-8 in " ++ fieldName ++ ": " ++
      ((Mdoc.utf8Error 0 buf).map Mdoc.Utf8Error.message).getD "")

def readUtf8String (maxLen : ℕ) (fieldName : String) : Reader String String := do
  let len ← readUleb128
  demand (len ≤ maxLen) s!"Excessive {fieldName} string length: {len} > {maxLen}"
  let buf ← takeBytes len s!"Incomplete {fieldName} string"
  liftM (fromUtf8 fieldName buf)

/-- Read a line of the table: a name, an identifier and the length of a payload. -/
def readMetadata : Reader String (String × Vector UInt8 32 × ℕ) := do
  let name ← readUtf8String 4096 "entry name"
  let circuitId ← takeVector 32 "Incomplete entry circuit_id"
  let payloadLen ← readUleb128
  pure (name, circuitId, payloadLen)

def readPayload (metadata : String × Vector UInt8 32 × ℕ) : Reader String ArchiveEntry := do
  let (name, circuitId, payloadLen) := metadata
  let payload ← takeBytes payloadLen s!"Incomplete payload for entry '{name}'"
  pure ⟨name, circuitId, payload⟩

/-- The text of a list of bytes. -/
def debugBytes (bytes : Bytes) : String := toString (bytes.map UInt8.toNat)

variable (sha256 : Bytes → Vector UInt8 32)

def fromStreamLfa2Body : Reader String CircuitArchive := do
  let verBuf ← takeBytes 1 "Incomplete header: missing version byte"
  let version := UInt8.ofNat (leValue verBuf)
  demand (version = lfaVersion)
    s!"Unsupported archive version: expected {lfaVersion}, got {version}"
  let circuitVersion ← readUleb128
  let combinedId ← takeVector 32 "Incomplete header: missing combined_id"
  let createdAt ← readUtf8String 4096 "created_at"
  let author ← readUtf8String 4096 "author"
  let generatorTool ← readUtf8String 4096 "generator_tool"
  let description ← readUtf8String 65536 "description"
  let numEntries ← readUleb128
  demand (numEntries ≤ 10000) s!"Excessive circuit count in archive: {numEntries}"
  let metadata ← readMany readMetadata numEntries
  let entries ← metadata.mapM readPayload
  let expectedCombinedId := computeCombinedId sha256 entries
  demand (combinedId = expectedCombinedId)
    ("Combined archive ID mismatch: expected " ++ debugBytes expectedCombinedId.toList ++
      ", got " ++ debugBytes combinedId.toList)
  pure { version := version, circuitVersion := UInt32.ofNat circuitVersion,
         combinedId := combinedId, createdAt := createdAt, author := author,
         generatorTool := generatorTool, description := description, entries := entries }

/-! ### The older format -/

/-- The order of the field of P-256. -/
def lfa1Modulus : ℕ := 0xffffffff00000001000000000000000000000000ffffffffffffffffffffffff

/-- Elements of the field of P-256, kept as their bytes. -/
def lfa1P256Field : SerializableField (Vector UInt8 32) where
  isBinary := false
  serializedSizeBytes := 32
  toBytes e := e.toList
  bytesToElement bytes :=
    if sized : bytes.length = 32 then
      if leValue bytes ≥ lfa1Modulus then .error "P256 element >= modulus"
      else .ok ⟨bytes.toArray, sized⟩
    else .error "invalid P256 element length"
  serializedMone := [
    0xfe, 0xff, 0xff, 0xff, 0xff, 0xff, 0xff, 0xff, 0xff, 0xff, 0xff, 0xff, 0x00, 0x00, 0x00, 0x00,
    0x00, 0x00, 0x00, 0x00, 0x00, 0x00, 0x00, 0x00, 0x01, 0x00, 0x00, 0x00, 0xff, 0xff, 0xff, 0xff]
  length_toBytes e := by simp

/-- Elements of the binary field, little-endian. -/
def gf2128Field : SerializableField Gf2128 where
  isBinary := true
  serializedSizeBytes := 16
  toBytes e := leBytes 16 e.toNat
  bytesToElement bytes :=
    if bytes.length ≠ 16 then .error "Invalid size" else .ok (BitVec.ofNat 128 (leValue bytes))
  serializedMone := leBytes 16 1
  length_toBytes e := length_leBytes 16 e.toNat

def readerSig : CircuitReader (Vector UInt8 32) := .new lfa1P256Field .p256

def readerHash : CircuitReader Gf2128 := .new gf2128Field .gf2_128

/-- The older format takes everything that is left of the input. -/
def fromStreamLfa1 : Reader String CircuitArchive := fun rawBytes => do
  check (rawBytes.head? = some 1)
    ("Invalid LFA1 header: expected first byte to be 1 (LFC1), got " ++
      match rawBytes with
      | [] => "None"
      | byte :: _ => s!"Some({byte})")
  let (cSig, remaining1) ← (fromBytes sha256 readerSig false).run rawBytes
  let sigLen := rawBytes.length - remaining1.length
  let payloadSig := rawBytes.take sigLen
  let (cHash, remaining2) ← (fromBytes sha256 readerHash false).run remaining1
  let hashLen := remaining1.length - remaining2.length
  let payloadHash := remaining1.take hashLen
  let entries := [⟨"sig", cSig.id, payloadSig⟩, ⟨"hash", cHash.id, payloadHash⟩]
  pure ({ version := lfaVersion, circuitVersion := 0,
          combinedId := computeCombinedId sha256 entries, createdAt := "", author := "",
          generatorTool := "", description := "", entries := entries }, [])

/-- Asserts that no metadata information is lost. -/
def toBytesLfa1 (archive : CircuitArchive) : Exec String Bytes := do
  ensure (archive.circuitVersion = 0)
    s!"Cannot serialize to LFA1 format: circuit_version is non-zero ({archive.circuitVersion})"
  ensure (archive.createdAt = "")
    s!"Cannot serialize to LFA1 format: created_at field is non-empty ('{archive.createdAt}')"
  ensure (archive.author = "")
    s!"Cannot serialize to LFA1 format: author field is non-empty ('{archive.author}')"
  ensure (archive.generatorTool = "")
    s!"Cannot serialize to LFA1 format: generator_tool field is non-empty ('{archive.generatorTool}')"
  ensure (archive.description = "")
    s!"Cannot serialize to LFA1 format: description field is non-empty ('{archive.description}')"
  ensure (archive.entries.length = 2)
    ("LFA1 format requires exactly 2 circuit entries ('sig' and 'hash'), got " ++
      toString archive.entries.length)
  let sigEntry ← expect (archive.get "sig") "LFA1 format requires a 'sig' entry"
  let hashEntry ← expect (archive.get "hash") "LFA1 format requires a 'hash' entry"
  pure (sigEntry.payload ++ hashEntry.payload)

/-! ### Either format -/

def fromStream : Reader String CircuitArchive := fun buf =>
  if buf.take 4 = lfa2Magic then (fromStreamLfa2Body sha256).run (buf.drop 4)
  else if buf.head? = some 1 then (fromStreamLfa1 sha256).run buf
  else raise ("Unsupported archive header: expected b\"LFA2\" magic or 0x01 (LFA1), got " ++
    if 4 ≤ buf.length then s!"Some({debugBytes (buf.take 4)})" else "None")

/-- Read an archive; what follows it is ignored. -/
def CircuitArchive.fromBytes (bytes : Bytes) : Exec String CircuitArchive := do
  let (archive, _) ← (fromStream sha256).run bytes
  pure archive

variable {sha256} {E : Type}

/-! ### The newer format is read back -/

theorem fromUtf8_utf8 (fieldName s : String) : fromUtf8 fieldName (Mdoc.utf8 s) = .ok s := by
  have decoded : String.fromUTF8? ⟨(Mdoc.utf8 s).toArray⟩ = some s := by
    unfold String.fromUTF8?
    have valid : ByteArray.IsValidUTF8 ⟨(Mdoc.utf8 s).toArray⟩ := s.isValidUTF8
    rw [dif_pos valid]
    rfl
  rw [fromUtf8, decoded]
  rfl

theorem reads_utf8String {maxLen : ℕ} (small : maxLen < 2 ^ 56) (fieldName : String) {s : String}
    (short : (Mdoc.utf8 s).length ≤ maxLen) :
    Reads (readUtf8String maxLen fieldName) (writeUtf8String s) s := by
  refine (reads_uleb128 (short.trans_lt small)).bind (Reads.demanded short ?_)
  exact (reads_takeBytes rfl).checked (Reads.lift (fromUtf8_utf8 fieldName s))

/-- The limits of the reader on texts and on the number of entries. -/
structure CircuitArchive.WithinLimits (archive : CircuitArchive) : Prop where
  createdAt : (Mdoc.utf8 archive.createdAt).length ≤ 4096
  author : (Mdoc.utf8 archive.author).length ≤ 4096
  generatorTool : (Mdoc.utf8 archive.generatorTool).length ≤ 4096
  description : (Mdoc.utf8 archive.description).length ≤ 65536
  entries : archive.entries.length ≤ 10000
  names : ∀ entry ∈ archive.entries, (Mdoc.utf8 entry.name).length ≤ 4096

/-- The payloads have lengths that the reader takes. -/
def CircuitArchive.SmallPayloads (archive : CircuitArchive) : Prop :=
  ∀ entry ∈ archive.entries, entry.payload.length < 2 ^ 56

def ArchiveEntry.metadata (entry : ArchiveEntry) : String × Vector UInt8 32 × ℕ :=
  (entry.name, entry.circuitId, entry.payload.length)

variable {entry : ArchiveEntry}

theorem reads_metadata (short : (Mdoc.utf8 entry.name).length ≤ 4096)
    (small : entry.payload.length < 2 ^ 56) :
    Reads readMetadata (writeMetadata entry) entry.metadata := by
  refine (reads_utf8String (by decide) _ short).bind ?_
  refine (reads_takeVector entry.circuitId).bind ?_
  exact (reads_uleb128 small).andReturn _

theorem reads_payload (entry : ArchiveEntry) :
    Reads (readPayload entry.metadata) entry.payload entry := by
  have taken : Reads (takeBytes entry.payload.length
      s!"Incomplete payload for entry '{entry.name}'") entry.payload _ := reads_takeBytes rfl
  exact taken.andReturn fun payload => ArchiveEntry.mk entry.name entry.circuitId payload

theorem reads_table {entries : List ArchiveEntry}
    (short : ∀ entry ∈ entries, (Mdoc.utf8 entry.name).length ≤ 4096)
    (small : ∀ entry ∈ entries, entry.payload.length < 2 ^ 56) :
    Reads (readMany readMetadata entries.length) (entries.flatMap writeMetadata)
      (entries.map ArchiveEntry.metadata) := by
  induction entries with
  | nil => exact Reads.pure []
  | cons entry entries ih =>
    obtain ⟨shortHead, shortTail⟩ := List.forall_mem_cons.mp short
    obtain ⟨smallHead, smallTail⟩ := List.forall_mem_cons.mp small
    rw [List.flatMap_cons]
    exact (reads_metadata shortHead smallHead).bind ((ih shortTail smallTail).andReturn _)

theorem reads_payloads (entries : List ArchiveEntry) :
    Reads ((entries.map ArchiveEntry.metadata).mapM readPayload)
      (entries.flatMap ArchiveEntry.payload) entries := by
  apply reads_mapM
  rw [List.forall₂_map_left_iff]
  exact List.forall₂_same.mpr fun entry _ => reads_payload entry

variable {archive : CircuitArchive} {readNum : Reader String ℕ}

/-- **An archive within the limits is read back** after its marker. -/
theorem reads_lfa2Body (limits : archive.WithinLimits) (small : archive.SmallPayloads)
    (version : archive.version = lfaVersion)
    (combined : archive.combinedId = computeCombinedId sha256 archive.entries) :
    Reads (fromStreamLfa2Body sha256) (lfa2Body archive) archive := by
  have versionByte : UInt8.ofNat (leValue [archive.version]) = archive.version := by
    simp [leValue]
  have circuitVersion : archive.circuitVersion.toNat < 2 ^ 56 :=
    archive.circuitVersion.toNat_lt.trans (by decide)
  have taken : Reads (takeBytes 1 "Incomplete header: missing version byte") [archive.version] _ :=
    reads_takeBytes rfl
  refine taken.bind ?_
  refine Reads.demanded (versionByte.trans version) ?_
  refine (reads_uleb128 circuitVersion).bind ?_
  refine (reads_takeVector archive.combinedId).bind ?_
  refine (reads_utf8String (by decide) _ limits.createdAt).bind ?_
  refine (reads_utf8String (by decide) _ limits.author).bind ?_
  refine (reads_utf8String (by decide) _ limits.generatorTool).bind ?_
  refine (reads_utf8String (by decide) _ limits.description).bind ?_
  refine (reads_uleb128 (limits.entries.trans_lt (by decide))).bind ?_
  refine Reads.demanded limits.entries ?_
  refine (reads_table limits.names small).bind ?_
  refine (reads_payloads archive.entries).checked ?_
  refine Reads.demanded combined ?_
  rw [UInt32.ofNat_toNat, versionByte]
  exact Reads.pure archive

/-! ### What the newer format returns -/

theorem safe_fromUtf8 (fieldName : String) (buf : Bytes) :
    Safe (fromUtf8 fieldName buf) fun _ => True := by
  unfold fromUtf8
  split
  · exact safe_pure trivial
  · exact safe_raise _ _

theorem safeReader_utf8String (maxLen : ℕ) (fieldName : String) :
    SafeReader (readUtf8String maxLen fieldName) fun _ => True :=
  safeReader_uleb128.bind fun len _ => (safeReader_demand _ _).bind fun _ _ =>
    (safeReader_takeBytes len _).bind fun buf _ => safeReader_lift (safe_fromUtf8 fieldName buf)

theorem safeReader_metadata :
    SafeReader readMetadata fun metadata => metadata.2.2 < 2 ^ 56 :=
  (safeReader_utf8String 4096 _).bind fun _ _ => (safeReader_takeVector 32 _).bind fun _ _ =>
    safeReader_uleb128.bind fun _ small => safeReader_pure small

theorem safeReader_payload {metadata : String × Vector UInt8 32 × ℕ} (small : metadata.2.2 < 2 ^ 56) :
    SafeReader (readPayload metadata) fun entry => entry.payload.length < 2 ^ 56 :=
  (safeReader_takeBytes metadata.2.2 _).bind fun _ size => safeReader_pure (size.trans_lt small)

/-- **The reader of the newer format does not panic**, and the payloads that it returns have
lengths of at most 56 bits. -/
theorem safeReader_lfa2Body :
    SafeReader (fromStreamLfa2Body sha256) CircuitArchive.SmallPayloads := by
  refine (safeReader_takeBytes 1 _).bind fun _ _ => (safeReader_demand _ _).bind fun _ _ => ?_
  refine safeReader_uleb128.bind fun _ _ => (safeReader_takeVector 32 _).bind fun _ _ => ?_
  refine (safeReader_utf8String 4096 _).bind fun _ _ => ?_
  refine (safeReader_utf8String 4096 _).bind fun _ _ => ?_
  refine (safeReader_utf8String 4096 _).bind fun _ _ => ?_
  refine (safeReader_utf8String 65536 _).bind fun _ _ => ?_
  refine safeReader_uleb128.bind fun _ _ => (safeReader_demand _ _).bind fun _ _ => ?_
  refine (safeReader_many safeReader_metadata _).bind fun metadata ⟨_, small⟩ => ?_
  refine (safeReader_mapM fun line member => safeReader_payload (small line member)).bind
    fun entries all => ?_
  exact (safeReader_demand _ _).bind fun _ _ => safeReader_pure all

theorem fromBytes_lfa2Magic (body : Bytes) :
    CircuitArchive.fromBytes sha256 (lfa2Magic ++ body) =
      (fromStreamLfa2Body sha256).run body >>= fun result => pure result.1 := by
  rfl

/-- **When the newer format gives an archive back.** -/
theorem fromBytes_lfa2_iff (limits : archive.WithinLimits) (version : archive.version = lfaVersion)
    (combined : archive.combinedId = computeCombinedId sha256 archive.entries) :
    CircuitArchive.fromBytes sha256 (toBytesLfa2 archive) = .ok archive ↔
      archive.SmallPayloads := by
  rw [toBytesLfa2, fromBytes_lfa2Magic]
  constructor
  · intro readBack
    obtain ⟨⟨returned, rest⟩, ran, same⟩ := bind_eq_ok.mp readBack
    obtain rfl : returned = archive := Except.ok.inj same
    exact (safeReader_lfa2Body _).of_ok ran
  · intro small
    have read := reads_lfa2Body limits small version combined []
    rw [List.append_nil] at read
    rw [read, ok_bind, pure_eq_ok]

/-! ### Where a circuit ends -/

theorem selfDelimiting_num : SelfDelimiting readNumStream :=
  (selfDelimiting_takeBytes 3 _).bind fun _ => selfDelimiting_pure _

theorem selfDelimiting_header (numbers : SelfDelimiting readNum) :
    SelfDelimiting (readHeader readNum) := by
  refine numbers.bind fun _ => numbers.bind fun _ => (selfDelimiting_demand _ _).bind fun _ => ?_
  refine (selfDelimiting_lift _).bind fun _ => (selfDelimiting_demand _ _).bind fun _ => ?_
  refine numbers.bind fun _ => (selfDelimiting_demand _ _).bind fun _ => ?_
  refine numbers.bind fun _ => (selfDelimiting_demand _ _).bind fun _ => ?_
  refine numbers.bind fun _ => (selfDelimiting_demand _ _).bind fun _ => ?_
  refine numbers.bind fun _ => (selfDelimiting_demand _ _).bind fun _ => ?_
  exact numbers.bind fun _ => (selfDelimiting_demand _ _).bind fun _ => selfDelimiting_pure _

theorem selfDelimiting_constant (f : SerializableField E) : SelfDelimiting (readConstant f) := by
  refine (selfDelimiting_takeBytes _ _).bind fun chunk => ?_
  split
  · exact selfDelimiting_pure _
  · exact selfDelimiting_lift _

theorem selfDelimiting_dimensions (numbers : SelfDelimiting readNum) :
    SelfDelimiting (readDimensions readNum) :=
  numbers.bind fun _ => (selfDelimiting_demand _ _).bind fun _ =>
    numbers.bind fun _ => (selfDelimiting_demand _ _).bind fun _ => selfDelimiting_pure _

theorem selfDelimiting_layerLfc1 (reader : CircuitReader E) (numconst totalTerms : ℕ) :
    SelfDelimiting (readLayerLfc1 reader numconst totalTerms) := by
  refine (selfDelimiting_dimensions selfDelimiting_num).bind fun _ => ?_
  refine selfDelimiting_num.bind fun nterms => (selfDelimiting_demand _ _).bind fun _ => ?_
  refine (selfDelimiting_lift _).bind fun _ => ?_
  exact (selfDelimiting_records 12 255 _ _ nterms _).bind fun _ => selfDelimiting_pure _

theorem selfDelimiting_layers {readLayer : ℕ → Reader String (Layer × ℕ)}
    (each : ∀ totalTerms, SelfDelimiting (readLayer totalTerms)) (count totalTerms : ℕ) :
    SelfDelimiting (readLayers readLayer count totalTerms) := by
  induction count generalizing totalTerms with
  | zero => exact selfDelimiting_pure []
  | succ count ih =>
    exact (each totalTerms).bind fun _ => (ih _).bind fun _ => selfDelimiting_pure _

theorem selfDelimiting_finish (reader : CircuitReader E) (enforce : Bool) (raw : RawCircuit E) :
    SelfDelimiting (finishCircuit sha256 reader enforce raw) := by
  refine (selfDelimiting_takeVector 32 _).bind fun _ => (selfDelimiting_lift _).bind fun _ => ?_
  cases enforce with
  | false => exact selfDelimiting_pure _
  | true =>
    refine (selfDelimiting_lift _).bind fun _ => ?_
    exact (selfDelimiting_demand _ _).bind fun _ => selfDelimiting_pure _

/-- **A circuit in the older format ends where its reader stops**, whatever follows it. -/
theorem selfDelimiting_lfc1 (reader : CircuitReader E) (enforce : Bool) :
    SelfDelimiting (fromStreamLfc1Inner sha256 reader enforce) := by
  refine (selfDelimiting_header selfDelimiting_num).bind fun header => ?_
  refine SelfDelimiting.bind ?_ fun numconst => ?_
  · exact selfDelimiting_num.bind fun _ => (selfDelimiting_demand _ _).bind fun _ =>
      selfDelimiting_pure _
  refine (selfDelimiting_demand _ _).bind fun _ => ?_
  refine (selfDelimiting_many (selfDelimiting_constant reader.f) numconst).bind fun _ => ?_
  refine (selfDelimiting_layers (selfDelimiting_layerLfc1 reader numconst) header.nl 0).bind
    fun _ => ?_
  exact selfDelimiting_finish reader enforce _

/-! ### The older format is read back -/

/-- The payload of an entry is a circuit in the older format, with the identifier of the entry. -/
def ArchiveEntry.Encodes (sha256 : Bytes → Vector UInt8 32) (entry : ArchiveEntry)
    (reader : CircuitReader E) : Prop :=
  ∃ circuit, (fromBytesLfc1 sha256 reader false).run entry.payload = .ok (circuit, []) ∧
    circuit.id = entry.circuitId

theorem reads_of_encodes {reader : CircuitReader E} (encodes : entry.Encodes sha256 reader) :
    ∃ circuit, circuit.id = entry.circuitId ∧ entry.payload.head? = some 1 ∧
      Reads (fromBytes sha256 reader false) entry.payload circuit := by
  obtain ⟨circuit, ran, same⟩ := encodes
  obtain ⟨verBuf, body, taken, ran⟩ := reader_bind_eq_ok.mp ran
  obtain ⟨size, split⟩ := takeBytes_eq_ok.mp taken
  obtain ⟨_, _, demanded, ran⟩ := reader_bind_eq_ok.mp ran
  obtain ⟨version, rfl⟩ := reader_lift_eq_ok.mp demanded
  obtain ⟨byte, rfl⟩ := List.length_eq_one_iff.mp size
  obtain rfl : byte = 1 := UInt8.toNat_inj.mp (by simpa [leValue] using check_eq_ok.mp version)
  have read := (selfDelimiting_lfc1 reader false).reads_whole ran
  rw [split]
  exact ⟨circuit, same, rfl, read⟩

/-- The archive that the reader of the older format makes of two entries. -/
def lfa1Archive (sha256 : Bytes → Vector UInt8 32) (sig hash : ArchiveEntry) : CircuitArchive where
  version := lfaVersion
  circuitVersion := 0
  combinedId := computeCombinedId sha256 [sig, hash]
  createdAt := ""
  author := ""
  generatorTool := ""
  description := ""
  entries := [sig, hash]

/-- **What is read back of the older format**: the circuit of signatures is always the first. -/
theorem fromBytes_lfa1 {sig hash : ArchiveEntry} (sigName : sig.name = "sig")
    (hashName : hash.name = "hash") (sigEncodes : sig.Encodes sha256 readerSig)
    (hashEncodes : hash.Encodes sha256 readerHash) :
    CircuitArchive.fromBytes sha256 (sig.payload ++ hash.payload) =
      .ok (lfa1Archive sha256 sig hash) := by
  obtain ⟨cSig, sigId, marker, readSig⟩ := reads_of_encodes sigEncodes
  obtain ⟨cHash, hashId, _, readHash⟩ := reads_of_encodes hashEncodes
  have first := readSig hash.payload
  have second := readHash []
  rw [List.append_nil] at second
  obtain ⟨body, begins⟩ : ∃ body, sig.payload = 1 :: body := List.head?_eq_some_iff.mp marker
  have notNewer : (sig.payload ++ hash.payload).take 4 ≠ lfa2Magic := by
    rw [begins]
    simp [lfa2Magic]
  have older : (sig.payload ++ hash.payload).head? = some 1 := by rw [begins]; rfl
  have stream : (fromStream sha256).run (sig.payload ++ hash.payload) =
      (fromStreamLfa1 sha256).run (sig.payload ++ hash.payload) := by
    show (if _ then _ else _) = _
    rw [if_neg notNewer, if_pos older]
  have ran : (fromStreamLfa1 sha256).run (sig.payload ++ hash.payload) =
      .ok (lfa1Archive sha256 sig hash, []) := by
    show (check _ _ >>= fun _ => _) = _
    rw [check_of older, ok_bind, first, ok_bind]
    simp only
    rw [second, ok_bind]
    simp only [List.length_append, Nat.add_sub_cancel, List.take_left, List.length_nil,
      Nat.sub_zero, List.take_length, sigId, hashId, ← sigName, ← hashName]
    rfl
  rw [CircuitArchive.fromBytes, stream, ran, ok_bind]
  rfl

theorem get_name {name : String} (found : archive.get name = some entry) : entry.name = name := by
  have holds : decide (entry.name = name) = true :=
    List.find?_some (p := fun entry : ArchiveEntry => decide (entry.name = name)) found
  exact of_decide_eq_true holds

theorem entries_of_two (two : archive.entries.length = 2) {sig hash : ArchiveEntry}
    (foundSig : archive.get "sig" = some sig) (foundHash : archive.get "hash" = some hash) :
    archive.entries = [sig, hash] ∨ archive.entries = [hash, sig] := by
  have sigName := get_name foundSig
  have hashName := get_name foundHash
  obtain ⟨first, second, entries⟩ := List.length_eq_two.mp two
  have sigMember : sig ∈ [first, second] := entries ▸ List.mem_of_find?_eq_some foundSig
  have hashMember : hash ∈ [first, second] := entries ▸ List.mem_of_find?_eq_some foundHash
  have different : sig ≠ hash := by
    rintro rfl
    rw [sigName] at hashName
    exact absurd hashName (by decide)
  simp only [List.mem_cons, List.not_mem_nil, or_false] at sigMember hashMember
  rw [entries]
  rcases sigMember with rfl | rfl <;> rcases hashMember with rfl | rfl
  · exact absurd rfl different
  · exact .inl rfl
  · exact .inr rfl
  · exact absurd rfl different

theorem toBytesLfa1_eq_ok {bytes : Bytes} (wrote : toBytesLfa1 archive = .ok bytes) :
    ∃ sig hash, archive.get "sig" = some sig ∧ archive.get "hash" = some hash ∧
      bytes = sig.payload ++ hash.payload ∧
      (archive.entries = [sig, hash] ∨ archive.entries = [hash, sig]) ∧
      archive = ⟨archive.version, 0, archive.combinedId, "", "", "", "", archive.entries⟩ := by
  simp only [toBytesLfa1, bind_eq_ok, ensure_eq_ok] at wrote
  obtain ⟨_, circuitVersion, _, createdAt, _, author, _, generatorTool, _, description, _, two,
    sig, foundSig, hash, foundHash, wrote⟩ := wrote
  have foundSig := expect_eq_ok.mp foundSig
  have foundHash := expect_eq_ok.mp foundHash
  refine ⟨sig, hash, foundSig, foundHash, (Except.ok.inj wrote).symm,
    entries_of_two two foundSig foundHash, ?_⟩
  cases archive
  simp only at circuitVersion createdAt author generatorTool description
  subst circuitVersion createdAt author generatorTool description
  rfl

/-- **When the older format gives an archive back**: the circuit of signatures is the first entry,
and the version and the combined identifier are those that the reader fills in. -/
theorem fromBytes_lfa1_iff {bytes : Bytes} (wrote : toBytesLfa1 archive = .ok bytes)
    (sigEncodes : ∀ entry, archive.get "sig" = some entry → entry.Encodes sha256 readerSig)
    (hashEncodes : ∀ entry, archive.get "hash" = some entry → entry.Encodes sha256 readerHash) :
    CircuitArchive.fromBytes sha256 bytes = .ok archive ↔ archive.version = lfaVersion ∧
      archive.combinedId = computeCombinedId sha256 archive.entries ∧
      archive.entries.head?.map ArchiveEntry.name = some "sig" := by
  obtain ⟨sig, hash, foundSig, foundHash, rfl, order, shape⟩ := toBytesLfa1_eq_ok wrote
  have sigName := get_name foundSig
  have hashName := get_name foundHash
  rw [fromBytes_lfa1 sigName hashName (sigEncodes sig foundSig) (hashEncodes hash foundHash)]
  constructor
  · intro same
    rw [← Except.ok.inj same]
    exact ⟨rfl, rfl, congrArg some sigName⟩
  · rintro ⟨version, combined, first⟩
    have entries : archive.entries = [sig, hash] := by
      rcases order with sigFirst | hashFirst
      · exact sigFirst
      · rw [hashFirst, List.head?_cons, Option.map_some, hashName] at first
        exact absurd (Option.some.inj first) (by decide)
    rw [entries] at combined
    rw [shape, version, combined, entries]
    rfl

/-- **When the two formats give an archive back.** -/
theorem archive_roundTrips_iff (sha256 : Bytes → Vector UInt8 32) :
    (∀ builder : CircuitArchiveBuilder, (builder.build sha256).WithinLimits →
      (CircuitArchive.fromBytes sha256 (toBytesLfa2 (builder.build sha256)) =
          .ok (builder.build sha256) ↔
        (builder.build sha256).SmallPayloads)) ∧
    ∀ (archive : CircuitArchive) (bytes : Bytes), toBytesLfa1 archive = .ok bytes →
      (∀ entry, archive.get "sig" = some entry → entry.Encodes sha256 readerSig) →
      (∀ entry, archive.get "hash" = some entry → entry.Encodes sha256 readerHash) →
      (CircuitArchive.fromBytes sha256 bytes = .ok archive ↔ archive.version = lfaVersion ∧
        archive.combinedId = computeCombinedId sha256 archive.entries ∧
        archive.entries.head?.map ArchiveEntry.name = some "sig") :=
  ⟨fun _ limits => fromBytes_lfa2_iff limits rfl rfl,
    fun _ _ wrote sigEncodes hashEncodes => fromBytes_lfa1_iff wrote sigEncodes hashEncodes⟩

/-! ### Small archives -/

/-- A circuit of one output and no layers, over the field of a code. -/
def smallPayload (fid : UInt8) : Bytes :=
  [1, fid, 0, 0, 1, 0, 0, 1, 0, 0] ++ List.replicate 15 0 ++ List.replicate 32 0

def smallSig : ArchiveEntry := ⟨"sig", .replicate 32 0, smallPayload 1⟩

def smallHash : ArchiveEntry := ⟨"hash", .replicate 32 0, smallPayload 4⟩

/-- An archive without metadata. -/
def plainBuilder (entries : List ArchiveEntry) : CircuitArchiveBuilder :=
  ⟨none, some "", some "", some "", some "", entries⟩

theorem smallSig_encodes : smallSig.Encodes Sha256.digest readerSig :=
  ⟨⟨⟨0, 0, 1, 0, 0, [], []⟩, .replicate 32 0⟩, by rfl, rfl⟩

theorem smallHash_encodes : smallHash.Encodes Sha256.digest readerHash :=
  ⟨⟨⟨0, 0, 1, 0, 0, [], []⟩, .replicate 32 0⟩, by rfl, rfl⟩

/-- **The order of the circuits is lost** in the older format. -/
theorem archive_order_is_lost :
    let archive := (plainBuilder [smallHash, smallSig]).build Sha256.digest
    ∃ bytes, toBytesLfa1 archive = .ok bytes ∧
      archive.get "sig" = some smallSig ∧ smallSig.Encodes Sha256.digest readerSig ∧
      archive.get "hash" = some smallHash ∧ smallHash.Encodes Sha256.digest readerHash ∧
      CircuitArchive.fromBytes Sha256.digest bytes ≠ .ok archive := by
  refine ⟨smallSig.payload ++ smallHash.payload, by rfl, by rfl, smallSig_encodes, by rfl,
    smallHash_encodes, ?_⟩
  rw [fromBytes_lfa1 rfl rfl smallSig_encodes smallHash_encodes]
  intro same
  have entries : [smallSig, smallHash] = [smallHash, smallSig] :=
    congrArg CircuitArchive.entries (Except.ok.inj same)
  exact absurd entries (by decide)

theorem archive_roundTrips_small :
    let archive := (plainBuilder [smallSig, smallHash]).build Sha256.digest
    CircuitArchive.fromBytes Sha256.digest (toBytesLfa2 archive) = .ok archive ∧
      CircuitArchive.fromBytes Sha256.digest (smallSig.payload ++ smallHash.payload) =
        .ok archive := by
  obtain ⟨newer, older⟩ := archive_roundTrips_iff Sha256.digest
  constructor
  · refine (newer (plainBuilder [smallSig, smallHash]) ?_).mpr ?_
    · exact ⟨by decide, by decide, by decide, by decide, by decide, by decide⟩
    · show ∀ entry ∈ [smallSig, smallHash], entry.payload.length < 2 ^ 56
      decide
  · refine (older _ _ (by rfl) ?_ ?_).mpr ⟨rfl, rfl, rfl⟩
    · intro entry found
      obtain rfl : smallSig = entry := Option.some.inj found
      exact smallSig_encodes
    · intro entry found
      obtain rfl : smallHash = entry := Option.some.inj found
      exact smallHash_encodes

end Longfellow
