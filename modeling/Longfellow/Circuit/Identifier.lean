/-
**The identifier through a buffer** (`core/proto/src/circuit.rs`).

`compute_id` hashes the layers through a buffer of fixed size: a number or a term that does not fit
behind what is there makes the buffer go to the hasher first, and a coefficient longer than the
buffer goes there on its own. What the hasher takes in all together is the message of `computeId`.

* `computeIdBuffered_eq` — **every buffer that holds a term gives the identifier of the message**.
-/

import Longfellow.Circuit.Basic

namespace Longfellow

open Lib

variable {ε E : Type} {H : Hasher}

/-- A hasher that takes its message in pieces. -/
structure Hasher where
  State : Type
  new : State
  update : State → Bytes → State
  finalize : State → Vector UInt8 32
  sha256 : Bytes → Vector UInt8 32
  finalize_updates : ∀ chunks : List Bytes, finalize (chunks.foldl update new) = sha256 chunks.flatten

/-- The hasher that keeps the message until the end. -/
def Hasher.ofHash (sha256 : Bytes → Vector UInt8 32) : Hasher where
  State := Bytes
  new := []
  update := (· ++ ·)
  finalize := sha256
  sha256 := sha256
  finalize_updates chunks := by
    have whole : ∀ start : Bytes, chunks.foldl (· ++ ·) start = start ++ chunks.flatten := by
      induction chunks with
      | nil => simp
      | cons chunk chunks ih => simp [ih]
    rw [whole, List.nil_append]

/-- The hasher, the buffer and how much of it is filled. -/
structure Pending (H : Hasher) where
  hasher : H.State
  buf : Bytes
  bufLen : Nat

namespace Pending

/-- Hand the filled part of the buffer to the hasher. -/
def flush (s : Pending H) : Exec ε (Pending H) := do
  let filled ← slice s.buf 0 s.bufLen
  pure { s with hasher := H.update s.hasher filled, bufLen := 0 }

/-- Make room for some bytes. -/
def reserve (s : Pending H) (size : Nat) : Exec ε (Pending H) :=
  if s.buf.length < s.bufLen + size then s.flush else pure s

/-- Copy bytes behind the filled part. -/
def store (s : Pending H) (bytes : Bytes) : Exec ε (Pending H) := do
  let buf ← withSlice s.buf s.bufLen (s.bufLen + bytes.length) fun _ => pure bytes
  pure { s with buf, bufLen := s.bufLen + bytes.length }

/-- A number of the head of a layer. -/
def number (s : Pending H) (val : Nat) : Exec ε (Pending H) := do
  let s ← s.reserve 8
  s.store (update8 val)

/-- Hand over what is left. -/
def finish (s : Pending H) : Exec ε (Pending H) := if 0 < s.bufLen then s.flush else pure s

/-- A term, whose coefficient is the bytes `cb`. -/
def term (s : Pending H) (g h0 h1 : UInt32) (cb : Bytes) : Exec ε (Pending H) := do
  let s ← s.reserve (24 + cb.length)
  let s ← s.store (update8 g.toNat)
  let s ← s.store (update8 h0.toNat)
  let s ← s.store (update8 h1.toNat)
  if s.buf.length < cb.length then do
    let s ← s.finish
    pure { s with hasher := H.update s.hasher cb }
  else s.store cb

end Pending

section Id

variable (H : Hasher) (f : SerializableField E)

/-- One layer: its head, and its deltas summed up to terms. -/
def absorbLayer (constBytes : List Bytes) (s : Pending H) (layer : Layer) :
    Exec ε (Pending H) := do
  let count ← layer.numTerms
  let s ← s.number layer.nw
  let s ← s.number layer.logw
  let s ← s.number count
  let (_, s) ← layer.deltaTokens.foldlM (fun state tok => do
    let segment ← getAt layer.deltaSegments tok.toNat
    segment.foldlM (fun (state : Wires × Pending H) dIdx => do
      let d ← getAt layer.deltas dIdx.toNat
      let next := state.1.step d
      let cb ← getAt constBytes d.kIndex.toNat
      let s ← state.2.term next.g next.h0 next.h1 cb
      pure (next, s)) state) (Wires.zero, s)
  pure s

/-- The pieces of the header, as they are handed to the hasher. -/
def headerPieces (raw : RawCircuit E) : List Bytes :=
  (if f.isBinary then [update8 2, update8 (f.serializedSizeBytes * 8)]
    else [update8 1, f.serializedMone]) ++
  [update8 raw.noutput, update8 raw.logv, update8 1, update8 0, update8 raw.layers.length,
    update8 raw.ninput, update8 raw.npublicInput, update8 raw.subfieldBoundary]

/-- The identifier through a buffer of `capacity` bytes. -/
def computeIdBuffered (capacity : Nat) (raw : RawCircuit E) : Exec ε (Vector UInt8 32) := do
  let hasher := (headerPieces f raw).foldl H.update H.new
  let constBytes := raw.constants.map f.toBytes
  let s ← raw.layers.foldlM (absorbLayer H constBytes) ⟨hasher, List.replicate capacity 0, 0⟩
  let s ← s.finish
  pure (H.finalize s.hasher)

/-- The size of the buffer. -/
def bufferSize : Nat := 8192

end Id

/-! ### What was absorbed -/

namespace Pending

variable {s : Pending H} {message : Bytes} {capacity : Nat}

/-- The hasher and the filled part of the buffer hold a message. -/
structure Absorbed (capacity : Nat) (message : Bytes) (s : Pending H) : Prop where
  size : s.buf.length = capacity
  filled : s.bufLen ≤ capacity
  pieces : ∃ chunks : List Bytes, s.hasher = chunks.foldl H.update H.new ∧
    chunks.flatten ++ s.buf.take s.bufLen = message

section

variable (absorbed : s.Absorbed capacity message)
include absorbed

theorem Absorbed.flush :
    ∃ t, (s.flush : Exec ε _) = .ok t ∧ t.Absorbed capacity message ∧ t.bufLen = 0 := by
  obtain ⟨size, filled, chunks, hasher, whole⟩ := absorbed
  refine ⟨⟨H.update s.hasher (s.buf.take s.bufLen), s.buf, 0⟩, ?_,
    ⟨size, Nat.zero_le _, chunks ++ [s.buf.take s.bufLen], ?_, ?_⟩, rfl⟩
  · rw [Pending.flush, slice_of_le (Nat.zero_le _) (by omega), ok_bind, List.drop_zero, Nat.sub_zero,
      pure_eq_ok]
  · rw [List.foldl_append, ← hasher]
    rfl
  · rw [List.flatten_append, List.flatten_singleton, whole, List.take_zero, List.append_nil]

theorem Absorbed.reserve (room : Nat) :
    ∃ t, (s.reserve room : Exec ε _) = .ok t ∧ t.Absorbed capacity message ∧
      (t.bufLen + room ≤ capacity ∨ t.bufLen = 0) := by
  by_cases full : s.buf.length < s.bufLen + room
  · obtain ⟨t, ran, after, empty⟩ := absorbed.flush (ε := ε)
    exact ⟨t, by rw [Pending.reserve, if_pos full, ran], after, .inr empty⟩
  · have size := absorbed.size
    exact ⟨s, by rw [Pending.reserve, if_neg full, pure_eq_ok], absorbed, .inl (by omega)⟩

theorem Absorbed.store (bytes : Bytes) (room : s.bufLen + bytes.length ≤ capacity) :
    ∃ t, (s.store bytes : Exec ε _) = .ok t ∧ t.Absorbed capacity (message ++ bytes) ∧
      t.bufLen = s.bufLen + bytes.length := by
  obtain ⟨size, filled, chunks, hasher, whole⟩ := absorbed
  have front : (s.buf.take s.bufLen).length = s.bufLen := by
    rw [List.length_take]
    omega
  refine ⟨⟨s.hasher, s.buf.take s.bufLen ++ bytes ++ s.buf.drop (s.bufLen + bytes.length),
    s.bufLen + bytes.length⟩, ?_, ⟨?_, room, chunks, hasher, ?_⟩, rfl⟩
  · have slot : (withSlice s.buf s.bufLen (s.bufLen + bytes.length) fun _ => pure bytes :
        Exec ε Bytes) = .ok (s.buf.take s.bufLen ++ bytes ++
          s.buf.drop (s.bufLen + bytes.length)) :=
      withSlice_of_le (Nat.le_add_right ..) (by omega) rfl
    rw [Pending.store, slot, ok_bind, pure_eq_ok]
  · simp only [List.length_append, List.length_take, List.length_drop]
    omega
  · have stored : (s.buf.take s.bufLen ++ bytes ++ s.buf.drop (s.bufLen + bytes.length)).take
        (s.bufLen + bytes.length) = s.buf.take s.bufLen ++ bytes :=
      List.take_left' (by rw [List.length_append, front])
    rw [stored, ← List.append_assoc, whole]

theorem Absorbed.finish :
    ∃ t, (s.finish : Exec ε _) = .ok t ∧ t.Absorbed capacity message ∧ t.bufLen = 0 := by
  by_cases some : 0 < s.bufLen
  · rw [Pending.finish, if_pos some]
    exact absorbed.flush
  · exact ⟨s, by rw [Pending.finish, if_neg some, pure_eq_ok], absorbed, by omega⟩

theorem Absorbed.number (wide : 8 ≤ capacity) (val : Nat) :
    ∃ t, (s.number val : Exec ε _) = .ok t ∧ t.Absorbed capacity (message ++ update8 val) := by
  obtain ⟨t, reserved, middle, room⟩ := absorbed.reserve (ε := ε) 8
  have eight : (update8 val).length = 8 := length_leBytes ..
  obtain ⟨u, stored, after, _⟩ := middle.store (ε := ε) (update8 val) (by omega)
  exact ⟨u, by rw [Pending.number, reserved, ok_bind, stored], after⟩

/-- **A term** is absorbed when the buffer holds it, and when it does not hold its coefficient. -/
theorem Absorbed.term (wide : 24 ≤ capacity) (g h0 h1 : UInt32) {cb : Bytes}
    (fits : 24 + cb.length ≤ capacity ∨ capacity < cb.length) :
    ∃ t, (s.term g h0 h1 cb : Exec ε _) = .ok t ∧ t.Absorbed capacity (message ++
      (update8 g.toNat ++ update8 h0.toNat ++ update8 h1.toNat ++ cb)) := by
  have eight : ∀ val, (update8 val).length = 8 := fun val => length_leBytes ..
  obtain ⟨t, reserved, middle, room⟩ := absorbed.reserve (ε := ε) (24 + cb.length)
  obtain ⟨t₁, first, after₁, len₁⟩ := middle.store (ε := ε) (update8 g.toNat)
    (by rw [eight]; omega)
  rw [eight] at len₁
  obtain ⟨t₂, second, after₂, len₂⟩ := after₁.store (ε := ε) (update8 h0.toNat)
    (by rw [eight]; omega)
  rw [eight] at len₂
  obtain ⟨t₃, third, after₃, len₃⟩ := after₂.store (ε := ε) (update8 h1.toNat)
    (by rw [eight]; omega)
  rw [eight] at len₃
  have start : (s.term g h0 h1 cb : Exec ε _) =
      if t₃.buf.length < cb.length then do
        let s ← t₃.finish
        pure { s with hasher := H.update s.hasher cb }
      else t₃.store cb := by
    rw [Pending.term, reserved, ok_bind, first, ok_bind, second, ok_bind, third, ok_bind]
  have whole : message ++ (update8 g.toNat ++ update8 h0.toNat ++ update8 h1.toNat ++ cb) =
      message ++ update8 g.toNat ++ update8 h0.toNat ++ update8 h1.toNat ++ cb := by
    simp only [List.append_assoc]
  rw [start, after₃.size, whole]
  rcases fits with small | long
  · obtain ⟨u, stored, after, _⟩ := after₃.store (ε := ε) cb (by omega)
    exact ⟨u, by rw [if_neg (by omega), stored], after⟩
  · -- The buffer goes to the hasher first, and the coefficient after it.
    obtain ⟨u, finished, after, empty⟩ := after₃.finish (ε := ε)
    obtain ⟨size, filled, chunks, hasher, held⟩ := after
    refine ⟨⟨H.update u.hasher cb, u.buf, u.bufLen⟩, ?_, size, filled, chunks ++ [cb], ?_, ?_⟩
    · rw [if_pos long, finished, ok_bind, pure_eq_ok]
    · rw [List.foldl_append, ← hasher]
      rfl
    · rw [empty, List.take_zero, List.append_nil] at held
      rw [empty, List.take_zero, List.append_nil, List.flatten_append, List.flatten_singleton, held]

end

theorem Absorbed.foldlM {α : Type} {step : Pending H → α → Exec ε (Pending H)}
    (piece : α → Bytes) (xs : List α) (each : ∀ x ∈ xs, ∀ {s : Pending H} {message : Bytes},
      s.Absorbed capacity message →
        ∃ t, step s x = .ok t ∧ t.Absorbed capacity (message ++ piece x))
    (absorbed : s.Absorbed capacity message) :
    ∃ t, xs.foldlM step s = .ok t ∧ t.Absorbed capacity (message ++ xs.flatMap piece) := by
  induction xs generalizing s message with
  | nil => exact ⟨s, rfl, by simpa using absorbed⟩
  | cons x xs ih =>
    obtain ⟨t, ran, next⟩ := each x List.mem_cons_self absorbed
    obtain ⟨u, later, final⟩ := ih (fun y member => each y (List.mem_cons_of_mem _ member)) next
    refine ⟨u, by rw [List.foldlM_cons, ran, ok_bind, later], ?_⟩
    rwa [List.flatMap_cons, ← List.append_assoc]

end Pending

/-! ### The loop over the terms -/

section Loop

variable {f : SerializableField E}

/-- A term with its coefficient. -/
def absorbTerm (f : SerializableField E) (s : Pending H) (term : Term E) : Exec ε (Pending H) :=
  s.term term.g term.h0 term.h1 (f.toBytes term.k)

/-- The head of a layer and some terms. -/
def absorbTerms (f : SerializableField E) (nw logw : Nat) (terms : List (Term E)) (s : Pending H) :
    Exec ε (Pending H) := do
  let s ← s.number nw
  let s ← s.number logw
  let s ← s.number terms.length
  terms.foldlM (absorbTerm f) s

theorem getAt_toBytes (constants : List E) (i : Nat) :
    (getAt (constants.map f.toBytes) i : Exec ε Bytes) = f.toBytes <$> getAt constants i := by
  unfold getAt
  rw [List.getElem?_map]
  cases constants[i]? <;> rfl

/-- **The loop over a compressed layer** is one over the terms it expands to. -/
theorem absorbLayer_eq {layer : Layer} {constants : List E} {terms : List (Term E)}
    (expands : (layer.terms constants : Exec ε _) = .ok terms) (s : Pending H) :
    (absorbLayer H (constants.map f.toBytes) s layer : Exec ε _) =
      absorbTerms f layer.nw layer.logw terms s := by
  have loop : ∀ s : Pending H, (do
      let (_, s) ← layer.deltaTokens.foldlM (fun state tok => do
        let segment ← getAt layer.deltaSegments tok.toNat
        segment.foldlM (fun (state : Wires × Pending H) dIdx => do
          let d ← getAt layer.deltas dIdx.toNat
          let next := state.1.step d
          let cb ← getAt (constants.map f.toBytes) d.kIndex.toNat
          let s ← state.2.term next.g next.h0 next.h1 cb
          pure (next, s)) state) (Wires.zero, s)
      pure s : Exec ε (Pending H)) = terms.foldlM (absorbTerm f) s := by
    intro s
    rw [← Layer.tryForEachTerm_eq s expands]
    simp only [getAt_toBytes, bind_map_left]
    rfl
  rw [absorbLayer, (Layer.numTerms_of_terms expands).1, ok_bind]
  simp only [loop, absorbTerms]

/-- The buffer holds a term of the field, or not even a coefficient. -/
def FitsBuffer (f : SerializableField E) (capacity : Nat) : Prop :=
  24 ≤ capacity ∧ (24 + f.serializedSizeBytes ≤ capacity ∨ capacity < f.serializedSizeBytes)

/-- The hashed form of a layer of some terms. -/
def layerMessage (f : SerializableField E) (nw logw : Nat) (terms : List (Term E)) : Bytes :=
  update8 nw ++ update8 logw ++ update8 terms.length ++ terms.flatMap (termBytes f)

theorem absorbTerms_returns (fits : FitsBuffer f capacity) (nw logw : Nat) (terms : List (Term E))
    {s : Pending H} {message : Bytes} (absorbed : s.Absorbed capacity message) :
    ∃ t, (absorbTerms f nw logw terms s : Exec ε _) = .ok t ∧
      t.Absorbed capacity (message ++ layerMessage f nw logw terms) := by
  obtain ⟨wide, width⟩ := fits
  obtain ⟨s₁, first, after₁⟩ := absorbed.number (ε := ε) (by omega) nw
  obtain ⟨s₂, second, after₂⟩ := after₁.number (ε := ε) (by omega) logw
  obtain ⟨s₃, third, after₃⟩ := after₂.number (ε := ε) (by omega) terms.length
  have each : ∀ term ∈ terms, ∀ {s : Pending H} {message : Bytes}, s.Absorbed capacity message →
      ∃ t, (absorbTerm f s term : Exec ε _) = .ok t ∧
        t.Absorbed capacity (message ++ termBytes f term) := fun term _ => fun {s message} held =>
    held.term wide term.g term.h0 term.h1 (by rw [f.length_toBytes]; exact width)
  obtain ⟨t, ran, final⟩ := after₃.foldlM (termBytes f) terms each
  refine ⟨t, ?_, ?_⟩
  · rw [absorbTerms, first, ok_bind, second, ok_bind, third, ok_bind, ran]
  · simpa only [layerMessage, List.append_assoc] using final

end Loop

/-! ### The identifier -/

section Identifier

variable {f : SerializableField E}

/-- A circuit whose layers expand. -/
def RawCircuit.Expands (raw : RawCircuit E) : Prop :=
  ∀ layer ∈ raw.layers, ∃ terms, (layer.terms raw.constants : Exec String _) = .ok terms

theorem SameCircuit.expands {raw raw' : RawCircuit E} (same : SameCircuit raw raw') :
    raw.Expands := by
  intro layer member
  obtain ⟨layer', _, pair⟩ := exists_of_mem_left same.layers member
  obtain ⟨terms, first, _⟩ := pair.terms
  exact ⟨terms, first⟩

theorem layerBytes_eq {layer : Layer} {constants : List E} {terms : List (Term E)}
    (expands : (layer.terms constants : Exec String _) = .ok terms) :
    (layerBytes f constants layer : Exec String Bytes) =
      .ok (layerMessage f layer.nw layer.logw terms) := by
  rw [layerBytes, (Layer.numTerms_of_terms expands).1, ok_bind, expands, ok_bind, pure_eq_ok,
    layerMessage]

theorem flatten_headerPieces (raw : RawCircuit E) :
    (headerPieces f raw).flatten = headerBytes f raw := by
  unfold headerPieces headerBytes
  cases f.isBinary <;> simp

/-- **Through any buffer that holds a term**, the identifier is the hash of the whole message. -/
theorem computeIdBuffered_eq (fits : FitsBuffer f capacity) {raw : RawCircuit E}
    (expands : raw.Expands) : ∃ id, (computeId H.sha256 f raw : Exec String _) = .ok id ∧
      (computeIdBuffered H f capacity raw : Exec String _) = .ok id := by
  classical
  choose! termsOf expand using expands
  let piece : Layer → Bytes := fun layer => layerMessage f layer.nw layer.logw (termsOf layer)
  have parts : (raw.layers.mapM (layerBytes f raw.constants) : Exec String (List Bytes)) =
      .ok (raw.layers.map piece) :=
    mapM_eq_ok_map fun layer member => layerBytes_eq (expand layer member)
  have start : Pending.Absorbed capacity (headerBytes f raw)
      (⟨(headerPieces f raw).foldl H.update H.new, List.replicate capacity 0, 0⟩ : Pending H) :=
    ⟨List.length_replicate, Nat.zero_le _, headerPieces f raw, rfl, by
      rw [flatten_headerPieces, List.take_zero, List.append_nil]⟩
  have each : ∀ layer ∈ raw.layers, ∀ {s : Pending H} {message : Bytes},
      s.Absorbed capacity message →
        ∃ t, (absorbLayer H (raw.constants.map f.toBytes) s layer : Exec String _) = .ok t ∧
          t.Absorbed capacity (message ++ piece layer) :=
    fun layer member => fun {s message} absorbed => by
      rw [absorbLayer_eq (expand layer member)]
      exact absorbTerms_returns fits _ _ _ absorbed
  obtain ⟨s, ran, held⟩ := start.foldlM piece raw.layers each
  obtain ⟨t, finished, ⟨_, _, chunks, hasher, whole⟩, empty⟩ := held.finish (ε := String)
  rw [empty, List.take_zero, List.append_nil] at whole
  refine ⟨H.sha256 (headerBytes f raw ++ (raw.layers.map piece).flatten), ?_, ?_⟩
  · rw [computeId, parts, ok_bind, pure_eq_ok]
  · rw [computeIdBuffered, ran, ok_bind, finished, ok_bind, pure_eq_ok, hasher,
      H.finalize_updates, whole, List.flatMap_def]

theorem computeIdBuffered_congr {raw raw' : RawCircuit E} (same : SameCircuit raw raw') :
    (computeIdBuffered H f capacity raw' : Exec String _) = computeIdBuffered H f capacity raw := by
  have header : headerPieces f raw' = headerPieces f raw := by
    unfold headerPieces
    rw [same.noutput, same.logv, same.ninput, same.npublicInput, same.subfieldBoundary,
      same.layers.length_eq]
  have layers : ∀ s : Pending H,
      (raw'.layers.foldlM (absorbLayer H (raw'.constants.map f.toBytes)) s : Exec String _) =
        raw.layers.foldlM (absorbLayer H (raw.constants.map f.toBytes)) s := by
    have pairs := same.layers
    generalize raw.layers = left at pairs
    generalize raw'.layers = right at pairs
    induction pairs with
    | nil => exact fun _ => rfl
    | @cons layer layer' _ _ head _ ih =>
      intro s
      obtain ⟨terms, first, second, _⟩ := head.terms
      rw [List.foldlM_cons, List.foldlM_cons, absorbLayer_eq first, absorbLayer_eq second,
        head.nw, head.logw]
      exact bind_congr fun s => ih s
  rw [computeIdBuffered, computeIdBuffered, header]
  simp only [layers]

/-- **The identifier depends on the meaning only**: circuits with the same header and the same terms
run the same, and return the identifier of the message whatever the buffer is. -/
theorem computeId_meaning (H : Hasher) (f : SerializableField E) {raw raw' : RawCircuit E}
    (same : SameCircuit raw raw') :
    (computeIdBuffered H f bufferSize raw' : Exec String _) = computeIdBuffered H f bufferSize raw ∧
    ∃ id, (computeId H.sha256 f raw : Exec String _) = .ok id ∧
      ∀ capacity, FitsBuffer f capacity →
        (computeIdBuffered H f capacity raw : Exec String _) = .ok id ∧
        (computeIdBuffered H f capacity raw' : Exec String _) = .ok id := by
  refine ⟨computeIdBuffered_congr same, ?_⟩
  have wide : FitsBuffer f (24 + f.serializedSizeBytes) := ⟨Nat.le_add_right .., .inl le_rfl⟩
  obtain ⟨id, isId, _⟩ := computeIdBuffered_eq (H := H) wide same.expands
  refine ⟨id, isId, fun capacity fits => ?_⟩
  obtain ⟨id', isId', buffered⟩ := computeIdBuffered_eq (H := H) fits same.expands
  obtain rfl := Except.ok.inj (isId.symm.trans isId')
  exact ⟨buffered, (computeIdBuffered_congr same).trans buffered⟩

end Identifier

/-- A hasher that keeps the first bytes of the message. -/
def firstBytes : Hasher := .ofHash fun bytes => Vector.ofFn fun i : Fin 32 => bytes.getD i 0

/-- The term `2 W[1] W[1]`, listed once. -/
def plainCircuit : RawCircuit (Fin 5) :=
  ⟨1, 0, 1, 0, 0, [2], [⟨2, 1, [⟨0, 1, 1, 0⟩], [[0]], [0]⟩]⟩

/-- The same term, in a longer table, behind an empty segment and with another number for its
coefficient. -/
def shuffledCircuit : RawCircuit (Fin 5) :=
  ⟨1, 0, 1, 0, 0, [3, 2], [⟨2, 1, [⟨7, 0, 0, 0⟩, ⟨0, 1, 1, 1⟩], [[], [1]], [0, 1]⟩]⟩

theorem computeId_meaning_shuffled :
    (computeIdBuffered firstBytes (primeField 5 1) bufferSize shuffledCircuit : Exec String _) =
      computeIdBuffered firstBytes (primeField 5 1) bufferSize plainCircuit ∧
    ∃ id, (computeId firstBytes.sha256 (primeField 5 1) plainCircuit : Exec String _) = .ok id ∧
      ∀ capacity, FitsBuffer (primeField 5 1) capacity →
        (computeIdBuffered firstBytes (primeField 5 1) capacity plainCircuit : Exec String _) =
          .ok id ∧
        (computeIdBuffered firstBytes (primeField 5 1) capacity shuffledCircuit : Exec String _) =
          .ok id :=
  computeId_meaning firstBytes (primeField 5 1) ⟨rfl, rfl, rfl, rfl, rfl,
    .cons ⟨rfl, rfl, [⟨2, 0, 1, 1⟩], rfl, rfl, rfl, rfl⟩ .nil⟩

end Longfellow
