/-
**Segments of a layer** (`compile/compiler/src/segment.rs`).

The terms of a layer are cut into segments: windows of 32 terms that occur at several multiples of
32, found by a hash and compared with the terms, and runs of literals between them. Segments are
numbered, and the tables of deltas, of segments and of constants are sorted by use.

* `segmentation_lossless` — **segmentation loses nothing**, and the identifier stays.
-/

import Longfellow.Circuit.Basic
import Longfellow.Lib.Frequency
import Mathlib.Data.UInt

namespace Longfellow.Compile.Segment

open Lib

variable {ε E : Type} {hash : List UInt32 → UInt64} {macros : Macros}

/-! ### Windows -/

def W : ℕ := 32

def BASE : UInt64 := 0x100000001b3

/-- The fingerprint of a window. -/
def windowHash (window : List UInt32) : UInt64 :=
  window.foldl (fun h t => h * BASE + t.toUInt64) 0

/-- The number of windows with a fingerprint, and where the first one is. -/
structure Candidate where
  hash : UInt64
  count : ℕ
  firstIdx : ℕ

/-- Count a window. -/
def countHash (counts : List Candidate) (h : UInt64) (i : ℕ) : List Candidate :=
  if counts.any fun c => c.hash == h then
    counts.map fun c => if c.hash == h then { c with count := c.count + 1 } else c
  else counts ++ [⟨h, 1, i⟩]

def windowAt (terms : List UInt32) (i : ℕ) : List UInt32 := (terms.drop i).take W

/-- The fingerprints of the windows at multiples of their length. -/
def hashCounts (hash : List UInt32 → UInt64) (terms : List UInt32) : List Candidate :=
  (List.range (terms.length / W)).foldl
    (fun counts q => countHash counts (hash (windowAt terms (q * W))) (q * W)) []

/-- The fingerprints of several windows, the most frequent ones first. -/
def candidateHashes (hash : List UInt32 → UInt64) (terms : List UInt32) : List Candidate :=
  ((hashCounts hash terms).filter fun c => decide (2 ≤ c.count)).mergeSort fun a b =>
    decide (b.count < a.count ∨ b.count = a.count ∧ a.firstIdx ≤ b.firstIdx)

/-- The windows that are looked for. -/
structure Macros where
  segments : List (List UInt32)
  hashMap : List (UInt64 × UInt32)

def Macros.push (macros : Macros) (h : UInt64) (window : List UInt32) : Macros where
  segments := macros.segments ++ [window]
  hashMap := (h, UInt32.ofNat macros.segments.length) :: macros.hashMap

def findMacros (hash : List UInt32 → UInt64) (terms : List UInt32) : Macros :=
  if W ≤ terms.length then
    (candidateHashes hash terms).foldl
      (fun macros c => macros.push c.hash (windowAt terms c.firstIdx)) ⟨[], []⟩
  else ⟨[], []⟩

/-! ### Tokens -/

structure Tokens where
  rawSegments : List (List UInt32)
  segDedup : List (List UInt32 × UInt32)
  finalTokens : List UInt32

def Tokens.empty : Tokens := ⟨[], [], []⟩

/-- Push a segment, with the number it has or a new one. -/
def Tokens.pushSegment (s : Tokens) (seg : List UInt32) : Tokens :=
  match s.segDedup.lookup seg with
  | some id => { s with finalTokens := s.finalTokens ++ [id] }
  | none =>
    let id := UInt32.ofNat s.rawSegments.length
    ⟨s.rawSegments ++ [seg], (seg, id) :: s.segDedup, s.finalTokens ++ [id]⟩

/-- Push the literals, if there are any. -/
def Tokens.pushLiterals (s : Tokens) (literalBuf : List UInt32) : Tokens :=
  if literalBuf = [] then s else s.pushSegment literalBuf

/-- The window at the start of the terms that are left, if it is looked for. -/
def matchedMacro (hash : List UInt32 → UInt64) (macros : Macros) (rest : List UInt32) :
    Exec ε (Option (List UInt32)) :=
  if W ≤ rest.length ∧ macros.hashMap ≠ [] then
    match macros.hashMap.lookup (hash (rest.take W)) with
    | none => pure none
    | some mId => do
      let window ← getAt macros.segments mId.toNat
      return if rest.take W = window then some window else none
  else pure none

/-- Cut the terms that are left, behind some literals. -/
def tokenize (hash : List UInt32 → UInt64) (macros : Macros) (terms literalBuf : List UInt32)
    (s : Tokens) : Exec ε Tokens :=
  match terms with
  | [] => pure (s.pushLiterals literalBuf)
  | term :: rest => do
    match ← matchedMacro hash macros (term :: rest) with
    | some window =>
      tokenize hash macros (rest.drop (W - 1)) []
        ((s.pushLiterals literalBuf).pushSegment window)
    | none =>
      let literalBuf := literalBuf ++ [term]
      if literalBuf.length = W then tokenize hash macros rest [] (s.pushSegment literalBuf)
      else tokenize hash macros rest literalBuf s
termination_by terms.length
decreasing_by
  all_goals simp only [W, List.length_drop, List.length_cons]
  all_goals omega

/-! ### Layers and circuits -/

/-- The segments of a layer whose terms are cut. -/
def renumberLayer (layer : Layer) (s : Tokens) : Exec ε Layer := do
  let used ← s.finalTokens.mapM fun tok => getAt s.rawSegments tok.toNat
  let deltaCounts ← tally layer.deltas.length (used.flatten.map UInt32.toNat)
  let deltaOrder := frequencyOrder deltaCounts
  let sortedDeltas ← deltaOrder.mapM (getAt layer.deltas)
  let rawSegments ← s.rawSegments.mapM fun seg =>
    seg.mapM fun dIdx => getAt (oldToNew deltaOrder) dIdx.toNat
  let segCounts ← tally rawSegments.length (s.finalTokens.map UInt32.toNat)
  let segOrder := frequencyOrder segCounts
  let sortedSegments ← segOrder.mapM (getAt rawSegments)
  let finalTokens ← s.finalTokens.mapM fun tok => getAt (oldToNew segOrder) tok.toNat
  return ⟨layer.nw, layer.logw, sortedDeltas, sortedSegments, finalTokens⟩

/-- The segments of a layer, with some fingerprint. -/
def segmentLayerBy (hash : List UInt32 → UInt64) (layer : Layer) : Exec ε Layer := do
  let terms ← layer.deltaIndices
  if terms = [] then return ⟨layer.nw, layer.logw, [], [], []⟩
  else
    let tokens ← tokenize hash (findMacros hash terms) terms [] .empty
    renumberLayer layer tokens

def segmentLayer (layer : Layer) : Exec ε Layer := segmentLayerBy windowHash layer

/-- The constants that the terms of a layer refer to. -/
def constantIndices (layer : Layer) : Exec ε (List ℕ) := do
  let indices ← layer.deltaIndices
  indices.mapM fun dIdx => do return (← getAt layer.deltas dIdx.toNat).kIndex.toNat

/-- The references of a layer to constants, renumbered. -/
def renumberConstants (order : List ℕ) (layer : Layer) : Exec ε Layer := do
  let deltas ← layer.deltas.mapM fun d => do
    return { d with kIndex := ← getAt (oldToNew order) d.kIndex.toNat }
  return { layer with deltas := deltas }

/-- The segments of a circuit, with some fingerprint. -/
def segmentCircuitBy (hash : List UInt32 → UInt64)
    (sha256 : Bytes → Vector UInt8 32) (f : SerializableField E) (circuit : Circuit E) :
    Exec ε (Circuit E) := do
  let compressedLayers ← circuit.raw.layers.mapM (segmentLayerBy hash)
  let refs ← compressedLayers.mapM constantIndices
  let constCounts ← tally circuit.raw.constants.length refs.flatten
  let constOrder := frequencyOrder constCounts
  let sortedConstants ← constOrder.mapM (getAt circuit.raw.constants)
  let layers ← compressedLayers.mapM (renumberConstants constOrder)
  let newRaw := { circuit.raw with constants := sortedConstants, layers := layers }
  let newId ← computeId sha256 f newRaw
  ensure (newId = circuit.id) "Circuit ID changed during compression!"
  return ⟨newRaw, circuit.id⟩

def segmentCircuit (sha256 : Bytes → Vector UInt8 32) (f : SerializableField E)
    (circuit : Circuit E) : Exec ε (Circuit E) := segmentCircuitBy windowHash sha256 f circuit

/-! ### The segments that are pushed -/

/-- Every number of a window is that of a window. -/
def Macros.Valid (macros : Macros) : Prop :=
  ∀ h mId, macros.hashMap.lookup h = some mId → mId.toNat < macros.segments.length

theorem Macros.Valid.push (valid : macros.Valid) (h : UInt64)
    (window : List UInt32) : (macros.push h window).Valid := by
  intro h' mId found
  rw [Macros.push, List.length_append, List.length_singleton]
  rw [Macros.push, List.lookup_cons] at found
  cases same : h' == h with
  | true =>
    rw [same] at found
    obtain rfl := Option.some.inj found
    rw [UInt32.toNat_ofNat']
    exact Nat.lt_succ_of_le (Nat.mod_le _ _)
  | false =>
    rw [same] at found
    exact (valid h' mId found).trans (Nat.lt_succ_self _)

theorem findMacros_valid (hash : List UInt32 → UInt64) (terms : List UInt32) :
    (findMacros hash terms).Valid := by
  have empty : (⟨[], []⟩ : Macros).Valid := fun h mId found => by simp at found
  rw [findMacros]
  split
  · generalize candidateHashes hash terms = candidates
    suffices general : ∀ macros : Macros, macros.Valid → (candidates.foldl
        (fun macros c => macros.push c.hash (windowAt terms c.firstIdx)) macros).Valid from
      general _ empty
    induction candidates with
    | nil => exact fun macros valid => valid
    | cons c candidates ih => exact fun macros valid => ih _ (valid.push _ _)
  · exact empty

theorem matchedMacro_returns (hash : List UInt32 → UInt64)
    (valid : macros.Valid) (rest : List UInt32) :
    (matchedMacro hash macros rest : Exec ε _) = .ok none ∨
      (W ≤ rest.length ∧ (matchedMacro hash macros rest : Exec ε _) = .ok (some (rest.take W))) := by
  rw [matchedMacro]
  by_cases looks : W ≤ rest.length ∧ macros.hashMap ≠ []
  · rw [if_pos looks]
    cases found : macros.hashMap.lookup (hash (rest.take W)) with
    | none => exact .inl rfl
    | some mId =>
      dsimp only
      have inside := valid _ _ found
      rw [getAt_of_lt inside, ok_bind, pure_eq_ok]
      by_cases same : rest.take W = macros.segments[mId.toNat]
      · rw [if_pos same, ← same]
        exact .inr ⟨looks.1, rfl⟩
      · rw [if_neg same]
        exact .inl rfl
  · rw [if_neg looks]
    exact .inl rfl

theorem pushLiterals_eq (s : Tokens) (literalBuf : List UInt32) :
    ∃ pushed : List (List UInt32), s.pushLiterals literalBuf = pushed.foldl Tokens.pushSegment s ∧
      pushed.flatten = literalBuf ∧ ∀ seg ∈ pushed, seg ≠ [] := by
  by_cases none : literalBuf = []
  · exact ⟨[], if_pos none, none.symm, fun seg member => by cases member⟩
  · refine ⟨[literalBuf], if_neg none, List.flatten_singleton, fun seg member => ?_⟩
    rwa [List.mem_singleton.mp member]

/-- **The segments that are pushed are the literals and the terms that are left.** -/
theorem tokenize_returns (valid : macros.Valid)
    (terms literalBuf : List UInt32) (s : Tokens) :
    ∃ pushed : List (List UInt32), (tokenize hash macros terms literalBuf s : Exec ε _) =
      .ok (pushed.foldl Tokens.pushSegment s) ∧ pushed.flatten = literalBuf ++ terms ∧
        ∀ seg ∈ pushed, seg ≠ [] := by
  -- on the number of terms that are left: a window is skipped as a whole
  induction size : terms.length using Nat.strong_induction_on generalizing terms literalBuf s with
  | _ n ih =>
  subst size
  cases terms with
  | nil =>
    obtain ⟨pushed, run, flat, some⟩ := pushLiterals_eq s literalBuf
    exact ⟨pushed, by rw [tokenize, run]; rfl, by rw [flat, List.append_nil], some⟩
  | cons term rest =>
    rw [tokenize]
    rcases matchedMacro_returns (ε := ε) hash valid (term :: rest) with
      missed | ⟨long, found⟩
    · rw [missed, ok_bind]
      dsimp only
      by_cases full : (literalBuf ++ [term]).length = W
      · rw [if_pos full]
        obtain ⟨pushed, ran, flat, some⟩ := ih rest.length (Nat.lt_succ_self _) rest []
          (s.pushSegment (literalBuf ++ [term])) rfl
        refine ⟨(literalBuf ++ [term]) :: pushed, ran, ?_, List.forall_mem_cons.mpr
          ⟨List.append_ne_nil_of_right_ne_nil _ (List.cons_ne_nil _ _), some⟩⟩
        rw [List.flatten_cons, flat, List.nil_append, List.append_assoc, List.singleton_append]
      · rw [if_neg full]
        obtain ⟨pushed, ran, flat, some⟩ := ih rest.length (Nat.lt_succ_self _) rest
          (literalBuf ++ [term]) s rfl
        refine ⟨pushed, ran, ?_, some⟩
        rw [flat, List.append_assoc, List.singleton_append]
    · rw [found, ok_bind]
      dsimp only
      obtain ⟨literals, flushed, flatLiterals, someLiterals⟩ := pushLiterals_eq s literalBuf
      have shorter : (rest.drop (W - 1)).length < (term :: rest).length := by
        rw [List.length_drop, List.length_cons]
        omega
      obtain ⟨pushed, ran, flat, some⟩ := ih _ shorter (rest.drop (W - 1)) []
        ((s.pushLiterals literalBuf).pushSegment ((term :: rest).take W)) rfl
      refine ⟨literals ++ (term :: rest).take W :: pushed, ?_, ?_, List.forall_mem_append.mpr
        ⟨someLiterals, List.forall_mem_cons.mpr ⟨List.cons_ne_nil _ _, some⟩⟩⟩
      · rw [ran, List.foldl_append, ← flushed, List.foldl_cons]
      · have window : (term :: rest).take W ++ rest.drop (W - 1) = term :: rest :=
          List.take_append_drop W (term :: rest)
        rw [List.flatten_append, List.flatten_cons, flatLiterals, flat, List.nil_append, window]

/-! ### The numbers of the segments -/

/-- Tokens lead to the segments that were pushed. -/
structure Pushed (pushed : List (List UInt32)) (s : Tokens) : Prop where
  dedup : ∀ seg id, s.segDedup.lookup seg = some id → s.rawSegments[id.toNat]? = some seg
  tokens : List.Forall₂ (fun tok seg => s.rawSegments[tok.toNat]? = some seg) s.finalTokens pushed
  segments : ∀ seg ∈ s.rawSegments, seg ∈ pushed

theorem Tokens.length_le_pushSegment (s : Tokens) (seg : List UInt32) :
    s.rawSegments.length ≤ (s.pushSegment seg).rawSegments.length := by
  rw [Tokens.pushSegment]
  split
  · exact le_rfl
  · rw [List.length_append]
    exact Nat.le_add_right _ _

variable {pushed : List (List UInt32)} {s : Tokens}

/-- **A segment is pushed**, as long as its number has 32 bits. -/
theorem Pushed.push (holds : Pushed pushed s) (seg : List UInt32)
    (fits : (s.pushSegment seg).rawSegments.length ≤ 2 ^ 32) :
    Pushed (pushed ++ [seg]) (s.pushSegment seg) := by
  cases found : s.segDedup.lookup seg with
  | some id =>
    have known : s.pushSegment seg = { s with finalTokens := s.finalTokens ++ [id] } := by
      rw [Tokens.pushSegment, found]
    rw [known]
    refine ⟨holds.dedup, List.rel_append holds.tokens (.cons (holds.dedup seg id found) .nil), ?_⟩
    exact fun other member => List.mem_append_left _ (holds.segments other member)
  | none =>
    have fresh : s.pushSegment seg = ⟨s.rawSegments ++ [seg],
        (seg, UInt32.ofNat s.rawSegments.length) :: s.segDedup,
        s.finalTokens ++ [UInt32.ofNat s.rawSegments.length]⟩ := by
      rw [Tokens.pushSegment, found]
    rw [fresh, List.length_append, List.length_singleton] at fits
    have number : (UInt32.ofNat s.rawSegments.length).toNat = s.rawSegments.length := by
      rw [UInt32.toNat_ofNat', Nat.mod_eq_of_lt (by omega)]
    have here : (s.rawSegments ++ [seg])[(UInt32.ofNat s.rawSegments.length).toNat]? =
        some seg := by rw [number, List.getElem?_concat_length]
    have stays {i : ℕ} {other : List UInt32} (there : s.rawSegments[i]? = some other) :
        (s.rawSegments ++ [seg])[i]? = some other := by
      rw [List.getElem?_append_left (List.getElem?_eq_some_iff.mp there).1, there]
    rw [fresh]
    refine ⟨fun other id found => ?_, ?_, fun other member => ?_⟩
    · rw [List.lookup_cons] at found
      cases same : other == seg with
      | true =>
        rw [same] at found
        obtain rfl := Option.some.inj found
        rw [eq_of_beq same, here]
      | false =>
        rw [same] at found
        exact stays (holds.dedup other id found)
    · exact List.rel_append (holds.tokens.imp fun _ _ there => stays there) (.cons here .nil)
    · rcases List.mem_append.mp member with old | new
      · exact List.mem_append_left _ (holds.segments other old)
      · exact List.mem_append_right _ new

theorem pushed_foldl (fits : (pushed.foldl Tokens.pushSegment .empty).rawSegments.length ≤ 2 ^ 32) :
    Pushed pushed (pushed.foldl Tokens.pushSegment .empty) := by
  induction pushed using List.reverseRecOn with
  | nil => exact ⟨fun seg id found => by simp [Tokens.empty] at found, .nil, fun _ none => none⟩
  | append_singleton pushed seg ih =>
    rw [List.foldl_append] at fits ⊢
    exact (ih ((Tokens.length_le_pushSegment _ seg).trans fits)).push seg fits

/-! ### Layers -/

variable {i : ℕ}

theorem getAt_of_eq {α : Type} {xs : List α} {x : α} (there : xs[i]? = some x) :
    (getAt xs i : Exec ε α) = .ok x := getAt_eq_ok.mpr there

variable {layer : Layer} {deltas : List TermDelta}

/-- **The tables are sorted**, and the terms stay. -/
theorem renumberLayer_returns (holds : Pushed pushed s)
    (inside : ∀ d ∈ pushed.flatten, d.toNat < layer.deltas.length) :
    ∃ out, (renumberLayer layer s : Exec ε _) = .ok out ∧ out.nw = layer.nw ∧
      out.logw = layer.logw ∧ (∀ d ∈ out.deltas, d ∈ layer.deltas) ∧
      (out.deltaSequence : Exec ε _) =
        .ok (pushed.flatten.map fun d => layer.deltas.getD d.toNat default) := by
  have used : (s.finalTokens.mapM fun tok => getAt s.rawSegments tok.toNat : Exec ε _) =
      .ok pushed :=
    mapM_of_forall₂ (holds.tokens.imp fun _ _ there => getAt_of_eq there)
  -- the deltas
  obtain ⟨deltaCounts, counted, deltaSize, deltaCount⟩ :=
    tally_returns (ε := ε) (pushed.flatten.map UInt32.toNat) fun i member => by
      obtain ⟨d, ofPushed, rfl⟩ := List.mem_map.mp member
      exact inside d ofPushed
  obtain ⟨sortedDeltas, sorted, sortedSize, moved⟩ :=
    mapM_frequencyOrder (ε := ε) layer.deltas deltaSize
  let newDelta (d : UInt32) : UInt32 :=
    UInt32.ofNat ((frequencyOrder deltaCounts).idxOf d.toNat)
  have deltaMoved : ∀ d ∈ pushed.flatten,
      sortedDeltas[(newDelta d).toNat]? = layer.deltas[d.toNat]? := fun d member =>
    sortedTable_getAt deltaCount deltaSize (fun i isRef => by
      obtain ⟨d, -, rfl⟩ := List.mem_map.mp isRef
      exact d.toNat_lt) moved (List.mem_map_of_mem member) (inside d member)
  have renumbered : (s.rawSegments.mapM fun seg =>
      seg.mapM fun dIdx => getAt (oldToNew (frequencyOrder deltaCounts)) dIdx.toNat :
        Exec ε _) = .ok (s.rawSegments.map fun seg => seg.map newDelta) := by
    refine mapM_eq_ok_map fun seg member => mapM_eq_ok_map fun d inSeg => getAt_oldToNew ?_
    rw [deltaSize]
    exact inside d (List.mem_flatten.mpr ⟨seg, holds.segments seg member, inSeg⟩)
  -- the segments
  obtain ⟨segCounts, countedSegs, segSize, segCount⟩ :=
    tally_returns (ε := ε) (n := (s.rawSegments.map fun seg => seg.map newDelta).length)
      (s.finalTokens.map UInt32.toNat) fun i member => by
        obtain ⟨tok, isToken, rfl⟩ := List.mem_map.mp member
        obtain ⟨seg, -, there⟩ := exists_of_mem_left holds.tokens isToken
        rw [List.length_map]
        exact (List.getElem?_eq_some_iff.mp there).1
  obtain ⟨sortedSegments, sortedSegs, -, movedSegs⟩ :=
    mapM_frequencyOrder (ε := ε) (s.rawSegments.map fun seg => seg.map newDelta) segSize
  let newSeg (tok : UInt32) : UInt32 :=
    UInt32.ofNat ((frequencyOrder segCounts).idxOf tok.toNat)
  have tokenInside : ∀ tok ∈ s.finalTokens, tok.toNat < s.rawSegments.length := by
    intro tok isToken
    obtain ⟨seg, -, there⟩ := exists_of_mem_left holds.tokens isToken
    exact (List.getElem?_eq_some_iff.mp there).1
  have retokenized : (s.finalTokens.mapM fun tok =>
      getAt (oldToNew (frequencyOrder segCounts)) tok.toNat : Exec ε _) =
        .ok (s.finalTokens.map newSeg) := by
    refine mapM_eq_ok_map fun tok isToken => getAt_oldToNew ?_
    rw [segSize, List.length_map]
    exact tokenInside tok isToken
  refine ⟨⟨layer.nw, layer.logw, sortedDeltas, sortedSegments, s.finalTokens.map newSeg⟩, ?_, rfl,
    rfl, fun d member => ?_, ?_⟩
  · rw [renumberLayer, used, ok_bind, counted, ok_bind]
    dsimp only
    rw [sorted, ok_bind, renumbered, ok_bind, countedSegs, ok_bind, sortedSegs, ok_bind,
      retokenized, ok_bind, pure_eq_ok]
  · obtain ⟨i, -, there⟩ := exists_of_mem_right (mapM_eq_ok sorted) member
    exact List.mem_of_getElem? (getAt_eq_ok.mp there)
  · -- the segments that the tokens lead to
    have selected : ((s.finalTokens.map newSeg).mapM fun tok => getAt sortedSegments tok.toNat :
        Exec ε _) = .ok (pushed.map fun seg => seg.map newDelta) := by
      have tokens : List.Forall₂ (fun tok seg => tok ∈ s.finalTokens ∧
          s.rawSegments[tok.toNat]? = some seg) s.finalTokens pushed :=
        (List.forall₂_and_left _ _).mpr ⟨fun _ isToken => isToken, holds.tokens⟩
      refine mapM_of_forall₂ (List.forall₂_map_left_iff.mpr (List.forall₂_map_right_iff.mpr
        (tokens.imp fun tok seg ⟨isToken, there⟩ => getAt_of_eq ?_)))
      have place : tok.toNat < (s.rawSegments.map fun seg => seg.map newDelta).length := by
        rw [List.length_map]
        exact tokenInside tok isToken
      have lookup := sortedTable_getAt segCount segSize (fun i isRef => by
        obtain ⟨tok, -, rfl⟩ := List.mem_map.mp isRef
        exact tok.toNat_lt) movedSegs (List.mem_map_of_mem isToken) place
      rw [lookup, List.getElem?_map, there, Option.map_some]
    have flat : (pushed.map fun seg => seg.map newDelta).flatten = pushed.flatten.map newDelta :=
      List.map_flatten.symm
    rw [Layer.deltaSequence, Layer.deltaIndices]
    dsimp only
    rw [selected, ok_bind, pure_eq_ok, ok_bind, flat]
    refine mapM_of_forall₂ (List.forall₂_map_left_iff.mpr (List.forall₂_map_right_iff.mpr
      (List.forall₂_same.mpr fun d member => getAt_of_eq ?_)))
    rw [deltaMoved d member, List.getD_eq_getElem _ _ (inside d member),
      List.getElem?_eq_getElem (inside d member)]

/-- The layer is cut into as many segments as numbers have 32 bits. -/
def SegmentsFit (hash : List UInt32 → UInt64) (layer : Layer) : Prop :=
  ∀ terms s, (layer.deltaIndices : Exec String _) = .ok terms →
    (tokenize hash (findMacros hash terms) terms [] .empty : Exec String _) = .ok s →
      s.rawSegments.length ≤ 2 ^ 32

theorem length_foldl_pushSegment (pushed : List (List UInt32)) (s : Tokens) :
    (pushed.foldl Tokens.pushSegment s).rawSegments.length ≤
      s.rawSegments.length + pushed.length := by
  induction pushed generalizing s with
  | nil => exact le_rfl
  | cons seg pushed ih =>
    have one : (s.pushSegment seg).rawSegments.length ≤ s.rawSegments.length + 1 := by
      rw [Tokens.pushSegment]
      split
      · exact Nat.le_succ _
      · rw [List.length_append, List.length_singleton]
    rw [List.foldl_cons, List.length_cons]
    have later := ih (s.pushSegment seg)
    omega

theorem length_le_flatten (some : ∀ seg ∈ pushed, seg ≠ []) :
    pushed.length ≤ pushed.flatten.length := by
  induction pushed with
  | nil => exact le_rfl
  | cons seg pushed ih =>
    have first := List.length_pos_iff.mpr (some seg (List.mem_cons_self ..))
    have later := ih fun other member => some other (List.mem_cons_of_mem _ member)
    rw [List.flatten_cons, List.length_append, List.length_cons]
    omega

theorem segmentsFit_of_length {terms : List UInt32}
    (indices : (layer.deltaIndices : Exec String _) = .ok terms) (few : terms.length ≤ 2 ^ 32) :
    SegmentsFit hash layer := by
  intro other s same ran
  obtain rfl := Except.ok.inj (indices.symm.trans same)
  obtain ⟨pushed, ran', flat, some⟩ := tokenize_returns (ε := String) (findMacros_valid hash terms)
    terms [] .empty
  obtain rfl := Except.ok.inj (ran'.symm.trans ran)
  have count : pushed.length ≤ terms.length := by
    rw [← List.nil_append terms, ← flat]
    exact length_le_flatten some
  have most := length_foldl_pushSegment pushed .empty
  rw [show Tokens.empty.rawSegments.length = 0 from rfl, Nat.zero_add] at most
  omega

/-- **A layer keeps its deltas**, in their order. -/
theorem segmentLayer_returns
    (expands : (layer.deltaSequence : Exec String _) = .ok deltas) (fits : SegmentsFit hash layer) :
    ∃ out, (segmentLayerBy hash layer : Exec String _) = .ok out ∧ out.nw = layer.nw ∧
      out.logw = layer.logw ∧ (∀ d ∈ out.deltas, d ∈ layer.deltas) ∧
      (out.deltaSequence : Exec String _) = .ok deltas := by
  obtain ⟨terms, indices, looked⟩ := bind_eq_ok.mp expands
  rw [segmentLayerBy, indices, ok_bind]
  by_cases none : terms = []
  · subst none
    obtain rfl := Except.ok.inj looked
    exact ⟨⟨layer.nw, layer.logw, [], [], []⟩, rfl, rfl, rfl, fun d none => by simp at none, rfl⟩
  · rw [if_neg none]
    obtain ⟨pushed, ran, flat, -⟩ := tokenize_returns (ε := String) (findMacros_valid hash terms)
      terms [] .empty
    rw [List.nil_append] at flat
    have values := mapM_eq_ok looked
    have inside : ∀ d ∈ pushed.flatten, d.toNat < layer.deltas.length := by
      intro d member
      obtain ⟨delta, -, there⟩ := exists_of_mem_left values (flat ▸ member)
      exact (List.getElem?_eq_some_iff.mp (getAt_eq_ok.mp there)).1
    obtain ⟨out, renumbered, nw, logw, kept, sequence⟩ :=
      renumberLayer_returns (ε := String) (pushed_foldl (fits terms _ indices ran)) inside
    refine ⟨out, by rw [ran, ok_bind, renumbered], nw, logw, kept, ?_⟩
    rw [sequence, flat]
    congr 1
    refine (List.forall₂_eq_eq_eq ▸ List.forall₂_map_left_iff.mpr (values.imp fun d delta there => ?_) :
      List.map _ _ = deltas)
    rw [List.getD_eq_getElem?_getD, getAt_eq_ok.mp there, Option.getD_some]

variable {terms : List (Term E)} {constants : List E} {out : Layer}

theorem sameLayer_of_deltas (nw : out.nw = layer.nw)
    (logw : out.logw = layer.logw) (before : (layer.deltaSequence : Exec String _) = .ok deltas)
    (after : (out.deltaSequence : Exec String _) = .ok deltas)
    (expands : (layer.terms constants : Exec String _) = .ok terms) :
    SameLayer constants constants layer out := by
  have expands' : (out.terms constants : Exec String _) = .ok terms := by
    rw [Layer.terms, after, ← before]
    exact expands
  exact ⟨nw, logw, terms, expands, expands', (Layer.numTerms_of_terms expands).1,
    (Layer.numTerms_of_terms expands').1⟩

/-! ### Circuits -/

/-- A layer whose terms can be read, whose deltas refer to constants, and that is not too long. -/
structure Segmentable (hash : List UInt32 → UInt64) (constants : List E) (layer : Layer) :
    Prop where
  expands : ∃ terms, (layer.terms constants : Exec String _) = .ok terms
  coefficients : ∀ d ∈ layer.deltas, d.kIndex.toNat < constants.length
  fits : SegmentsFit hash layer

/-- What a layer is before the constants are sorted. -/
structure Cut (constants : List E) (layer out : Layer) (deltas : List TermDelta) : Prop where
  nw : out.nw = layer.nw
  logw : out.logw = layer.logw
  coefficients : ∀ d ∈ out.deltas, d.kIndex.toNat < constants.length
  before : (layer.deltaSequence : Exec String _) = .ok deltas
  after : (out.deltaSequence : Exec String _) = .ok deltas
  expands : ∃ terms, (accumulate constants Wires.zero deltas : Exec String _) = .ok terms

/-- A layer and what it is before the constants are sorted. -/
def IsCut (constants : List E) (layer out : Layer) : Prop := ∃ deltas, Cut constants layer out deltas

theorem Segmentable.cut
    (segmentable : Segmentable hash constants layer) :
    ∃ out, (segmentLayerBy hash layer : Exec String _) = .ok out ∧
      IsCut constants layer out := by
  obtain ⟨terms, expands⟩ := segmentable.expands
  obtain ⟨deltas, sequence, summed⟩ := bind_eq_ok.mp expands
  obtain ⟨out, ran, nw, logw, kept, after⟩ := segmentLayer_returns sequence segmentable.fits
  exact ⟨out, ran, deltas, nw, logw, fun d member => segmentable.coefficients d (kept d member),
    sequence, after, terms, summed⟩

variable {prev : Wires}

theorem coefficients_of_accumulate
    (ran : (accumulate constants prev deltas : Exec ε _) = .ok terms) :
    ∀ d ∈ deltas, d.kIndex.toNat < constants.length := by
  induction deltas generalizing prev terms with
  | nil => exact fun d none => by cases none
  | cons d deltas ih =>
    rw [accumulate] at ran
    obtain ⟨k, found, ran⟩ := bind_eq_ok.mp ran
    obtain ⟨rest, later, -⟩ := bind_eq_ok.mp ran
    intro other member
    rcases List.mem_cons.mp member with rfl | member
    · exact (List.getElem?_eq_some_iff.mp (getAt_eq_ok.mp found)).1
    · exact ih later other member

/-- A delta with the new number of its constant. -/
def renumberDelta (counts : List ℕ) (d : TermDelta) : TermDelta :=
  { d with kIndex := UInt32.ofNat ((frequencyOrder counts).idxOf d.kIndex.toNat) }

theorem accumulate_renumbered {sorted : List E} {counts : List ℕ} (moved : ∀ d ∈ deltas,
      sorted[(renumberDelta counts d).kIndex.toNat]? = constants[d.kIndex.toNat]?) :
    (accumulate sorted prev (deltas.map (renumberDelta counts)) : Exec ε _) =
      accumulate constants prev deltas := by
  induction deltas generalizing prev with
  | nil => rfl
  | cons d deltas ih =>
    have same : (getAt sorted (renumberDelta counts d).kIndex.toNat : Exec ε E) =
        getAt constants d.kIndex.toNat := by
      unfold getAt
      rw [moved d (List.mem_cons_self ..)]
    have wires : prev.step (renumberDelta counts d) = prev.step d := rfl
    rw [List.map_cons, accumulate, accumulate, wires, same,
      ih fun other member => moved other (List.mem_cons_of_mem _ member)]

theorem constantIndices_eq (sequence : (layer.deltaSequence : Exec ε _) = .ok deltas) :
    (constantIndices layer : Exec ε _) = .ok (deltas.map fun d => d.kIndex.toNat) := by
  obtain ⟨indices, ran, looked⟩ := bind_eq_ok.mp sequence
  rw [constantIndices, ran, ok_bind]
  refine mapM_of_forall₂ (List.forall₂_map_right_iff.mpr ((mapM_eq_ok looked).imp
    fun d delta there => ?_))
  rw [there, ok_bind, pure_eq_ok]

section

variable {sorted : List E} {counts : List ℕ} {refs : List ℕ}

theorem Cut.renumbered {layer : Layer}
    (cut : Cut constants layer out deltas) (size : counts.length = constants.length)
    (moved : ∀ d ∈ deltas,
      sorted[(renumberDelta counts d).kIndex.toNat]? = constants[d.kIndex.toNat]?) :
    ∃ final, (renumberConstants (frequencyOrder counts) out : Exec String _) = .ok final ∧
      SameLayer constants sorted layer final := by
  have deltasRan : (out.deltas.mapM fun d => do
      return { d with kIndex := ← getAt (oldToNew (frequencyOrder counts)) d.kIndex.toNat } :
        Exec String _) = .ok (out.deltas.map (renumberDelta counts)) := by
    refine mapM_eq_ok_map fun d member => ?_
    rw [getAt_oldToNew (size ▸ cut.coefficients d member), ok_bind, pure_eq_ok]
    rfl
  have sequence : (({ out with deltas := out.deltas.map (renumberDelta counts) } :
      Layer).deltaSequence : Exec String _) = .ok (deltas.map (renumberDelta counts)) := by
    obtain ⟨indices, ran, looked⟩ := bind_eq_ok.mp cut.after
    rw [Layer.deltaSequence, show ({ out with deltas := out.deltas.map (renumberDelta counts) } :
      Layer).deltaIndices = (out.deltaIndices : Exec String _) from rfl, ran, ok_bind]
    refine mapM_of_forall₂ (List.forall₂_map_right_iff.mpr ((mapM_eq_ok looked).imp
      fun d delta there => getAt_of_eq ?_))
    rw [List.getElem?_map, getAt_eq_ok.mp there, Option.map_some]
  obtain ⟨terms, summed⟩ := cut.expands
  have first : (layer.terms constants : Exec String _) = .ok terms := by
    rw [Layer.terms, cut.before, ok_bind, summed]
  have second : (({ out with deltas := out.deltas.map (renumberDelta counts) } : Layer).terms
      sorted : Exec String _) = .ok terms := by
    rw [Layer.terms, sequence, ok_bind, accumulate_renumbered moved, summed]
  refine ⟨{ out with deltas := out.deltas.map (renumberDelta counts) }, ?_, cut.nw, cut.logw, terms,
    first, second, (Layer.numTerms_of_terms first).1, (Layer.numTerms_of_terms second).1⟩
  rw [renumberConstants, deltasRan, ok_bind, pure_eq_ok]

end

/-- **Segmentation loses nothing**: every layer keeps its terms, in their order, and the circuit its
identifier, whatever the repetitions and whatever the fingerprints. -/
theorem segmentation_lossless {hash : List UInt32 → UInt64} :
    (∀ {constants : List E} {layer : Layer}, Segmentable hash constants layer →
      ∃ out, (segmentLayerBy hash layer : Exec String _) = .ok out ∧
        SameLayer constants constants layer out) ∧
    ∀ {sha256 : Bytes → Vector UInt8 32} {f : SerializableField E} {circuit : Circuit E},
      (∀ layer ∈ circuit.raw.layers, Segmentable hash circuit.raw.constants layer) →
      (computeId sha256 f circuit.raw : Exec String _) = .ok circuit.id →
      ∃ out, (segmentCircuitBy hash sha256 f circuit : Exec String _) = .ok out ∧
        SameCircuit circuit.raw out.raw ∧ out.id = circuit.id ∧
        (computeId sha256 f out.raw : Exec String _) = .ok circuit.id := by
  refine ⟨fun segmentable => ?_, fun {sha256 f circuit} segmentable identified => ?_⟩
  · obtain ⟨out, ran, deltas, cut⟩ := segmentable.cut
    obtain ⟨terms, expands⟩ := segmentable.expands
    exact ⟨out, ran, sameLayer_of_deltas cut.nw cut.logw cut.before cut.after expands⟩
  · -- the layers, cut
    obtain ⟨outs, ranCut, cuts⟩ := mapM_returns (r := IsCut circuit.raw.constants)
      fun layer member => (segmentable layer member).cut
    -- the references to constants
    obtain ⟨refs, ranRefs, indices⟩ := mapM_returns (r := fun out (indices : List ℕ) =>
      ∀ deltas, (out.deltaSequence : Exec String _) = .ok deltas →
        indices = deltas.map fun d => d.kIndex.toNat) (l := outs)
      (f := constantIndices) fun out member => by
        obtain ⟨layer, -, deltas, cut⟩ := exists_of_mem_right cuts member
        refine ⟨_, constantIndices_eq cut.after, fun other same => ?_⟩
        rw [Except.ok.inj (cut.after.symm.trans same)]
    have listed {out : Layer} {deltas : List TermDelta} (member : out ∈ outs)
        (after : (out.deltaSequence : Exec String _) = .ok deltas) {d : TermDelta}
        (isTerm : d ∈ deltas) : d.kIndex.toNat ∈ refs.flatten := by
      obtain ⟨is, isRefs, equal⟩ := exists_of_mem_left indices member
      rw [equal deltas after] at isRefs
      exact List.mem_flatten.mpr ⟨_, isRefs, List.mem_map_of_mem isTerm⟩
    have words : ∀ i ∈ refs.flatten, ∃ d : TermDelta, d.kIndex.toNat = i ∧
        d.kIndex.toNat < circuit.raw.constants.length := by
      intro i member
      obtain ⟨is, isRefs, inside⟩ := List.mem_flatten.mp member
      obtain ⟨out, isOut, equal⟩ := exists_of_mem_right indices isRefs
      obtain ⟨layer, -, deltas, cut⟩ := exists_of_mem_right cuts isOut
      obtain ⟨terms, summed⟩ := cut.expands
      rw [equal deltas cut.after] at inside
      obtain ⟨d, isTerm, rfl⟩ := List.mem_map.mp inside
      exact ⟨d, rfl, coefficients_of_accumulate summed d isTerm⟩
    obtain ⟨counts, counted, size, count⟩ := tally_returns (ε := String) refs.flatten
      fun i member => by
        obtain ⟨d, rfl, inside⟩ := words i member
        exact inside
    obtain ⟨sorted, ranSorted, -, moved⟩ := mapM_frequencyOrder (ε := String) circuit.raw.constants size
    obtain ⟨layers, ranLayers, same⟩ := mapM_returns (l := outs)
      (f := (renumberConstants (frequencyOrder counts) : Layer → Exec String _))
      (r := fun out final => ∀ layer deltas, Cut circuit.raw.constants layer out deltas →
        SameLayer circuit.raw.constants sorted layer final) fun out member => by
          have renumbered {layer : Layer} {deltas : List TermDelta}
              (cut : Cut circuit.raw.constants layer out deltas) := cut.renumbered size
            fun d isTerm => sortedTable_getAt count size (fun i isRef => by
              obtain ⟨d, rfl, -⟩ := words i isRef
              exact d.kIndex.toNat_lt) moved (listed member cut.after isTerm)
              (by
                obtain ⟨terms, summed⟩ := cut.expands
                exact coefficients_of_accumulate summed d isTerm)
          obtain ⟨layer, -, deltas, cut⟩ := exists_of_mem_right cuts member
          obtain ⟨final, ran, -⟩ := renumbered cut
          refine ⟨final, ran, fun other otherDeltas otherCut => ?_⟩
          obtain ⟨final', ran', same⟩ := renumbered otherCut
          rwa [Except.ok.inj (ran.symm.trans ran')]
    let newRaw : RawCircuit E := { circuit.raw with constants := sorted, layers := layers }
    have sameCircuit : SameCircuit circuit.raw newRaw :=
      ⟨rfl, rfl, rfl, rfl, rfl, forall₂_comp cuts same
        fun layer out final ⟨deltas, cut⟩ sameAs => sameAs layer deltas cut⟩
    have newId : (computeId sha256 f newRaw : Exec String _) = .ok circuit.id :=
      (computeId_congr sameCircuit).trans identified
    refine ⟨⟨newRaw, circuit.id⟩, ?_, sameCircuit, rfl, newId⟩
    rw [segmentCircuitBy, ranCut, ok_bind, ranRefs, ok_bind, counted, ok_bind]
    dsimp only
    rw [ranSorted, ok_bind, ranLayers, ok_bind, newId, ok_bind, ensure_of rfl, ok_bind, pure_eq_ok]

/-- A layer of three terms, the last two of them by the same delta. -/
def threeTerms : Layer := ⟨4, 2, [⟨0, 1, 1, 0⟩, ⟨1, 0, 1, 0⟩], [[0, 1, 1]], [0]⟩

theorem threeTerms_segmentable (hash : List UInt32 → UInt64) :
    Segmentable hash [(1 : Fin 5)] threeTerms where
  expands := ⟨[⟨1, 0, 1, 1⟩, ⟨1, 1, 1, 2⟩, ⟨1, 2, 1, 3⟩], rfl⟩
  coefficients := by decide
  fits := by
    have indices : (threeTerms.deltaIndices : Exec String _) = .ok [0, 1, 1] := rfl
    exact segmentsFit_of_length indices (by decide)

theorem segmentation_lossless_three :
    (∃ out, (segmentLayerBy windowHash threeTerms : Exec String _) = .ok out ∧
      SameLayer [(1 : Fin 5)] [(1 : Fin 5)] threeTerms out) ∧
    ∃ out, (segmentCircuitBy windowHash (fun _ => Vector.replicate 32 0) (primeField 5 1)
        ⟨⟨4, 2, 3, 2, 0, [1], [threeTerms]⟩, Vector.replicate 32 0⟩ : Exec String _) = .ok out ∧
      SameCircuit ⟨4, 2, 3, 2, 0, [1], [threeTerms]⟩ out.raw ∧
      out.id = Vector.replicate 32 0 ∧
      (computeId (fun _ => Vector.replicate 32 0) (primeField 5 1) out.raw : Exec String _) =
        .ok (Vector.replicate 32 0) :=
  ⟨segmentation_lossless.1 (threeTerms_segmentable _),
    segmentation_lossless.2 (fun layer member => by
      obtain rfl := List.mem_singleton.mp member
      exact threeTerms_segmentable _) rfl⟩

/-! ### Numbers have 32 bits -/

/-- A window that has a mark at its end, and nowhere else. -/
structure Marked (mark : UInt32) (window : List UInt32) : Prop where
  size : window.length = W
  mark : ∀ i, window[i]? = some mark ↔ i = 31

theorem mem_of_matchedMacro
    {rest window : List UInt32}
    (found : (matchedMacro hash macros rest : Exec ε _) = .ok (some window)) :
    window ∈ macros.segments ∧ window = rest.take W := by
  rw [matchedMacro] at found
  split at found
  · split at found
    · cases found
    · obtain ⟨other, there, result⟩ := bind_eq_ok.mp found
      split at result
      · obtain rfl := Option.some.inj (Except.ok.inj result)
        exact ⟨List.mem_of_getElem? (getAt_eq_ok.mp there), ‹rest.take W = _›.symm⟩
      · cases result
  · cases found

section

variable {mark : UInt32}

theorem tokenize_inside (valid : macros.Valid) (marks : ∀ seg ∈ macros.segments, Marked mark seg)
    {done todo : List UInt32} (marked : Marked mark (done ++ todo)) (started : done ≠ [])
    (left : todo ≠ []) (rest : List UInt32) (s : Tokens) :
    (tokenize hash macros (todo ++ rest) done s : Exec ε _) =
      tokenize hash macros rest [] (s.pushSegment (done ++ todo)) := by
  induction todo generalizing done with
  | nil => exact absurd rfl left
  | cons t todo ih =>
    have size := marked.size
    have some := List.length_pos_iff.mpr started
    rw [List.length_append, List.length_cons] at size
    have missed : (matchedMacro hash macros (t :: (todo ++ rest)) : Exec ε _) = .ok none := by
      rcases matchedMacro_returns (ε := ε) hash valid (t :: (todo ++ rest)) with
        missed | ⟨long, found⟩
      · exact missed
      · -- the mark of this window is inside of the one that is found
        have last := (marked.mark 31).mpr rfl
        rw [show 31 = done.length + todo.length by rw [W] at size; omega,
          List.getElem?_append_right (Nat.le_add_right _ _), Nat.add_sub_cancel_left] at last
        have inside : ((t :: (todo ++ rest)).take W)[todo.length]? = .some mark := by
          rw [List.getElem?_take_of_lt (by omega), ← List.cons_append,
            List.getElem?_append_left (by rw [List.length_cons]; omega), last]
        have place := ((marks _ (mem_of_matchedMacro found).1).mark todo.length).mp inside
        rw [W] at size
        omega
    rw [List.cons_append, tokenize, missed, ok_bind]
    dsimp only
    by_cases full : (done ++ [t]).length = W
    · have none : todo = [] := by
        rw [List.length_append, List.length_singleton] at full
        exact List.length_eq_zero_iff.mp (by omega)
      subst none
      rw [if_pos full, List.nil_append]
    · have more : todo ≠ [] := by
        rintro rfl
        rw [List.length_append, List.length_singleton] at full
        exact full size
      rw [if_neg full, ih (by rwa [List.append_assoc, List.singleton_append])
        (List.append_ne_nil_of_right_ne_nil _ (List.cons_ne_nil _ _)) more, List.append_assoc,
        List.singleton_append]

theorem tokenize_window (valid : macros.Valid) (marks : ∀ seg ∈ macros.segments, Marked mark seg)
    {window : List UInt32} (marked : Marked mark window) (rest : List UInt32) (s : Tokens) :
    (tokenize hash macros (window ++ rest) [] s : Exec ε _) =
      tokenize hash macros rest [] (s.pushSegment window) := by
  have size := marked.size
  cases window with
  | nil => cases size
  | cons t todo =>
    rw [List.cons_append, tokenize]
    rcases matchedMacro_returns (ε := ε) hash valid (t :: (todo ++ rest)) with
      missed | ⟨long, found⟩
    · rw [missed, ok_bind]
      dsimp only
      have more : todo ≠ [] := by
        rintro rfl
        cases size
      have short : ([t] : List UInt32).length ≠ W := by
        rw [List.length_singleton]
        decide
      rw [List.nil_append, if_neg short,
        tokenize_inside valid marks marked (List.cons_ne_nil _ _) more, List.singleton_append]
    · have here : (t :: (todo ++ rest)).take W = t :: todo := by
        rw [← List.cons_append, List.take_left' size]
      have tail : (todo ++ rest).drop (W - 1) = rest := by
        refine List.drop_left' ?_
        rw [List.length_cons] at size
        omega
      rw [found, ok_bind]
      dsimp only
      rw [here, tail]
      rfl

variable {windows : List (List UInt32)}

theorem tokenize_windows (valid : macros.Valid) (marks : ∀ seg ∈ macros.segments, Marked mark seg)
    (marked : ∀ window ∈ windows, Marked mark window) (s : Tokens) :
    (tokenize hash macros windows.flatten [] s : Exec ε _) =
      .ok (windows.foldl Tokens.pushSegment s) := by
  induction windows generalizing s with
  | nil => rw [List.flatten_nil, tokenize]; rfl
  | cons window windows ih =>
    rw [List.flatten_cons, tokenize_window valid marks (marked window (List.mem_cons_self ..)),
      ih fun other member => marked other (List.mem_cons_of_mem _ member), List.foldl_cons]

theorem windowAt_flatten (sized : ∀ w ∈ windows, w.length = W) {q : ℕ} (inside : q < windows.length) :
    windowAt windows.flatten (q * W) ∈ windows := by
  induction windows generalizing q with
  | nil => exact absurd inside (Nat.not_lt_zero q)
  | cons window windows ih =>
    have size := sized window (List.mem_cons_self ..)
    cases q with
    | zero =>
      rw [Nat.zero_mul, windowAt, List.drop_zero, List.flatten_cons, List.take_left' size]
      exact List.mem_cons_self ..
    | succ q =>
      have later := ih (fun other member => sized other (List.mem_cons_of_mem _ member))
        (Nat.lt_of_succ_lt_succ inside)
      refine List.mem_cons_of_mem _ ?_
      rwa [windowAt, List.flatten_cons, Nat.succ_mul, Nat.add_comm, ← List.drop_drop,
        List.drop_left' size]

theorem countHash_firstIdx {counts : List Candidate} {h : UInt64} {i : ℕ} {c : Candidate}
    (member : c ∈ countHash counts h i) : c.firstIdx = i ∨ ∃ old ∈ counts, old.firstIdx = c.firstIdx := by
  rw [countHash] at member
  split at member
  · obtain ⟨old, isOld, rfl⟩ := List.mem_map.mp member
    refine .inr ⟨old, isOld, ?_⟩
    split <;> rfl
  · rcases List.mem_append.mp member with old | new
    · exact .inr ⟨c, old, rfl⟩
    · obtain rfl := List.mem_singleton.mp new
      exact .inl rfl

theorem hashCounts_firstIdx {terms : List UInt32} {c : Candidate}
    (member : c ∈ hashCounts hash terms) : ∃ q < terms.length / W, c.firstIdx = q * W := by
  rw [hashCounts] at member
  generalize terms.length / W = n at member
  suffices general : ∀ (qs : List ℕ) (counts : List Candidate),
      (∀ q ∈ qs, q < n) → (∀ c ∈ counts, ∃ q < n, c.firstIdx = q * W) →
      ∀ c ∈ qs.foldl (fun counts q => countHash counts (hash (windowAt terms (q * W))) (q * W))
        counts, ∃ q < n, c.firstIdx = q * W from
    general _ [] (fun q inside => List.mem_range.mp inside) (fun c none => by cases none) c member
  intro qs
  induction qs with
  | nil => exact fun counts _ each => each
  | cons q qs ih =>
    intro counts small each
    refine ih _ (fun other inside => small other (List.mem_cons_of_mem _ inside)) fun c isNew => ?_
    rcases countHash_firstIdx isNew with here | ⟨old, isOld, same⟩
    · exact ⟨q, small q (List.mem_cons_self ..), here⟩
    · exact same ▸ each old isOld

theorem mem_findMacros (sized : ∀ w ∈ windows, w.length = W) {seg : List UInt32}
    (member : seg ∈ (findMacros hash windows.flatten).segments) :
    seg ∈ windows := by
  have total : windows.flatten.length = windows.length * W := by
    rw [List.length_flatten, List.map_congr_left sized, List.map_const', List.sum_replicate_nat]
  rw [findMacros] at member
  split at member
  · have listed : ∀ c ∈ candidateHashes hash windows.flatten,
        windowAt windows.flatten c.firstIdx ∈ windows := by
      intro c isCandidate
      rw [candidateHashes, List.mem_mergeSort] at isCandidate
      obtain ⟨q, small, place⟩ := hashCounts_firstIdx (List.mem_filter.mp isCandidate).1
      rw [total, Nat.mul_div_cancel _ (by decide)] at small
      exact place ▸ windowAt_flatten sized small
    generalize candidateHashes hash windows.flatten = candidates at member listed
    suffices general : ∀ macros : Macros, (∀ seg ∈ macros.segments, seg ∈ windows) →
        ∀ seg ∈ (candidates.foldl (fun macros c =>
          macros.push c.hash (windowAt windows.flatten c.firstIdx)) macros).segments,
          seg ∈ windows from general ⟨[], []⟩ (fun seg none => by cases none) seg member
    clear member
    induction candidates with
    | nil => exact fun macros each => each
    | cons c candidates ih =>
      intro macros each
      refine ih (fun other inside => listed other (List.mem_cons_of_mem _ inside)) _
        fun seg isNew => ?_
      rcases List.mem_append.mp isNew with old | new
      · exact each seg old
      · obtain rfl := List.mem_singleton.mp new
        exact listed c (List.mem_cons_self ..)
  · cases member

theorem tokenize_marked (marked : ∀ window ∈ windows, Marked mark window) :
    (tokenize hash (findMacros hash windows.flatten) windows.flatten [] .empty : Exec ε _) =
      .ok (windows.foldl Tokens.pushSegment .empty) :=
  tokenize_windows (findMacros_valid hash _) (fun seg member => marked seg
    (mem_findMacros (fun window inside => (marked window inside).size) member)) marked _

theorem foldl_pushSegment (distinct : windows.Nodup) :
    (windows.foldl Tokens.pushSegment .empty).rawSegments = windows ∧
    (windows.foldl Tokens.pushSegment .empty).finalTokens =
      (List.range windows.length).map UInt32.ofNat ∧
    ∀ seg ∉ windows, (windows.foldl Tokens.pushSegment .empty).segDedup.lookup seg = none := by
  induction windows using List.reverseRecOn with
  | nil => exact ⟨rfl, rfl, fun seg _ => rfl⟩
  | append_singleton windows window ih =>
    have parts := List.nodup_append.mp distinct
    obtain ⟨segments, tokens, lookup⟩ := ih parts.1
    have fresh : window ∉ windows := fun member =>
      parts.2.2 window member window (List.mem_singleton_self _) rfl
    rw [List.foldl_append, List.foldl_cons, List.foldl_nil, Tokens.pushSegment, lookup window fresh]
    dsimp only
    rw [segments, tokens]
    refine ⟨rfl, ?_, fun seg new => ?_⟩
    · rw [List.length_append, List.length_singleton, List.range_succ, List.map_append,
        List.map_singleton]
    · have others := fun member => new (List.mem_append_left _ member)
      have different : (seg == window) = false := by
        rw [beq_eq_false_iff_ne]
        rintro rfl
        exact new (List.mem_append_right _ (List.mem_singleton_self _))
      rw [List.lookup_cons, different]
      exact lookup seg others

end

/-! ### Too many segments -/

theorem getElem?_of_mapM {α β : Type} {f : α → Exec ε β} {xs : List α} {ys : List β}
    (ran : xs.mapM f = .ok ys) {j : ℕ} (same : xs[i]? = xs[j]?) : ys[i]? = ys[j]? := by
  have related := mapM_eq_ok ran
  have entry (k : ℕ) : ys[k]? = xs[k]?.bind fun x => (f x).toOption := by
    rcases Nat.lt_or_ge k xs.length with inside | outside
    · have inside' : k < ys.length := related.length_eq ▸ inside
      have here := List.Forall₂.get related inside inside'
      rw [List.get_eq_getElem, List.get_eq_getElem] at here
      rw [List.getElem?_eq_getElem inside, List.getElem?_eq_getElem inside', Option.bind_some, here]
      rfl
    · rw [List.getElem?_eq_none outside, List.getElem?_eq_none (related.length_eq ▸ outside)]
      rfl
  rw [entry, entry, same]

theorem getElem?_flatten {segs : List (List UInt32)} (sized : ∀ seg ∈ segs, seg.length = W) (i : ℕ) :
    segs.flatten[i * W]? = segs[i]?.bind fun seg => seg[0]? := by
  induction segs generalizing i with
  | nil => rfl
  | cons seg segs ih =>
    have size := sized seg (List.mem_cons_self ..)
    cases i with
    | zero =>
      rw [Nat.zero_mul, List.flatten_cons, List.getElem?_append_left (by rw [size]; decide)]
      rfl
    | succ i =>
      rw [List.flatten_cons, Nat.succ_mul, List.getElem?_append_right (by omega), size,
        Nat.add_sub_cancel, ih fun other member => sized other (List.mem_cons_of_mem _ member)]
      rfl

theorem deltas_of_tokens
    (ran : (renumberLayer layer s : Exec String _) = .ok out)
    (sized : ∀ seg ∈ s.rawSegments, seg.length = W)
    (after : (out.deltaSequence : Exec String _) = .ok deltas) {j : ℕ}
    (same : s.finalTokens[i]? = s.finalTokens[j]?) : deltas[i * W]? = deltas[j * W]? := by
  obtain ⟨used, -, ran⟩ := bind_eq_ok.mp ran
  obtain ⟨deltaCounts, -, ran⟩ := bind_eq_ok.mp ran
  obtain ⟨sortedDeltas, -, ran⟩ := bind_eq_ok.mp ran
  obtain ⟨rawSegments, renumbered, ran⟩ := bind_eq_ok.mp ran
  obtain ⟨segCounts, -, ran⟩ := bind_eq_ok.mp ran
  obtain ⟨sortedSegments, sorted, ran⟩ := bind_eq_ok.mp ran
  obtain ⟨finalTokens, retokenized, ran⟩ := bind_eq_ok.mp ran
  obtain rfl := Except.ok.inj ran
  obtain ⟨indices, selected, looked⟩ := bind_eq_ok.mp after
  obtain ⟨segments, found, flat⟩ := bind_eq_ok.mp selected
  obtain rfl := Except.ok.inj flat
  have sizes : ∀ seg ∈ segments, seg.length = W := by
    intro seg member
    obtain ⟨tok, -, there⟩ := exists_of_mem_right (mapM_eq_ok found) member
    have isSorted := List.mem_of_getElem? (getAt_eq_ok.mp there)
    obtain ⟨k, -, there⟩ := exists_of_mem_right (mapM_eq_ok sorted) isSorted
    have isRaw := List.mem_of_getElem? (getAt_eq_ok.mp there)
    obtain ⟨raw, listed, copied⟩ := exists_of_mem_right (mapM_eq_ok renumbered) isRaw
    rw [← (mapM_eq_ok copied).length_eq, sized raw listed]
  refine getElem?_of_mapM looked ?_
  rw [getElem?_flatten sizes, getElem?_flatten sizes,
    getElem?_of_mapM found (getElem?_of_mapM retokenized same)]

theorem wires_of_accumulate {ds ds' : List TermDelta}
    (ran : (accumulate constants prev ds : Exec String _) = .ok terms)
    (ran' : (accumulate constants prev ds' : Exec String _) = .ok terms) :
    ds.map TermDelta.g = ds'.map TermDelta.g := by
  induction ds generalizing ds' prev terms with
  | nil =>
    obtain rfl := Except.ok.inj ran
    have size := length_accumulate ran'
    rw [List.length_eq_zero_iff.mp size.symm]
  | cons d ds ih =>
    obtain ⟨k, -, ran⟩ := bind_eq_ok.mp ran
    obtain ⟨rest, later, ran⟩ := bind_eq_ok.mp ran
    obtain rfl := Except.ok.inj ran
    cases ds' with
    | nil => cases Except.ok.inj ran'
    | cons d' ds' =>
      obtain ⟨k', -, ran'⟩ := bind_eq_ok.mp ran'
      obtain ⟨rest', later', ran'⟩ := bind_eq_ok.mp ran'
      obtain ⟨first, same⟩ := List.cons.inj (Except.ok.inj ran')
      subst same
      have wires : prev.step d' = prev.step d := congrArg Term.wires first
      have g : d'.g = d.g := (UInt32.add_right_inj _).mp (congrArg Wires.g wires)
      rw [wires] at later'
      rw [List.map_cons, List.map_cons, g, ih later later']

/-- Windows of two digits with a mark. -/
def wideWindow (i : ℕ) : List UInt32 :=
  UInt32.ofNat (i / 2 ^ 16) :: UInt32.ofNat (i % 2 ^ 16) :: (List.replicate 29 0 ++ [2 ^ 17])

/-- A layer of many windows. -/
def wideLayer (n : ℕ) : Layer where
  nw := 1
  logw := 1
  deltas := (List.range (2 ^ 17 + 1)).map fun d => ⟨UInt32.ofNat d, 0, 0, 0⟩
  deltaSegments := [((List.range n).map wideWindow).flatten]
  deltaTokens := [0]

theorem toNat_digit {d : ℕ} (below : d < 2 ^ 17) : (UInt32.ofNat d).toNat = d := by
  rw [UInt32.toNat_ofNat', Nat.mod_eq_of_lt (by omega)]

theorem digit_ne {d : ℕ} (below : d < 2 ^ 17) : UInt32.ofNat d ≠ 2 ^ 17 := by
  intro same
  have values := congrArg UInt32.toNat same
  rw [toNat_digit below] at values
  have mark : ((2 : UInt32) ^ 17).toNat = 2 ^ 17 := by decide
  omega

theorem wideWindow_marked (fits : i < 2 ^ 32 + 1) : Marked (2 ^ 17) (wideWindow i) := by
  refine ⟨rfl, fun k => ?_⟩
  rcases k with _ | _ | k
  · refine iff_of_false (fun here => digit_ne ?_ (Option.some.inj here)) (by decide)
    omega
  · refine iff_of_false (fun here => digit_ne ?_ (Option.some.inj here)) (by decide)
    omega
  · rw [wideWindow, List.getElem?_cons_succ, List.getElem?_cons_succ]
    rcases Nat.lt_trichotomy k 29 with below | rfl | above
    · rw [List.getElem?_append_left (by rwa [List.length_replicate]), List.getElem?_replicate,
        if_pos below]
      exact iff_of_false (by decide) (by omega)
    · exact iff_of_true rfl rfl
    · rw [List.getElem?_eq_none (by rw [List.length_append, List.length_replicate]; exact above)]
      exact iff_of_false (by simp) (by omega)

theorem wideWindow_injective {j : ℕ} (fits : i < 2 ^ 32 + 1) (fits' : j < 2 ^ 32 + 1)
    (same : wideWindow i = wideWindow j) : i = j := by
  obtain ⟨high, rest⟩ := List.cons.inj same
  obtain ⟨low, -⟩ := List.cons.inj rest
  have high' := congrArg UInt32.toNat high
  have low' := congrArg UInt32.toNat low
  rw [toNat_digit (by omega), toNat_digit (by omega)] at high' low'
  omega

/-- The deltas of the layer. -/
def wideDeltas (n : ℕ) : List TermDelta :=
  ((List.range n).map wideWindow).flatten.map fun d => ⟨d, 0, 0, 0⟩

theorem wideLayer_indices (n : ℕ) :
    ((wideLayer n).deltaIndices : Exec ε _) = .ok ((List.range n).map wideWindow).flatten := by
  have selected : ((wideLayer n).deltaTokens.mapM fun tok =>
      getAt (wideLayer n).deltaSegments tok.toNat : Exec ε _) =
        .ok [((List.range n).map wideWindow).flatten] := rfl
  rw [Layer.deltaIndices, selected, ok_bind, pure_eq_ok, List.flatten_singleton]

theorem mem_wideWindow (fits : i < 2 ^ 32 + 1) {d : UInt32} (member : d ∈ wideWindow i) :
    d.toNat < 2 ^ 17 + 1 := by
  rcases List.mem_cons.mp member with rfl | member
  · rw [toNat_digit (by omega)]
    omega
  · rcases List.mem_cons.mp member with rfl | member
    · rw [toNat_digit (by omega)]
      omega
    · rcases List.mem_append.mp member with zero | mark
      · rw [(List.mem_replicate.mp zero).2]
        decide
      · rw [List.mem_singleton.mp mark]
        decide

theorem wideLayer_sequence {n : ℕ} (small : n ≤ 2 ^ 32 + 1) :
    ((wideLayer n).deltaSequence : Exec ε _) = .ok (wideDeltas n) := by
  rw [Layer.deltaSequence, wideLayer_indices, ok_bind]
  refine mapM_eq_ok_map fun d member => getAt_of_eq ?_
  obtain ⟨window, isWindow, inside⟩ := List.mem_flatten.mp member
  obtain ⟨i, listed, rfl⟩ := List.mem_map.mp isWindow
  have below := mem_wideWindow ((List.mem_range.mp listed).trans_le small) inside
  have value : UInt32.ofNat d.toNat = d := UInt32.ofNat_toNat
  rw [wideLayer, List.getElem?_map, List.getElem?_range below, Option.map_some, value]

theorem wideDeltas_getElem? {n : ℕ} (inside : i < n) :
    ((wideDeltas n).map TermDelta.g)[i * W]? = some (UInt32.ofNat (i / 2 ^ 16)) := by
  have sized : ∀ window ∈ (List.range n).map wideWindow, window.length = W := by
    intro window member
    obtain ⟨j, -, rfl⟩ := List.mem_map.mp member
    rfl
  rw [wideDeltas, List.map_map, List.getElem?_map, getElem?_flatten sized, List.getElem?_map,
    List.getElem?_range inside]
  rfl

/-- **More segments than numbers**: the last window and the first one have the same number. -/
theorem too_many_segments :
    ¬∀ {layer : Layer} {constants : List ℕ} {terms : List (Term ℕ)},
      (layer.terms constants : Exec String _) = .ok terms →
      ∃ out, (segmentLayer layer : Exec String _) = .ok out ∧
        (out.terms constants : Exec String _) = .ok terms := by
  intro always
  obtain ⟨n, isN⟩ : ∃ n, n = 2 ^ 32 + 1 := ⟨_, rfl⟩
  have coefficients : ∀ d ∈ wideDeltas n, d.kIndex.toNat < [1].length := by
    intro d member
    obtain ⟨x, -, rfl⟩ := List.mem_map.mp member
    exact Nat.one_pos
  obtain ⟨terms, summed, -⟩ := accumulate_returns (ε := String) Wires.zero coefficients
  have expands : ((wideLayer n).terms [1] : Exec String _) = .ok terms := by
    rw [Layer.terms, wideLayer_sequence isN.le, ok_bind, summed]
  obtain ⟨out, ran, after⟩ := always expands
  obtain ⟨deltas, sequence, summed'⟩ := bind_eq_ok.mp after
  -- the layer is cut into its windows
  have marked : ∀ window ∈ (List.range n).map wideWindow, Marked (2 ^ 17) window := by
    intro window member
    obtain ⟨i, listed, rfl⟩ := List.mem_map.mp member
    exact wideWindow_marked ((List.mem_range.mp listed).trans_le isN.le)
  have distinct : ((List.range n).map wideWindow).Nodup :=
    List.Nodup.map_on (fun i inside j inside' same =>
      wideWindow_injective ((List.mem_range.mp inside).trans_le isN.le)
        ((List.mem_range.mp inside').trans_le isN.le) same) List.nodup_range
  obtain ⟨segments, tokens, -⟩ := foldl_pushSegment distinct
  rw [segmentLayer, segmentLayerBy, wideLayer_indices, ok_bind] at ran
  have some : ((List.range n).map wideWindow).flatten ≠ [] := by
    rw [isN]
    intro none
    have first : wideWindow 0 ∈ (List.range (2 ^ 32 + 1)).map wideWindow :=
      List.mem_map_of_mem (List.mem_range.mpr (Nat.succ_pos _))
    exact absurd (List.flatten_eq_nil_iff.mp none _ first) (List.cons_ne_nil _ _)
  rw [if_neg some, tokenize_marked marked, ok_bind] at ran
  -- the first token is the last one
  have same : (((List.range n).map wideWindow).foldl Tokens.pushSegment .empty).finalTokens[0]? =
      (((List.range n).map wideWindow).foldl Tokens.pushSegment .empty).finalTokens[2 ^ 32]? := by
    rw [tokens, List.length_map, List.length_range, List.getElem?_map, List.getElem?_map,
      List.getElem?_range (by omega), List.getElem?_range (by omega)]
    rfl
  have equal := deltas_of_tokens ran (fun seg member => by
    rw [segments] at member
    exact (marked seg member).size) sequence same
  have wires := wires_of_accumulate summed summed'
  have first := wideDeltas_getElem? (show 0 < n by omega)
  have last := wideDeltas_getElem? (show 2 ^ 32 < n by omega)
  rw [wires, List.getElem?_map] at first last
  rw [equal, last] at first
  exact absurd (Option.some.inj first) (by decide)

/-- An empty circuit with a wrong identifier. -/
def misnamedCircuit : Circuit (Fin 5) := ⟨⟨0, 0, 0, 0, 0, [], []⟩, Vector.replicate 32 1⟩

theorem misnamedCircuit_refused {out : Circuit (Fin 5)} :
    (segmentCircuit (fun _ => Vector.replicate 32 0) (primeField 5 1) misnamedCircuit :
      Exec String _) ≠ .ok out := by
  intro ran
  obtain ⟨compressedLayers, -, ran⟩ := bind_eq_ok.mp ran
  obtain ⟨refs, -, ran⟩ := bind_eq_ok.mp ran
  obtain ⟨constCounts, -, ran⟩ := bind_eq_ok.mp ran
  obtain ⟨sortedConstants, -, ran⟩ := bind_eq_ok.mp ran
  obtain ⟨layers, -, ran⟩ := bind_eq_ok.mp ran
  obtain ⟨newId, computed, ran⟩ := bind_eq_ok.mp ran
  obtain ⟨_, checked, -⟩ := bind_eq_ok.mp ran
  obtain ⟨bytes, -, hashed⟩ := bind_eq_ok.mp computed
  obtain rfl := Except.ok.inj hashed
  have same : (Vector.replicate 32 0 : Vector UInt8 32) = Vector.replicate 32 1 :=
    ensure_eq_ok.mp checked
  exact absurd same (by decide)

/-- **Limits**: a layer of more segments than numbers, and a circuit with a wrong identifier. -/
theorem segmentation_limits :
    (¬∀ {layer : Layer} {constants : List ℕ} {terms : List (Term ℕ)},
      (layer.terms constants : Exec String _) = .ok terms →
      ∃ out, (segmentLayer layer : Exec String _) = .ok out ∧
        (out.terms constants : Exec String _) = .ok terms) ∧
    ¬∀ {sha256 : Bytes → Vector UInt8 32} {f : SerializableField (Fin 5)}
      {circuit : Circuit (Fin 5)},
      (∀ layer ∈ circuit.raw.layers,
        ∃ terms, (layer.terms circuit.raw.constants : Exec String _) = .ok terms) →
      ∃ out, (segmentCircuit sha256 f circuit : Exec String _) = .ok out ∧
        SameCircuit circuit.raw out.raw ∧ out.id = circuit.id := by
  refine ⟨too_many_segments, fun always => ?_⟩
  obtain ⟨out, ran, -⟩ := @always (fun _ => Vector.replicate 32 0) (primeField 5 1) misnamedCircuit
    fun layer none => by cases none
  exact misnamedCircuit_refused ran

end Longfellow.Compile.Segment
