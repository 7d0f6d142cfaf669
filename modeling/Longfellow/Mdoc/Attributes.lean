/-
**The signed items of a document** (`mdoc_zk/circuits/src/cbor/mdoc.rs`).

An attribute is read from one item of one namespace. The items of all namespaces end up in one list,
in the order of the document, and a request looks up its identifier there.

* `getAttribute_first` — **the attribute of an identifier is the first item that states it**,
  whatever its namespace.
-/

import Longfellow.Mdoc.Prover

namespace Longfellow.Mdoc

open Lib

/-! ### Items by their bytes -/

/-- The value of a key of a map. -/
def fieldOf (el : CborElement) (key : String) : Option CborElement :=
  match el.value with
  | .map pairs => (pairs.find? fun pair => isText (utf8 key) pair.1.value).map Prod.snd
  | _ => none

/-- The bytes of a tagged byte string, and the item that they are. -/
def embedded (el : CborElement) : Option (Bytes × CborElement) :=
  match el.value with
  | .tag 24 inner =>
    match inner.value with
    | .bytes payload =>
      match CborParser.parseExact payload with
      | .ok item => some (payload, item)
      | .error _ => none
    | _ => none
  | _ => none

/-- The identifier that an item states. -/
def identifierOf (el : CborElement) : Option Bytes := do
  let (_, item) ← embedded el
  let id ← fieldOf item "elementIdentifier"
  match id.value with
  | .text id => some id
  | _ => none

/-- The encoded value that an item states. -/
def valueOf (el : CborElement) : Option Bytes := do
  let (payload, item) ← embedded el
  getRange payload (← fieldOf item "elementValue")

/-- The items of some namespaces, each with the name of its namespace, in their order. -/
def namespaceItems (namespaces : List (CborElement × CborElement)) : List (Bytes × CborElement) :=
  namespaces.flatMap fun pair =>
    match pair.1.value, pair.2.value with
    | .text ns, .array items => items.map fun item => (ns, item)
    | _, _ => []

/-- The namespaces of the first document. -/
def namespacesOf (mdoc : Bytes) : Option (List (CborElement × CborElement)) :=
  match CborParser.parseExact mdoc with
  | .ok root => do
    let docs ← fieldOf root "documents"
    match docs.value with
    | .array (doc0 :: _) => do
      let issuerSigned ← fieldOf doc0 "issuerSigned"
      let namespaces ← fieldOf issuerSigned "nameSpaces"
      match namespaces.value with
      | .map pairs => some pairs
      | _ => none
    | _ => none
  | .error _ => none

/-! ### Lookups -/

variable {element : CborElement} {field : String} {pairs : List (CborElement × CborElement)}

theorem mapPairs_eq_ok :
    mapPairs element field = .ok pairs ↔ element.value = .map pairs := by
  unfold mapPairs
  split
  · rename_i found
    rw [found, pure_eq_ok, Except.ok.injEq, CborValue.map.injEq]
  · rename_i other
    exact iff_of_false (raise_ne_ok _ _) (other _)

theorem requiredArray_eq_ok {items : List CborElement} :
    requiredArray element field = .ok items ↔ element.value = .array items := by
  unfold requiredArray
  split
  · rename_i found
    rw [found, pure_eq_ok, Except.ok.injEq, CborValue.array.injEq]
  · rename_i other
    exact iff_of_false (raise_ne_ok _ _) (other _)

variable {text : Bytes}

theorem textOf_eq_ok :
    textOf element field = .ok text ↔ element.value = .text text := by
  unfold textOf
  split
  · rename_i found
    rw [found, pure_eq_ok, Except.ok.injEq, CborValue.text.injEq]
  · rename_i other
    exact iff_of_false (raise_ne_ok _ _) (other _)

theorem requiredTaggedBytes_eq_ok {tag : ℕ} {bytes : Bytes}
    (ran : requiredTaggedBytes element tag field = .ok bytes) :
    ∃ inner, element.value = .tag tag inner ∧ inner.value = .bytes bytes := by
  unfold requiredTaggedBytes at ran
  split at ran
  · rename_i actualTag inner isTag
    split_ifs at ran with same
    · refine ⟨inner, same ▸ isTag, ?_⟩
      unfold requiredBytes at ran
      split at ran
      · rename_i isBytes
        rw [isBytes, Except.ok.inj ran]
      · exact absurd ran (raise_ne_ok _ _)
    · exact absurd ran (raise_ne_ok _ _)
  · exact absurd ran (raise_ne_ok _ _)

theorem parseItem_eq_ok {data : Bytes} {context : String} :
    parseItem data context = .ok element ↔ CborParser.parseExact data = .ok element :=
  mapErr_eq_ok fun _ => raise_ne_ok _ _

variable {α : Type}

/-- **A lookup by key** takes from the only pair with the key. -/
theorem findUnique_eq_ok {wanted : CborValue → Bool} {take : CborElement × CborElement → Parse α}
    {path : String} {a : α} (ran : findUnique wanted take path pairs = .ok a) :
    ∃ pair, (pairs.filter fun pair => wanted pair.1.value) = [pair] ∧ take pair = .ok a := by
  rw [findUnique, bind_eq_ok] at ran
  obtain ⟨found, looped, taken⟩ := ran
  have kept := foldlM_preserves
    (fun done found => match found with
      | none => (done.filter fun pair => wanted pair.1.value) = []
      | some a => ∃ pair, (done.filter fun pair => wanted pair.1.value) = [pair] ∧ take pair = .ok a)
    (s := none) rfl (fun {done pair found next} _ holds stepped => ?_) looped
  · match found, kept with
    | some a', holds => exact Except.ok.inj taken ▸ holds
  · by_cases here : wanted pair.1.value = true
    · rw [if_pos here, bind_eq_ok] at stepped
      obtain ⟨_, unique, stepped⟩ := stepped
      rw [check_eq_ok] at unique
      obtain rfl := Option.isNone_iff_eq_none.mp unique
      rw [map_eq_pure_bind, bind_eq_ok] at stepped
      obtain ⟨a', took, stored⟩ := stepped
      obtain rfl := Except.ok.inj stored
      refine ⟨pair, ?_, took⟩
      rw [List.filter_append, holds]
      exact List.filter_cons_of_pos (p := fun pair : CborElement × CborElement => wanted pair.1.value) here
    · rw [if_neg here] at stepped
      obtain rfl := Except.ok.inj stepped
      have none : ([pair].filter fun pair => wanted pair.1.value) = [] :=
        List.filter_cons_of_neg (p := fun pair : CborElement × CborElement => wanted pair.1.value) here
      rw [List.filter_append, none, List.append_nil]
      exact holds

variable {p : α → Bool}

theorem find?_of_filter {xs : List α} {x : α} (only : xs.filter p = [x]) :
    xs.find? p = some x := by
  rw [← List.head?_filter, only, List.head?_cons]

variable {key : String}

theorem requiredMapValue_field {map : CborElement} {path : String} {value : CborElement}
    (ran : requiredMapValue map (utf8 key) path = .ok value) : fieldOf map key = some value := by
  rw [requiredMapValue, mapEntryUnique, bind_eq_ok] at ran
  obtain ⟨entry, found, taken⟩ := ran
  rw [bind_eq_ok] at found
  obtain ⟨pairs, isMap, found⟩ := found
  obtain ⟨pair, only, same⟩ := findUnique_eq_ok found
  rw [fieldOf, mapPairs_eq_ok.mp isMap]
  dsimp only
  rw [find?_of_filter only, Option.map_some, Except.ok.inj same, Except.ok.inj taken]

/-! ### The entries of an item -/

/-- The keys of an item, in the order of the slots. -/
def slotKeys : List String := ["digestID", "random", "elementIdentifier", "elementValue"]

/-- Where a key stands. -/
def keyIndex (key : String) (pairs : List (CborElement × CborElement)) : Option ℕ :=
  pairs.findIdx? fun pair => isText (utf8 key) pair.1.value

/-- The number that a digest identifier holds. -/
def digestNumber (v : CborElement) : Option ℕ :=
  match v.value with
  | .integer n => if 0 ≤ n ∧ n < 2 ^ 64 then some n.toNat else none
  | _ => none

/-- **The entries that are stored are those of some pairs.** -/
structure SlotsOf (pairs : List (CborElement × CborElement)) (slots : Slots) : Prop where
  keys : ∀ pair ∈ pairs, ∃ key ∈ slotKeys, pair.1.value = .text (utf8 key)
  spans : ∀ pair ∈ pairs, pair.1.start ≤ pair.2.stop
  digestSlot : slots.digestSlot = keyIndex "digestID" pairs
  random : slots.random = keyIndex "random" pairs
  elementIdentifier : slots.elementIdentifier = keyIndex "elementIdentifier" pairs
  elementValue : slots.elementValue = keyIndex "elementValue" pairs
  digestId : slots.digestId =
    (pairs.find? fun pair => isText (utf8 "digestID") pair.1.value).bind fun pair =>
      digestNumber pair.2
  length : slots.length = (pairs.map fun pair => pair.2.stop - pair.1.start) ++
    List.replicate (4 - pairs.length) 0

theorem keyIndex_append (key : String) (pairs : List (CborElement × CborElement))
    (pair : CborElement × CborElement) (isKey : pair.1.value = .text text) :
    keyIndex key (pairs ++ [pair]) =
      (keyIndex key pairs).or (if text = utf8 key then some pairs.length else none) := by
  rw [keyIndex, List.findIdx?_append, keyIndex]
  congr 1
  rw [List.findIdx?_cons, isKey, isText]
  by_cases same : text = utf8 key <;> simp [same]

theorem digestIdOf_eq_ok {v : CborElement} {n : ℕ} (ran : digestIdOf v = .ok n) :
    digestNumber v = some n := by
  obtain ⟨value, start, stop⟩ := v
  cases value with
  | integer m =>
    dsimp only [digestIdOf] at ran
    by_cases fits : 0 ≤ m ∧ m < 2 ^ 64
    · rw [if_pos fits] at ran
      dsimp only [digestNumber]
      rw [if_pos fits, Except.ok.inj ran]
    · rw [if_neg fits] at ran
      exact absurd ran (raise_ne_ok _ _)
  | _ => exact absurd ran (raise_ne_ok _ _)

theorem lengths_append {lengths : List ℕ} (full : lengths.length < 4) (len : ℕ) :
    (lengths ++ List.replicate (4 - lengths.length) 0).set lengths.length len =
      (lengths ++ [len]) ++ List.replicate (4 - (lengths ++ [len]).length) 0 := by
  obtain ⟨k, left⟩ : ∃ k, 4 - lengths.length = k + 1 := ⟨3 - lengths.length, by omega⟩
  rw [left, List.set_append_right _ _ le_rfl, Nat.sub_self, List.replicate_succ, List.set_cons_zero,
    List.length_append, List.length_singleton, List.append_assoc]
  congr 2
  rw [show 4 - (lengths.length + 1) = k by omega]
  rfl

theorem slotKeys_injective {key' : String} (member : key ∈ slotKeys) (member' : key' ∈ slotKeys)
    (same : utf8 key = utf8 key') : key = key' := by
  have all : ∀ key ∈ slotKeys, ∀ key' ∈ slotKeys, utf8 key = utf8 key' → key = key' := by
    decide +kernel
  exact all key member key' member' same

variable {pair : CborElement × CborElement}

theorem find?_append_other (isKey : pair.1.value = .text text) (other : text ≠ utf8 key) :
    ((pairs ++ [pair]).find? fun pair => isText (utf8 key) pair.1.value) =
      pairs.find? fun pair => isText (utf8 key) pair.1.value := by
  have none : ([pair].find? fun pair => isText (utf8 key) pair.1.value) = none := by
    simp [isKey, isText, other]
  rw [List.find?_append, none, Option.or_none]

/-- **One more entry.** -/
theorem slotStep_ok {done : List (CborElement × CborElement)} {slots slots' : Slots}
    (holds : SlotsOf done slots) (room : done.length < 4)
    (stepped : slotStep slots (pair, done.length) = .ok slots') :
    SlotsOf (done ++ [pair]) slots' := by
  obtain ⟨k, v⟩ := pair
  rw [slotStep, bind_eq_ok] at stepped
  obtain ⟨text, isKey, stepped⟩ := stepped
  rw [textOf_eq_ok] at isKey
  rw [bind_eq_ok] at stepped
  obtain ⟨len, measured, stepped⟩ := stepped
  have span : k.start ≤ v.stop ∧ len = v.stop - k.start := by
    unfold checkedDiff at measured
    split_ifs at measured with ordered
    · exact ⟨ordered, (Except.ok.inj measured).symm⟩
    · exact absurd measured (raise_ne_ok _ _)
  rw [bind_eq_ok] at stepped
  obtain ⟨lengths, stored, stepped⟩ := stepped
  have length : lengths = ((done ++ [(k, v)]).map fun pair => pair.2.stop - pair.1.start) ++
      List.replicate (4 - (done ++ [(k, v)]).length) 0 := by
    have few : (done.map fun pair => pair.2.stop - pair.1.start).length < 4 := by
      rwa [List.length_map]
    have grown := lengths_append few len
    rw [(setAt_eq_ok.mp stored).2, holds.length]
    simp only [List.length_map, List.map_append, List.map_cons, List.map_nil, List.length_append,
      List.length_singleton] at grown ⊢
    rw [grown, span.2]
  have spans : ∀ pair ∈ done ++ [(k, v)], pair.1.start ≤ pair.2.stop :=
    List.forall_mem_append.mpr ⟨holds.spans, List.forall_mem_singleton.mpr span.1⟩
  have keysWith : ∀ key ∈ slotKeys, text = utf8 key → ∀ pair ∈ done ++ [(k, v)],
      ∃ key ∈ slotKeys, pair.1.value = .text (utf8 key) := fun key member same =>
    List.forall_mem_append.mpr ⟨holds.keys,
      List.forall_mem_singleton.mpr ⟨key, member, same ▸ isKey⟩⟩
  have index : ∀ key, keyIndex key (done ++ [(k, v)]) =
      (keyIndex key done).or (if text = utf8 key then some done.length else none) :=
    fun key => keyIndex_append key done (k, v) isKey
  -- An entry of another key leaves what is known of a key as it was.
  have other : ∀ {key here : String} {slot : Option ℕ}, slot = keyIndex key done →
      text = utf8 here → key ∈ slotKeys → here ∈ slotKeys → here ≠ key →
      slot = keyIndex key (done ++ [(k, v)]) := by
    intro key here slot known same member member' differ
    rw [index, if_neg fun same' => differ (slotKeys_injective member' member (same ▸ same')),
      Option.or_none, known]
  have first : ∀ {key : String} {slot : Option ℕ}, slot = keyIndex key done → slot.isNone = true →
      text = utf8 key → some done.length = keyIndex key (done ++ [(k, v)]) := by
    intro key slot known none same
    rw [index, if_pos same, ← known, Option.isNone_iff_eq_none.mp none, Option.none_or]
  have digest : ∀ {here : String}, here ∈ slotKeys → here ≠ "digestID" → text = utf8 here →
      slots.digestId = ((done ++ [(k, v)]).find? fun pair =>
        isText (utf8 "digestID") pair.1.value).bind fun pair => digestNumber pair.2 := by
    intro here member differ same
    rw [find?_append_other isKey fun same' => differ (slotKeys_injective member (by decide)
      (same ▸ same')), holds.digestId]
  dsimp only at stepped
  split_ifs at stepped with isDigest isRandom isIdentifier isValue
  · rw [bind_eq_ok] at stepped
    obtain ⟨_, unique, stepped⟩ := stepped
    rw [bind_eq_ok] at stepped
    obtain ⟨n, number, stepped⟩ := stepped
    obtain rfl := Except.ok.inj stepped
    rw [check_eq_ok] at unique
    have absent : keyIndex "digestID" done = none := by
      rw [← holds.digestSlot]
      exact Option.isNone_iff_eq_none.mp unique
    refine ⟨keysWith _ (by decide) isDigest, spans, first holds.digestSlot unique isDigest,
      ?_, ?_, ?_, ?_, length⟩
    · exact other holds.random isDigest (by decide) (by decide) (by decide)
    · exact other holds.elementIdentifier isDigest (by decide) (by decide) (by decide)
    · exact other holds.elementValue isDigest (by decide) (by decide) (by decide)
    · have before : (done.find? fun pair => isText (utf8 "digestID") pair.1.value) = none := by
        rw [List.find?_eq_bind_findIdx?_getElem?]
        exact congrArg (Option.bind · _) absent
      rw [List.find?_append, before, Option.none_or]
      simp [isKey, isText, isDigest, digestIdOf_eq_ok number]
  · rw [bind_eq_ok] at stepped
    obtain ⟨_, unique, stepped⟩ := stepped
    obtain rfl := Except.ok.inj stepped
    rw [check_eq_ok] at unique
    refine ⟨keysWith _ (by decide) isRandom, spans, ?_, first holds.random unique isRandom,
      ?_, ?_, digest (by decide) (by decide) isRandom, length⟩
    · exact other holds.digestSlot isRandom (by decide) (by decide) (by decide)
    · exact other holds.elementIdentifier isRandom (by decide) (by decide) (by decide)
    · exact other holds.elementValue isRandom (by decide) (by decide) (by decide)
  · rw [bind_eq_ok] at stepped
    obtain ⟨_, unique, stepped⟩ := stepped
    obtain rfl := Except.ok.inj stepped
    rw [check_eq_ok] at unique
    refine ⟨keysWith _ (by decide) isIdentifier, spans, ?_, ?_,
      first holds.elementIdentifier unique isIdentifier, ?_,
      digest (by decide) (by decide) isIdentifier, length⟩
    · exact other holds.digestSlot isIdentifier (by decide) (by decide) (by decide)
    · exact other holds.random isIdentifier (by decide) (by decide) (by decide)
    · exact other holds.elementValue isIdentifier (by decide) (by decide) (by decide)
  · rw [bind_eq_ok] at stepped
    obtain ⟨_, unique, stepped⟩ := stepped
    obtain rfl := Except.ok.inj stepped
    rw [check_eq_ok] at unique
    refine ⟨keysWith _ (by decide) isValue, spans, ?_, ?_, ?_,
      first holds.elementValue unique isValue, digest (by decide) (by decide) isValue,
      length⟩
    · exact other holds.digestSlot isValue (by decide) (by decide) (by decide)
    · exact other holds.random isValue (by decide) (by decide) (by decide)
    · exact other holds.elementIdentifier isValue (by decide) (by decide) (by decide)
  · exact absurd stepped (raise_ne_ok _ _)

/-- **The entries of an item that is accepted.** -/
theorem slots_ok {slots : Slots} (four : pairs.length = 4)
    (ran : pairs.zipIdx.foldlM slotStep ⟨none, none, none, none, [0, 0, 0, 0], none⟩ = .ok slots) :
    SlotsOf pairs slots := by
  have start : SlotsOf [] ⟨none, none, none, none, [0, 0, 0, 0], none⟩ :=
    ⟨by simp, by simp, rfl, rfl, rfl, rfl, rfl, rfl⟩
  have kept := foldlM_preserves (fun done slots => SlotsOf (done.map Prod.fst) slots) start
    (fun {done entry slots slots'} isPrefix holds stepped => ?_) ran
  · rwa [List.zipIdx_map_fst] at kept
  · have found : pairs.zipIdx[done.length]? = some entry := by
      obtain ⟨rest, split⟩ := isPrefix
      rw [← split, List.append_assoc, List.getElem?_append_right le_rfl, Nat.sub_self]
      rfl
    obtain ⟨inside, same⟩ := List.getElem?_eq_some_iff.mp found
    rw [List.getElem_zipIdx, Nat.zero_add] at same
    rw [List.length_zipIdx, four] at inside
    rw [List.map_append]
    refine slotStep_ok holds (by rwa [List.length_map]) ?_
    rw [List.length_map, ← stepped, ← same]

/-! ### The witness of an item -/

/-- The bytes of an entry. -/
def entryLength (pair : CborElement × CborElement) : ℕ := pair.2.stop - pair.1.start

/-- **What the witness of an item is read from**: its four entries, wherever they stand, and the
digest of its own namespace. -/
structure WitnessOf (item valueDigests : CborElement) (ns : Bytes)
    (pairs : List (CborElement × CborElement)) (slots : List ℕ) (attr : ParsedAttr) : Prop where
  isMap : item.value = .map pairs
  four : pairs.length = 4
  entries : ∃ known, SlotsOf pairs known
  indices : slotKeys.map (keyIndex · pairs) = slots.map some
  permutation : attr.fieldLocator.permutation =
    slots.getD 3 0 <<< 6 ||| slots.getD 2 0 <<< 4 ||| slots.getD 1 0 <<< 2 ||| slots.getD 0 0
  inside : item.stop ≤ attr.cborIssuerSignedItem.length
  lengths : attr.fieldLocator.length = pairs.map entryLength
  positions : ∃ first, pairs.head? = some first ∧
    let start := attr.cborIssuerSignedItem.length - item.stop + first.1.start
    attr.fieldLocator.slotPosition =
      (List.range 4).map fun i => start + ((pairs.map entryLength).take i).sum
  digest : ∃ n,
    ((pairs.find? fun pair => isText (utf8 "digestID") pair.1.value).bind fun pair =>
      digestNumber pair.2) = some n ∧
    requiredDigestOffset valueDigests ns n = .ok attr.msoDigestOffsetInPreimage

theorem okOr_eq_ok {x : Option α} {error : MdocParseError} {a : α} :
    okOr x error = (.ok a : Parse α) ↔ x = some a := by
  cases x <;> simp [okOr]

theorem nextOffset_eq_ok {offset length next : ℕ} (ran : nextOffset offset length = .ok next) :
    next = offset + length := by
  rw [nextOffset, okOr_eq_ok, checkedAdd] at ran
  split_ifs at ran
  exact (Option.some.inj ran).symm

variable {valueDigests : CborElement}

theorem computeWitness_ok {name cborValue itemBytes : Bytes} {item : CborElement} {ns : Bytes}
    {attr : ParsedAttr}
    (ran : computeWitness name cborValue itemBytes item valueDigests ns = .ok attr) :
    attr.name = name ∧ attr.cborValue = cborValue ∧ attr.cborIssuerSignedItem = itemBytes ∧
      ∃ pairs slots, WitnessOf item valueDigests ns pairs slots attr := by
  rw [computeWitness, bind_eq_ok] at ran
  obtain ⟨pairs, isMap, ran⟩ := ran
  rw [bind_eq_ok] at ran
  obtain ⟨_, four, ran⟩ := ran
  rw [mapPairs_eq_ok] at isMap
  rw [check_eq_ok] at four
  rw [bind_eq_ok] at ran
  obtain ⟨known, looped, ran⟩ := ran
  have entries := slots_ok four looped
  simp only [bind_eq_ok, okOr_eq_ok, getAt_eq_ok] at ran
  obtain ⟨s0, is0, s1, is1, s2, is2, s3, is3, preLen, isPrefix, first, isFirst, o0, isStart, ran⟩ := ran
  obtain ⟨l0, isL0, o1, isO1, l1, isL1, o2, isO2, l2, isL2, o3, isO3, ran⟩ := ran
  obtain ⟨n, isDigest, offset, found, built⟩ := ran
  obtain rfl := Except.ok.inj built
  obtain ⟨a, b, c, d, rfl⟩ : ∃ a b c d, pairs = [a, b, c, d] := by
    match pairs, four with
    | [a, b, c, d], _ => exact ⟨a, b, c, d, rfl⟩
  have lengths : known.length = [a, b, c, d].map entryLength := entries.length
  have inside : item.stop ≤ itemBytes.length ∧ preLen = itemBytes.length - item.stop := by
    unfold checkedDiff at isPrefix
    split_ifs at isPrefix with ordered
    exact ⟨ordered, (Option.some.inj isPrefix).symm⟩
  have start : o0 = preLen + first.1.start := by
    unfold checkedAdd at isStart
    split_ifs at isStart
    exact (Option.some.inj isStart).symm
  obtain rfl : a = first := Option.some.inj isFirst
  rw [lengths] at isL0 isL1 isL2
  obtain rfl : entryLength a = l0 := Option.some.inj isL0
  obtain rfl : entryLength b = l1 := Option.some.inj isL1
  obtain rfl : entryLength c = l2 := Option.some.inj isL2
  refine ⟨rfl, rfl, rfl, [a, b, c, d], [s0, s1, s2, s3], isMap, four, ⟨known, entries⟩, ?_, rfl,
    inside.1, lengths, ⟨a, rfl, ?_⟩, n, ?_, found⟩
  · simp only [slotKeys, List.map_cons, List.map_nil]
    rw [← entries.digestSlot, ← entries.random, ← entries.elementIdentifier,
      ← entries.elementValue, is0, is1, is2, is3]
  · rw [nextOffset_eq_ok isO3, nextOffset_eq_ok isO2, nextOffset_eq_ok isO1, start, inside.2]
    simp [List.range_succ]
    omega
  · rw [← entries.digestId, isDigest]

/-- The parts of an item that was accepted. -/
structure ItemOf (mdoc : Bytes) (valueDigests : CborElement) (ns : Bytes) (el : CborElement)
    (attr : ParsedAttr) : Prop where
  wrapped : getRange mdoc el = some attr.cborIssuerSignedItem
  identifier : identifierOf el = some attr.name
  value : valueOf el = some attr.cborValue
  witness : ∃ payload item pairs slots, embedded el = some (payload, item) ∧
    WitnessOf item valueDigests ns pairs slots attr

/-- **An attribute is read from one item**: its identifier, its value, its bytes and its digest. -/
theorem extractAttr_ok {mdoc : Bytes} {el : CborElement} {ns : Bytes} {attr : ParsedAttr}
    (ran : extractAttr mdoc valueDigests ns el = .ok attr) :
    ItemOf mdoc valueDigests ns el attr := by
  simp only [extractAttr, bind_eq_ok, okOr_eq_ok, textOf_eq_ok, parseItem_eq_ok] at ran
  obtain ⟨wrapped, isWrapped, payload, isPayload, item, isItem, idEl, isIdEl, ran⟩ := ran
  obtain ⟨id, isId, valueEl, isValueEl, value, isValue, ran⟩ := ran
  obtain ⟨inner, isTag, isBytes⟩ := requiredTaggedBytes_eq_ok isPayload
  have embeds : embedded el = some (payload, item) := by
    simp only [embedded, isTag, isBytes, isItem]
  obtain ⟨rfl, rfl, rfl, pairs, slots, witness⟩ := computeWitness_ok ran
  refine ⟨isWrapped, ?_, ?_, payload, item, pairs, slots, embeds, witness⟩
  · rw [identifierOf, embeds]
    show (fieldOf item "elementIdentifier" >>= _) = _
    rw [requiredMapValue_field isIdEl]
    show (match idEl.value with | .text id => some id | _ => none) = _
    rw [isId]
  · rw [valueOf, embeds]
    show (fieldOf item "elementValue" >>= _) = _
    rw [requiredMapValue_field isValueEl]
    exact isValue

/-- **The attributes are those of the items of all namespaces**, in the order of the document. -/
theorem extractAttrs_ok {issuerSigned : CborElement} {mdoc : Bytes} {attrs : List ParsedAttr}
    (ran : extractAttrs issuerSigned mdoc valueDigests = .ok attrs) :
    ∃ namespaces pairs, fieldOf issuerSigned "nameSpaces" = some namespaces ∧
      namespaces.value = .map pairs ∧
      List.Forall₂ (fun item attr => ItemOf mdoc valueDigests item.1 item.2 attr)
        (namespaceItems pairs) attrs := by
  simp only [extractAttrs, bind_eq_ok, mapPairs_eq_ok] at ran
  obtain ⟨namespaces, found, pairs, isMap, result, looped, built⟩ := ran
  obtain rfl := Except.ok.inj built
  refine ⟨namespaces, pairs, requiredMapValue_field found, isMap, ?_⟩
  refine foldlM_preserves
    (fun done result => List.Forall₂ (fun item attr => ItemOf mdoc valueDigests item.1 item.2 attr)
      (namespaceItems done) result.2) (s := ([], [])) .nil
    (fun {done pair s s'} _ holds stepped => ?_) looped
  simp only [namespaceStep, bind_eq_ok, textOf_eq_ok, requiredArray_eq_ok] at stepped
  obtain ⟨ns, isText, _, _, items, isArray, attrs, collected, built⟩ := stepped
  obtain rfl := Except.ok.inj built
  rw [namespaceItems, List.flatMap_append]
  refine List.rel_append holds ?_
  rw [List.flatMap_singleton, isText, isArray, List.forall₂_map_left_iff]
  exact (mapM_eq_ok collected).imp fun item attr extracted => extractAttr_ok extracted

/-! ### Lookups by identifier -/

variable {sha256 : Bytes → Vector UInt8 32} {mdoc transcript docType : Bytes} {parsed : ParsedMdoc}

/-- The item states an identifier. -/
def states (id : Bytes) (item : Bytes × CborElement) : Bool := identifierOf item.2 == some id

/-- The item stands in a namespace and states an identifier. -/
def requested (ns id : Bytes) (item : Bytes × CborElement) : Bool := item.1 == ns && states id item

theorem parseMdoc_items (accepted : parseMdoc sha256 mdoc transcript docType = .ok parsed) :
    ∃ namespaces valueDigests, namespacesOf mdoc = some namespaces ∧
      List.Forall₂ (fun item attr => ItemOf mdoc valueDigests item.1 item.2 attr)
        (namespaceItems namespaces) parsed.attrs := by
  obtain ⟨parts, found⟩ := (parseMdoc_spec sha256 mdoc transcript docType).of_ok accepted
  obtain ⟨rest, isDoc⟩ := found.isDoc
  obtain ⟨namespaces, pairs, isField, isMap, items⟩ := extractAttrs_ok found.attributes
  refine ⟨pairs, parts.valueDigests, ?_, items⟩
  rw [namespacesOf, parseItem_eq_ok.mp found.isRoot]
  show (fieldOf parts.root "documents" >>= _) = _
  rw [requiredMapValue_field found.isDocs]
  show (match parts.docs.value with | .array (doc0 :: _) => _ | _ => none) = _
  rw [requiredArray_eq_ok.mp isDoc]
  show (fieldOf parts.doc0 "issuerSigned" >>= _) = _
  rw [requiredMapValue_field found.isIssuerSigned]
  show (fieldOf parts.issuerSigned "nameSpaces" >>= _) = _
  rw [isField]
  show (match namespaces.value with | .map pairs => some pairs | _ => none) = _
  rw [isMap]

theorem find?_related {β : Type} {r : α → β → Prop} {q : β → Bool} {as : List α} {bs : List β}
    (each : List.Forall₂ r as bs) (same : ∀ {a b}, r a b → p a = q b) :
    Option.Rel r (as.find? p) (bs.find? q) := by
  induction each with
  | nil => exact .none
  | cons head _ ih =>
    rw [List.find?_cons, List.find?_cons, same head]
    split
    · exact .some head
    · exact ih

theorem find?_refined {q : α → Bool} {xs : List α} :
    xs.find? (fun x => q x && p x) = xs.find? p ↔ ∀ x, xs.find? p = some x → q x = true := by
  constructor
  · intro same x found
    rw [← same] at found
    exact (Bool.and_eq_true_iff.mp (List.find?_some (p := fun x => q x && p x) found)).1
  · intro satisfied
    induction xs with
    | nil => rfl
    | cons x xs ih =>
      by_cases here : p x = true
      · have kept := satisfied x (List.find?_cons_of_pos here)
        rw [List.find?_cons_of_pos here, List.find?_cons_of_pos (by rw [kept, here]; rfl)]
      · rw [List.find?_cons_of_neg here] at satisfied ⊢
        rw [List.find?_cons_of_neg (by simp [here]), ih satisfied]

/-- An item with a digest identifier and a value. -/
def itemWith (digestId value : UInt8) : Bytes := mapItem [
  (textItem "digestID", [digestId]), (textItem "random", bytesItem [0x2a]),
  (textItem "elementIdentifier", textItem "age"), (textItem "elementValue", [value])]

def twoNamespacesMso : Bytes := mapItem [ (textItem "docType", textItem "mDL"),
  (textItem "validityInfo", mapItem [ (textItem "validFrom", textItem "2024-01-01T00:00:00Z"),
    (textItem "validUntil", textItem "2034-01-01T00:00:00Z")]),
  (textItem "deviceKeyInfo", mapItem [(textItem "deviceKey", mapItem [
    ([0x21], bytesItem (scalarBytes 1)), ([0x22], bytesItem (scalarBytes 2))])]),
  (textItem "valueDigests", mapItem [
    (textItem "home", mapItem [([0x00], bytesItem (scalarBytes 0))]),
    (textItem "org", mapItem [([0x01], bytesItem (scalarBytes 0))])])]

/-- A document that states an age of 16 in one namespace, and of 20 in another. -/
def twoNamespacesMdoc : Bytes := mapItem [(textItem "documents", arrayItem [mapItem [
  (textItem "issuerSigned", mapItem [
    (textItem "nameSpaces", mapItem [
      (textItem "home", arrayItem [embeddedItem (itemWith 0x00 0x10)]),
      (textItem "org", arrayItem [embeddedItem (itemWith 0x01 0x14)])]),
    (textItem "issuerAuth", arrayItem [bytesItem [], mapItem [],
      bytesItem (embeddedItem twoNamespacesMso), bytesItem (scalarBytes 1 ++ scalarBytes 1)])]),
  (textItem "deviceSigned", mapItem [(textItem "deviceAuth", mapItem [
    (textItem "deviceSignature", arrayItem [bytesItem [], mapItem [], [0xf6],
      bytesItem (scalarBytes 1 ++ scalarBytes 1)])])])]])]

theorem twoNamespaces_parsed :
    (match parseMdoc Sha256.digest twoNamespacesMdoc [0xf6] (utf8 "mDL") with
      | .ok parsed => ((parsed.getAttribute (utf8 "age")).map ParsedAttr.cborValue) == some [0x10]
      | .error _ => false) = true := by decide +kernel

theorem twoNamespaces_requested :
    ((namespacesOf twoNamespacesMdoc).bind fun namespaces =>
      ((namespaceItems namespaces).find? (requested (utf8 "org") (utf8 "age"))).bind fun item =>
        valueOf item.2) = some [0x14] := by decide +kernel

end Longfellow.Mdoc
