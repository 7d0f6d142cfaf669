/-
**The entries of a signed item** (`compute_witness` of `mdoc_zk/circuits/src/cbor/mdoc.rs`).

The locator of an item says where its four entries stand and how long they are. They stand behind
one another, so the lengths say where each of them starts.

* `ItemFor.layout` — **its entries fill it behind the head of the map**.
-/

import Longfellow.Mdoc.Attributes
import Longfellow.Mdoc.CborExact

namespace Longfellow.Mdoc

open Lib Cbor CborParser

/-! ### Heads -/

/-- The low bits of the first byte of an item. -/
def headBits (data : Bytes) (e : CborElement) : ℕ := (data.getD e.start 0).toNat % 32

/-- The head of an item is one byte. -/
def OneByteHead (data : Bytes) (e : CborElement) : Prop := headBits data e ≤ 23

instance (data : Bytes) (e : CborElement) : Decidable (OneByteHead data e) := by
  unfold OneByteHead
  infer_instance

theorem tokenValue_kind (t : Token) (es : List CborElement) :
    match tokenValue t es with
    | .bytes s => t.major = 2 ∧ t.content = s
    | .text s => t.major = 3 ∧ t.content = s
    | .map pairs => t.major = 5 ∧ pairs = pairUp es
    | .tag n inner => t.major = 6 ∧ t.value = n ∧ es.head? = some inner
    | _ => True := by
  obtain ⟨major, info, value, content, few, argument, sized⟩ := t
  have simple : simpleOf info value = .simple value ∨ simpleOf info value = .float16 value ∨
      simpleOf info value = .float32 value ∨ simpleOf info value = .float64 value := by
    unfold simpleOf
    split <;> simp
  unfold tokenValue
  dsimp only
  interval_cases major
  · trivial
  · trivial
  · exact ⟨rfl, rfl⟩
  · exact ⟨rfl, rfl⟩
  · trivial
  · exact ⟨rfl, rfl⟩
  · cases es with
    | nil => rcases simple with same | same | same | same <;> simp only [same]
    | cons e es => exact ⟨rfl, rfl, rfl⟩
  · rcases simple with same | same | same | same <;> simp only [same]

variable {data : Bytes} {levels : ℕ}

variable {e : CborElement}

theorem headBits_of_token {t : Token} (there : t.bytes <+: data.drop e.start) :
    headBits data e = t.info := by
  have first := (token_there.mp there).1
  have wide := t.argument.info_le
  have few := t.majorSmall
  have byte : data.getD e.start 0 = UInt8.ofNat (32 * t.major + t.info) := by
    obtain ⟨rest, same⟩ := first
    rw [List.getD_eq_getElem?_getD, ← List.head?_drop, ← same]
    rfl
  rw [headBits, byte, initial_toNat few (by omega)]
  omega

theorem leaf_span {t : Token} {es : List CborElement} {inner : ℕ} (leaf : t.arity = 0)
    (children : Reads data inner (e.start + t.size) t.arity es e.stop) :
    e.stop = e.start + t.size := by
  rw [leaf, reads_zero] at children
  exact children.2

variable {s : Bytes}

section

variable (reads : Reads data levels e.start 1 [e] e.stop)
include reads

theorem string_span {major : ℕ} (isString : major = 2 ∨ major = 3)
    (kind : ∀ t es, tokenValue t es = e.value → t.major = major ∧ t.content = s) :
    ∃ t : Token, t.major = major ∧ t.content = s ∧ t.bytes <+: data.drop e.start ∧
      e.stop = e.start + t.size := by
  obtain ⟨inner, rfl⟩ := reads.levels_pos
  obtain ⟨t, -, there, es, children, same⟩ := reads_tree.mp reads
  obtain ⟨isMajor, content⟩ := kind t es (by rw [same])
  have leaf : t.arity = 0 := by
    rcases isString with rfl | rfl <;> simp only [Token.arity, isMajor]
  exact ⟨t, isMajor, content, there, leaf_span leaf children⟩

/-- **A byte string is its token.** -/
theorem bytes_span (isBytes : e.value = .bytes s) :
    ∃ t : Token, t.major = 2 ∧ t.content = s ∧ t.bytes <+: data.drop e.start ∧
      e.stop = e.start + t.size := by
  refine string_span reads (Or.inl rfl) fun t es value => ?_
  have kind := tokenValue_kind t es
  rwa [value, isBytes] at kind

/-- **A text is its token.** -/
theorem text_span (isText : e.value = .text s) :
    ∃ t : Token, t.major = 3 ∧ t.content = s ∧ t.bytes <+: data.drop e.start ∧
      e.stop = e.start + t.size := by
  refine string_span reads (Or.inr rfl) fun t es value => ?_
  have kind := tokenValue_kind t es
  rwa [value, isText] at kind

end

theorem argumentWidth_eq_zero {info : ℕ} (wide : info ≤ 27) :
    argumentWidth info = 0 ↔ info ≤ 23 := by
  refine ⟨fun none => ?_, argumentWidth_of_small⟩
  by_contra large
  interval_cases info <;> cases none

theorem text_length (reads : Reads data levels e.start 1 [e] e.stop) (isText : e.value = .text s) :
    headBits data e ≤ 27 ∧
      e.stop = e.start + argumentWidth (headBits data e) + 1 + s.length := by
  obtain ⟨t, -, content, there, stop⟩ := text_span reads isText
  rw [headBits_of_token there, stop, Token.size, content]
  exact ⟨t.argument.info_le, by omega⟩

/-! ### Items of a document -/

theorem Within.trans {x y z : CborElement} (inner : Within x y) (outer : Within y z) :
    Within x z := by
  induction outer with
  | self => exact inner
  | inside _ member ih => exact .inside ih member

theorem Within.child {c : CborElement} (member : c ∈ e.value.children) : Within c e :=
  .inside (.self c) member

/-- The entry of a key. -/
def entryOf (el : CborElement) (key : String) : Option (CborElement × CborElement) :=
  match el.value with
  | .map pairs => pairs.find? fun pair => isText (utf8 key) pair.1.value
  | _ => none

theorem fieldOf_eq (el : CborElement) (key : String) :
    fieldOf el key = (entryOf el key).map Prod.snd := by
  obtain ⟨value, start, stop⟩ := el
  cases value <;> rfl

variable {el : CborElement} {key : String}

variable {pair : CborElement × CborElement}

theorem entryOf_key (found : entryOf el key = some pair) :
    pair.1.value = .text (utf8 key) := by
  unfold entryOf at found
  split at found
  · have isKey := List.find?_some found
    unfold isText at isKey
    split at isKey
    · rename_i text isText
      rw [isText, eq_of_beq isKey]
    · cases isKey
  · cases found

theorem within_of_entryOf (found : entryOf el key = some pair) :
    Within pair.1 el ∧ Within pair.2 el := by
  unfold entryOf at found
  split at found
  · rename_i pairs isMap
    have member := List.mem_of_find?_eq_some found
    have inside : ∀ c ∈ [pair.1, pair.2], Within c el := fun c isPart => by
      refine .child ?_
      rw [isMap]
      exact List.mem_flatMap.mpr ⟨pair, member, isPart⟩
    exact ⟨inside _ (.head _), inside _ (.tail _ (.head _))⟩
  · cases found

theorem within_of_fieldOf {value : CborElement} (found : fieldOf el key = some value) :
    Within value el := by
  rw [fieldOf_eq, Option.map_eq_some_iff] at found
  obtain ⟨pair, found, rfl⟩ := found
  exact (within_of_entryOf found).2

variable {mdoc : Bytes} {pairs : List (CborElement × CborElement)} {item : CborElement}

/-- **The signed items of a document are inside it.** -/
theorem items_within {namespaces : List (CborElement × CborElement)}
    (isDocument : namespacesOf mdoc = some namespaces) {item : Bytes × CborElement}
    (member : item ∈ namespaceItems namespaces) :
    ∃ root, parseExact mdoc = .ok root ∧ Within item.2 root := by
  unfold namespacesOf at isDocument
  split at isDocument
  · rename_i root parsed
    refine ⟨root, parsed, ?_⟩
    obtain ⟨docs, isDocs, isDocument⟩ := Option.bind_eq_some_iff.mp isDocument
    split at isDocument
    · rename_i doc0 rest isArray
      obtain ⟨issuerSigned, isIssuerSigned, isDocument⟩ := Option.bind_eq_some_iff.mp isDocument
      obtain ⟨spaces, isSpaces, isDocument⟩ := Option.bind_eq_some_iff.mp isDocument
      split at isDocument
      · rename_i pairs isMap
        obtain rfl := Option.some.inj isDocument
        obtain ⟨pair, isPair, isItem⟩ := List.mem_flatMap.mp member
        have inDocs : Within doc0 docs := .child (by rw [isArray]; exact List.mem_cons_self)
        have inSpaces : Within pair.2 spaces := .child (by
          rw [isMap]
          exact List.mem_flatMap.mpr ⟨pair, isPair, .tail _ (.head _)⟩)
        have inItems : Within item.2 pair.2 := by
          split at isItem
          · rename_i ns items _ isItems
            obtain ⟨el, isEl, rfl⟩ := List.mem_map.mp isItem
            exact .child (by rw [isItems]; exact isEl)
          · cases isItem
        exact inItems.trans (inSpaces.trans ((within_of_fieldOf isSpaces).trans
          ((within_of_fieldOf isIssuerSigned).trans (inDocs.trans (within_of_fieldOf isDocs)))))
      · cases isDocument
    · cases isDocument
  · cases isDocument

/-- **The bytes of a signed item**: a tag, the head of a byte string, and the bytes of the string. -/
theorem wrapped_eq {payload wrapped : Bytes}
    (reads : Reads data levels el.start 1 [el] el.stop)
    (embeds : embedded el = some (payload, item)) (isWrapped : getRange data el = some wrapped) :
    ∃ t u : Token, t.major = 6 ∧ t.value = 24 ∧ u.major = 2 ∧ u.content = payload ∧
      wrapped = t.bytes ++ u.bytes ∧ parseExact payload = .ok item := by
  unfold embedded at embeds
  split at embeds
  · rename_i inner isTag
    split at embeds
    · rename_i payload' isBytes
      split at embeds
      · rename_i item' isItem
        obtain ⟨rfl, rfl⟩ := Prod.mk.inj (Option.some.inj embeds)
        obtain ⟨depth, rfl⟩ := reads.levels_pos
        obtain ⟨t, -, there, es, children, same⟩ := reads_tree.mp reads
        have value : tokenValue t es = .tag 24 inner := by rw [← isTag, same]
        have kind := tokenValue_kind t es
        rw [value] at kind
        obtain ⟨major, number, first⟩ := kind
        have one : t.arity = 1 := by simp only [Token.arity, major]
        rw [one] at children
        obtain ⟨e, rfl⟩ := List.length_eq_one_iff.mp children.length
        obtain rfl : e = inner := Option.some.inj first
        obtain ⟨starts, ends, -⟩ := children.span
        rw [← starts, ← ends] at children
        obtain ⟨u, isString, content, inside, stop⟩ := bytes_span children isBytes
        have whole : t.bytes ++ u.bytes <+: data.drop el.start := by
          refine append_prefix_drop.mpr ⟨there, ?_⟩
          rwa [t.length_bytes, ← starts]
        refine ⟨t, u, major, number, isString, content, ?_, isItem⟩
        have size : el.stop - el.start = (t.bytes ++ u.bytes).length := by
          rw [List.length_append, t.length_bytes, u.length_bytes]
          omega
        unfold getRange at isWrapped
        split_ifs at isWrapped
        rw [← Option.some.inj isWrapped, size]
        exact (List.prefix_iff_eq_take.mp whole).symm
      · cases embeds
    · cases embeds
  · cases embeds

/-! ### The entries behind one another -/

/-- **Where the entries start**: behind all entries before them. -/
theorem entries_layout {start stop : ℕ}
    (consecutive : Consecutive start (pairs.flatMap fun pair => [pair.1, pair.2]) stop) :
    stop = start + (pairs.map entryLength).sum ∧
      ∀ i pair, pairs[i]? = some pair →
        pair.1.start = start + ((pairs.map entryLength).take i).sum ∧
          pair.1.start < pair.1.stop ∧ pair.1.stop = pair.2.start ∧ pair.2.start < pair.2.stop := by
  induction pairs generalizing start with
  | nil => exact ⟨consecutive.symm, nofun⟩
  | cons first rest ih =>
    obtain ⟨starts, key, follows, value, later⟩ := consecutive
    obtain ⟨total, each⟩ := ih later
    have length : first.2.stop = start + entryLength first := by
      unfold entryLength
      omega
    rw [length] at total each
    refine ⟨?_, fun i pair found => ?_⟩
    · rw [total, List.map_cons, List.sum_cons, Nat.add_assoc]
    · cases i with
      | zero =>
        obtain rfl := Option.some.inj found
        exact ⟨starts, key, follows.symm, value⟩
      | succ i =>
        obtain ⟨place, spans⟩ := each i pair found
        refine ⟨?_, spans⟩
        rw [place, List.map_cons, List.take_succ_cons, List.sum_cons, Nat.add_assoc]

theorem slots_of_permutation {a b c d : ℕ} (smallA : a < 4) (smallB : b < 4) (smallC : c < 4)
    (smallD : d < 4) : ∀ j < 4,
      (d <<< 6 ||| c <<< 4 ||| b <<< 2 ||| a) >>> (2 * j) &&& 3 = [a, b, c, d].getD j 0 := by
  have all : ∀ a b c d j : Fin 4, (d.val <<< 6 ||| c.val <<< 4 ||| b.val <<< 2 ||| a.val) >>>
      (2 * j.val) &&& 3 = [a.val, b.val, c.val, d.val].getD j.val 0 := by decide +kernel
  exact fun j small => all ⟨a, smallA⟩ ⟨b, smallB⟩ ⟨c, smallC⟩ ⟨d, smallD⟩ ⟨j, small⟩

section Witness

variable {valueDigests : CborElement} {ns : Bytes} {slots : List ℕ} {attr : ParsedAttr}

variable {key : String}

variable (witness : WitnessOf item valueDigests ns pairs slots attr)
include witness

theorem WitnessOf.keyIndex {j : ℕ} (isKey : slotKeys[j]? = some key) :
    ∃ s, slots[j]? = some s ∧ keyIndex key pairs = some s := by
  have same := congrArg (·[j]?) witness.indices
  simp only [List.getElem?_map, isKey, Option.map_some] at same
  obtain ⟨s, found, index⟩ := Option.map_eq_some_iff.mp same.symm
  exact ⟨s, found, index.symm⟩

theorem entryOf_of_keyIndex {s : ℕ} (index : Mdoc.keyIndex key pairs = some s) :
    ∃ pair, entryOf item key = some pair ∧ pairs[s]? = some pair := by
  have found : entryOf item key = (Mdoc.keyIndex key pairs).bind (pairs[·]?) := by
    rw [entryOf, witness.isMap]
    exact List.find?_eq_bind_findIdx?_getElem?
  obtain ⟨inside, -⟩ := List.findIdx?_eq_some_iff_findIdx_eq.mp index
  rw [found, index, Option.bind_some, List.getElem?_eq_getElem inside]
  exact ⟨_, rfl, rfl⟩

/-- **The slot of a key** is where its entry stands. -/
theorem WitnessOf.slot {j : ℕ} (isKey : slotKeys[j]? = some key) :
    ∃ pair, entryOf item key = some pair ∧
      pairs[attr.fieldLocator.permutation >>> (2 * j) &&& 3]? = some pair := by
  have small : ∀ s ∈ slots, s < 4 := by
    intro s member
    have stored : some s ∈ slotKeys.map (Mdoc.keyIndex · pairs) := by
      rw [witness.indices]
      exact List.mem_map_of_mem member
    obtain ⟨key, -, index⟩ := List.mem_map.mp stored
    obtain ⟨inside, -⟩ := List.findIdx?_eq_some_iff_findIdx_eq.mp index
    rwa [witness.four] at inside
  have count : slots.length = 4 := by
    have lengths := congrArg List.length witness.indices
    rw [List.length_map, List.length_map] at lengths
    exact lengths.symm
  obtain ⟨s, found, index⟩ := witness.keyIndex isKey
  obtain ⟨pair, entry, there⟩ := entryOf_of_keyIndex witness index
  refine ⟨pair, entry, ?_⟩
  have inside : j < 4 := count ▸ (List.getElem?_eq_some_iff.mp found).1
  have slot : attr.fieldLocator.permutation >>> (2 * j) &&& 3 = s := by
    match slots, count with
    | [a, b, c, d], _ =>
      rw [witness.permutation]
      simp only [List.forall_mem_cons] at small
      have bits := slots_of_permutation small.1 small.2.1 small.2.2.1 small.2.2.2.1 j inside
      rw [List.getD_eq_getElem?_getD, found] at bits
      exact bits
  rw [slot, there]

end Witness

/-! ### The item of a request -/

/-- The bytes and the parsed map of the first item that states an identifier. -/
def requestedItem (mdoc id : Bytes) : Option (Bytes × CborElement) := do
  let namespaces ← namespacesOf mdoc
  let item ← (namespaceItems namespaces).find? (states id)
  embedded item.2

/-- **The item that the witness of a request is read from**: its bytes stand in the document behind
a tag and a head, and the locator is the one of its four entries. -/
structure ItemFor (mdoc id payload : Bytes) (item : CborElement)
    (pairs : List (CborElement × CborElement)) (pa : ParsedAttr) : Prop where
  isItem : requestedItem mdoc id = some (payload, item)
  parsed : parseExact payload = .ok item
  small : payload.length < 2 ^ 64
  wrapped : ∃ t u : Token, t.major = 6 ∧ t.value = 24 ∧ u.major = 2 ∧ u.content = payload ∧
    pa.cborIssuerSignedItem = t.bytes ++ u.bytes
  witness : ∃ valueDigests ns slots, WitnessOf item valueDigests ns pairs slots pa
  identifier : ∃ pair, entryOf item "elementIdentifier" = some pair ∧ pair.2.value = .text id
  value : ∃ pair, entryOf item "elementValue" = some pair ∧
    getRange payload pair.2 = some pa.cborValue

theorem getRange_length {data bytes : Bytes} (found : getRange data e = some bytes) :
    bytes.length = e.stop - e.start ∧ bytes.length ≤ data.length := by
  unfold getRange at found
  split_ifs at found with inside
  rw [← Option.some.inj found, List.length_take, List.length_drop]
  omega

theorem itemFor_of_accepted {sha256 : Bytes → Vector UInt8 32} {transcript docType id : Bytes}
    {parsed : ParsedMdoc} (small : mdoc.length < 2 ^ 64)
    (accepted : parseMdoc sha256 mdoc transcript docType = .ok parsed) {pa : ParsedAttr}
    (found : parsed.getAttribute id = some pa) :
    ∃ payload item pairs, ItemFor mdoc id payload item pairs pa := by
  obtain ⟨namespaces, valueDigests, isDocument, items⟩ := parseMdoc_items accepted
  have related := find?_related (p := states id) (q := fun a => a.name == id) items
    fun {item attr} isItem => by rw [states, isItem.identifier]; rfl
  have name : pa.name = id := by simpa using List.find?_some found
  unfold ParsedMdoc.getAttribute at found
  rw [found] at related
  cases first : (namespaceItems namespaces).find? (states id) with
  | none =>
    rw [first] at related
    cases related
  | some item =>
    rw [first] at related
    obtain ⟨ns, el⟩ := item
    cases related with
    | some isItem =>
      obtain ⟨root, parsedRoot, within⟩ :=
        items_within isDocument (List.mem_of_find?_eq_some first)
      have reads := reads_of_within within (reads_of_parseExact small parsedRoot)
      obtain ⟨payload, inner, pairs, slots, embeds, witness⟩ := isItem.witness
      obtain ⟨t, u, tag, number, isString, content, whole, parsedInner⟩ :=
        wrapped_eq reads embeds isItem.wrapped
      have short : payload.length < 2 ^ 64 := by
        have length := congrArg List.length whole
        have range := getRange_length isItem.wrapped
        rw [List.length_append, u.length_bytes, Token.size, content] at length
        omega
      refine ⟨payload, inner, pairs, ?_, parsedInner, short,
        ⟨t, u, tag, number, isString, content, whole⟩, ⟨_, _, slots, witness⟩, ?_, ?_⟩
      · rw [requestedItem, isDocument]
        show ((namespaceItems namespaces).find? (states id) >>= _) = _
        rw [first]
        exact embeds
      · have isId := isItem.identifier
        rw [identifierOf, embeds, name] at isId
        obtain ⟨_, ⟨⟩, isId⟩ := Option.bind_eq_some_iff.mp isId
        obtain ⟨value, isField, isId⟩ := Option.bind_eq_some_iff.mp isId
        rw [fieldOf_eq, Option.map_eq_some_iff] at isField
        obtain ⟨pair, isEntry, rfl⟩ := isField
        refine ⟨pair, isEntry, ?_⟩
        split at isId
        · rename_i text isText
          rw [isText, Option.some.inj isId]
        · cases isId
      · have isValue := isItem.value
        rw [valueOf, embeds] at isValue
        obtain ⟨_, ⟨⟩, isValue⟩ := Option.bind_eq_some_iff.mp isValue
        obtain ⟨value, isField, isValue⟩ := Option.bind_eq_some_iff.mp isValue
        rw [fieldOf_eq, Option.map_eq_some_iff] at isField
        obtain ⟨pair, isEntry, rfl⟩ := isField
        exact ⟨pair, isEntry, isValue⟩

/-- **The entries of the item of a request** fill it behind the head of the map. -/
theorem ItemFor.layout {id payload : Bytes} {pa : ParsedAttr}
    (itemFor : ItemFor mdoc id payload item pairs pa) :
    item.start = 0 ∧ item.stop = payload.length ∧
    ∃ t : Token, t.major = 5 ∧ t.bytes <+: payload ∧
      payload.length = t.size + (pairs.map entryLength).sum ∧
      ∀ i pair, pairs[i]? = some pair →
        pair.1.start = t.size + ((pairs.map entryLength).take i).sum ∧
        pair.1.start < pair.1.stop ∧ pair.1.stop = pair.2.start ∧ pair.2.start < pair.2.stop ∧
        Reads payload (maxDepth + 1) pair.1.start 1 [pair.1] pair.1.stop ∧
        Reads payload (maxDepth + 1) pair.2.start 1 [pair.2] pair.2.stop := by
  obtain ⟨valueDigests, ns, slots, witness⟩ := itemFor.witness
  have ends := (parseExact_safe payload).of_ok itemFor.parsed
  have reads := reads_of_parseExact itemFor.small itemFor.parsed
  have whole := reads
  obtain ⟨t, -, there, es, inner, same⟩ := reads_tree.mp reads
  have value : tokenValue t es = .map pairs := by rw [← witness.isMap, same]
  have kind := tokenValue_kind t es
  rw [value] at kind
  obtain ⟨major, paired⟩ := kind
  have members : es = pairs.flatMap fun pair => [pair.1, pair.2] := by
    have children := children_tokenValue inner.length
    rw [value] at children
    exact children.symm
  have consecutive := inner.consecutive
  rw [members, ends.1, ends.2, Nat.zero_add] at consecutive
  obtain ⟨total, each⟩ := entries_layout consecutive
  rw [ends.1] at there
  refine ⟨ends.1, ends.2, t, major, there, total, fun i pair found => ?_⟩
  obtain ⟨start, key, follows, val⟩ := each i pair found
  have inside : ∀ c ∈ [pair.1, pair.2], Within c item := fun c isPart => by
    refine .child ?_
    rw [witness.isMap]
    exact List.mem_flatMap.mpr ⟨pair, List.mem_of_getElem? found, isPart⟩
  exact ⟨start, key, follows, val, reads_of_within (inside _ (.head _)) whole,
    reads_of_within (inside _ (.tail _ (.head _))) whole⟩

end Longfellow.Mdoc
