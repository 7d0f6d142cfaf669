/-
**The CBOR parser is exact** (`mdoc_zk/circuits/src/cbor/parse.rs`,
`mdoc_zk/circuits/src/cbor/cbor_encode.rs`).

An item of definite length is a tree of tokens. The parser reads a token, then as many items as it
says, with one level less; its spans are the places of the trees.

* `parseVal_eq_ok`, by induction on the levels, and `repeated_eq_ok`, on the number of items — **the
  parser reads trees**.
-/

import Longfellow.Mdoc.Parse
import Longfellow.Mdoc.Utf8
import Mathlib.Tactic.IntervalCases

namespace Longfellow.Mdoc

open Lib Cbor

/-! ### Reading bytes -/

namespace CborParser

variable {data : Bytes} {start stop : ℕ} {len : ℕ} {bytes : Bytes} {info : ℕ} {val : ℕ}

theorem readByte_eq_ok {b : UInt8} :
    readByte data start = .ok (b, stop) ↔ [b] <+: data.drop start ∧ stop = start + 1 := by
  have found : data[start]? = some b ↔ [b] <+: data.drop start := by
    rw [← List.head?_drop]
    cases data.drop start with
    | nil => simp
    | cons a rest => simp [eq_comm]
  unfold readByte
  by_cases inside : start < data.length
  · rw [check_of inside, ok_bind, bind_eq_ok]
    simp only [getAt_eq_ok, pure_eq_ok, Except.ok.injEq, Prod.mk.injEq, ← found]
    exact ⟨fun ⟨_, isByte, same, ends⟩ => ⟨same ▸ isByte, ends.symm⟩,
      fun ⟨isByte, ends⟩ => ⟨b, isByte, rfl, ends.symm⟩⟩
  · have none : data.drop start = [] := List.drop_eq_nil_of_le (not_lt.mp inside)
    simp [check, inside, none, raise]

theorem add_length_le (inside : start ≤ data.length)
    (there : bytes <+: data.drop start) : start + bytes.length ≤ data.length := by
  have short := there.length_le
  rw [List.length_drop] at short
  omega

theorem append_prefix_drop {xs ys : Bytes} :
    xs ++ ys <+: data.drop start ↔
      xs <+: data.drop start ∧ ys <+: data.drop (start + xs.length) := by
  rw [← List.drop_drop]
  constructor
  · rintro ⟨zs, same⟩
    rw [← same, List.append_assoc, List.drop_left]
    exact ⟨List.prefix_append _ _, List.prefix_append _ _⟩
  · rintro ⟨⟨zs, same⟩, there⟩
    rw [← same, List.drop_left] at there
    rw [← same]
    exact (List.prefix_append_right_inj xs).mpr there

section

variable (small : data.length < 2 ^ 64) (inside : start ≤ data.length)
include small inside

theorem readBytes_eq_ok :
    readBytes data len start = .ok (bytes, stop) ↔
      bytes.length = len ∧ bytes <+: data.drop start ∧ stop = start + len := by
  unfold readBytes
  by_cases fits : start + len ≤ data.length
  · rw [check_of (by omega), ok_bind, check_of fits, ok_bind, pure_eq_ok, Except.ok.injEq,
      Prod.mk.injEq]
    have length : ((data.drop start).take len).length = len := by
      rw [List.length_take, List.length_drop]
      omega
    constructor
    · rintro ⟨rfl, rfl⟩
      exact ⟨length, List.take_prefix _ _, rfl⟩
    · rintro ⟨rfl, there, rfl⟩
      exact ⟨(List.prefix_iff_eq_take.mp there).symm, rfl⟩
  · have never : ¬ (bytes.length = len ∧ bytes <+: data.drop start ∧ stop = start + len) := by
      rintro ⟨rfl, there, -⟩
      exact fits (add_length_le inside there)
    simp only [iff_false_intro never, iff_false]
    by_cases overflow : start + len < 2 ^ 64
    · rw [check_of overflow, ok_bind, check, if_neg fits]
      rintro ⟨⟩
    · rw [check, if_neg overflow]
      rintro ⟨⟩

theorem readNumber_eq_ok :
    readNumber data len start = .ok (val, stop) ↔
      val < 256 ^ len ∧ beBytes len val <+: data.drop start ∧ stop = start + len := by
  unfold readNumber
  rw [bind_eq_ok]
  constructor
  · rintro ⟨⟨bytes, middle⟩, read, returned⟩
    obtain ⟨rfl, there, rfl⟩ := (readBytes_eq_ok small inside).mp read
    obtain ⟨rfl, rfl⟩ := Prod.mk.inj (Except.ok.inj returned)
    exact ⟨beValue_lt bytes, (beBytes_beValue bytes).symm ▸ there, rfl⟩
  · rintro ⟨fits, there, rfl⟩
    refine ⟨⟨beBytes len val, start + len⟩,
      (readBytes_eq_ok small inside).mpr ⟨length_beBytes len val, there, rfl⟩, ?_⟩
    show Except.ok (beValue (beBytes len val), start + len) = _
    rw [beValue_beBytes fits]

theorem readVal_eq_ok :
    readVal data info start = .ok (val, stop) ↔
      IsArgument info val ∧ beBytes (argumentWidth info) val <+: data.drop start ∧
        stop = start + argumentWidth info := by
  unfold readVal IsArgument
  split_ifs with low one two four eight
  · rw [argumentWidth_of_small low]
    simp [beBytes, leBytes, eq_comm]
  · subst one
    rw [bind_eq_ok]
    constructor
    · rintro ⟨⟨b, middle⟩, read, returned⟩
      obtain ⟨there, rfl⟩ := readByte_eq_ok.mp read
      obtain ⟨rfl, rfl⟩ := Prod.mk.inj (Except.ok.inj returned)
      refine ⟨⟨by decide, b.toNat_lt⟩, ?_, rfl⟩
      show [UInt8.ofNat b.toNat] <+: _
      rwa [UInt8.ofNat_toNat]
    · rintro ⟨⟨-, fits⟩, there, rfl⟩
      refine ⟨⟨UInt8.ofNat val, start + 1⟩, readByte_eq_ok.mpr ⟨there, rfl⟩, ?_⟩
      show Except.ok ((UInt8.ofNat val).toNat, start + 1) = _
      rw [UInt8.toNat_ofNat', Nat.mod_eq_of_lt (show val < 2 ^ 8 from fits)]
      rfl
  · subst two
    rw [readNumber_eq_ok small inside]
    simp [argumentWidth]
  · subst four
    rw [readNumber_eq_ok small inside]
    simp [argumentWidth]
  · subst eight
    rw [readNumber_eq_ok small inside]
    simp [argumentWidth]
  · have large : ¬ info ≤ 27 := by omega
    simp [large]

end

/-! ### Values of trees -/

end CborParser

/-- Neighbours in pairs. -/
def pairUp {α : Type} : List α → List (α × α)
  | a :: b :: rest => (a, b) :: pairUp rest
  | _ => []

/-- A number or a float of the last major type. -/
def simpleOf (info value : ℕ) : CborValue :=
  match info with
  | 25 => .float16 value
  | 26 => .float32 value
  | 27 => .float64 value
  | _ => .simple value

/-- The value of a token and of the items inside it. -/
def tokenValue (t : Token) (inside : List CborElement) : CborValue :=
  match t.major, inside with
  | 0, _ => .integer t.value
  | 1, _ => .integer (-1 - t.value)
  | 2, _ => .bytes t.content
  | 3, _ => .text t.content
  | 4, items => .array items
  | 5, items => .map (pairUp items)
  | 6, inner :: _ => .tag t.value inner
  | _, _ => simpleOf t.info t.value

/-- The items of some trees whose bytes start at a position. -/
def elements : ℕ → Trees → List CborElement
  | _, .nil => []
  | start, .node t children rest =>
    let stop := start + t.size + children.width Token.size
    ⟨tokenValue t (elements (start + t.size) children), start, stop⟩ :: elements stop rest

/-- Trees at a position of some bytes, of some number of levels. -/
structure Stands (data : Bytes) (levels start : ℕ) (f : Trees) : Prop where
  complete : f.Complete
  valid : ∀ t ∈ f.symbols, t.Valid
  height : f.height ≤ levels
  there : f.bytes <+: data.drop start

theorem elements_length (start : ℕ) (f : Trees) : (elements start f).length = f.length := by
  induction f generalizing start with
  | nil => rfl
  | node t children rest _ ih => rw [elements, List.length_cons, ih, Forest.length]

namespace CborParser

/-! ### Reading tokens -/

variable {data : Bytes} {start stop : ℕ} {major : ℕ}

theorem initial_parts {b : UInt8} :
    (b >>> 5).toNat = major ∧ (b &&& 0x1f).toNat = info ↔
      b = UInt8.ofNat (32 * major + info) ∧ major < 8 ∧ info < 32 := by
  have high : (b >>> 5).toNat = b.toNat / 32 := by
    rw [UInt8.toNat_shiftRight, Nat.shiftRight_eq_div_pow]
    rfl
  have low : (b &&& 0x1f).toNat = b.toNat % 32 := by
    rw [UInt8.toNat_and]
    exact Nat.and_two_pow_sub_one_eq_mod b.toNat 5
  have bounded := b.toNat_lt
  rw [high, low, ← UInt8.toNat_inj, UInt8.toNat_ofNat']
  omega

theorem simpleOf_of_small (small : info ≤ 24) (value : ℕ) :
    simpleOf info value = .simple value := by
  unfold simpleOf
  split <;> first | omega | rfl

variable {value : CborValue} {t : Token}

theorem simpleValue_eq_ok (argument : IsArgument info val) :
    simpleValue info val = .ok value ↔ simpleOf info val = value := by
  have wide := argument.info_le
  unfold IsArgument at argument
  unfold simpleValue
  split_ifs at argument ⊢ with low one two four eight
  · rw [argument, simpleOf_of_small (by omega), pure_eq_ok, Except.ok.injEq]
  · subst one
    rw [check_of (show val < 2 ^ 8 from argument.2), ok_bind, pure_eq_ok, Except.ok.injEq]
    rfl
  · subst two
    rw [check_of (show val < 2 ^ 16 from argument.2), ok_bind, pure_eq_ok, Except.ok.injEq]
    rfl
  · subst four
    rw [check_of (show val < 2 ^ 32 from argument.2), ok_bind, pure_eq_ok, Except.ok.injEq]
    rfl
  · subst eight
    rw [pure_eq_ok, Except.ok.injEq]
    rfl
  · omega

theorem text_eq_ok :
    text bytes = .ok value ↔ IsText bytes ∧ value = .text bytes := by
  unfold text
  rw [← utf8Error_eq_none 0]
  cases utf8Error 0 bytes with
  | none => simp [eq_comm]
  | some e => simp

theorem repeated_pairs {α : Type} (item : ℕ → Exec String (α × ℕ)) (count start : ℕ) :
    repeated (fun offset => do
      let (k, offset) ← item offset
      let (v, offset) ← item offset
      return ((k, v), offset)) count start =
    (repeated item (2 * count) start >>= fun r => pure (pairUp r.1, r.2)) := by
  induction count generalizing start with
  | zero => rfl
  | succ count ih =>
    rw [Nat.mul_succ]
    simp only [repeated, ih, bind_assoc, pure_bind]
    rfl

theorem exists_token (few : major < 8) (argument : IsArgument info val) {P : Token → Prop} :
    (∃ t : Token, (t.major = major ∧ t.info = info ∧ t.value = val) ∧ P t) ↔
      ∃ (content : Bytes) (sized : content.length = if major = 2 ∨ major = 3 then val else 0),
        P ⟨major, info, val, content, few, argument, sized⟩ := by
  constructor
  · rintro ⟨⟨_, _, _, content, _, _, sized⟩, ⟨rfl, rfl, rfl⟩, holds⟩
    exact ⟨content, sized, holds⟩
  · rintro ⟨content, sized, holds⟩
    exact ⟨_, ⟨rfl, rfl, rfl⟩, holds⟩

/-- **The reader of what follows a head reads the rest of a token and the items inside.** -/
theorem payload_eq_ok (small : data.length < 2 ^ 64) {item : ℕ → Exec String (CborElement × ℕ)}
    (inside : start ≤ data.length) (few : major < 8) (argument : IsArgument info val) :
    payload data item major info val start = .ok (value, stop) ↔
      ∃ t : Token, (t.major = major ∧ t.info = info ∧ t.value = val) ∧ t.Valid ∧
        t.content <+: data.drop start ∧
        ∃ es, repeated item t.arity (start + t.content.length) = .ok (es, stop) ∧
          value = tokenValue t es := by
  rw [exists_token few argument]
  unfold payload Token.arity tokenValue Token.Valid
  simp only [@eq_comm _ value]
  interval_cases major
  · simp [repeated, and_comm]
  · simp [repeated, and_comm]
  · simp only [bind_eq_ok, Prod.exists, readBytes_eq_ok small inside]
    simp [repeated]
    grind
  · simp only [bind_eq_ok, Prod.exists, readBytes_eq_ok small inside, text_eq_ok]
    simp [repeated]
    grind
  · simp [bind_eq_ok]
  · rw [repeated_pairs]
    simp [bind_eq_ok]
  · simp [bind_eq_ok, repeated]
  · simp [repeated, bind_eq_ok, simpleValue_eq_ok argument, and_comm]

theorem token_there :
    t.bytes <+: data.drop start ↔
      [UInt8.ofNat (32 * t.major + t.info)] <+: data.drop start ∧
        beBytes (argumentWidth t.info) t.value <+: data.drop (start + 1) ∧
        t.content <+: data.drop (start + 1 + argumentWidth t.info) := by
  have parts : t.bytes = [UInt8.ofNat (32 * t.major + t.info)] ++
      (beBytes (argumentWidth t.info) t.value ++ t.content) := rfl
  rw [parts, append_prefix_drop, append_prefix_drop, length_beBytes]
  rfl

variable {levels : ℕ} {es : List CborElement}

/-- **One item is a token and the items inside it.** -/
theorem parseVal_succ_eq_ok (small : data.length < 2 ^ 64) {element : CborElement}
    (inside : start ≤ data.length) :
    parseVal data (levels + 1) start = .ok (element, stop) ↔
      ∃ t : Token, t.Valid ∧ t.bytes <+: data.drop start ∧
        ∃ es, repeated (parseVal data levels) t.arity (start + t.size) = .ok (es, stop) ∧
          element = ⟨tokenValue t es, start, stop⟩ := by
  have place (t : Token) :
      start + 1 + argumentWidth t.info + t.content.length = start + t.size := by
    unfold Token.size
    omega
  constructor
  · intro ran
    obtain ⟨⟨b, o⟩, readFirst, ran⟩ := bind_eq_ok.mp ran
    obtain ⟨there, rfl⟩ := readByte_eq_ok.mp readFirst
    have inside' : start + 1 ≤ data.length := add_length_le inside there
    obtain ⟨⟨val, o⟩, readArgument, ran⟩ := bind_eq_ok.mp ran
    obtain ⟨argument, there', rfl⟩ := (readVal_eq_ok small inside').mp readArgument
    have inside'' := add_length_le inside' there'
    rw [length_beBytes] at inside''
    obtain ⟨initial, few, -⟩ := initial_parts.mp ⟨rfl, rfl⟩
    obtain ⟨⟨value, o⟩, readRest, returned⟩ := bind_eq_ok.mp ran
    obtain ⟨t, ⟨major, info, rfl⟩, valid, content, es, items, rfl⟩ :=
      (payload_eq_ok small inside'' few argument).mp readRest
    obtain ⟨rfl, rfl⟩ := Prod.mk.inj (Except.ok.inj returned)
    rw [← major, ← info] at initial
    rw [← info] at there' content items
    rw [place] at items
    exact ⟨t, valid, token_there.mpr ⟨initial ▸ there, there', content⟩, es, items, rfl⟩
  · rintro ⟨t, valid, there, es, items, rfl⟩
    obtain ⟨first, argument, content⟩ := token_there.mp there
    have inside' := add_length_le inside first
    have inside'' := add_length_le inside' argument
    rw [length_beBytes] at inside''
    have wide := t.argument.info_le
    obtain ⟨major, info⟩ := initial_parts.mpr ⟨rfl, t.majorSmall, show t.info < 32 by omega⟩
    rw [← place] at items
    refine bind_eq_ok.mpr ⟨_, readByte_eq_ok.mpr ⟨first, rfl⟩, ?_⟩
    refine bind_eq_ok.mpr ⟨(t.value, start + 1 + argumentWidth t.info), ?_, ?_⟩
    · rw [info]
      exact (readVal_eq_ok small inside').mpr ⟨t.argument, argument, rfl⟩
    refine bind_eq_ok.mpr ⟨(tokenValue t es, stop), ?_, rfl⟩
    rw [major, info]
    exact (payload_eq_ok small inside'' t.majorSmall t.argument).mpr
      ⟨t, ⟨rfl, rfl, rfl⟩, valid, content, es, items, rfl⟩

/-! ### Reading trees -/

theorem stands_nil : Stands data levels start .nil :=
  ⟨trivial, nofun, Nat.zero_le _, List.nil_prefix⟩

theorem stands_node {children rest : Trees} :
    Stands data levels start (.node t children rest) ↔
      Stands data levels start (.node t children .nil) ∧
        Stands data levels (start + t.size + children.width Token.size) rest := by
  have bytes : (Trees.bytes (.node t children rest)) =
      Trees.bytes (.node t children .nil) ++ rest.bytes := by
    rw [Trees.bytes_node, Trees.bytes_node, Trees.bytes_nil, List.append_nil, List.append_assoc]
  have width : (Trees.bytes (.node t children .nil)).length =
      t.size + children.width Token.size := by
    rw [Trees.length_bytes, Forest.width, Forest.width_nil, Nat.add_zero]
  constructor
  · rintro ⟨⟨count, inner, later⟩, valid, height, there⟩
    rw [bytes, append_prefix_drop, width, ← Nat.add_assoc] at there
    rw [Forest.height, max_le_iff] at height
    simp only [Forest.symbols, List.mem_cons, List.mem_append] at valid
    refine ⟨⟨⟨count, inner, trivial⟩, fun u member => valid u ?_, ?_, there.1⟩,
      ⟨later, fun u member => valid u (.inr (.inr member)), height.2, there.2⟩⟩
    · simp only [Forest.symbols, List.append_nil, List.mem_cons] at member
      exact member.imp_right .inl
    · rw [Forest.height]
      exact max_le height.1 (Nat.zero_le _)
  · rintro ⟨⟨⟨count, inner, -⟩, valid, height, there⟩, later, valid', height', there'⟩
    rw [Forest.height, max_le_iff] at height
    simp only [Forest.symbols, List.append_nil, List.mem_cons] at valid
    refine ⟨⟨count, inner, later⟩, fun u member => ?_, ?_, ?_⟩
    · simp only [Forest.symbols, List.mem_cons, List.mem_append] at member
      rcases member with same | member | member
      · exact valid u (.inl same)
      · exact valid u (.inr member)
      · exact valid' u member
    · rw [Forest.height]
      exact max_le height.1 height'
    · rw [bytes, append_prefix_drop, width, ← Nat.add_assoc]
      exact ⟨there, there'⟩

theorem stands_tree {children : Trees} :
    Stands data (levels + 1) start (.node t children .nil) ↔
      t.Valid ∧ children.length = t.arity ∧ t.bytes <+: data.drop start ∧
        Stands data levels (start + t.size) children := by
  have bytes : Trees.bytes (.node t children .nil) = t.bytes ++ children.bytes := by
    rw [Trees.bytes_node, Trees.bytes_nil, List.append_nil]
  constructor
  · rintro ⟨⟨count, inner, -⟩, valid, height, there⟩
    rw [bytes, append_prefix_drop, t.length_bytes] at there
    rw [Forest.height, max_le_iff] at height
    simp only [Forest.symbols, List.append_nil, List.mem_cons] at valid
    exact ⟨valid t (.inl rfl), count, there.1, inner, fun u member => valid u (.inr member),
      Nat.le_of_succ_le_succ height.1, there.2⟩
  · rintro ⟨valid, count, there, inner, valid', height, there'⟩
    refine ⟨⟨count, inner, trivial⟩, fun u member => ?_, ?_, ?_⟩
    · simp only [Forest.symbols, List.append_nil, List.mem_cons] at member
      rcases member with rfl | member
      · exact valid
      · exact valid' u member
    · rw [Forest.height]
      exact max_le (Nat.succ_le_succ height) (Nat.zero_le _)
    · rw [bytes, append_prefix_drop, t.length_bytes]
      exact ⟨there, there'⟩

/-- A number of items is read from a position on. -/
def Reads (data : Bytes) (levels start count : ℕ) (es : List CborElement) (stop : ℕ) : Prop :=
  ∃ f : Trees, f.length = count ∧ Stands data levels start f ∧ elements start f = es ∧
    stop = start + f.width Token.size

variable {count : ℕ} {e : CborElement}

theorem Reads.stop_le (inside : start ≤ data.length) (reads : Reads data levels start count es stop) :
    stop ≤ data.length := by
  obtain ⟨f, -, stands, -, rfl⟩ := reads
  rw [← Trees.length_bytes]
  exact add_length_le inside stands.there

theorem reads_zero :
    Reads data levels start 0 es stop ↔ es = [] ∧ stop = start := by
  constructor
  · rintro ⟨f, none, -, rfl, rfl⟩
    obtain rfl := Forest.length_eq_zero.mp none
    exact ⟨rfl, rfl⟩
  · rintro ⟨rfl, rfl⟩
    exact ⟨.nil, rfl, stands_nil, rfl, rfl⟩

theorem reads_succ :
    Reads data levels start (count + 1) es stop ↔
      ∃ e middle rest, Reads data levels start 1 [e] middle ∧
        Reads data levels middle count rest stop ∧ es = e :: rest := by
  constructor
  · rintro ⟨f, length, stands, rfl, rfl⟩
    cases f with
    | nil => cases length
    | node t children rest =>
      obtain ⟨first, later⟩ := stands_node.mp stands
      refine ⟨_, _, _, ⟨_, rfl, first, rfl, rfl⟩, ⟨rest, Nat.succ.inj length, ?_, rfl, ?_⟩, ?_⟩
      · rwa [Forest.width, Forest.width_nil, Nat.add_zero, ← Nat.add_assoc]
      · simp only [Forest.width]
        omega
      · simp only [Forest.width, Nat.add_zero, ← Nat.add_assoc]
        rfl
  · rintro ⟨e, middle, rest, ⟨f, one, first, single, rfl⟩, ⟨g, length, later, rfl, rfl⟩, rfl⟩
    cases f with
    | nil => cases one
    | node t children none =>
      obtain rfl : none = .nil := Forest.length_eq_zero.mp (Nat.succ.inj one)
      obtain ⟨rfl, -⟩ := List.cons.inj single
      simp only [Forest.width, Nat.add_zero, ← Nat.add_assoc] at later ⊢
      refine ⟨.node t children g, congrArg Nat.succ length, stands_node.mpr ⟨first, later⟩, ?_, ?_⟩
      · rfl
      · simp only [Forest.width, ← Nat.add_assoc]

theorem reads_tree :
    Reads data (levels + 1) start 1 [e] stop ↔
      ∃ t : Token, t.Valid ∧ t.bytes <+: data.drop start ∧
        ∃ es, Reads data levels (start + t.size) t.arity es stop ∧
          e = ⟨tokenValue t es, start, stop⟩ := by
  constructor
  · rintro ⟨f, one, stands, single, rfl⟩
    cases f with
    | nil => cases one
    | node t children none =>
      obtain rfl : none = .nil := Forest.length_eq_zero.mp (Nat.succ.inj one)
      obtain ⟨valid, count, there, inner⟩ := stands_tree.mp stands
      obtain ⟨rfl, -⟩ := List.cons.inj single
      simp only [Forest.width, Nat.add_zero, ← Nat.add_assoc]
      exact ⟨t, valid, there, _, ⟨children, count, inner, rfl, rfl⟩, rfl⟩
  · rintro ⟨t, valid, there, es, ⟨f, count, inner, rfl, rfl⟩, rfl⟩
    refine ⟨.node t f .nil, rfl, stands_tree.mpr ⟨valid, count, there, inner⟩, rfl, ?_⟩
    simp only [Forest.width, Nat.add_zero, ← Nat.add_assoc]

theorem repeated_eq_ok (each : ∀ {start stop : ℕ} {e : CborElement}, start ≤ data.length →
      (parseVal data levels start = .ok (e, stop) ↔ Reads data levels start 1 [e] stop))
    (inside : start ≤ data.length) :
    repeated (parseVal data levels) count start = .ok (es, stop) ↔
      Reads data levels start count es stop := by
  induction count generalizing start es with
  | zero =>
    rw [reads_zero]
    simp [repeated, eq_comm]
  | succ count ih =>
    rw [repeated, reads_succ, bind_eq_ok]
    constructor
    · rintro ⟨⟨e, middle⟩, first, ran⟩
      have reads := (each inside).mp first
      obtain ⟨⟨rest, last⟩, later, returned⟩ := bind_eq_ok.mp ran
      obtain ⟨rfl, rfl⟩ := Prod.mk.inj (Except.ok.inj returned)
      exact ⟨e, middle, rest, reads, (ih (reads.stop_le inside)).mp later, rfl⟩
    · rintro ⟨e, middle, rest, reads, later, rfl⟩
      refine ⟨(e, middle), (each inside).mpr reads, ?_⟩
      exact bind_eq_ok.mpr ⟨(rest, stop), (ih (reads.stop_le inside)).mpr later, rfl⟩

/-- **The parser reads one tree**, of as many levels as it may nest. -/
theorem parseVal_eq_ok (small : data.length < 2 ^ 64) (inside : start ≤ data.length) :
    parseVal data levels start = .ok (e, stop) ↔ Reads data levels start 1 [e] stop := by
  induction levels generalizing start stop e with
  | zero =>
    constructor
    · exact nofun
    · rintro ⟨f, one, stands, -, -⟩
      cases f with
      | nil => cases one
      | node t children rest =>
        have height := stands.height
        rw [Forest.height] at height
        omega
  | succ levels ih =>
    rw [parseVal_succ_eq_ok small inside, reads_tree]
    refine exists_congr fun t => and_congr_right fun _ => and_congr_right fun there => ?_
    have inside' := add_length_le inside there
    rw [t.length_bytes] at inside'
    simp only [repeated_eq_ok ih inside']

/-- **The parser takes exactly the items of definite length**, and returns their values. -/
theorem parseExact_eq_ok (small : data.length < 2 ^ 64) :
    parseExact data = .ok e ↔ ∃ f : Trees, f.Encodes (maxDepth + 1) data ∧ elements 0 f = [e] := by
  unfold parseExact
  constructor
  · intro ran
    obtain ⟨⟨element, stop⟩, parsed, ran⟩ := bind_eq_ok.mp ran
    obtain ⟨_, all, returned⟩ := bind_eq_ok.mp ran
    obtain rfl := Except.ok.inj returned
    obtain ⟨f, one, stands, single, ends⟩ := (parseVal_eq_ok small (Nat.zero_le _)).mp parsed
    have whole : f.bytes.length = data.length := by
      rw [Trees.length_bytes, ← check_eq_ok.mp all, ends, Nat.zero_add]
    exact ⟨f, ⟨one, stands.complete, stands.valid, stands.height,
      stands.there.eq_of_length whole⟩, single⟩
  · rintro ⟨f, ⟨one, complete, valid, height, rfl⟩, single⟩
    have parsed := (parseVal_eq_ok small (Nat.zero_le _)).mpr
      ⟨f, one, ⟨complete, valid, height, List.prefix_rfl⟩, single, rfl⟩
    refine bind_eq_ok.mpr ⟨_, parsed, bind_eq_ok.mpr ⟨(), check_of ?_, rfl⟩⟩
    rw [Trees.length_bytes, Nat.zero_add]

end CborParser

/-! ### Spans -/

/-- The items inside an item. -/
def CborValue.children : CborValue → List CborElement
  | .array items => items
  | .map pairs => pairs.flatMap fun pair => [pair.1, pair.2]
  | .tag _ inner => [inner]
  | _ => []

/-- An item inside another one, at any depth. -/
inductive Within : CborElement → CborElement → Prop
  | self (e : CborElement) : Within e e
  | inside {x c e : CborElement} (deeper : Within x c) (member : c ∈ e.value.children) : Within x e

/-- Spans behind one another, from a position to another one. -/
def Consecutive : ℕ → List CborElement → ℕ → Prop
  | start, [], stop => start = stop
  | start, e :: es, stop => e.start = start ∧ e.start < e.stop ∧ Consecutive e.stop es stop

mutual

/-- The same value at a later position. -/
def CborValue.shift (d : ℕ) : CborValue → CborValue
  | .array items => .array (shiftItems d items)
  | .map pairs => .map (shiftPairs d pairs)
  | .tag n inner => .tag n (shiftElement d inner)
  | value => value

def shiftElement (d : ℕ) : Spanned CborValue → Spanned CborValue
  | ⟨value, start, stop⟩ => ⟨value.shift d, d + start, d + stop⟩

def shiftItems (d : ℕ) : List (Spanned CborValue) → List (Spanned CborValue)
  | [] => []
  | e :: es => shiftElement d e :: shiftItems d es

def shiftPairs (d : ℕ) :
    List (Spanned CborValue × Spanned CborValue) → List (Spanned CborValue × Spanned CborValue)
  | [] => []
  | (k, v) :: rest => (shiftElement d k, shiftElement d v) :: shiftPairs d rest

end

theorem shiftPairs_pairUp (d : ℕ) (es : List CborElement) :
    shiftPairs d (pairUp es) = pairUp (shiftItems d es) := by
  fun_induction pairUp es with
  | case1 a b rest ih => simp only [shiftPairs, shiftItems, pairUp, ih]
  | case2 es few =>
    rcases es with _ | ⟨a, _ | ⟨b, rest⟩⟩
    · rfl
    · rfl
    · exact absurd rfl (few a b rest)

theorem simpleOf_shift (d info value : ℕ) : (simpleOf info value).shift d = simpleOf info value := by
  unfold simpleOf
  split <;> rfl

theorem shift_tokenValue (d : ℕ) (t : Token) (es : List CborElement) :
    (tokenValue t es).shift d = tokenValue t (shiftItems d es) := by
  obtain ⟨major, info, value, content, few, argument, sized⟩ := t
  unfold tokenValue
  interval_cases major
  · rfl
  · rfl
  · rfl
  · rfl
  · rfl
  · exact congrArg CborValue.map (shiftPairs_pairUp d es)
  · cases es with
    | nil => exact simpleOf_shift d info value
    | cons e es => rfl
  · exact simpleOf_shift d info value

theorem elements_shift (d start : ℕ) (f : Trees) :
    elements (d + start) f = shiftItems d (elements start f) := by
  induction f generalizing start with
  | nil => simp only [elements, shiftItems]
  | node t children rest ih ih' =>
    simp only [elements, shiftItems, shiftElement, shift_tokenValue, ← ih, ← ih', Nat.add_assoc]

theorem flatMap_pairUp {α : Type} {n : ℕ} {es : List α} (even : es.length = 2 * n) :
    ((pairUp es).flatMap fun pair => [pair.1, pair.2]) = es := by
  induction n generalizing es with
  | zero =>
    obtain rfl := List.length_eq_zero_iff.mp even
    rfl
  | succ n ih =>
    rcases es with _ | ⟨a, _ | ⟨b, rest⟩⟩
    · rfl
    · simp only [List.length_cons, List.length_nil] at even
      omega
    · simp only [List.length_cons] at even
      rw [pairUp, List.flatMap_cons, ih (by omega)]
      rfl

theorem children_simpleOf (info value : ℕ) : (simpleOf info value).children = [] := by
  unfold simpleOf
  split <;> rfl

theorem children_tokenValue (count : es.length = t.arity) :
    (tokenValue t es).children = es := by
  obtain ⟨major, info, value, content, few, argument, sized⟩ := t
  unfold tokenValue
  unfold Token.arity at count
  dsimp only at count ⊢
  interval_cases major
  · exact (List.length_eq_zero_iff.mp count).symm
  · exact (List.length_eq_zero_iff.mp count).symm
  · exact (List.length_eq_zero_iff.mp count).symm
  · exact (List.length_eq_zero_iff.mp count).symm
  · rfl
  · exact flatMap_pairUp count
  · obtain ⟨e, rfl⟩ := List.length_eq_one_iff.mp count
    rfl
  · rw [List.length_eq_zero_iff.mp count]
    exact children_simpleOf info value

namespace CborParser

variable {data : Bytes} {start stop : ℕ}

variable {levels count : ℕ}

theorem Reads.length (reads : Reads data levels start count es stop) : es.length = count := by
  obtain ⟨f, rfl, -, rfl, -⟩ := reads
  exact elements_length start f

theorem Reads.mono {more : ℕ} (few : levels ≤ more) (reads : Reads data levels start count es stop) :
    Reads data more start count es stop := by
  obtain ⟨f, length, stands, same, ends⟩ := reads
  exact ⟨f, length, ⟨stands.complete, stands.valid, stands.height.trans few, stands.there⟩, same,
    ends⟩

section

variable (reads : Reads data levels start 1 [e] stop)
include reads

theorem Reads.levels_pos :
    ∃ inner, levels = inner + 1 := by
  obtain ⟨f, one, stands, -, -⟩ := reads
  cases f with
  | nil => cases one
  | node t children rest =>
    have height := stands.height
    rw [Forest.height] at height
    exact ⟨levels - 1, by omega⟩

theorem Reads.span :
    e.start = start ∧ e.stop = stop ∧ start < stop := by
  obtain ⟨inner, rfl⟩ := reads.levels_pos
  obtain ⟨t, -, -, es, ⟨f, -, -, -, rfl⟩, rfl⟩ := reads_tree.mp reads
  have pos := t.size_pos
  exact ⟨rfl, rfl, by omega⟩

theorem Reads.start_le :
    start ≤ data.length := by
  obtain ⟨-, -, some⟩ := reads.span
  obtain ⟨f, -, stands, -, rfl⟩ := reads
  have short := stands.there.length_le
  rw [Trees.length_bytes, List.length_drop] at short
  omega

end

theorem Reads.consecutive (reads : Reads data levels start count es stop) :
    Consecutive start es stop := by
  induction count generalizing start es with
  | zero =>
    obtain ⟨rfl, rfl⟩ := reads_zero.mp reads
    rfl
  | succ count ih =>
    obtain ⟨e, middle, rest, first, later, rfl⟩ := reads_succ.mp reads
    obtain ⟨starts, ends, some⟩ := first.span
    rw [Consecutive, starts, ends]
    exact ⟨rfl, some, ih later⟩

theorem Reads.member (reads : Reads data levels start count es stop) (member : e ∈ es) :
    Reads data levels e.start 1 [e] e.stop := by
  induction count generalizing start es with
  | zero =>
    obtain ⟨rfl, -⟩ := reads_zero.mp reads
    cases member
  | succ count ih =>
    obtain ⟨e', middle, rest, first, later, rfl⟩ := reads_succ.mp reads
    rcases List.mem_cons.mp member with rfl | member
    · obtain ⟨starts, ends, -⟩ := first.span
      rwa [starts, ends]
    · exact ih later member

theorem Reads.inside (reads : Reads data (levels + 1) e.start 1 [e] e.stop) :
    ∃ t : Token, t.Valid ∧ t.bytes <+: data.drop e.start ∧
      Reads data levels (e.start + t.size) t.arity e.value.children e.stop := by
  obtain ⟨t, valid, there, es, inner, same⟩ := reads_tree.mp reads
  have value : e.value = tokenValue t es := congrArg Spanned.value same
  rw [value, children_tokenValue inner.length]
  exact ⟨t, valid, there, inner⟩

theorem reads_of_parseExact (small : data.length < 2 ^ 64) (parsed : parseExact data = .ok e) :
    Reads data (maxDepth + 1) e.start 1 [e] e.stop := by
  obtain ⟨f, encodes, single⟩ := (parseExact_eq_ok small).mp parsed
  have reads : Reads data (maxDepth + 1) 0 1 [e] (0 + f.width Token.size) :=
    ⟨f, encodes.single, ⟨encodes.complete, encodes.valid, encodes.height, encodes.bytes ▸ List.prefix_rfl⟩,
      single, rfl⟩
  obtain ⟨starts, ends, -⟩ := reads.span
  rwa [starts, ends]

/-- **Every item inside an item that is read is read itself.** -/
theorem reads_of_within {x : CborElement} (within : Within x e)
    (reads : Reads data levels e.start 1 [e] e.stop) : Reads data levels x.start 1 [x] x.stop := by
  induction within with
  | self => exact reads
  | inside deeper member ih =>
    obtain ⟨inner, rfl⟩ := reads.levels_pos
    obtain ⟨t, -, -, children⟩ := reads.inside
    exact ih ((children.member member).mono (Nat.le_succ inner))

/-- **An item is read again from the bytes of its span.** -/
theorem Reads.again (small : data.length < 2 ^ 64) (inside : start ≤ data.length)
    (reads : Reads data (maxDepth + 1) start 1 [e] stop) :
    ∃ e', parseExact ((data.drop start).take (stop - start)) = .ok e' ∧ shiftElement start e' = e := by
  obtain ⟨f, one, stands, single, rfl⟩ := reads
  have bytes : (data.drop start).take (start + f.width Token.size - start) = f.bytes := by
    rw [Nat.add_sub_cancel_left, ← Trees.length_bytes]
    exact (List.prefix_iff_eq_take.mp stands.there).symm
  have shifted := elements_shift start 0 f
  rw [Nat.add_zero, single] at shifted
  cases found : elements 0 f with
  | nil =>
    rw [found] at shifted
    cases shifted
  | cons e' es =>
    rw [found, shiftItems] at shifted
    obtain ⟨same, none⟩ := List.cons.inj shifted
    have alone : es = [] := by
      have length := elements_length 0 f
      rw [found, one] at length
      exact List.length_eq_zero_iff.mp (Nat.succ.inj length)
    subst alone
    rw [bytes]
    refine ⟨e', (parseExact_eq_ok ?_).mpr
      ⟨f, ⟨one, stands.complete, stands.valid, stands.height, rfl⟩, found⟩, same.symm⟩
    have short := add_length_le inside stands.there
    omega

end CborParser

/-! ### Written heads -/

/-- The low bits of the shortest head. -/
def shortestInfo (len : ℕ) : ℕ :=
  if len ≤ 23 then len
  else if len ≤ 0xff then 24
  else if len ≤ 0xffff then 25
  else if len ≤ 0xffffffff then 26
  else 27

theorem isArgument_shortestInfo (fits : len < 2 ^ 64) :
    IsArgument (shortestInfo len) len := by
  unfold IsArgument shortestInfo
  split_ifs <;> first | omega | exact ⟨by decide, by simp only [argumentWidth]; omega⟩

theorem or_eq_initial (few : major < 8) (small : info < 32) :
    UInt8.ofNat (32 * major) ||| UInt8.ofNat info = UInt8.ofNat (32 * major + info) := by
  rw [← UInt8.toNat_inj, UInt8.toNat_or, UInt8.toNat_ofNat', UInt8.toNat_ofNat',
    UInt8.toNat_ofNat', Nat.mod_eq_of_lt (by omega), Nat.mod_eq_of_lt (by omega),
    Nat.mod_eq_of_lt (by omega)]
  exact (Nat.two_pow_add_eq_or_of_lt (i := 5) small major).symm

/-- **The writer writes the shortest head.** -/
theorem appendLen_eq (few : major < 8) (buf : Bytes) :
    appendLen buf (UInt8.ofNat (32 * major)) len = buf ++ head major (shortestInfo len) len := by
  unfold appendLen shortestInfo
  split_ifs with low one two four
  · rw [or_eq_initial few (by omega), head, argumentWidth_of_small low]
    rfl
  all_goals
    rw [head, ← or_eq_initial few (by decide)]
    rfl

/-- The token of a string with the shortest head. -/
def stringToken (major : ℕ) (isString : major = 2 ∨ major = 3) (s : Bytes)
    (fits : s.length < 2 ^ 64) : Token :=
  ⟨major, shortestInfo s.length, s.length, s, by omega, isArgument_shortestInfo fits,
    (if_pos isString).symm⟩

theorem bytes_stringToken (isString : major = 2 ∨ major = 3) {s : Bytes} (fits : s.length < 2 ^ 64)
    (buf : Bytes) :
    appendLen buf (UInt8.ofNat (32 * major)) s.length ++ s =
      buf ++ (stringToken major isString s fits).bytes := by
  rw [appendLen_eq (by omega), List.append_assoc]
  rfl

theorem arity_stringToken (isString : major = 2 ∨ major = 3) {s : Bytes} (fits : s.length < 2 ^ 64) :
    (stringToken major isString s fits).arity = 0 := by
  rcases isString with rfl | rfl <;> rfl

namespace CborParser

variable {data : Bytes} {start stop : ℕ}

theorem encodes_leaf (leaf : t.arity = 0) (valid : t.Valid) :
    Trees.Encodes (.node t .nil .nil) (maxDepth + 1) t.bytes where
  single := rfl
  complete := ⟨leaf.symm, trivial, trivial⟩
  valid u member := by
    obtain rfl := List.mem_singleton.mp member
    exact valid
  height := show max (0 + 1) 0 ≤ maxDepth + 1 by decide
  bytes := by rw [Trees.bytes_node, Trees.bytes_nil, List.append_nil, List.append_nil]

/-- **A written string is parsed back.** -/
theorem parseExact_string (isString : major = 2 ∨ major = 3) {s : Bytes}
    (valid : major = 3 → IsText s)
    (small : (appendLen [] (UInt8.ofNat (32 * major)) s.length ++ s).length < 2 ^ 64) :
    parseExact (appendLen [] (UInt8.ofNat (32 * major)) s.length ++ s) =
      .ok ⟨if major = 2 then .bytes s else .text s, 0,
        (appendLen [] (UInt8.ofNat (32 * major)) s.length ++ s).length⟩ := by
  have fits : s.length < 2 ^ 64 := by
    rw [List.length_append] at small
    omega
  have bytes : appendLen [] (UInt8.ofNat (32 * major)) s.length ++ s =
      (stringToken major isString s fits).bytes := bytes_stringToken isString fits []
  rw [bytes] at small ⊢
  refine (parseExact_eq_ok small).mpr ⟨_, encodes_leaf (arity_stringToken isString fits) valid, ?_⟩
  rw [elements, elements, Token.length_bytes, Forest.width_nil, Nat.add_zero, Nat.zero_add]
  rcases isString with rfl | rfl <;> rfl

theorem isText_of_parseExact {s : Bytes}
    (small : (encodeCborString s).length < 2 ^ 64) (parsed : parseExact (encodeCborString s) = .ok e) :
    IsText s := by
  have fits : s.length < 2 ^ 64 := by
    rw [encodeCborString, List.length_append] at small
    omega
  have bytes : encodeCborString s = Trees.bytes
      (.node (stringToken 3 (.inr rfl) s fits) .nil .nil) := by
    rw [Trees.bytes_node, Trees.bytes_nil, List.append_nil, List.append_nil]
    exact bytes_stringToken (.inr rfl) fits []
  have complete : Trees.Complete (.node (stringToken 3 (.inr rfl) s fits) .nil .nil) :=
    ⟨(arity_stringToken (.inr rfl) fits).symm, trivial, trivial⟩
  obtain ⟨f, encodes, -⟩ := (parseExact_eq_ok small).mp parsed
  have same := Trees.bytes_injective encodes.complete complete (encodes.bytes.trans bytes)
  subst same
  exact encodes.valid _ List.mem_cons_self rfl

/-- **A written head is read back**, with whatever follows it. -/
theorem read_head (small : data.length < 2 ^ 64) (few : major < 8)
    (fits : len < 2 ^ 64) (inside : start ≤ data.length)
    (there : appendLen [] (UInt8.ofNat (32 * major)) len <+: data.drop start) :
    ∃ b, readByte data start = .ok (b, start + 1) ∧ (b >>> 5).toNat = major ∧
      readVal data (b &&& 0x1f).toNat (start + 1) =
        .ok (len, start + (appendLen [] (UInt8.ofNat (32 * major)) len).length) := by
  have argument := isArgument_shortestInfo fits
  have wide := argument.info_le
  rw [appendLen_eq few, List.nil_append] at there ⊢
  have parts : head major (shortestInfo len) len = [UInt8.ofNat (32 * major + shortestInfo len)] ++
      beBytes (argumentWidth (shortestInfo len)) len := rfl
  rw [parts, append_prefix_drop] at there
  obtain ⟨high, low⟩ := initial_parts.mpr ⟨rfl, few, show shortestInfo len < 32 by omega⟩
  refine ⟨_, readByte_eq_ok.mpr ⟨there.1, rfl⟩, high, ?_⟩
  have inside' : start + 1 ≤ data.length := add_length_le inside there.1
  rw [low, length_head, readVal_eq_ok small inside']
  exact ⟨argument, there.2, by omega⟩

/-- **The parser is exact.** It never panics. It returns a value exactly when all bytes are one
item of definite length that nests at most 64 deep, and the value is the one of the item. The items
inside an item lie behind one another, from the end of its head to its own end, and each is parsed
again from the bytes of its span. Written heads are read back, and so are written strings; a text
is one when it is UTF-8. -/
theorem parser_exact (data : Bytes) (small : data.length < 2 ^ 64) :
    Safe (parseExact data) (fun _ => True) ∧
    (∀ e, parseExact data = .ok e ↔
      ∃ f : Trees, f.Encodes (maxDepth + 1) data ∧ elements 0 f = [e]) ∧
    (∀ e x, parseExact data = .ok e → Within x e →
      (∃ t : Token, t.bytes <+: data.drop x.start ∧
        Consecutive (x.start + t.size) x.value.children x.stop) ∧
      ∃ bytes x', getRange data x = some bytes ∧ parseExact bytes = .ok x' ∧
        shiftElement x.start x' = x) ∧
    (∀ write major, (write, major) ∈ [(appendBytesLen, 2), (appendTextLen, 3)] → ∀ len < 2 ^ 64,
      (∀ buf, write buf len = buf ++ write [] len) ∧
      ∀ start ≤ data.length, write [] len <+: data.drop start →
        ∃ b, readByte data start = .ok (b, start + 1) ∧ (b >>> 5).toNat = major ∧
          readVal data (b &&& 0x1f).toNat (start + 1) = .ok (len, start + (write [] len).length)) ∧
    (∀ s, data = appendBytesLen [] s.length ++ s →
      parseExact data = .ok ⟨.bytes s, 0, data.length⟩) ∧
    (∀ s, data = encodeCborString s → (IsText s → parseExact data = .ok ⟨.text s, 0, data.length⟩) ∧
      (¬ IsText s → ∀ e, parseExact data ≠ .ok e)) := by
  refine ⟨(parseExact_safe data).mono fun _ _ => trivial, fun e => parseExact_eq_ok small,
    fun e x parsed within => ?_, fun write major member len fits => ?_, fun s same => ?_,
    fun s same => ⟨fun isText => ?_, fun noText e parsed => ?_⟩⟩
  · have reads := reads_of_within within (reads_of_parseExact small parsed)
    have inside := reads.start_le
    have ends := reads.stop_le inside
    obtain ⟨-, -, some⟩ := reads.span
    obtain ⟨x', again, same⟩ := reads.again small inside
    obtain ⟨levels, deep⟩ := reads.levels_pos
    rw [deep] at reads
    obtain ⟨t, -, there, children⟩ := reads.inside
    exact ⟨⟨t, there, children.consecutive⟩, _, x', if_pos ⟨some.le, ends⟩, again, same⟩
  · simp only [List.mem_cons, List.not_mem_nil, or_false, Prod.mk.injEq] at member
    have appends (m : ℕ) (few : m < 8) (buf : Bytes) :
        appendLen buf (UInt8.ofNat (32 * m)) len =
          buf ++ appendLen [] (UInt8.ofNat (32 * m)) len := by
      rw [appendLen_eq few, appendLen_eq few, List.nil_append]
    rcases member with ⟨rfl, rfl⟩ | ⟨rfl, rfl⟩
    · exact ⟨appends 2 (by decide), fun start inside there =>
        read_head small (by decide) fits inside there⟩
    · exact ⟨appends 3 (by decide), fun start inside there =>
        read_head small (by decide) fits inside there⟩
  · subst same
    exact parseExact_string (.inl rfl) nofun small
  · subst same
    exact parseExact_string (.inr rfl) (fun _ => isText) small
  · subst same
    exact noText (isText_of_parseExact small parsed)

/-- The text in an array of two is parsed again from its two bytes. -/
theorem parser_exact_array :
    ∃ bytes x', getRange [0x82, 0x01, 0x61, 0x61] ⟨.text [0x61], 2, 4⟩ = some bytes ∧
      parseExact bytes = .ok x' ∧ shiftElement 2 x' = ⟨.text [0x61], 2, 4⟩ :=
  ((parser_exact [0x82, 0x01, 0x61, 0x61] (by decide)).2.2.1
    ⟨.array [⟨.integer 1, 1, 2⟩, ⟨.text [0x61], 2, 4⟩], 0, 4⟩ ⟨.text [0x61], 2, 4⟩ rfl
    (.inside (.self _) (.tail _ (.head _)))).2

/-- A small number in two bytes of the last major type is taken for an item, and a text that is
not UTF-8 is written but not parsed. -/
theorem short_simple_parsed :
    (∃ e, parseExact [0xf8, 0x00] = .ok e) ∧
      (¬ ∃ f : Trees, f.Encodes (maxDepth + 1) [0xf8, 0x00] ∧ ∀ t ∈ f.symbols, t.Strict) ∧
      ∀ e, parseExact (encodeCborString [0xff]) ≠ .ok e := by
  refine ⟨⟨⟨.simple 0, 0, 2⟩, rfl⟩, ?_, fun e parsed => ?_⟩
  · rintro ⟨f, encodes, strict⟩
    have same : f = .node ⟨7, 24, 0, [], by decide, by decide, rfl⟩ .nil .nil :=
      Trees.bytes_injective encodes.complete ⟨rfl, trivial, trivial⟩ (encodes.bytes.trans rfl)
    subst same
    exact absurd (strict _ List.mem_cons_self rfl rfl) (by decide)
  · have isText := isText_of_parseExact (by decide) parsed
    exact nomatch (utf8Error_eq_none 0).mpr isText

end CborParser

end Longfellow.Mdoc
