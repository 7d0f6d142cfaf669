/-
**The grammar of CBOR.**

An item starts with a head: an initial byte with a major type and an argument, or with the width of
the argument that follows. Strings have their content behind the head; arrays, maps and tags have
items behind it.

* `Trees.bytes_injective` — items of definite length are determined by their bytes.
-/

import Longfellow.Lib.Codec
import Longfellow.Lib.Forest

namespace Lib.Cbor

/-! ### Heads -/

/-- The bytes of an argument. -/
def argumentWidth : ℕ → ℕ
  | 24 => 1
  | 25 => 2
  | 26 => 4
  | 27 => 8
  | _ => 0

/-- A number is the argument of a head: the low bits of the initial byte, or a number that fits the
width that they say. -/
def IsArgument (info value : ℕ) : Prop :=
  if info ≤ 23 then value = info else info ≤ 27 ∧ value < 256 ^ argumentWidth info

instance (info value : ℕ) : Decidable (IsArgument info value) := by
  unfold IsArgument
  infer_instance

/-- The head of an item. -/
def head (major info value : ℕ) : Bytes :=
  UInt8.ofNat (32 * major + info) :: beBytes (argumentWidth info) value

/-- The first byte of an item of indefinite length. -/
def opening (major : ℕ) : UInt8 := UInt8.ofNat (32 * major + 31)

/-- The end of an item of indefinite length. -/
def closing : UInt8 := 0xff

theorem argumentWidth_of_small {info : ℕ} (small : info ≤ 23) : argumentWidth info = 0 := by
  unfold argumentWidth
  split <;> omega

theorem IsArgument.info_le {info value : ℕ} (argument : IsArgument info value) : info ≤ 27 := by
  unfold IsArgument at argument
  split_ifs at argument
  · omega
  · exact argument.1

variable {major : ℕ}

theorem initial_toNat {info : ℕ} (small : major < 8) (short : info < 32) :
    (UInt8.ofNat (32 * major + info)).toNat = 32 * major + info := by
  rw [UInt8.toNat_ofNat']
  omega

theorem length_head (major info value : ℕ) :
    (head major info value).length = argumentWidth info + 1 := by
  rw [head, List.length_cons, length_beBytes]

theorem beValue_beBytes {width value : ℕ} (fits : value < 256 ^ width) :
    beValue (beBytes width value) = value := by
  rw [beValue, beBytes, List.reverse_reverse, leValue_leBytes fits]

theorem beBytes_beValue (bytes : Bytes) : beBytes bytes.length (beValue bytes) = bytes := by
  rw [beBytes, beValue, ← List.length_reverse, leBytes_leValue, List.reverse_reverse]

theorem beValue_lt (bytes : Bytes) : beValue bytes < 256 ^ bytes.length := by
  rw [beValue, ← List.length_reverse]
  exact leValue_lt _

variable {xs ys : Bytes}

/-- **Heads are read off bytes in one way.** -/
theorem head_append_injective {m i v m' i' v' : ℕ} (small : m < 8) (small' : m' < 8)
    (argument : IsArgument i v) (argument' : IsArgument i' v')
    (same : head m i v ++ xs = head m' i' v' ++ ys) : m = m' ∧ i = i' ∧ v = v' ∧ xs = ys := by
  obtain ⟨initial, rest⟩ := List.cons.inj same
  have short := argument.info_le
  have short' := argument'.info_le
  have bytes := congrArg UInt8.toNat initial
  rw [initial_toNat small (by omega), initial_toNat small' (by omega)] at bytes
  obtain rfl : m = m' := by omega
  obtain rfl : i = i' := by omega
  obtain ⟨values, rest⟩ := List.append_inj rest (by rw [length_beBytes, length_beBytes])
  refine ⟨rfl, rfl, ?_, rest⟩
  unfold IsArgument at argument argument'
  split_ifs at argument argument'
  · rw [argument, argument']
  · rw [← beValue_beBytes argument.2, ← beValue_beBytes argument'.2, values]

/-! ### Tokens -/

/-- The bytes of an item of definite length in front of the items inside it. -/
structure Token where
  major : ℕ
  info : ℕ
  value : ℕ
  content : Bytes
  majorSmall : major < 8
  argument : IsArgument info value
  sized : content.length = if major = 2 ∨ major = 3 then value else 0

namespace Token

def bytes (t : Token) : Bytes := head t.major t.info t.value ++ t.content

def size (t : Token) : ℕ := argumentWidth t.info + 1 + t.content.length

/-- The number of items inside: one for a tag, one for each element, two for each pair. -/
def arity (t : Token) : ℕ :=
  match t.major with
  | 4 => t.value
  | 5 => 2 * t.value
  | 6 => 1
  | _ => 0

@[simp] theorem length_bytes (t : Token) : t.bytes.length = t.size := by
  rw [bytes, List.length_append, length_head, size]

theorem size_pos (t : Token) : 0 < t.size := by
  unfold size
  omega

theorem bytes_append_injective {t u : Token} {xs ys : Bytes} (same : t.bytes ++ xs = u.bytes ++ ys) :
    t = u ∧ xs = ys := by
  unfold bytes at same
  rw [List.append_assoc, List.append_assoc] at same
  obtain ⟨major, info, value, rest⟩ :=
    head_append_injective t.majorSmall u.majorSmall t.argument u.argument same
  obtain ⟨m, i, v, c, _, _, sized⟩ := t
  obtain ⟨m', i', v', c', _, _, sized'⟩ := u
  dsimp only at major info value
  subst major info value
  obtain ⟨content, tail⟩ := List.append_inj rest (sized.trans sized'.symm)
  dsimp only at content
  subst content
  exact ⟨rfl, tail⟩

end Token

/-- **Tokens are read off bytes in one way.** -/
theorem tokens_append_injective {ts us : List Token}
    (same : ts.flatMap Token.bytes = us.flatMap Token.bytes) : ts = us :=
  Forest.codes_injective (fun _ => List.cons_ne_nil _ _) Token.bytes_append_injective same

/-- The bytes are a text: the UTF-8 encodings of some characters. -/
def IsText (bytes : Bytes) : Prop := ∃ chars : List Char, bytes = chars.flatMap String.utf8EncodeChar

theorem IsText.nil : IsText [] := ⟨[], rfl⟩

theorem IsText.cons {ch : Char} {first rest : Bytes} (same : String.utf8EncodeChar ch = first)
    (isText : IsText rest) : IsText (first ++ rest) := by
  obtain ⟨chars, rfl⟩ := isText
  subst same
  exact ⟨ch :: chars, List.flatMap_cons.symm⟩

/-- The content of a text is one. -/
def Token.Valid (t : Token) : Prop := t.major = 3 → IsText t.content

/-- A number below 32 of the last major type has no byte of its own. -/
def Token.Strict (t : Token) : Prop := t.major = 7 → t.info = 24 → 32 ≤ t.value

/-! ### Items of definite length -/

/-- Some items, as trees of tokens. -/
abbrev Trees := Forest Token

namespace Trees

/-- The bytes of some items. -/
def bytes (f : Trees) : Bytes := f.symbols.flatMap Token.bytes

/-- Every token has the items inside that it says. -/
abbrev Complete (f : Trees) : Prop := f.Ranked Token.arity

@[simp] theorem bytes_nil : bytes (.nil : Trees) = [] := rfl

theorem bytes_node (t : Token) (children rest : Trees) :
    bytes (.node t children rest) = t.bytes ++ (bytes children ++ bytes rest) := by
  rw [bytes, Forest.symbols, List.flatMap_cons, List.flatMap_append]
  rfl

@[simp] theorem length_bytes (f : Trees) : (bytes f).length = f.width Token.size := by
  induction f with
  | nil => rfl
  | node t children rest ih ih' =>
    rw [bytes_node, List.length_append, List.length_append, ih, ih', t.length_bytes,
      Forest.width, Nat.add_assoc]

/-- **Items are determined by their bytes.** -/
theorem bytes_injective {f g : Trees} (complete : Complete f) (complete' : Complete g)
    (same : bytes f = bytes g) : f = g :=
  Forest.symbols_injective complete complete' (tokens_append_injective same)

end Trees

/-- A tree that is one item of definite length, with some number of levels and with some bytes. -/
structure Trees.Encodes (f : Trees) (levels : ℕ) (data : Bytes) : Prop where
  single : f.length = 1
  complete : f.Complete
  valid : ∀ t ∈ f.symbols, t.Valid
  height : f.height ≤ levels
  bytes : f.bytes = data

/-! ### The full grammar -/

/-- What is to be read: a number of items, the chunks of a string up to its break, or groups of
items up to a break. -/
inductive Shape where
  | items (count : ℕ)
  | chunks (major : ℕ)
  | groups (size : ℕ)

/-- **Well-formed bytes.** -/
inductive WellFormed : Shape → Bytes → Prop
  | none : WellFormed (.items 0) []
  | definite {count : ℕ} (t : Token) {inside rest : Bytes}
      (children : WellFormed (.items t.arity) inside) (more : WellFormed (.items count) rest) :
      WellFormed (.items (count + 1)) (t.bytes ++ inside ++ rest)
  | string {count major : ℕ} (isString : major = 2 ∨ major = 3) {inside rest : Bytes}
      (chunks : WellFormed (.chunks major) inside) (more : WellFormed (.items count) rest) :
      WellFormed (.items (count + 1)) (opening major :: inside ++ rest)
  | array {count : ℕ} {inside rest : Bytes} (elements : WellFormed (.groups 1) inside)
      (more : WellFormed (.items count) rest) :
      WellFormed (.items (count + 1)) (opening 4 :: inside ++ rest)
  | map {count : ℕ} {inside rest : Bytes} (pairs : WellFormed (.groups 2) inside)
      (more : WellFormed (.items count) rest) :
      WellFormed (.items (count + 1)) (opening 5 :: inside ++ rest)
  | chunksEnd {major : ℕ} : WellFormed (.chunks major) [closing]
  | chunk {major : ℕ} (t : Token) (same : t.major = major) {rest : Bytes}
      (more : WellFormed (.chunks major) rest) : WellFormed (.chunks major) (t.bytes ++ rest)
  | groupsEnd {size : ℕ} : WellFormed (.groups size) [closing]
  | group {size : ℕ} (some : 0 < size) {inside rest : Bytes}
      (items : WellFormed (.items size) inside) (more : WellFormed (.groups size) rest) :
      WellFormed (.groups size) (inside ++ rest)

/-- One item of any length. -/
abbrev IsItem (bytes : Bytes) : Prop := WellFormed (.items 1) bytes

/-! ### Reading in one way -/

theorem opening_toNat (small : major < 8) : (opening major).toNat = 32 * major + 31 :=
  initial_toNat small (by decide)

theorem opening_injective {major' : ℕ} (small : major < 8) (small' : major' < 8)
    (same : opening major = opening major') : major = major' := by
  have bytes := congrArg UInt8.toNat same
  rw [opening_toNat small, opening_toNat small'] at bytes
  omega

theorem opening_ne_closing (small : major < 7) : opening major ≠ closing := by
  intro same
  have equal : major = 7 := opening_injective (by omega) (by decide) same
  omega

theorem Token.ne_opening (t : Token) (small : major < 8) :
    t.bytes ++ xs ≠ opening major :: ys := by
  intro same
  obtain ⟨initial, -⟩ := List.cons.inj same
  have bytes := congrArg UInt8.toNat initial
  have short := t.argument.info_le
  rw [initial_toNat t.majorSmall (by omega), opening_toNat small] at bytes
  omega

theorem Token.ne_closing (t : Token) : t.bytes ++ xs ≠ closing :: ys :=
  t.ne_opening (show 7 < 8 by decide)

theorem WellFormed.ne_closing {count : ℕ} {bytes : Bytes}
    (wellFormed : WellFormed (.items (count + 1)) bytes) : bytes ++ xs ≠ closing :: ys := by
  cases wellFormed with
  | definite t _ _ =>
    rw [List.append_assoc, List.append_assoc]
    exact t.ne_closing
  | string isString _ _ => exact fun same => opening_ne_closing (by omega) (List.cons.inj same).1
  | array _ _ => exact fun same => opening_ne_closing (by decide) (List.cons.inj same).1
  | map _ _ => exact fun same => opening_ne_closing (by decide) (List.cons.inj same).1

/-- **Well-formed bytes are read off other bytes in one way**: none are the beginning of others of
their shape. -/
theorem WellFormed.unique {shape : Shape} {bytes bytes' : Bytes} (left : WellFormed shape bytes)
    (right : WellFormed shape bytes') (same : bytes ++ xs = bytes' ++ ys) :
    bytes = bytes' ∧ xs = ys := by
  -- What is read first decides the rule; each part then ends where its counterpart does.
  have opened : ∀ {m m' : ℕ} {us vs : Bytes}, m < 8 → m' < 8 → opening m :: us = opening m' :: vs →
      m = m' ∧ us = vs := fun small small' same =>
    ⟨opening_injective small small' (List.cons.inj same).1, (List.cons.inj same).2⟩
  induction left generalizing bytes' xs ys with
  | none =>
    cases right
    exact ⟨rfl, same⟩
  | @definite count t inside rest _ _ ih ih' =>
    cases right with
    | @definite _ u inside' rest' children' more' =>
      simp only [List.append_assoc] at same
      obtain ⟨rfl, tail⟩ := Token.bytes_append_injective same
      obtain ⟨rfl, later⟩ := ih children' tail
      obtain ⟨rfl, behind⟩ := ih' more' later
      exact ⟨rfl, behind⟩
    | string isString _ _ =>
      simp only [List.append_assoc] at same
      exact absurd same (t.ne_opening (by omega))
    | array _ _ =>
      simp only [List.append_assoc] at same
      exact absurd same (t.ne_opening (by decide))
    | map _ _ =>
      simp only [List.append_assoc] at same
      exact absurd same (t.ne_opening (by decide))
  | @string count major isString inside rest _ _ ih ih' =>
    cases right with
    | definite u _ _ =>
      simp only [List.append_assoc] at same
      exact absurd same.symm (u.ne_opening (by omega))
    | string isString' chunks' more' =>
      simp only [List.cons_append, List.append_assoc] at same
      obtain ⟨rfl, tail⟩ := opened (by omega) (by omega) same
      obtain ⟨rfl, later⟩ := ih chunks' tail
      obtain ⟨rfl, behind⟩ := ih' more' later
      exact ⟨rfl, behind⟩
    | array _ _ =>
      have := (opened (by omega) (by decide) same).1
      omega
    | map _ _ =>
      have := (opened (by omega) (by decide) same).1
      omega
  | @array count inside rest _ _ ih ih' =>
    cases right with
    | definite u _ _ =>
      simp only [List.append_assoc] at same
      exact absurd same.symm (u.ne_opening (by decide))
    | string isString' _ _ =>
      have := (opened (by decide) (by omega) same).1
      omega
    | array elements' more' =>
      simp only [List.cons_append, List.append_assoc] at same
      obtain ⟨rfl, later⟩ := ih elements' (List.cons.inj same).2
      obtain ⟨rfl, behind⟩ := ih' more' later
      exact ⟨rfl, behind⟩
    | map _ _ =>
      have := (opened (by decide) (by decide) same).1
      omega
  | @map count inside rest _ _ ih ih' =>
    cases right with
    | definite u _ _ =>
      simp only [List.append_assoc] at same
      exact absurd same.symm (u.ne_opening (by decide))
    | string isString' _ _ =>
      have := (opened (by decide) (by omega) same).1
      omega
    | array _ _ =>
      have := (opened (by decide) (by decide) same).1
      omega
    | map pairs' more' =>
      simp only [List.cons_append, List.append_assoc] at same
      obtain ⟨rfl, later⟩ := ih pairs' (List.cons.inj same).2
      obtain ⟨rfl, behind⟩ := ih' more' later
      exact ⟨rfl, behind⟩
  | chunksEnd =>
    cases right with
    | chunksEnd => exact ⟨rfl, (List.cons.inj same).2⟩
    | chunk u _ _ =>
      simp only [List.append_assoc] at same
      exact absurd same.symm u.ne_closing
  | @chunk major t _ rest _ ih =>
    cases right with
    | chunksEnd =>
      simp only [List.append_assoc] at same
      exact absurd same t.ne_closing
    | chunk u _ more' =>
      simp only [List.append_assoc] at same
      obtain ⟨rfl, tail⟩ := Token.bytes_append_injective same
      obtain ⟨rfl, behind⟩ := ih more' tail
      exact ⟨rfl, behind⟩
  | groupsEnd =>
    cases right with
    | groupsEnd => exact ⟨rfl, (List.cons.inj same).2⟩
    | group some items' _ =>
      obtain ⟨k, rfl⟩ := Nat.exists_eq_succ_of_ne_zero some.ne'
      simp only [List.append_assoc] at same
      exact absurd same.symm items'.ne_closing
  | @group size some inside rest items _ ih ih' =>
    cases right with
    | groupsEnd =>
      obtain ⟨k, rfl⟩ := Nat.exists_eq_succ_of_ne_zero some.ne'
      simp only [List.append_assoc] at same
      exact absurd same items.ne_closing
    | group _ items' more' =>
      simp only [List.append_assoc] at same
      obtain ⟨rfl, later⟩ := ih items' same
      obtain ⟨rfl, behind⟩ := ih' more' later
      exact ⟨rfl, behind⟩

theorem Trees.wellFormed {f : Trees} (complete : Complete f) :
    WellFormed (.items f.length) (bytes f) := by
  induction f with
  | nil => exact .none
  | node t children rest ih ih' =>
    rw [bytes_node, ← List.append_assoc]
    exact .definite t (complete.1 ▸ ih complete.2.1) (ih' complete.2.2)

theorem Trees.Encodes.isItem {f : Trees} {levels : ℕ} {data : Bytes}
    (encodes : f.Encodes levels data) : IsItem data := by
  have wellFormed := Trees.wellFormed encodes.complete
  rwa [encodes.single, encodes.bytes] at wellFormed

/-! ### Items behind one another -/

theorem IsItem.cons {first rest : Bytes} {count : ℕ} (item : IsItem first)
    (more : WellFormed (.items count) rest) : WellFormed (.items (count + 1)) (first ++ rest) := by
  cases item with
  | definite t children done =>
    cases done
    rw [List.append_nil]
    exact .definite t children more
  | string isString chunks done =>
    cases done
    rw [List.append_nil]
    exact .string isString chunks more
  | array elements done =>
    cases done
    rw [List.append_nil]
    exact .array elements more
  | map pairs done =>
    cases done
    rw [List.append_nil]
    exact .map pairs more

theorem wellFormed_flatten {items : List Bytes} (each : ∀ item ∈ items, IsItem item) :
    WellFormed (.items items.length) items.flatten := by
  induction items with
  | nil => exact .none
  | cons item items ih =>
    rw [List.flatten_cons]
    exact (each item List.mem_cons_self).cons
      (ih fun other member => each other (List.mem_cons_of_mem _ member))

/-- **Items are split in one way.** -/
theorem flatten_injective {items items' : List Bytes} (each : ∀ item ∈ items, IsItem item)
    (each' : ∀ item ∈ items', IsItem item) (count : items.length = items'.length)
    (same : items.flatten = items'.flatten) : items = items' := by
  induction items generalizing items' with
  | nil => exact (List.length_eq_zero_iff.mp count.symm).symm
  | cons item items ih =>
    cases items' with
    | nil => cases count
    | cons item' items' =>
      rw [List.flatten_cons, List.flatten_cons] at same
      obtain ⟨rfl, rest⟩ :=
        (each item List.mem_cons_self).unique (each' item' List.mem_cons_self) same
      rw [ih (fun other member => each other (List.mem_cons_of_mem _ member))
        (fun other member => each' other (List.mem_cons_of_mem _ member))
        (Nat.succ.inj count) rest]

end Lib.Cbor
