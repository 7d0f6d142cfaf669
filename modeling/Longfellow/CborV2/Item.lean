/-
**The items of a document.**

What the circuits and their host call a token are the bytes of an item in front of its children:
the initial byte, the argument, and the content of a string. A document is a sequence of items,
and an item is a token with its children.

* `Token.exists_of_bytes`, `tokens_injective` — tokens are read off bytes in one way.
-/

import Longfellow.Lib.Forest
import Longfellow.Lib.RoundTrip
import Mathlib.Data.List.GetD

namespace Longfellow.CborV2

open Lib

/-! ### Initial bytes -/

def major (b : UInt8) : ℕ := b.toNat / 32

def info (b : UInt8) : ℕ := b.toNat % 32

/-- The bytes of the argument behind the initial byte. -/
def argumentLength : ℕ → ℕ
  | 24 => 1
  | 25 => 2
  | 26 => 4
  | 27 => 8
  | _ => 0

/-- Numbers and tags with any argument, strings, arrays and maps with one of at most a byte, and
the values false, true, null and undefined. -/
def supported (b : UInt8) : Bool :=
  match major b with
  | 0 | 1 | 6 => info b ≤ 27
  | 2 | 3 | 4 | 5 => info b ≤ 24
  | _ => 20 ≤ info b ∧ info b ≤ 23

/-- The argument, when it has at most a byte. -/
def argument (b next : UInt8) : ℕ := if info b < 24 then info b else next.toNat

def isString (b : UInt8) : Bool := major b = 2 || major b = 3

def isTag (b : UInt8) : Bool := major b = 6

def isMap (b : UInt8) : Bool := major b = 5

def isItems (b : UInt8) : Bool := major b = 4 || major b = 5

/-- Whether the item is an array, a map or a tag. -/
def opens (b : UInt8) : Bool := isTag b || isItems b

def isSimple (b : UInt8) : Bool := major b = 7

/-- The bytes of a token behind the initial one. -/
def tailLength (b next : UInt8) : ℕ :=
  argumentLength (info b) + if isString b then argument b next else 0

/-- The number of children: one for a tag, one for each element, two for each pair. -/
def childCount (b next : UInt8) : ℕ :=
  match major b with
  | 4 => argument b next
  | 5 => 2 * argument b next
  | 6 => 1
  | _ => 0

theorem argumentLength_of_small {i : ℕ} (small : i < 24) : argumentLength i = 0 := by
  unfold argumentLength
  split <;> omega

theorem argumentLength_pos {i : ℕ} (large : 24 ≤ i) (short : i ≤ 27) : 0 < argumentLength i := by
  obtain rfl | rfl | rfl | rfl : i = 24 ∨ i = 25 ∨ i = 26 ∨ i = 27 := by omega
  all_goals decide

variable {b : UInt8}

theorem info_le_of_supported (ok : supported b = true) : info b ≤ 27 := by
  unfold supported at ok
  split at ok <;> simp at ok <;> omega

theorem tailLength_eq_zero {x : UInt8} (ok : supported b = true) (none : tailLength b x = 0)
    (y : UInt8) : tailLength b y = 0 := by
  have small : info b < 24 := by
    by_contra large
    have positive := argumentLength_pos (by omega) (info_le_of_supported ok)
    unfold tailLength at none
    omega
  unfold tailLength argument at none ⊢
  rwa [if_pos small] at none ⊢

theorem argument_le {next : UInt8} : argument b next ≤ 255 := by
  unfold argument
  split
  · omega
  · have := next.toNat_lt
    omega

theorem childCount_le {next : UInt8} : childCount b next ≤ 510 := by
  have : argument b next ≤ 255 := argument_le
  unfold childCount
  split <;> omega

theorem childCount_le_of_small {next : UInt8} (small : info b < 24) : childCount b next ≤ 46 := by
  unfold childCount argument
  rw [if_pos small]
  split <;> omega

theorem childCount_of_not_opens {next : UInt8} (leaf : opens b = false) :
    childCount b next = 0 := by
  unfold opens isTag isItems at leaf
  simp only [Bool.or_eq_false_iff, decide_eq_false_iff_not] at leaf
  unfold childCount
  split <;> omega

/-! ### Tokens -/

/-- The bytes of an item in front of its children. -/
structure Token where
  initial : UInt8
  tail : Bytes
  known : supported initial = true
  sized : tail.length = tailLength initial (tail.headD 0)

namespace Token

def bytes (t : Token) : Bytes := t.initial :: t.tail

def size (t : Token) : ℕ := t.tail.length + 1

def next (t : Token) : UInt8 := t.tail.headD 0

def arity (t : Token) : ℕ := childCount t.initial t.next

def opens (t : Token) : Bool := CborV2.opens t.initial

theorem ext' {t u : Token} (initial : t.initial = u.initial) (tail : t.tail = u.tail) : t = u := by
  cases t
  cases u
  cases initial
  cases tail
  rfl

@[simp] theorem length_bytes (t : Token) : t.bytes.length = t.size := rfl

theorem size_pos (t : Token) : 0 < t.size := Nat.succ_pos _

theorem arity_le (t : Token) : t.arity ≤ 255 * t.size := by
  by_cases small : info t.initial < 24
  · have few : t.arity ≤ 46 := childCount_le_of_small small
    have := t.size_pos
    omega
  · have positive := argumentLength_pos (by omega) (info_le_of_supported t.known)
    have long : 0 < t.tail.length := by
      rw [t.sized, tailLength]
      omega
    have few : t.arity ≤ 510 := childCount_le
    unfold size
    omega

theorem exists_of_bytes {b : UInt8} {rest : Bytes} (ok : supported b = true)
    (enough : tailLength b (rest.headD 0) ≤ rest.length) :
    ∃ t : Token, t.bytes = b :: rest.take (tailLength b (rest.headD 0)) ∧
      t.arity = childCount b (rest.headD 0) := by
  have length : (rest.take (tailLength b (rest.headD 0))).length = tailLength b (rest.headD 0) := by
    rw [List.length_take, Nat.min_eq_left enough]
  by_cases none : tailLength b (rest.headD 0) = 0
  · have small : info b < 24 := by
      by_contra large
      have positive := argumentLength_pos (by omega) (info_le_of_supported ok)
      unfold tailLength at none
      omega
    refine ⟨⟨b, rest.take (tailLength b (rest.headD 0)), ok, ?_⟩, rfl, ?_⟩
    · rw [length, none, List.take_zero]
      exact (tailLength_eq_zero ok none _).symm
    · show childCount b _ = childCount b _
      unfold childCount argument
      rw [if_pos small, if_pos small]
  · have head : (rest.take (tailLength b (rest.headD 0))).headD 0 = rest.headD 0 := by
      cases rest with
      | nil => rw [List.take_nil]
      | cons c rest =>
        obtain ⟨k, some⟩ := Nat.exists_eq_succ_of_ne_zero none
        rw [some, List.take_succ_cons]
        rfl
    refine ⟨⟨b, rest.take (tailLength b (rest.headD 0)), ok, ?_⟩, rfl, ?_⟩
    · rw [length, head]
    · show childCount b (List.headD _ 0) = _
      rw [head]

theorem tailLength_append (t : Token) (rest : Bytes) :
    tailLength t.initial ((t.tail ++ rest).headD 0) = t.tail.length := by
  cases tail : t.tail with
  | nil =>
    have none := t.sized
    rw [tail] at none
    exact tailLength_eq_zero t.known none.symm _
  | cons b bs =>
    have sized := t.sized
    rw [tail] at sized
    exact sized.symm

theorem bytes_append_injective {t u : Token} {xs ys : Bytes} (same : t.bytes ++ xs = u.bytes ++ ys) :
    t = u ∧ xs = ys := by
  obtain ⟨initial, tails⟩ := List.cons.inj same
  have lengths : t.tail.length = u.tail.length := by
    rw [← t.tailLength_append xs, ← u.tailLength_append ys, initial]
    exact congrArg (fun bs : Bytes => tailLength u.initial (bs.headD 0)) tails
  obtain ⟨tail, rest⟩ := List.append_inj tails lengths
  exact ⟨ext' initial tail, rest⟩

end Token

/-- **Tokens are read off bytes in one way.** -/
theorem tokens_injective {ts us : List Token}
    (same : ts.flatMap Token.bytes = us.flatMap Token.bytes) : ts = us :=
  Forest.codes_injective (fun _ => List.cons_ne_nil _ _) Token.bytes_append_injective same

/-- The positions of the initial bytes, when the first token stands at `start`. -/
def starts : ℕ → List Token → List ℕ
  | _, [] => []
  | start, t :: ts => start :: starts (start + t.size) ts

/-! ### Lengths that are counted down -/

/-- The header bits and the remaining lengths behind each position. -/
structure Lexed (bytes : Bytes) (header : ℕ → Bool) (slen : ℕ → ℕ) : Prop where
  first : header 0 = true
  token : ∀ i < bytes.length, header i = true → supported (bytes.getD i 0) = true ∧
    slen i = tailLength (bytes.getD i 0) (bytes.getD (i + 1) 0) + 1
  counts : ∀ i, i + 1 < bytes.length → header (i + 1) = false → slen (i + 1) + 1 = slen i
  marks : ∀ i, i + 1 < bytes.length → (header (i + 1) = true ↔ slen i = 1)
  last : slen (bytes.length - 1) = 1

/-- From a position on, the header bits mark the tokens of the bytes. -/
inductive Marked (bytes : Bytes) (header : ℕ → Bool) : ℕ → List Token → Prop
  | done : Marked bytes header bytes.length []
  | token {start : ℕ} {t : Token} {ts : List Token} (here : header start = true)
      (none : ∀ k, 0 < k → k < t.size → header (start + k) = false)
      (text : bytes.drop start = t.bytes ++ bytes.drop (start + t.size))
      (rest : Marked bytes header (start + t.size) ts) : Marked bytes header start (t :: ts)

section Lexed

variable {bytes : Bytes} {header : ℕ → Bool} {slen : ℕ → ℕ}

variable {start : ℕ} {ts : List Token}

theorem Marked.inversion {t : Token} (marked : Marked bytes header start (t :: ts)) :
    header start = true ∧ (∀ k, 0 < k → k < t.size → header (start + k) = false) ∧
      bytes.drop start = t.bytes ++ bytes.drop (start + t.size) ∧
      Marked bytes header (start + t.size) ts := by
  cases marked with
  | token here none text rest => exact ⟨here, none, text, rest⟩

theorem Lexed.countdown (lexed : Lexed bytes header slen) {k : ℕ}
    (inside : start + k < bytes.length) (short : k < slen start) :
    slen (start + k) + k = slen start ∧ (0 < k → header (start + k) = false) := by
  induction k with
  | zero => exact ⟨rfl, fun positive => absurd positive (Nat.lt_irrefl 0)⟩
  | succ k ih =>
    obtain ⟨left, -⟩ := ih (by omega) (by omega)
    have off : header (start + (k + 1)) = false := by
      rw [← Bool.not_eq_true]
      intro on
      have := (lexed.marks (start + k) inside).mp on
      omega
    have down := lexed.counts (start + k) inside off
    refine ⟨?_, fun _ => off⟩
    show slen (start + k + 1) + (k + 1) = slen start
    omega

theorem getD_drop_succ (start : ℕ) : (bytes.drop (start + 1)).headD 0 = bytes.getD (start + 1) 0 := by
  rw [List.headD_eq_head?_getD, List.head?_drop, List.getD_eq_getElem?_getD]

/-- **Lengths that are counted down mark tokens.** -/
theorem exists_tokens (lexed : Lexed bytes header slen) (inside : start ≤ bytes.length)
    (here : start < bytes.length → header start = true) : ∃ ts, Marked bytes header start ts := by
  -- Strong induction on the bytes that are left: a token has a first byte.
  induction left : bytes.length - start using Nat.strong_induction_on generalizing start with
  | _ left ih =>
    by_cases ends : start = bytes.length
    · exact ⟨[], ends ▸ .done⟩
    have before : start < bytes.length := by omega
    obtain ⟨known, length⟩ := lexed.token start before (here before)
    have drop : bytes.drop start = bytes.getD start 0 :: bytes.drop (start + 1) := by
      rw [List.drop_eq_getElem_cons before, List.getD_eq_getElem _ _ before]
    -- Were the token cut off, the last length would not be one.
    have fits : start + slen start ≤ bytes.length := by
      by_contra long
      have := (lexed.countdown (by omega) (show bytes.length - 1 - start < slen start by omega)).1
      rw [show start + (bytes.length - 1 - start) = bytes.length - 1 by omega, lexed.last] at this
      omega
    obtain ⟨t, text, -⟩ := @Token.exists_of_bytes _ (bytes.drop (start + 1)) known (by
      rw [getD_drop_succ, List.length_drop]
      omega)
    have size : t.size = slen start := by
      rw [← Token.length_bytes, text, List.length_cons, List.length_take, List.length_drop,
        getD_drop_succ]
      omega
    have positive := t.size_pos
    obtain ⟨ts, marked⟩ := @ih (bytes.length - (start + t.size)) (by omega) (start + t.size)
      (by omega) (fun more => by
        have last := (lexed.countdown (show start + (t.size - 1) < bytes.length by omega)
          (by omega)).1
        rw [show start + t.size = start + (t.size - 1) + 1 by omega]
        exact (lexed.marks _ (by omega)).mpr (by omega)) rfl
    refine ⟨t :: ts, .token (here before) (fun k some short => ?_) ?_ marked⟩
    · exact (lexed.countdown (by omega) (by omega)).2 some
    · rw [drop, text, getD_drop_succ, List.cons_append]
      have behind : start + t.size =
          start + 1 + tailLength (bytes.getD start 0) (bytes.getD (start + 1) 0) := by omega
      have cut : bytes.drop (start + 1 + tailLength (bytes.getD start 0) (bytes.getD (start + 1) 0)) =
          (bytes.drop (start + 1)).drop (tailLength (bytes.getD start 0)
            (bytes.getD (start + 1) 0)) := List.drop_drop.symm
      rw [behind, cut, List.take_append_drop]

theorem Marked.text (marked : Marked bytes header start ts) :
    bytes.drop start = ts.flatMap Token.bytes := by
  induction marked with
  | done => exact List.drop_length
  | token _ _ text _ ih => rw [text, ih, List.flatMap_cons]

theorem Marked.le (marked : Marked bytes header start ts) :
    start ≤ bytes.length := by
  induction marked with
  | done => exact le_rfl
  | token _ _ _ _ ih => exact (Nat.le_add_right _ _).trans ih

theorem le_of_mem_starts {i : ℕ} (member : i ∈ starts start ts) :
    start ≤ i := by
  induction ts generalizing start with
  | nil => cases member
  | cons t ts ih =>
    rcases List.mem_cons.mp member with rfl | later
    · exact le_rfl
    · exact (Nat.le_add_right _ _).trans (ih later)

theorem Marked.iff (marked : Marked bytes header start ts) {i : ℕ} (reached : start ≤ i)
    (inside : i < bytes.length) :
    header i = true ↔ i ∈ starts start ts := by
  induction marked with
  | done => omega
  | @token start t ts here none _ _ ih =>
    rw [starts, List.mem_cons]
    have positive := t.size_pos
    by_cases first : i = start
    · subst first
      exact ⟨fun _ => .inl rfl, fun _ => here⟩
    by_cases far : start + t.size ≤ i
    · rw [ih far]
      exact ⟨.inr, fun member => member.resolve_left first⟩
    · have off := none (i - start) (by omega) (by omega)
      rw [show start + (i - start) = i by omega] at off
      refine ⟨fun on => absurd (on.symm.trans off) Bool.noConfusion, fun member => ?_⟩
      exact absurd (le_of_mem_starts (member.resolve_left first)) far

end Lexed

/-! ### Documents -/

def kNCounters : ℕ := 4

/-- A sequence of complete items in which arrays, maps and tags are nested below the last level. -/
structure Document (bytes : Bytes) where
  items : Forest Token
  ranked : items.Ranked Token.arity
  nested : items.Nested Token.opens kNCounters 0
  text : items.symbols.flatMap Token.bytes = bytes

/-- **Bytes are the bytes of one document at most.** -/
theorem Document.unique {bytes : Bytes} (left right : Document bytes) : left = right := by
  have symbols : left.items.symbols = right.items.symbols :=
    tokens_injective (left.text.trans right.text.symm)
  have items : left.items = right.items :=
    Forest.symbols_injective left.ranked right.ranked symbols
  cases left
  cases right
  cases items
  rfl

end Longfellow.CborV2
