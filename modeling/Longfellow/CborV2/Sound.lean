/-
**What an accepted witness says.**

The header bits of an accepted witness mark the tokens of the input. Behind the first position, the
counters are updated token by token and run out at the end, so they have counted trees; only the
counters of the first position are not compared with anything.

* `accepted_document` — **the document of an accepted input**, when the first position opens what
  its item says.
-/

import Longfellow.CborV2.Plan
import Mathlib.Tactic.NormNum.Prime

set_option linter.unusedSectionVars false

namespace Longfellow.CborV2

open Lib Lib.Forest CircuitField
open scoped BigOperators

variable {E : Type} [CircuitField E] [DecidableEq E] {bytes : Bytes}
  {pw : ℕ → PositionWitness E} {header : ℕ → Bool} {sel : ℕ → ℕ → Bool} {G : Type}
  {cc : ℕ → ℕ → CEltW E} {i : ℕ}

/-- The counters of the field tell apart the numbers that come up in `n` bytes: how many items are
still to come, and what a token says of its length and its children. -/
def Apart (E : Type) [CircuitField E] (n : ℕ) : Prop :=
  n < counterOrder E ∧ min (255 * n) 510 < counterOrder E

/-! ### Remaining lengths -/

/-- The length of the token at a position. -/
def tokenLength (bytes : Bytes) (i : ℕ) : ℕ :=
  headLength (bytes.getD i 0) +
    if lengthIsNext (bytes.getD i 0) then (bytes.getD (i + 1) 0).toNat else 0

/-- The length left behind a position. -/
def lengthLeft (bytes : Bytes) (header : ℕ → Bool) : ℕ → ℕ
  | 0 => tokenLength bytes 0
  | i + 1 => if header (i + 1) then tokenLength bytes (i + 1) else lengthLeft bytes header i - 1

theorem headLength_bounds (b : UInt8) : 1 ≤ headLength b ∧ headLength b ≤ 24 := by
  unfold headLength
  by_cases small : info b < 24
  · rw [if_pos small]
    split <;> omega
  · rw [if_neg small]
    split <;> omega

theorem lengthLeft_of_header (on : header i = true) :
    lengthLeft bytes header i = tokenLength bytes i := by
  cases i with
  | zero => rfl
  | succ i => rw [lengthLeft, if_pos on]

section

variable (facts : DecodeFacts bytes header pw) (apart : Apart E bytes.length)
  (inside : i < bytes.length)
include facts apart inside

theorem tokenLength_lt (on : header i = true) : tokenLength bytes i < counterOrder E := by
  obtain ⟨long, wide⟩ := apart
  have bound := headLength_bounds (bytes.getD i 0)
  unfold tokenLength
  by_cases next : lengthIsNext (bytes.getD i 0) = true
  · have more : i + 1 < bytes.length := by
      by_contra last
      rw [facts.lengthInside i inside last on] at next
      exact Bool.noConfusion next
    have byte := (bytes.getD (i + 1) 0).toNat_lt
    rw [if_pos next]
    omega
  · rw [if_neg next]
    omega

theorem slenNext_eq :
    (pw i).slenNext = counter (lengthLeft bytes header i : ℕ) ∧
      1 ≤ lengthLeft bytes header i ∧ lengthLeft bytes header i < counterOrder E := by
  have token : ∀ j < bytes.length, header j = true →
      (pw j).slenNext = counter (lengthLeft bytes header j : ℕ) ∧
        1 ≤ lengthLeft bytes header j ∧ lengthLeft bytes header j < counterOrder E := by
    intro j below on
    have positive := (headLength_bounds (bytes.getD j 0)).1
    rw [lengthLeft_of_header on]
    refine ⟨facts.length j below on, ?_, tokenLength_lt facts apart below on⟩
    unfold tokenLength
    omega
  induction i with
  | zero => exact token 0 inside facts.first
  | succ i ih =>
    cases case : header (i + 1) with
    | true => exact token (i + 1) inside case
    | false =>
      obtain ⟨held, positive, bound⟩ := ih (by omega)
      -- Behind a length of one a header would have to follow.
      have more : lengthLeft bytes header i ≠ 1 := by
        intro one
        have product := facts.invprod i inside
        rw [case, if_neg Bool.false_ne_true, held, one, add_counter] at product
        have zero : Counter.znzIndicator (counter (((1 : ℕ) : ℤ) + -1) : CEltW E) = 0 := by
          rw [znzIndicator_eq_zero]
          norm_num
        rw [zero, zero_mul] at product
        exact zero_ne_one product
      have left : lengthLeft bytes header (i + 1) = lengthLeft bytes header i - 1 := by
        rw [lengthLeft, case, if_neg Bool.false_ne_true]
      rw [left]
      refine ⟨?_, by omega, by omega⟩
      have counted := facts.counts (i + 1) inside case
      rw [if_neg (Nat.succ_ne_zero i), Nat.add_sub_cancel, held, add_counter] at counted
      rw [counted, Nat.cast_sub positive]
      rfl

end

theorem lexed_of_facts (some : bytes ≠ []) (facts : DecodeFacts bytes header pw)
    (apart : Apart E bytes.length) :
    Lexed bytes header (lengthLeft bytes header) := by
  have positive : 0 < bytes.length := List.length_pos_iff.mpr some
  have wide := apart.2
  have one : ∀ i < bytes.length, (i + 1 < bytes.length → header (i + 1) = true) →
      lengthLeft bytes header i = 1 := by
    intro i below next
    obtain ⟨held, -, bound⟩ := slenNext_eq facts apart below
    refine counter_injective (E := E) bound (by omega) ?_
    rw [← held, facts.marks i below next]
    norm_num
  refine ⟨facts.first, fun i below on => ⟨facts.known i below on, ?_⟩, fun i more off => ?_,
    fun i more => ⟨fun on => one i (by omega) fun _ => on, fun left => ?_⟩,
    one (bytes.length - 1) (by omega) fun more => by omega⟩
  · rw [lengthLeft_of_header on, headLength_eq (facts.known i below on)]
    rfl
  · have := (slenNext_eq facts apart (show i < bytes.length by omega)).2.1
    rw [lengthLeft, off, if_neg Bool.false_ne_true]
    omega
  · by_contra off
    have none : header (i + 1) = false := Bool.eq_false_iff.mpr off
    have down : lengthLeft bytes header (i + 1) = lengthLeft bytes header i - 1 := by
      rw [lengthLeft, none, if_neg Bool.false_ne_true]
    have := (slenNext_eq facts apart more).2.1
    omega

/-! ### Counters of tokens -/

section Counters

variable {inv : ℕ → E} {level : ℕ → ℕ} {start : ℕ} {t : Token}
  {ts : List Token}

/-- What was seen of the tokens from a position on: the level that was selected, and the counters
behind the last byte. -/
def countedFrom (cc : ℕ → ℕ → G) (level : ℕ → ℕ) : ℕ → List Token → List (Counted Token G)
  | _, [] => []
  | start, t :: ts =>
    ⟨t, start, level start, cc (start + t.size - 1)⟩ :: countedFrom cc level (start + t.size) ts

theorem initial_eq {rest : Bytes} (text : bytes.drop start = t.bytes ++ rest) :
    bytes.getD start 0 = t.initial := by
  have head : (bytes.drop start).headD 0 = bytes.getD start 0 := by
    rw [List.headD_eq_head?_getD, List.head?_drop, List.getD_eq_getElem?_getD]
  rw [← head, text]
  rfl

theorem childCount_eq {rest : Bytes} (text : bytes.drop start = t.bytes ++ rest) :
    childCount (bytes.getD start 0) (bytes.getD (start + 1) 0) = t.arity := by
  have behind : bytes.drop (start + 1) = t.tail ++ rest := by
    rw [← List.drop_drop, text]
    rfl
  rw [initial_eq text, ← getD_drop_succ, behind]
  cases tail : t.tail with
  | cons b bs =>
    unfold Token.arity Token.next
    rw [tail]
    rfl
  | nil =>
    -- A token of one byte has its count in this byte.
    have small : info t.initial < 24 := by
      by_contra large
      have positive := argumentLength_pos (by omega) (info_le_of_supported t.known)
      have sized := t.sized
      rw [tail, List.length_nil, tailLength] at sized
      omega
    unfold Token.arity childCount argument
    rw [if_pos small, if_pos small]

variable (parse : ParseFacts bytes header sel cc inv)
include parse

theorem sel_unique (inside : i < bytes.length) {l m : ℕ} (left : l < kNCounters)
    (right : m < kNCounters) (on : sel i l = true) (also : sel i m = true) : l = m := by
  rcases Nat.lt_trichotomy l m with less | same | more
  · have := parse.exclusive i inside l m less right
    rw [on, also] at this
    exact Bool.noConfusion this
  · exact same
  · have := parse.exclusive i inside m l more left
    rw [on, also] at this
    exact Bool.noConfusion this

theorem cc_inside {l : ℕ} (below : l < kNCounters) {k : ℕ} (inside : start + k < bytes.length)
    (none : ∀ j, 0 < j → j ≤ k → header (start + j) = false) : cc (start + k) l = cc start l := by
  induction k with
  | zero => rfl
  | succ k ih =>
    have off := none (k + 1) (Nat.succ_pos k) le_rfl
    rw [parse.update (start + (k + 1)) inside (by omega) l below, updated, off, Bool.and_false,
      Bool.false_and, if_neg (fun both => Bool.false_ne_true both.2), Bool.and_false,
      if_neg Bool.false_ne_true, cadd_zero, show start + (k + 1) - 1 = start + k by omega]
    exact ih (by omega) fun j some short => none j some (by omega)

theorem cc_last {l : ℕ} (below : l < kNCounters)
    (none : ∀ k, 0 < k → k < t.size → header (start + k) = false)
    (inside : start + t.size ≤ bytes.length) : cc (start + t.size - 1) l = cc start l := by
  have positive := t.size_pos
  rw [show start + t.size - 1 = start + (t.size - 1) by omega]
  exact cc_inside parse below (by omega) fun j some short => none j some (by omega)

theorem chain_of_facts
    (known : ∀ i < bytes.length, header i = true → supported (bytes.getD i 0) = true)
    (isLevel : ∀ i < bytes.length, header i = true → level i < kNCounters ∧ sel i (level i) = true)
    (marked : Marked bytes header start ts) (behind : 0 < start) :
    Chain (fun n => (counter (n : ℕ) : CEltW E)) Token.arity Token.opens Token.size kNCounters start
      (cc (start - 1)) (countedFrom cc level start ts) := by
  induction marked with
  | done => exact .done parse.final
  | @token start t ts here none text rest ih =>
    have end_ := rest.le
    have positive := t.size_pos
    have inside : start < bytes.length := by omega
    obtain ⟨low, on⟩ := isLevel start inside here
    have last : ∀ l < kNCounters, cc (start + t.size - 1) l =
        updated bytes header sel (cc (start - 1)) start l := fun l below => by
      rw [cc_last parse below none end_, parse.update start inside behind l below]
    have off : ∀ l < kNCounters, l ≠ level start → sel start l = false := by
      intro l below other
      rw [← Bool.not_eq_true]
      exact fun also => other (sel_unique parse inside below low also on)
    have initial := initial_eq text
    refine .step (c := ⟨t, start, level start, cc (start + t.size - 1)⟩)
      ⟨low, fun n held => ?_, fun l below above => ?_, fun l below inner => ?_, fun branches => ?_,
        fun l below other outer => ?_⟩ (ih (by omega))
    · -- The level of the token is counted down.
      have update := last _ low
      have notOpened : ¬ (level start ≠ 0 ∧
          (sel start (level start - 1) && header start && opens (bytes.getD start 0)) = true) := by
        rintro ⟨some, all⟩
        rw [off (level start - 1) (by omega) (by omega)] at all
        exact Bool.false_ne_true all
      have held' : cc (start + t.size - 1) (level start) = counter (n : ℕ) := held
      rw [held', updated, if_neg notOpened, on, here, Bool.and_self, if_pos rfl] at update
      show cc (start - 1) (level start) = counter ((n + 1 : ℕ) : ℤ)
      rw [eq_counter_of_add update.symm]
      push_cast
      rw [sub_neg_eq_add]
    · exact parse.maximal (start - 1) (by omega) (level start) l above below
        (by rw [show start - 1 + 1 = start by omega]; exact on)
    · have inner' : l = level start + 1 := inner
      show cc (start + t.size - 1) l = counter (t.arity : ℕ)
      rw [last l below, updated, ← childCount_eq text]
      cases branches : opens (bytes.getD start 0) with
      | true =>
        have selected : l ≠ 0 ∧ (sel start (l - 1) && header start && true) = true := by
          rw [inner', Nat.add_sub_cancel, on, here]
          exact ⟨Nat.succ_ne_zero _, rfl⟩
        rw [if_pos selected, newCount_eq (known start inside here) branches]
      | false =>
        rw [Bool.and_false, if_neg (fun both => Bool.false_ne_true both.2),
          off l below (by omega), Bool.false_and, if_neg Bool.false_ne_true, cadd_zero,
          childCount_of_not_opens branches]
        exact parse.maximal (start - 1) (by omega) (level start) l (by omega) below
          (by rw [show start - 1 + 1 = start by omega]; exact on)
    · by_contra deep
      have top : kNCounters - 1 = level start := by
        have : level start < kNCounters := low
        have : ¬ level start + 1 < kNCounters := deep
        omega
      have overflow := parse.inside start inside behind
      rw [top, on, here, initial] at overflow
      exact Bool.noConfusion ((show opens t.initial = true from branches).symm.trans overflow)
    · have notOpened : ¬ (l ≠ 0 ∧
          (sel start (l - 1) && header start && opens (bytes.getD start 0)) = true) := by
        rintro ⟨some, all⟩
        have other' : l - 1 ≠ level start := by
          have : l ≠ level start + 1 := outer
          omega
        rw [off (l - 1) (by omega) other'] at all
        exact Bool.false_ne_true all
      show cc (start + t.size - 1) l = _
      rw [last l below, updated, if_neg notOpened, off l below other, Bool.false_and,
        if_neg Bool.false_ne_true, cadd_zero]

end Counters

/-! ### Positions -/

section Positions

variable {inv : ℕ → E} {level : ℕ → ℕ} {start : ℕ} {ts : List Token}

/-- A position in the place of a token that is visited. -/
structure InVisit (header : ℕ → Bool) (cc : ℕ → ℕ → CEltW E) (level : ℕ → ℕ) (v : Visit Token)
    (i k : ℕ) : Prop where
  inside : k < v.symbol.size
  position : i = v.start + k
  header : header i = decide (k = 0)
  counters : ∀ l < kNCounters, cc i l = counter (v.later l : ℕ)
  level : level v.start = v.level

theorem exists_visit (parse : ParseFacts bytes header sel cc inv)
    (marked : Marked bytes header start ts) {visits : List (Visit Token)}
    (matched : List.Forall₂ (Counted.Matches (fun n => (counter (n : ℕ) : CEltW E)) kNCounters)
      visits (countedFrom cc level start ts)) (reached : start ≤ i)
    (inside : i < bytes.length) : ∃ v ∈ visits, ∃ k, InVisit header cc level v i k := by
  induction marked generalizing visits with
  | done => omega
  | @token start t ts here none _ rest ih =>
    cases matched with
    | @cons v _ vs _ first later =>
      by_cases far : start + t.size ≤ i
      · obtain ⟨w, member, k, place⟩ := ih later far
        exact ⟨w, List.mem_cons_of_mem _ member, k, place⟩
      have position : i = start + (i - start) := by omega
      have symbol : v.symbol = t := first.symbol
      have place : v.start = start := first.start
      have within : ∀ j, 0 < j → j ≤ i - start → header (start + j) = false :=
        fun j some short => none j some (by omega)
      refine ⟨v, List.mem_cons_self, i - start, by rw [symbol]; omega, by rw [place]; exact position,
        ?_, fun l below => ?_, by rw [place]; exact first.level.symm⟩
      · by_cases zero : i - start = 0
        · rw [decide_eq_true zero, show i = start by omega]
          exact here
        · rw [decide_eq_false zero, position]
          exact within _ (by omega) le_rfl
      · have after : cc (start + t.size - 1) l = counter (v.later l : ℕ) := first.after l below
        rw [← after, cc_last parse below none rest.le, position]
        exact cc_inside parse below (by omega) within

theorem length_le_flatMap (ts : List Token) : ts.length ≤ (ts.flatMap Token.bytes).length := by
  induction ts with
  | nil => exact le_rfl
  | cons t ts ih =>
    have := t.size_pos
    rw [List.flatMap_cons, List.length_append, List.length_cons, Token.length_bytes]
    omega

theorem arity_le_of_mem {t : Token} (member : t ∈ ts) :
    t.arity ≤ min (255 * (ts.flatMap Token.bytes).length) 510 := by
  have inside : t.size ≤ (ts.flatMap Token.bytes).length := by
    induction ts with
    | nil => cases member
    | cons u us ih =>
      rw [List.flatMap_cons, List.length_append, Token.length_bytes]
      rcases List.mem_cons.mp member with rfl | later
      · exact Nat.le_add_right _ _
      · exact (ih later).trans (Nat.le_add_left _ _)
  exact le_min (t.arity_le.trans (Nat.mul_le_mul_left 255 inside)) childCount_le

theorem symbol_mem_of_counted {cc : ℕ → ℕ → G} {c : Counted Token G}
    (member : c ∈ countedFrom cc level start ts) : c.symbol ∈ ts := by
  induction ts generalizing start with
  | nil => cases member
  | cons t ts ih =>
    rcases List.mem_cons.mp member with rfl | later
    · exact List.mem_cons_self
    · exact List.mem_cons_of_mem _ (ih later)

theorem length_countedFrom (cc : ℕ → ℕ → G) (level : ℕ → ℕ) (start : ℕ) (ts : List Token) :
    (countedFrom cc level start ts).length = ts.length := by
  induction ts generalizing start with
  | nil => rfl
  | cons t ts ih => rw [countedFrom, List.length_cons, ih, List.length_cons]

theorem map_symbol_of_matches {ι : ℕ → G} {cc : ℕ → ℕ → G} {limit : ℕ}
    {visits : List (Visit Token)}
    (matched : List.Forall₂ (Counted.Matches ι limit) visits (countedFrom cc level start ts)) :
    visits.map Visit.symbol = ts := by
  induction ts generalizing start visits with
  | nil =>
    cases matched
    rfl
  | cons t ts ih =>
    cases matched with
    | cons first later => rw [List.map_cons, ih later, first.symbol]

end Positions

/-! ### The document -/

/-- The counters behind the first position: inside the first item its children are to come, and
nothing above. The number of items at the outermost level is free. -/
def FirstItem (bytes : Bytes) (pw : ℕ → PositionWitness E) : Prop :=
  ∀ l, 0 < l → l < kNCounters → (pw 0).ccNext l =
    counter (if l = 1 then childCount (bytes.getD 0 0) (bytes.getD 1 0) else 0 : ℕ)

/-- The tokens of a document in order, in their places. -/
def Document.visits (d : Document bytes) : List (Visit Token) :=
  d.items.visits Token.size 0 0 fun _ => 0

/-- What a witness says about byte `k` of a token: the header bit, the items still to come behind
the token, and the level of the token. Inside a token it selects no level, or the one of the next
item. -/
structure Says (pw : PositionWitness E) (v : Visit Token) (k : ℕ) : Prop where
  header : ((BitPlucker.pluck 1 pw.encodedHeader).1 0).Encodes (decide (k = 0))
  counters : ∀ l < kNCounters, pw.ccNext l = counter (v.later l : ℕ)
  level : k = 0 → ∀ l < kNCounters,
    ((UnaryPlucker.pluck kNCounters pw.encodedSel).1 l).Encodes (decide (l = v.level))
  between : k ≠ 0 → ∀ l < kNCounters,
    ((UnaryPlucker.pluck kNCounters pw.encodedSel).1 l).Encodes true →
      v.later l ≠ 0 ∧ ∀ m < kNCounters, l < m → v.later m = 0

theorem visits_first {F : ℕ → Forest Token} (none : ∀ l, 2 ≤ l → F l = .nil) (t : Token) :
    (Forest.node t (F 1) (F 0)).visits Token.size 0 0 (fun _ => 0) =
      ⟨t, F 1, 0, 0, fun l => (F l).length⟩ ::
        visitsFrom Token.size F (kNCounters + 1) t.size := by
  have pushed : visitsFrom Token.size (push F 0 t) (kNCounters + 1) 0 =
      ⟨t, F 1, 0, 0, fun l => (F l).length⟩ ::
        visitsFrom Token.size F (kNCounters + 1) (0 + t.size) :=
    visitsFrom_push (by decide) none t 0
  have above : ∀ l, 1 ≤ l → push F 0 t l = .nil := by
    intro l some
    by_cases one : l = 0 + 1
    · rw [one]
      exact push_inner F 0 t
    · rw [push_other (by omega) one, none l (by omega)]
  rw [visitsFrom_of_nil (show 1 ≤ kNCounters + 1 by decide) above, visitsFrom, visitsFrom, push_same,
    List.append_nil, Nat.zero_add] at pushed
  have outer : below (push F 0 t) 0 = fun _ => 0 := by
    funext l
    rw [below, if_neg (Nat.not_lt_zero l)]
  rw [outer, Nat.zero_add] at pushed
  exact pushed

theorem leaves (t : Token) (leaf : t.opens = false) : t.arity = 0 := childCount_of_not_opens leaf

/-- **The document of an accepted input**, when the first position opens what its item says. -/
theorem accepted_document (some : bytes ≠ []) (accepted : Accepts bytes pw)
    (apart : Apart E bytes.length) (firstItem : FirstItem bytes pw) :
    ∃ d : Document bytes, ∀ i < bytes.length, ∃ v ∈ d.visits, ∃ k < v.symbol.size,
      i = v.start + k ∧ Says (pw i) v k := by
  obtain ⟨header, sel, encoded, decode, parse⟩ := (accepts_iff some).mp accepted
  have positive : 0 < bytes.length := List.length_pos_iff.mpr some
  obtain ⟨long, wide⟩ := id apart
  obtain ⟨ts, marked⟩ := exists_tokens (lexed_of_facts some decode apart) (Nat.zero_le _)
    fun _ => decode.first
  have exists_level : ∀ i, ∃ l, i < bytes.length → header i = true →
      l < kNCounters ∧ sel i l = true := by
    intro i
    by_cases on : i < bytes.length ∧ header i = true
    · obtain ⟨l, low, selected⟩ := parse.selected i on.1 on.2
      exact ⟨l, fun _ _ => ⟨low, selected⟩⟩
    · exact ⟨0, fun inside here => absurd ⟨inside, here⟩ on⟩
  choose level isLevel using exists_level
  have bytesText : bytes = ts.flatMap Token.bytes := marked.text
  obtain _ | ⟨t, us⟩ := ts
  · exact absurd bytesText some
  obtain ⟨here, none, text, rest⟩ := marked.inversion
  rw [Nat.zero_add] at rest text
  have behind : (us.flatMap Token.bytes).length ≤ bytes.length := by
    rw [bytesText, List.flatMap_cons, List.length_append]
    exact Nat.le_add_left _ _
  have few := length_le_flatMap us
  have chain := chain_of_facts parse decode.known isLevel rest t.size_pos
  obtain ⟨F, lengths, above, ranked, short, matched⟩ := exists_levels chain leaves
    (fun n within c member same => by
      rw [length_countedFrom] at within
      have bound := arity_le_of_mem (symbol_mem_of_counted member)
      exact counter_injective (E := E) (by omega) (by omega) same)
    (fun n within same => by
      rw [length_countedFrom] at within
      exact counter_injective (E := E) (by omega) (by omega) same)
  simp only [length_countedFrom] at short
  -- Inside the first item are its children, and nothing above.
  have inner : ∀ l, 0 < l → (F l).length = if l = 1 then t.arity else 0 := by
    intro l deep
    by_cases low : l < kNCounters
    · have firstCount : (counter ((F l).length : ℕ) : CEltW E) =
          counter (if l = 1 then t.arity else 0 : ℕ) := by
        have first := firstItem l deep low
        have text' : bytes.drop 0 = t.bytes ++ bytes.drop t.size := text
        rw [childCount_eq text'] at first
        rw [← lengths l low, ← first]
        have last : (pw (0 + t.size - 1)).ccNext l = (pw 0).ccNext l :=
          cc_last parse low none (by rw [Nat.zero_add]; exact rest.le)
        rwa [Nat.zero_add] at last
      have bound : t.arity ≤ min (255 * bytes.length) 510 := by
        rw [bytesText]
        exact arity_le_of_mem List.mem_cons_self
      refine counter_injective (E := E) ?_ ?_ firstCount
      · have := short l
        omega
      · split <;> omega
    · rw [above l (by omega), if_neg (by unfold kNCounters at low; omega), length_nil]
  have nothing : ∀ l, 2 ≤ l → F l = .nil := by
    intro l deep
    have count := inner l (by omega)
    rw [if_neg (by omega)] at count
    exact length_eq_zero.mp count
  have levelZero : level 0 = 0 := by
    obtain ⟨low, on⟩ := isLevel 0 positive decode.first
    exact sel_unique parse positive low (by decide) on parse.first
  have visits := visits_first nothing t
  have all : List.Forall₂ (Counted.Matches (fun n => (counter (n : ℕ) : CEltW E)) kNCounters)
      ((Forest.node t (F 1) (F 0)).visits Token.size 0 0 fun _ => 0)
      (countedFrom (fun i => (pw i).ccNext) level 0 (t :: us)) := by
    rw [visits, countedFrom, Nat.zero_add]
    exact .cons ⟨rfl, rfl, levelZero.symm, fun l low => lengths l low⟩ matched
  have symbols : (Forest.node t (F 1) (F 0)).symbols = t :: us := by
    have symbol : ((Forest.node t (F 1) (F 0)).visits Token.size 0 0 fun _ => 0).map Visit.symbol =
        t :: us := map_symbol_of_matches all
    rwa [map_symbol_visits] at symbol
  have children : (F 1).length = t.arity := (inner 1 Nat.one_pos).trans (if_pos rfl)
  refine ⟨⟨.node t (F 1) (F 0), ⟨children, (ranked 1).1, (ranked 0).1⟩,
    ⟨fun _ => by decide, (ranked 1).2, (ranked 0).2⟩, by rw [symbols]; exact bytesText.symm⟩,
    fun i inside => ?_⟩
  obtain ⟨v, member, k, place⟩ := exists_visit parse marked all (Nat.zero_le i) inside
  refine ⟨v, member, k, place.inside, place.position, ?_, place.counters, fun zero l low => ?_,
    fun more l low on => ?_⟩
  · exact place.header ▸ (encoded i inside).1
  · have here : header i = true := by rw [place.header, decide_eq_true zero]
    have same : level i = v.level := by rw [← place.level, place.position, zero, Nat.add_zero]
    obtain ⟨low', selected⟩ := isLevel i inside here
    refine ((encoded i inside).2 l low).congr ?_
    by_cases equal : l = level i
    · rw [equal, selected, same, decide_eq_true rfl]
    · rw [decide_eq_false (same ▸ equal), ← Bool.not_eq_true]
      exact fun also => equal (sel_unique parse inside low low' also selected)
  · have selected : sel i l = true := ((encoded i inside).2 l low).unique on
    have off : header i = false := by rw [place.header, decide_eq_false more]
    have start : 0 < i := by
      have := place.position
      omega
    have previous : i - 1 + 1 = i := by omega
    have same : ∀ m < kNCounters, (pw (i - 1)).ccNext m = counter (v.later m : ℕ) := by
      intro m low
      rw [← place.counters m low, parse.update i inside start m low, updated, off, Bool.and_false,
        Bool.false_and, if_neg (fun both => Bool.false_ne_true both.2), Bool.and_false,
        if_neg Bool.false_ne_true, cadd_zero]
    refine ⟨fun zero => ?_, fun m low' above' => ?_⟩
    · have product := parse.invprod (i - 1) (by omega)
      have factor : Counter.znzIndicator ((pw (i - 1)).ccNext l) = 0 := by
        rw [same l low, zero, znzIndicator_eq_zero]
        rfl
      rw [previous, Finset.prod_eq_zero (Finset.mem_range.mpr low)
        (by rw [selected, if_pos rfl, factor]), zero_mul] at product
      exact zero_ne_one product
    · have held := parse.maximal (i - 1) (by omega) l m above' low' (by rw [previous]; exact selected)
      have bound := later_le _ member m
      have count := length_le_flatMap (t :: us)
      rw [symbols, ← bytesText] at *
      refine counter_injective (E := E) (n := 0) ?_ (by omega) ((same m low').symm.trans held)
      rcases bound with zero | less <;> omega

/-- **An accepted input has one reading**: its tokens are where the headers are, and, when the first
position opens what its item says, it is a document and the counters are those of the document. -/
theorem accepted_reads (some : bytes ≠ []) (accepted : Accepts bytes pw)
    (large : bytes.length * 256 < counterOrder E) :
    (∃ ts : List Token, ts.flatMap Token.bytes = bytes ∧
      (∀ us : List Token, us.flatMap Token.bytes = bytes → us = ts) ∧
      ∀ i < bytes.length, ((BitPlucker.pluck 1 (pw i).encodedHeader).1 0).Encodes
        (decide (i ∈ starts 0 ts))) ∧
    (FirstItem bytes pw → ∃ d : Document bytes, (∀ other : Document bytes, other = d) ∧
      ∀ i < bytes.length, ∃ v ∈ d.visits, ∃ k < v.symbol.size, i = v.start + k ∧ Says (pw i) v k) := by
  have positive : 0 < bytes.length := List.length_pos_iff.mpr some
  have apart : Apart E bytes.length := ⟨by omega, by omega⟩
  constructor
  · obtain ⟨header, sel, encoded, decode, parse⟩ := (accepts_iff some).mp accepted
    obtain ⟨ts, marked⟩ := exists_tokens (lexed_of_facts some decode apart) (Nat.zero_le _)
      fun _ => decode.first
    have text : ts.flatMap Token.bytes = bytes := marked.text.symm
    refine ⟨ts, text, fun us same => tokens_injective (same.trans text.symm), fun i inside => ?_⟩
    refine (encoded i inside).1.congr ?_
    rw [Bool.eq_iff_iff, marked.iff (Nat.zero_le i) inside, decide_eq_true_eq]
  · intro firstItem
    obtain ⟨d, each⟩ := accepted_document some accepted apart firstItem
    exact ⟨d, fun other => other.unique d, each⟩

/-! ### A small field -/

/-- The field of ML-DSA. -/
abbrev Fq := ZMod 8380417

instance prime_Fq : Fact (Nat.Prime 8380417) := ⟨by norm_num⟩

instance : CircuitField Fq where
  toField := inferInstance
  characteristic := 8380417
  charP := ZMod.charP 8380417
  kCharacteristicTwo := false
  two_iff := by norm_num
  kSubFieldBits := 32
  kSubFieldBits_ge := by norm_num
  g := 1
  orderOf_g := nofun
  scalars := by
    intro u v left right same
    have congruent : u ≡ v [MOD 8380417] := (ZMod.natCast_eq_natCast_iff u v 8380417).mp same
    exact Nat.ModEq.eq_of_lt_of_lt congruent (by omega) (by omega)

theorem counterOrder_Fq : counterOrder Fq = 8380417 := rfl

/-- The numbers of the array of one and two. -/
def arrayPlan : Plan where
  header _ := true
  level i := if i = 0 then 0 else 1
  slen _ := 1
  cc i l := if l = 1 then 2 - i else 0

/-- The first array is read as it is. -/
theorem accepted_reads_array : (FirstItem [0x82, 1, 2] (arrayPlan.witness : ℕ → PositionWitness Fq)) ∧
    ((∃ ts : List Token, ts.flatMap Token.bytes = [0x82, 1, 2] ∧
      (∀ us : List Token, us.flatMap Token.bytes = [0x82, 1, 2] → us = ts) ∧
      ∀ i < 3, ((BitPlucker.pluck 1 (arrayPlan.witness i : PositionWitness Fq).encodedHeader).1
        0).Encodes (decide (i ∈ starts 0 ts))) ∧
    (FirstItem [0x82, 1, 2] (arrayPlan.witness : ℕ → PositionWitness Fq) →
      ∃ d : Document [0x82, 1, 2], (∀ other : Document [0x82, 1, 2], other = d) ∧
        ∀ i < 3, ∃ v ∈ d.visits, ∃ k < v.symbol.size, i = v.start + k ∧
          Says (arrayPlan.witness i : PositionWitness Fq) v k)) := by
  refine ⟨fun l some below => ?_, accepted_reads (by decide) (accepts_of_fits (by decide) ?_) ?_⟩
  · obtain rfl | rfl | rfl : l = 1 ∨ l = 2 ∨ l = 3 := by unfold kNCounters at below; omega
    all_goals rfl
  · rw [counterOrder_Fq]
    decide
  · rw [counterOrder_Fq]
    decide

/-- The numbers of three numbers that are counted a level too deep behind the first one. -/
def forgedPlan : Plan where
  header i := i ≠ 2
  level i := if i = 0 then 0 else if i = 2 then kNCounters else 1
  slen i := if i = 1 then 2 else 1
  cc i l := if l = 1 then [2, 1, 1, 0].getD i 0 else 0

/-- Zero, twenty-four and one. -/
def threeNumbers : Document [0, 0x18, 0x18, 1] where
  items := .node ⟨0, [], rfl, rfl⟩ .nil (.node ⟨0x18, [0x18], rfl, rfl⟩ .nil
    (.node ⟨1, [], rfl, rfl⟩ .nil .nil))
  ranked := ⟨rfl, trivial, rfl, trivial, rfl, trivial, trivial⟩
  nested := ⟨nofun, trivial, nofun, trivial, nofun, trivial, trivial⟩
  text := rfl

/-- An accepted witness may count a sequence as the children of its first item, and select no level
inside a token. -/
theorem forged_accepted : [(0 : UInt8), 0x18, 0x18, 1].length * 256 < counterOrder Fq ∧
    Accepts [0, 0x18, 0x18, 1] (forgedPlan.witness : ℕ → PositionWitness Fq) ∧
    (¬ ∃ d : Document [0, 0x18, 0x18, 1], ∀ i < 4, ∃ v ∈ d.visits, ∃ k < v.symbol.size,
      i = v.start + k ∧ Says (forgedPlan.witness i : PositionWitness Fq) v k) ∧
    ∀ l < kNCounters, ((UnaryPlucker.pluck kNCounters
      (forgedPlan.witness 2 : PositionWitness Fq).encodedSel).1 l).Encodes false := by
  refine ⟨by rw [counterOrder_Fq]; decide, accepts_of_fits (by decide) ?_, ?_, fun l below => ?_⟩
  · rw [counterOrder_Fq]
    decide
  · rintro ⟨d, each⟩
    rw [d.unique threeNumbers] at each
    obtain ⟨v, member, k, inside, position, said⟩ := each 0 (by decide)
    have first : v.later 0 = 2 := by
      have starts : ∀ w ∈ threeNumbers.visits, w.start = 0 → w.later 0 = 2 := by
        intro w member zero
        rcases List.mem_cons.mp member with rfl | member
        · rfl
        rcases List.mem_cons.mp member with rfl | member
        · exact absurd zero (by decide)
        rcases List.mem_cons.mp member with rfl | member
        · exact absurd zero (by decide)
        · cases member
      exact starts v member (by omega)
    have same : (counter ((0 : ℕ) : ℤ) : CEltW Fq) = counter ((2 : ℕ) : ℤ) :=
      first ▸ said.counters 0 (by decide)
    exact absurd (counter_injective (E := Fq) (by decide) (by decide) same) (by decide)
  · exact (unaryPlucker_point (by decide) (le_refl kNCounters)).congr
      (decide_eq_false (by omega))

end Longfellow.CborV2
