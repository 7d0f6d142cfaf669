/-
**Shifts by a secret amount** (`circuits/routing/src/circuit.rs`).

An array is shifted in rounds, each by some bits of the amount: to the front from the top bits down,
to the back from the low bits up. Round by round, the entries that later rounds cannot reach, or
that earlier rounds have not reached, are left alone. Positions are numbers of the machine, and the
number of values of the bits of a round is a signed one of 32 bits.

* `shifts_exact` — **the array from the amount on, and the array behind the amount**, with the
  default elsewhere.
-/

import Longfellow.Gadget.Compare

set_option linter.unusedSectionVars false

namespace Longfellow.Gadget

open Lib CompileField

variable {E : Type} [CompileField E] [DecidableEq E] {T V : Type}

namespace Routing

/-! ### Numbers of the machine -/

/-- A power of two. -/
def shlUsize (l : ℕ) : Exec String ℕ := do
  ensure (l < 64) "attempt to shift left with overflow"
  return 2 ^ l

/-- A power of two as a signed number of 32 bits. -/
def shlI32 (l : ℕ) : Exec String ℤ := do
  ensure (l < 32) "attempt to shift left with overflow"
  return if l < 31 then 2 ^ l else -2 ^ 31

def addUsize (a b : ℕ) : Exec String ℕ := do
  ensure (a + b < 2 ^ 64) "attempt to add with overflow"
  return a + b

def mulUsize (a b : ℕ) : Exec String ℕ := do
  ensure (a * b < 2 ^ 64) "attempt to multiply with overflow"
  return a * b

def subIsize (a b : ℤ) : Exec String ℤ := do
  ensure (-2 ^ 63 ≤ a - b ∧ a - b < 2 ^ 63) "attempt to subtract with overflow"
  return a - b

/-- The bits of a position as a signed number. -/
def asIsize (a : ℕ) : ℤ := if a < 2 ^ 63 then a else a - 2 ^ 64

def saturate (a : ℕ) : ℕ := min a (2 ^ 64 - 1)

/-! ### The circuit -/

/-- The entry at a position, and a default outside of the array. -/
def extend (a : List T) (default : T) (i : ℤ) : T :=
  if 0 ≤ i ∧ i < a.length then a.getD i.toNat default else default

/-- The entry that is selected among those at some positions. -/
def muxAt (mux : List (Bitw E) → (ℕ → T) → Exec String T) (selector : List (Bitw E)) (a : List T)
    (default : T) (position : ℕ → Exec String ℤ) : Exec String T := do
  let data ← (List.range selector.length).mapM fun j => do return extend a default (← position j)
  mux selector fun j => data.getD j default

/-- Shift the first entries to the front by the multiple of `shift` that is selected. -/
def reallyShift (mux : List (Bitw E) → (ℕ → T) → Exec String T) (selector : List (Bitw E))
    (n k : ℕ) (a : List T) (shift : ℕ) (default : T) : Exec String (List T) := do
  let limit := min n (← addUsize k shift)
  a.zipIdx.mapM fun x =>
    if x.2 < limit then muxAt mux selector a default fun j => do
      return asIsize (← addUsize x.2 (← mulUsize j shift))
    else pure x.1

/-- Shift the first entries to the back by the multiple of `shift` that is selected. -/
def reallyUnshift (mux : List (Bitw E) → (ℕ → T) → Exec String T) (selector : List (Bitw E))
    (n k : ℕ) (a : List T) (shift : ℕ) (default : T) : Exec String (List T) :=
  let c := selector.length
  let limit := min n (saturate (k + saturate (c * shift)))
  a.zipIdx.mapM fun x =>
    if x.2 < limit then muxAt mux selector a default fun j => do
      subIsize (asIsize x.2) (asIsize (← mulUsize j shift))
    else pure x.1

/-- The values of `logc` bits of the amount, as a selection. -/
def amountSelector (logc : ℕ) (amount : List (Bitw E)) (l : ℕ) : Exec String (List (Bitw E)) := do
  let c ← shlI32 logc
  let consumedAmount ← (List.range logc).mapM fun k => getAt amount (l + k)
  (List.range c.toNat).mapM fun val => Arithmetic.relint Arithmetic.eqb consumedAmount val

/-- The rounds that are left, with `l` bits of the amount. -/
def shiftRounds (mux : List (Bitw E) → (ℕ → T) → Exec String T) (amount : List (Bitw E))
    (n k : ℕ) (default : T) : ℕ → ℕ → List T → Exec String (List T)
  | 0, _, tmp => pure tmp
  | rounds + 1, l, tmp => do
    let consumed := divCeil l (rounds + 1)
    let l := l - consumed
    let shift ← shlUsize l
    let selector ← amountSelector consumed amount l
    let tmp ← reallyShift mux selector n k tmp shift default
    shiftRounds mux amount n k default rounds l tmp

def genericShift (mux : List (Bitw E) → (ℕ → T) → Exec String T) (unroll : ℕ)
    (amount : List (Bitw E)) (k : ℕ) (a : List T) (default : T) : Exec String (List T) := do
  ensure (unroll > 0) "unroll parameter must be > 0"
  let n := a.length
  let logn := amount.length
  let tmp ← shiftRounds mux amount n k default (divCeil logn unroll) logn a
  (List.range k).mapM fun i => if i < n then getAt tmp i else pure default

/-- The rounds that are left, after `l` bits of the amount. -/
def unshiftRounds (mux : List (Bitw E) → (ℕ → T) → Exec String T) (amount : List (Bitw E))
    (n k : ℕ) (default : T) : ℕ → ℕ → List T → Exec String (List T)
  | 0, _, a => pure a
  | rounds + 1, l, a => do
    let consumed := divCeil (amount.length - l) (rounds + 1)
    let shift ← shlUsize l
    let selector ← amountSelector consumed amount l
    let a ← reallyUnshift mux selector n k a shift default
    unshiftRounds mux amount n k default rounds (l + consumed) a

def genericUnshift (mux : List (Bitw E) → (ℕ → T) → Exec String T) (unroll : ℕ)
    (amount : List (Bitw E)) (n : ℕ) (b : List T) (default : T) : Exec String (List T) := do
  let k := b.length
  let logn := amount.length
  let a ← (List.range n).mapM fun i => if i < k then getAt b i else pure default
  ensure (unroll ≠ 0) "attempt to divide by zero"
  unshiftRounds mux amount n k default (divCeil logn unroll) 0 a

def shiftBitvec {n m : ℕ} (unroll : ℕ) (amount : Bitvec E m) (k : ℕ) (a : List (Bitvec E n))
    (default : Bitvec E n) : Exec String (List (Bitvec E n)) :=
  genericShift Bitvec.oneHotMux unroll amount.bits k a default

def unshiftBitvec {n m : ℕ} (unroll : ℕ) (amount : Bitvec E m) (k : ℕ) (b : List (Bitvec E n))
    (default : Bitvec E n) : Exec String (List (Bitvec E n)) :=
  genericUnshift Bitvec.oneHotMux unroll amount.bits k b default

def shiftb {m : ℕ} (unroll : ℕ) (amount : Bitvec E m) (k : ℕ) (a : List (Bitw E))
    (default : Bitw E) : Exec String (List (Bitw E)) :=
  genericShift (fun sel data => pure (Boolean.oneHotMuxb sel data)) unroll amount.bits k a default

def unshiftb {m : ℕ} (unroll : ℕ) (amount : Bitvec E m) (n : ℕ) (b : List (Bitw E))
    (default : Bitw E) : Exec String (List (Bitw E)) :=
  genericUnshift (fun sel data => pure (Boolean.oneHotMuxb sel data)) unroll amount.bits n b default

def shifte {m : ℕ} (unroll : ℕ) (amount : Bitvec E m) (k : ℕ) (a : List (Wire E))
    (default : Wire E) : Exec String (List (Wire E)) :=
  genericShift (fun sel data => pure (Boolean.oneHotMuxe sel data)) unroll amount.bits k a default

def unshifte {m : ℕ} (unroll : ℕ) (amount : Bitvec E m) (n : ℕ) (b : List (Wire E))
    (default : Wire E) : Exec String (List (Wire E)) :=
  genericUnshift (fun sel data => pure (Boolean.oneHotMuxe sel data)) unroll amount.bits n b default

/-! ### The amount -/

variable {amount : List (Bitw E)} {xs : List Bool}

theorem testBit_natBits (xs : List Bool) (i : ℕ) : (natBits xs).testBit i = xs.getD i false := by
  induction xs generalizing i with
  | nil => simp [natBits]
  | cons x xs ih =>
    have low := Bool.toNat_lt x
    rw [natBits_cons]
    cases i with
    | zero =>
      rw [Nat.testBit_zero, List.getD_cons_zero]
      cases x <;> simp
    | succ i =>
      have halved : (x.toNat + 2 * natBits xs) / 2 = natBits xs := by omega
      rw [Nat.testBit_succ, halved, ih, List.getD_cons_succ]

/-- **Some bits of the amount as a selection.** -/
theorem amountSelector_returns (each : List.Forall₂ Bitw.Encodes amount xs) {logc : ℕ} (l : ℕ)
    (few : logc ≤ 30) (inside : l + logc ≤ xs.length) :
    ∃ selector, amountSelector logc amount l = .ok selector ∧
      OneHot selector (2 ^ logc) (natBits xs / 2 ^ l % 2 ^ logc) := by
  have bitAt : ∀ k ∈ List.range logc,
      ∃ x : Bitw E, (getAt amount (l + k) : Exec String _) = .ok x ∧
        x.Encodes ((natBits xs / 2 ^ l).testBit k) := by
    intro k member
    have below := List.mem_range.mp member
    rw [Nat.testBit_div_two_pow, testBit_natBits, Nat.add_comm k l]
    exact getAt_encodes each (by omega)
  obtain ⟨consumed, taken, bits⟩ := mapM_related bitAt
  have size : consumed.length = logc := by rw [bits.length_eq]; simp
  have selected : ∀ val ∈ List.range (2 ^ logc),
      ∃ c : Bitw E, Arithmetic.relint Arithmetic.eqb consumed val = .ok c ∧
        c.Encodes (decide (val = natBits xs / 2 ^ l % 2 ^ logc)) := by
    intro val member
    have below := List.mem_range.mp member
    obtain ⟨constant, made, isConstant⟩ := Arithmetic.ofU64_returns (E := E) below
    obtain ⟨c, compared, holds⟩ := Arithmetic.eqb_returns bits isConstant
      (by simp [Arithmetic.bitsOfNat])
    refine ⟨c, ?_, ?_⟩
    · rw [Arithmetic.relint, size, made, ok_bind, compared]
    · have same : (List.range logc).map (natBits xs / 2 ^ l).testBit =
          Arithmetic.bitsOfNat logc val ↔ val = natBits xs / 2 ^ l % 2 ^ logc := by
        refine Bitvec.bitsOfNat_eq_iff.trans ?_
        rw [Nat.mod_eq_of_lt below, eq_comm]
      simpa only [same] using holds
  obtain ⟨selector, ran, hot⟩ := mapM_related selected
  have values : shlI32 logc = .ok (2 ^ logc) := by
    rw [shlI32, ensure_of (by omega), ok_bind, pure_eq_ok, if_pos (by omega)]
  have count : ((2 : ℤ) ^ logc).toNat = 2 ^ logc := by
    rw [← Int.toNat_natCast (2 ^ logc), Nat.cast_pow, Nat.cast_ofNat]
  refine ⟨selector, ?_, hot⟩
  rw [amountSelector, values, ok_bind, taken, ok_bind, count, ran]

/-! ### Rounds -/

variable {mux : List (Bitw E) → (ℕ → T) → Exec String T} {r : T → V → Prop} {default : T} {d : V}
  {ws : List V} {a : List T}

/-- A selection between entries that stand for values stands for the value selected. -/
def Selects (mux : List (Bitw E) → (ℕ → T) → Exec String T) (r : T → V → Prop) : Prop :=
  ∀ {selector c chosen}, OneHot selector c chosen → chosen < c →
    ∀ (data : ℕ → T) (values : ℕ → V), (∀ i < c, r (data i) (values i)) →
      ∃ t, mux selector data = .ok t ∧ r t (values chosen)

theorem extend_natCast (a : List T) (default : T) (i : ℕ) :
    extend a default (i : ℤ) = a.getD i default := by
  unfold extend
  by_cases inside : i < a.length
  · rw [if_pos ⟨Int.natCast_nonneg i, by exact_mod_cast inside⟩, Int.toNat_natCast]
  · rw [if_neg (by omega), List.getD_eq_default _ _ (by omega)]

theorem extend_of_neg (a : List T) (default : T) {i : ℤ} (negative : i < 0) :
    extend a default i = default := if_neg fun ⟨positive, _⟩ => absurd positive (not_le.mpr negative)

theorem extend_asIsize (short : a.length ≤ 2 ^ 63) (default : T) {i : ℕ}
    (small : i < 2 ^ 64) : extend a default (asIsize i) = a.getD i default := by
  unfold asIsize
  by_cases positive : i < 2 ^ 63
  · rw [if_pos positive, extend_natCast]
  · rw [if_neg positive, extend_of_neg _ _ (by omega), List.getD_eq_default _ _ (by omega)]

theorem extend_sub (a : List T) (default : T) (i distance : ℕ) :
    extend a default ((i : ℤ) - distance) =
      if distance ≤ i then a.getD (i - distance) default else default := by
  by_cases reached : distance ≤ i
  · rw [if_pos reached, ← Nat.cast_sub reached, extend_natCast]
  · rw [if_neg reached, extend_of_neg _ _ (by omega)]

theorem extend_related (each : List.Forall₂ r a ws)
    (outside : r default d) (i : ℤ) : r (extend a default i) (extend ws d i) := by
  unfold extend
  rw [each.length_eq]
  split_ifs
  · exact Arithmetic.getD_related each outside _
  · exact outside

section Selection

variable {selector : List (Bitw E)} {c chosen : ℕ}

theorem muxAt_returns (selects : Selects mux r) (outside : r default d)
    (hot : OneHot selector c chosen) (inside : chosen < c) (each : List.Forall₂ r a ws)
    (position : ℕ → Exec String ℤ) (place : ℕ → ℤ) (reads : ∀ j < c, position j = .ok (place j)) :
    ∃ t, muxAt mux selector a default position = .ok t ∧ r t (extend ws d (place chosen)) := by
  have data : (List.range selector.length).mapM (fun j => do
      return extend a default (← position j) : ℕ → Exec String T) =
      .ok ((List.range c).map fun j => extend a default (place j)) := by
    rw [hot.length_eq]
    refine mapM_eq_ok_map fun j member => ?_
    rw [reads j (List.mem_range.mp member), ok_bind, pure_eq_ok]
  obtain ⟨t, ran, holds⟩ := selects hot inside
    (fun j => ((List.range c).map fun j => extend a default (place j)).getD j default)
    (fun j => extend ws d (place j)) fun j small => by
      rw [List.getD_eq_getElem _ _ (by rwa [List.length_map, List.length_range]), List.getElem_map,
        List.getElem_range]
      exact extend_related each outside _
  refine ⟨t, ?_, holds⟩
  rw [muxAt, data, ok_bind, ran]

theorem entries_returns (limit : ℕ) (replace : ℕ → Exec String T) (value : ℕ → V)
    (each : List.Forall₂ r a ws) (outside : r default d)
    (replaced : ∀ i < ws.length, i < limit → ∃ t, replace i = .ok t ∧ r t (value i)) :
    ∃ out, (a.zipIdx.mapM fun x => if x.2 < limit then replace x.2 else pure x.1) = .ok out ∧
      List.Forall₂ r out
        ((List.range ws.length).map fun i => if i < limit then value i else ws.getD i d) := by
  have entry : ∀ x ∈ a.zipIdx, ∃ t, (if x.2 < limit then replace x.2 else pure x.1) = .ok t ∧
      r t (if x.2 < limit then value x.2 else ws.getD x.2 d) := by
    intro x member
    have stored : a[x.2]? = some x.1 := List.mem_zipIdx_iff_getElem?.mp member
    by_cases early : x.2 < limit
    · rw [if_pos early, if_pos early]
      exact replaced x.2 (each.length_eq ▸ (List.getElem?_eq_some_iff.mp stored).1) early
    · rw [if_neg early, if_neg early]
      have same : a.getD x.2 default = x.1 := by rw [List.getD_eq_getElem?_getD, stored]; rfl
      exact ⟨x.1, rfl, same ▸ Arithmetic.getD_related each outside x.2⟩
  obtain ⟨out, ran, related⟩ := mapM_related entry
  refine ⟨out, ran, ?_⟩
  have positions : a.zipIdx.map Prod.snd = List.range ws.length := by
    rw [List.zipIdx_map_snd, each.length_eq, List.range_eq_range']
  have values : a.zipIdx.map (fun x => if x.2 < limit then value x.2 else ws.getD x.2 d) =
      (List.range ws.length).map fun i => if i < limit then value i else ws.getD i d := by
    rw [← positions, List.map_map]
    rfl
  exact values ▸ related

/-- The values after a round to the front. -/
def shifted (ws : List V) (d : V) (limit distance : ℕ) : List V :=
  (List.range ws.length).map fun i => if i < limit then ws.getD (i + distance) d else ws.getD i d

/-- The values after a round to the back. -/
def unshifted (ws : List V) (d : V) (limit distance : ℕ) : List V :=
  (List.range ws.length).map fun i => if i < limit then
    if distance ≤ i then ws.getD (i - distance) d else d else ws.getD i d

variable {shift : ℕ}

theorem mul_lt_of_selected {j : ℕ} (small : j < c) : j * shift + shift ≤ c * shift := by
  rw [← Nat.succ_mul]
  exact Nat.mul_le_mul_right shift small

theorem mulUsize_of_lt {i j : ℕ} (small : i * j < 2 ^ 64) : mulUsize i j = .ok (i * j) := by
  rw [mulUsize, ensure_of small, ok_bind, pure_eq_ok]

theorem addUsize_of_lt {i j : ℕ} (small : i + j < 2 ^ 64) : addUsize i j = .ok (i + j) := by
  rw [addUsize, ensure_of small, ok_bind, pure_eq_ok]

variable (selects : Selects mux r) (outside : r default d) (hot : OneHot selector c chosen)
  (inside : chosen < c)
include selects outside hot inside

theorem reallyShift_returns (each : List.Forall₂ r a ws) (n : ℕ) {k : ℕ}
    (short : ws.length < 2 ^ 63) (reach : c * shift ≤ 2 ^ 63) (room : k + shift < 2 ^ 64) :
    ∃ out, reallyShift mux selector n k a shift default = .ok out ∧
      List.Forall₂ r out (shifted ws d (min n (k + shift)) (chosen * shift)) := by
  have replaced : ∀ i < ws.length, i < min n (k + shift) → ∃ t,
      muxAt mux selector a default (fun j => do
        return asIsize (← addUsize i (← mulUsize j shift))) = .ok t ∧
      r t (ws.getD (i + chosen * shift) d) := by
    intro i near _
    obtain ⟨t, ran, holds⟩ := muxAt_returns selects outside hot inside each
      (fun j => do return asIsize (← addUsize i (← mulUsize j shift)))
      (fun j => asIsize (i + j * shift)) fun j small => by
        have product : j * shift + shift ≤ c * shift := mul_lt_of_selected small
        rw [mulUsize_of_lt (by omega), ok_bind, addUsize_of_lt (by omega), ok_bind, pure_eq_ok]
    have product : chosen * shift + shift ≤ c * shift := mul_lt_of_selected inside
    rw [extend_asIsize (by omega) d (by omega)] at holds
    exact ⟨t, ran, holds⟩
  obtain ⟨out, ran, related⟩ := entries_returns _ _ _ each outside replaced
  refine ⟨out, ?_, related⟩
  rw [reallyShift, addUsize_of_lt room, ok_bind, ran]

theorem reallyUnshift_returns (each : List.Forall₂ r a ws) (n : ℕ) {k : ℕ} (some : 0 < shift)
    (short : ws.length < 2 ^ 63) (reach : c * shift ≤ 2 ^ 63) (room : k + c * shift < 2 ^ 64) :
    ∃ out, reallyUnshift mux selector n k a shift default = .ok out ∧
      List.Forall₂ r out (unshifted ws d (min n (k + c * shift)) (chosen * shift)) := by
  have replaced : ∀ i < ws.length, i < min n (k + c * shift) → ∃ t,
      muxAt mux selector a default (fun j => do
        subIsize (asIsize i) (asIsize (← mulUsize j shift))) = .ok t ∧
      r t (if chosen * shift ≤ i then ws.getD (i - chosen * shift) d else d) := by
    intro i near _
    obtain ⟨t, ran, holds⟩ := muxAt_returns selects outside hot inside each
      (fun j => do subIsize (asIsize i) (asIsize (← mulUsize j shift)))
      (fun j => (i : ℤ) - (j * shift : ℕ)) fun j small => by
        have product : j * shift + shift ≤ c * shift := mul_lt_of_selected small
        rw [mulUsize_of_lt (by omega), ok_bind, asIsize, asIsize, if_pos (by omega),
          if_pos (by omega), subIsize, ensure_of (by omega), ok_bind, pure_eq_ok]
    rw [extend_sub] at holds
    exact ⟨t, ran, holds⟩
  obtain ⟨out, ran, related⟩ := entries_returns _ _ _ each outside replaced
  refine ⟨out, ?_, related⟩
  have first : saturate (c * shift) = c * shift := Nat.min_eq_left (by omega)
  have second : saturate (k + c * shift) = k + c * shift := Nat.min_eq_left (by omega)
  dsimp only [reallyUnshift]
  rw [hot.length_eq, first, second, ran]

end Selection

/-- The entries in reach of the bits of the amount that are left, `l` of them, have been shifted
by the others. -/
structure Reached (vs : List V) (d : V) (k amount l : ℕ) (ws : List V) : Prop where
  size : ws.length = vs.length
  entries : ∀ i < vs.length, i < k + 2 ^ l → ws.getD i d = vs.getD (i + amount / 2 ^ l * 2 ^ l) d

variable {vs : List V} {k l : ℕ}

/-- **A round**: `c` more bits of the amount are done. -/
theorem Reached.step {amount c : ℕ} (reached : Reached vs d k amount (l + c) ws) :
    Reached vs d k amount l
      (shifted ws d (min vs.length (k + 2 ^ l)) (amount / 2 ^ l % 2 ^ c * 2 ^ l)) := by
  refine ⟨by rw [shifted, List.length_map, List.length_range, reached.size], fun i inside near => ?_⟩
  have entry : (shifted ws d (min vs.length (k + 2 ^ l)) (amount / 2 ^ l % 2 ^ c * 2 ^ l)).getD i d =
      ws.getD (i + amount / 2 ^ l % 2 ^ c * 2 ^ l) d := by
    have below : i < (shifted ws d (min vs.length (k + 2 ^ l))
        (amount / 2 ^ l % 2 ^ c * 2 ^ l)).length := by
      rw [shifted, List.length_map, List.length_range, reached.size]
      exact inside
    rw [List.getD_eq_getElem _ _ below]
    simp only [shifted, List.getElem_map, List.getElem_range]
    rw [if_pos (lt_min inside near)]
  -- The bits of this round and the bits above them.
  have bits : amount / 2 ^ l % 2 ^ c * 2 ^ l + amount / 2 ^ (l + c) * 2 ^ (l + c) =
      amount / 2 ^ l * 2 ^ l := by
    have split := Nat.mod_add_div (amount / 2 ^ l) (2 ^ c)
    rw [Nat.div_div_eq_div_mul, ← pow_add] at split
    calc _ = (amount / 2 ^ l % 2 ^ c + 2 ^ c * (amount / 2 ^ (l + c))) * 2 ^ l := by
          rw [pow_add]; ring
      _ = _ := by rw [split]
  rw [entry, ← bits, ← Nat.add_assoc]
  by_cases stays : i + amount / 2 ^ l % 2 ^ c * 2 ^ l < vs.length
  · have few : amount / 2 ^ l % 2 ^ c + 1 ≤ 2 ^ c := Nat.mod_lt _ (Nat.two_pow_pos c)
    have reach : (amount / 2 ^ l % 2 ^ c + 1) * 2 ^ l ≤ 2 ^ (l + c) := by
      rw [pow_add, Nat.mul_comm (2 ^ l)]
      exact Nat.mul_le_mul_right _ few
    rw [Nat.add_mul, Nat.one_mul] at reach
    exact reached.entries _ stays (by omega)
  · rw [List.getD_eq_default _ _ (by rw [reached.size]; omega), List.getD_eq_default _ _ (by omega)]

variable {rounds : ℕ}

theorem share_le (few : l ≤ 30 * (rounds + 1)) :
    divCeil l (rounds + 1) ≤ 30 ∧ divCeil l (rounds + 1) ≤ l ∧
      l - divCeil l (rounds + 1) ≤ 30 * rounds := by
  have small : divCeil l (rounds + 1) ≤ 30 := by
    apply Nat.le_of_lt_succ
    apply Nat.div_lt_of_lt_mul
    omega
  have all := le_divCeil_mul l (Nat.succ_pos rounds)
  rw [Nat.succ_eq_add_one] at all
  refine ⟨small, ?_, ?_⟩
  · rcases Nat.eq_zero_or_pos l with rfl | some
    · rw [divCeil, Nat.div_eq_of_lt (by omega)]
    · apply Nat.div_le_of_le_mul
      have most := Nat.mul_le_mul_left rounds some
      rw [Nat.add_mul, Nat.one_mul]
      omega
  · have most := Nat.mul_le_mul_left rounds small
    rw [Nat.mul_add, Nat.mul_one, Nat.mul_comm] at all
    omega

theorem shlUsize_of_lt (small : l < 64) : shlUsize l = .ok (2 ^ l) := by
  rw [shlUsize, ensure_of small, ok_bind, pure_eq_ok]

/-- **What is returned after the rounds that are left**, to the front. -/
theorem shiftRounds_returns (selects : Selects mux r) (outside : r default d)
    (bits : List.Forall₂ Bitw.Encodes amount xs) (short : vs.length < 2 ^ 63) (room : k < 2 ^ 63)
    (fits : l ≤ xs.length) (narrow : l ≤ 63) (few : l ≤ 30 * rounds) {tmp : List T}
    (each : List.Forall₂ r tmp ws) (reached : Reached vs d k (natBits xs) l ws) :
    ∃ out us, shiftRounds mux amount vs.length k default rounds l tmp = .ok out ∧
      List.Forall₂ r out us ∧ Reached vs d k (natBits xs) 0 us := by
  induction rounds generalizing l tmp ws with
  | zero =>
    obtain rfl : l = 0 := by omega
    exact ⟨tmp, ws, rfl, each, reached⟩
  | succ rounds ih =>
    obtain ⟨small, above, rest⟩ := share_le few
    rw [shiftRounds]
    generalize divCeil l (rounds + 1) = c at small above rest
    obtain ⟨left, rfl⟩ : ∃ left, l = left + c := ⟨l - c, by omega⟩
    rw [Nat.add_sub_cancel] at rest
    have reach : 2 ^ c * 2 ^ left ≤ 2 ^ 63 := by
      rw [← Nat.pow_add]
      exact Nat.pow_le_pow_right (by decide) (by omega)
    have distance : 2 ^ left ≤ 2 ^ 63 := Nat.pow_le_pow_right (by decide) (by omega)
    obtain ⟨selector, made, hot⟩ := amountSelector_returns bits left small fits
    obtain ⟨next, ran, eachNext⟩ := reallyShift_returns selects outside hot
      (Nat.mod_lt _ (Nat.two_pow_pos c)) each vs.length (reached.size ▸ short) reach
      (show k + 2 ^ left < 2 ^ 64 by omega)
    obtain ⟨out, us, later, holds⟩ := ih (by omega) (by omega) rest eachNext reached.step
    refine ⟨out, us, ?_, holds⟩
    rw [Nat.add_sub_cancel, shlUsize_of_lt (by omega), ok_bind, made, ok_bind, ran, ok_bind, later]

/-- The entries have been shifted to the back by `l` bits of the amount. -/
structure Placed (vs : List V) (d : V) (n amount l : ℕ) (ws : List V) : Prop where
  size : ws.length = n
  entries : ∀ i < n, ws.getD i d = if amount % 2 ^ l ≤ i then vs.getD (i - amount % 2 ^ l) d else d

variable {n : ℕ}

/-- **A round**: `c` more bits of the amount are done. Entries that are left alone are behind all
entries that were shifted. -/
theorem Placed.step {amount : ℕ} (placed : Placed vs d n amount l ws) (c : ℕ) :
    Placed vs d n amount (l + c)
      (unshifted ws d (min n (vs.length + 2 ^ c * 2 ^ l)) (amount / 2 ^ l % 2 ^ c * 2 ^ l)) := by
  refine ⟨by rw [unshifted, List.length_map, List.length_range, placed.size], fun i inside => ?_⟩
  have bits : amount % 2 ^ (l + c) = amount % 2 ^ l + amount / 2 ^ l % 2 ^ c * 2 ^ l := by
    rw [Nat.pow_add, Nat.mod_mul, Nat.mul_comm (2 ^ l)]
  have low : amount % 2 ^ l < 2 ^ l := Nat.mod_lt _ (Nat.two_pow_pos l)
  have high : amount / 2 ^ l % 2 ^ c * 2 ^ l + 2 ^ l ≤ 2 ^ c * 2 ^ l :=
    mul_lt_of_selected (Nat.mod_lt _ (Nat.two_pow_pos c))
  have entry : (unshifted ws d (min n (vs.length + 2 ^ c * 2 ^ l))
      (amount / 2 ^ l % 2 ^ c * 2 ^ l)).getD i d =
      if i < min n (vs.length + 2 ^ c * 2 ^ l) then
        if amount / 2 ^ l % 2 ^ c * 2 ^ l ≤ i then
          ws.getD (i - amount / 2 ^ l % 2 ^ c * 2 ^ l) d
        else d
      else ws.getD i d := by
    have below : i < (unshifted ws d (min n (vs.length + 2 ^ c * 2 ^ l))
        (amount / 2 ^ l % 2 ^ c * 2 ^ l)).length := by
      rw [unshifted, List.length_map, List.length_range, placed.size]
      exact inside
    rw [List.getD_eq_getElem _ _ below]
    simp only [unshifted, List.getElem_map, List.getElem_range]
  have entries := placed.entries
  rw [entry, bits]
  generalize amount / 2 ^ l % 2 ^ c * 2 ^ l = distance at high
  generalize amount % 2 ^ l = before at entries low
  by_cases early : i < min n (vs.length + 2 ^ c * 2 ^ l)
  · rw [if_pos early]
    by_cases reached : distance ≤ i
    · have same : before ≤ i - distance ↔ before + distance ≤ i := by omega
      have gap : i - distance - before = i - (before + distance) := by omega
      rw [if_pos reached, entries _ (by omega), gap]
      simp only [same]
    · rw [if_neg reached, if_neg (by omega)]
  · have late : vs.length + 2 ^ c * 2 ^ l ≤ i := by omega
    rw [if_neg early, entries i inside, if_pos (by omega), if_pos (by omega),
      List.getD_eq_default _ _ (by omega), List.getD_eq_default _ _ (by omega)]

/-- **What is returned after the rounds that are left**, to the back. -/
theorem unshiftRounds_returns (selects : Selects mux r) (outside : r default d)
    (bits : List.Forall₂ Bitw.Encodes amount xs) (short : n < 2 ^ 63) (room : vs.length < 2 ^ 63)
    (fits : l ≤ xs.length) (narrow : xs.length ≤ 63) (few : xs.length - l ≤ 30 * rounds)
    {tmp : List T} (each : List.Forall₂ r tmp ws)
    (placed : Placed vs d n (natBits xs) l ws) :
    ∃ out us, unshiftRounds mux amount n vs.length default rounds l tmp = .ok out ∧
      List.Forall₂ r out us ∧ Placed vs d n (natBits xs) xs.length us := by
  induction rounds generalizing l tmp ws with
  | zero =>
    obtain rfl : l = xs.length := by omega
    exact ⟨tmp, ws, rfl, each, placed⟩
  | succ rounds ih =>
    obtain ⟨small, above, rest⟩ := share_le few
    rw [unshiftRounds, bits.length_eq]
    generalize divCeil (xs.length - l) (rounds + 1) = c at small above rest
    have reach : 2 ^ c * 2 ^ l ≤ 2 ^ 63 := by
      rw [← Nat.pow_add]
      exact Nat.pow_le_pow_right (by decide) (by omega)
    obtain ⟨selector, made, hot⟩ := amountSelector_returns bits l small (by omega)
    obtain ⟨next, ran, eachNext⟩ := reallyUnshift_returns selects outside hot
      (Nat.mod_lt _ (Nat.two_pow_pos c)) each n (Nat.two_pow_pos l) (placed.size ▸ short) reach
      (show vs.length + 2 ^ c * 2 ^ l < 2 ^ 64 by omega)
    obtain ⟨out, us, later, holds⟩ := ih (by omega) (by omega) eachNext (placed.step c)
    refine ⟨out, us, ?_, holds⟩
    rw [shlUsize_of_lt (by omega), ok_bind, made, ok_bind, ran, ok_bind, later]

/-! ### Shifts -/

/-- Lengths of arrays, amounts that are positions, and 30 bits of them at most in a round. -/
structure Fits (n k width unroll : ℕ) : Prop where
  positive : 0 < unroll
  input : n < 2 ^ 63
  output : k < 2 ^ 63
  narrow : width ≤ 63
  rounds : width ≤ 30 * divCeil width unroll

variable {unroll : ℕ}

section

variable (selects : Selects mux r) (outside : r default d)
  (bits : List.Forall₂ Bitw.Encodes amount xs)
include selects outside bits

/-- **The array from the amount on**, and the default behind its end. -/
theorem genericShift_returns (each : List.Forall₂ r a vs)
    (fits : Fits vs.length k xs.length unroll) :
    ∃ out, genericShift mux unroll amount k a default = .ok out ∧
      List.Forall₂ r out ((List.range k).map fun i => vs.getD (i + natBits xs) d) := by
  have start : Reached vs d k (natBits xs) xs.length vs := by
    refine ⟨rfl, fun i _ _ => ?_⟩
    rw [Nat.div_eq_of_lt (natBits_lt xs), Nat.zero_mul, Nat.add_zero]
  obtain ⟨tmp, us, ran, related, reached⟩ := shiftRounds_returns selects outside bits fits.input
    fits.output le_rfl fits.narrow fits.rounds each start
  have entry : ∀ i ∈ List.range k, ∃ t, (if i < a.length then getAt tmp i else pure default :
      Exec String T) = .ok t ∧ r t (vs.getD (i + natBits xs) d) := by
    intro i member
    have few := List.mem_range.mp member
    by_cases inside : i < a.length
    · have inTmp : i < tmp.length := by
        rwa [related.length_eq, reached.size, ← each.length_eq]
      refine ⟨tmp[i], by rw [if_pos inside, getAt_of_lt inTmp], ?_⟩
      have value := reached.entries i (each.length_eq ▸ inside) (by omega)
      rw [pow_zero, Nat.div_one, Nat.mul_one] at value
      rw [← value, ← List.getD_eq_getElem tmp default inTmp]
      exact Arithmetic.getD_related related outside i
    · refine ⟨default, by rw [if_neg inside]; rfl, ?_⟩
      rw [List.getD_eq_default _ _ (by rw [← each.length_eq]; omega)]
      exact outside
  obtain ⟨out, collected, holds⟩ := mapM_related entry
  refine ⟨out, ?_, holds⟩
  rw [genericShift, ensure_of fits.positive, ok_bind]
  dsimp only
  rw [each.length_eq] at collected ⊢
  rw [bits.length_eq, ran, ok_bind, collected]

/-- **The array behind the amount**, and the default before it and behind its end. -/
theorem genericUnshift_returns {b : List T} (each : List.Forall₂ r b vs)
    (fits : Fits vs.length n xs.length unroll) :
    ∃ out, genericUnshift mux unroll amount n b default = .ok out ∧
      List.Forall₂ r out ((List.range n).map fun i =>
        if natBits xs ≤ i then vs.getD (i - natBits xs) d else d) := by
  have entry : ∀ i ∈ List.range n, ∃ t, (if i < b.length then getAt b i else pure default :
      Exec String T) = .ok t ∧ r t (vs.getD i d) := by
    intro i _
    by_cases inside : i < b.length
    · refine ⟨b[i], by rw [if_pos inside, getAt_of_lt inside], ?_⟩
      rw [← List.getD_eq_getElem b default inside]
      exact Arithmetic.getD_related each outside i
    · refine ⟨default, by rw [if_neg inside]; rfl, ?_⟩
      rw [List.getD_eq_default _ _ (by rw [← each.length_eq]; omega)]
      exact outside
  obtain ⟨a, collected, started⟩ := mapM_related entry
  have start : Placed vs d n (natBits xs) 0 ((List.range n).map fun i => vs.getD i d) := by
    refine ⟨by rw [List.length_map, List.length_range], fun i inside => ?_⟩
    rw [pow_zero, Nat.mod_one, if_pos (Nat.zero_le i), Nat.sub_zero,
      List.getD_eq_getElem _ _ (by rwa [List.length_map, List.length_range]), List.getElem_map,
      List.getElem_range]
  obtain ⟨out, us, ran, related, placed⟩ := unshiftRounds_returns selects outside bits fits.output
    fits.input (Nat.zero_le _) fits.narrow fits.rounds started start
  have values : us = (List.range n).map fun i =>
      if natBits xs ≤ i then vs.getD (i - natBits xs) d else d := by
    have entries := placed.entries
    rw [Nat.mod_eq_of_lt (natBits_lt xs)] at entries
    refine List.ext_getElem (by rw [placed.size, List.length_map, List.length_range]) ?_
    intro i inside inside'
    rw [← List.getD_eq_getElem us d inside, entries i (placed.size ▸ inside), List.getElem_map,
      List.getElem_range]
  refine ⟨out, ?_, values ▸ related⟩
  rw [genericUnshift, collected, ok_bind, ensure_of (Nat.pos_iff_ne_zero.mp fits.positive), ok_bind,
    bits.length_eq, each.length_eq, ran]

end

/-- **A shift to the front and a shift to the back.** An array and a default that stand for values
become the array from a distance on, and the array behind that distance. -/
def AreExact (shift unshift : ℕ → List T → T → Exec String (List T)) (r : T → V → Prop) (n k : ℕ)
    (distance : ℕ) : Prop :=
  ∀ (a : List T) (default : T) (vs : List V) (d : V), vs.length = n → List.Forall₂ r a vs →
    r default d →
    (∃ out, shift k a default = .ok out ∧
      List.Forall₂ r out ((List.range k).map fun i => vs.getD (i + distance) d)) ∧
    (∃ out, unshift k a default = .ok out ∧
      List.Forall₂ r out ((List.range k).map fun i =>
        if distance ≤ i then vs.getD (i - distance) d else d))

theorem areExact_of_selects (selects : Selects mux r) {m : ℕ} {amount : Bitvec E m}
    {distance : BitVec m} (isAmount : amount.Holds distance) (fits : Fits n k m unroll) :
    AreExact (genericShift mux unroll amount.bits) (genericUnshift mux unroll amount.bits) r n k
      distance.toNat := by
  intro a default vs d size each outside
  have fits' : Fits vs.length k (bitsOf distance).length unroll := by
    rw [size, length_bitsOf]
    exact fits
  rw [← Bitvec.natBits_bitsOf distance]
  exact ⟨genericShift_returns selects outside isAmount each fits',
    genericUnshift_returns selects outside isAmount each fits'⟩

theorem selects_bits : Selects (V := Bool)
    (fun sel data => pure (Boolean.oneHotMuxb (E := E) sel data)) Bitw.Encodes :=
  fun hot inside _ _ each => ⟨_, rfl, oneHotMuxb_encodes hot inside each⟩

theorem selects_wires : Selects (V := E)
    (fun sel data => pure (Boolean.oneHotMuxe sel data)) Wire.Is :=
  fun hot inside _ _ each => ⟨_, rfl, oneHotMuxe_is hot inside each⟩

theorem selects_bitvecs {w : ℕ} : Selects (V := BitVec w) (Bitvec.oneHotMux (E := E)) Bitvec.Holds :=
  fun hot inside _ _ each => Bitvec.oneHotMux_holds hot inside each

/-- **Shifts are exact**, of bits, of vectors of bits and of wires, whatever the number of bits of
the amount that a round takes. -/
theorem shifts_exact {m n k unroll : ℕ} {amount : Bitvec E m} {distance : BitVec m}
    (isAmount : amount.Holds distance) (fits : Fits n k m unroll) :
    AreExact (shiftb unroll amount) (unshiftb unroll amount) Bitw.Encodes n k distance.toNat ∧
    (∀ w, AreExact (shiftBitvec unroll amount) (unshiftBitvec unroll amount)
      (Bitvec.Holds (n := w)) n k distance.toNat) ∧
    AreExact (shifte unroll amount) (unshifte unroll amount) Wire.Is n k distance.toNat :=
  ⟨areExact_of_selects selects_bits isAmount fits,
    fun _ => areExact_of_selects selects_bitvecs isAmount fits,
    areExact_of_selects selects_wires isAmount fits⟩

/-- An array of three entries, by two. -/
theorem shifts_exact_two :
    AreExact (shiftb 1 (Bitvec.konst 2#2 : Bitvec Gf2128Elt 2)) (unshiftb 1 (Bitvec.konst 2#2))
      Bitw.Encodes 3 4 2 :=
  (shifts_exact (Bitvec.konst_holds 2#2) ⟨by decide, by decide, by decide, by decide, by decide⟩).1

/-- **An amount of 31 bits in one round**: the number of its values is a negative one, and no entry
is selected. -/
theorem shifts_lose :
    ¬∀ {m n k unroll : ℕ} {amount : Bitvec Gf2128Elt m} {distance : BitVec m},
      amount.Holds distance → 0 < unroll →
      AreExact (shiftb unroll amount) (unshiftb unroll amount) Bitw.Encodes n k distance.toNat := by
  intro always
  obtain ⟨⟨out, ran, holds⟩, -⟩ := @always 31 1 1 31 (Bitvec.konst 0#31) 0#31
    (Bitvec.konst_holds _) (by decide) [.true] .false [true] false rfl
    (.cons (by trivial) .nil) (by trivial)
  have empty : shiftb 31 (Bitvec.konst 0#31 : Bitvec Gf2128Elt 31) 1 [.true] .false =
      .ok [.p (Logic.sum [])] := rfl
  obtain rfl := Except.ok.inj (empty.symm.trans ran)
  obtain ⟨isOne, -⟩ := List.forall₂_cons.mp holds
  have isZero : (0 : Gf2128Elt) = 1 := isOne.2
  exact CompileField.one_ne_zero isZero.symm

end Routing

end Longfellow.Gadget
