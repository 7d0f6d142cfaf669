/-
**Random numbers from random bytes** (`runtime/random/src/lib.rs`).

A number below a bound comes from as many bytes as the bound has, masked to the bits of the bound
and drawn again until it is below it. Distinct indices come from such numbers by a partial shuffle.

* `choose_samples` — **the chosen indices are distinct, in range and a prefix of every longer
  choice**, and they are found exactly when none of the draws rejects forever.
-/

import Longfellow.Lib.Rejection
import Longfellow.Random.Choose
import Mathlib.Data.Nat.Digits.Lemmas
import Mathlib.Data.Nat.Size

namespace Longfellow

open Lib

/-- A source of random bytes: a call gives as many as it is asked for. -/
structure RandomBytes (ρ : Type) where
  bytes : Nat → ρ → Bytes × ρ
  length_bytes : ∀ len r, (bytes len r).1.length = len

/-- The source that reads a stream of bytes from a position on. -/
def RandomBytes.ofStream (stream : Nat → UInt8) : RandomBytes Nat where
  bytes len position := ((List.range len).map fun i => stream (position + i), position + len)
  length_bytes len position := by simp

/-! ### The bounded sampler -/

/-- Count the bytes of a bound: the shifts until nothing is left. -/
def byteCountLoop : Nat → Nat → Nat → Exec Running Nat
  | 0, _, _ => raise .running
  | rounds + 1, nn, l => if nn ≠ 0 then byteCountLoop rounds (nn >>> 8) (l + 1) else pure l

/-- The number of bytes of a bound; after eight shifts nothing is left. -/
def byteCount (n : Nat) : Exec Running Nat := byteCountLoop 9 n 0

/-- Grow a mask of 64 bits until it covers the bound. -/
def maskLoop (n : Nat) : Nat → Nat → Exec Running Nat
  | 0, _ => raise .running
  | rounds + 1, msk =>
    if n &&& msk ≠ n then maskLoop n rounds ((msk <<< 1) % 2 ^ 64 ||| 1) else pure msk

/-- The bit mask for a bound; after 64 shifts it is full. -/
def mask (n : Nat) : Exec Running Nat := maskLoop n 65 0

/-- The number of `l` bytes, the first byte lowest. -/
def combine (buf : Bytes) (l : Nat) : Exec Running Nat :=
  (List.range l).reverse.foldlM (fun r i => do
    let byte ← getAt buf i
    pure ((r <<< 8) % 2 ^ 64 ||| byte.toNat)) 0

namespace RandomBytes

variable {ρ : Type} (engine : RandomBytes ρ) {n : Nat} {rounds : Nat}

/-- A draw of `l` bytes, masked. -/
def draw (l msk : Nat) (r : ρ) : Exec Running (Nat × ρ) := do
  let (buf, r) := engine.bytes l r
  let drawn ← combine buf l
  pure (drawn &&& msk, r)

/-- A random number below `n`, in a number of rounds. -/
def nat (rounds n : Nat) (r : ρ) : Exec Running (Nat × ρ) := do
  ensure (n > 0) "nat(0) is undefined"
  let l ← byteCount n
  ensure (l ≤ 8) "assertion failed: l <= std::mem::size_of::<usize>()"
  let msk ← mask n
  drawUntil (· < n) (engine.draw l msk) rounds r

/-- Draw the index at position `i`. The state is the result, the table and the source. -/
def chooseStep (rounds n : Nat) (state : (List Nat × List Nat) × ρ) (i : Nat) :
    Exec Running ((List Nat × List Nat) × ρ) := do
  let (draw, r) ← engine.nat rounds (n - i) state.2
  let a ← swapAt state.1.2 i ((i + draw) % n)
  let drawn ← getAt a i
  let res ← setAt state.1.1 i drawn
  pure ((res, a), r)

/-- Choose `k` distinct indices below `n` into the front of `res`. -/
def choose (rounds : Nat) (res : List Nat) (n k : Nat) (r : ρ) : Exec Running (List Nat × ρ) :=
  if n = 0 ∨ k = 0 then pure (res, r)
  else do
    ensure (n ≥ k ∧ res.length ≥ k) "assertion failed: n >= k && res.len() >= k"
    let ((res, _), r) ← (List.range k).foldlM (engine.chooseStep rounds n) ((res, List.range n), r)
    pure (res, r)

end RandomBytes

/-! ### What a draw is -/

/-- The number of bytes of a bound. -/
abbrev byteLength (n : Nat) : Nat := (Nat.digits 256 n).length

theorem byteCountLoop_eq {nn : Nat} (enough : byteLength nn < rounds) (l : Nat) :
    byteCountLoop rounds nn l = .ok (l + byteLength nn) := by
  induction rounds generalizing nn l with
  | zero => omega
  | succ rounds ih =>
    rw [byteCountLoop]
    by_cases none : nn = 0
    · subst none
      rw [if_neg (by simp), pure_eq_ok, byteLength, Nat.digits_zero, List.length_nil, Nat.add_zero]
    · have digits : byteLength nn = byteLength (nn >>> 8) + 1 := by
        rw [byteLength, Nat.digits_def' (by decide) (Nat.pos_of_ne_zero none), List.length_cons,
          Nat.shiftRight_eq_div_pow]
      rw [if_pos none, ih (by omega), digits]
      congr 1
      omega

theorem byteLength_le (fits : n < 2 ^ 64) : byteLength n ≤ 8 :=
  (Nat.digits_length_le_iff (by decide) n).mpr (fits.trans_eq (by norm_num))

theorem byteCount_eq (fits : n < 2 ^ 64) : byteCount n = .ok (byteLength n) := by
  have short := byteLength_le fits
  rw [byteCount, byteCountLoop_eq (by omega), Nat.zero_add]

theorem mask_shift {bits : Nat} (room : bits < 64) :
    ((2 ^ bits - 1) <<< 1) % 2 ^ 64 ||| 1 = 2 ^ (bits + 1) - 1 := by
  have positive : 0 < 2 ^ bits := Nat.two_pow_pos bits
  have fits : 2 ^ bits ≤ 2 ^ 63 := Nat.pow_le_pow_right (by omega) (by omega)
  have small : (2 ^ bits - 1) <<< 1 < 2 ^ 64 := by
    rw [Nat.shiftLeft_eq]
    omega
  rw [Nat.mod_eq_of_lt small, ← Nat.shiftLeft_add_eq_or_of_lt (by decide), Nat.shiftLeft_eq, pow_succ]
  omega

theorem maskLoop_eq (fits : n.size ≤ 64) {bits : Nat} (below : bits ≤ n.size)
    (enough : n.size - bits < rounds) :
    maskLoop n rounds (2 ^ bits - 1) = .ok (2 ^ n.size - 1) := by
  induction rounds generalizing bits with
  | zero => omega
  | succ rounds ih =>
    rw [maskLoop, Nat.and_two_pow_sub_one_eq_mod]
    by_cases covered : n < 2 ^ bits
    · obtain rfl : bits = n.size := Nat.le_antisymm below (Nat.size_le.mpr covered)
      rw [if_neg (by rw [Nat.mod_eq_of_lt covered]; simp), pure_eq_ok]
    · have more : bits < n.size := Nat.lt_size.mpr (Nat.le_of_not_lt covered)
      have small : n % 2 ^ bits < 2 ^ bits := Nat.mod_lt _ (Nat.two_pow_pos bits)
      rw [if_pos (by omega), mask_shift (by omega)]
      exact ih more (by omega)

theorem mask_eq (fits : n < 2 ^ 64) : mask n = .ok (2 ^ n.size - 1) := by
  have small : n.size ≤ 64 := Nat.size_le.mpr fits
  exact maskLoop_eq small (show 0 ≤ n.size from Nat.zero_le _) (by omega)

theorem combine_eq {buf : Bytes} {l : Nat} (size : buf.length = l) (short : l ≤ 8) :
    combine buf l = .ok (leValue buf) := by
  subst size
  suffices ∀ taken ≤ buf.length, (List.range taken).reverse.foldlM (fun r i => do
      let byte ← getAt buf i
      pure ((r <<< 8) % 2 ^ 64 ||| byte.toNat)) (leValue (buf.drop taken)) =
        (.ok (leValue buf) : Exec Running Nat) by
    have start := this buf.length le_rfl
    rwa [List.drop_length] at start
  intro taken inside
  induction taken with
  | zero => rfl
  | succ taken ih =>
    have here : taken < buf.length := inside
    have later := leValue_lt (buf.drop (taken + 1))
    have fits : 256 ^ (buf.drop (taken + 1)).length ≤ 256 ^ 7 :=
      Nat.pow_le_pow_right (by omega) (by rw [List.length_drop]; omega)
    have small : leValue (buf.drop (taken + 1)) <<< 8 < 2 ^ 64 := by
      rw [Nat.shiftLeft_eq]
      omega
    have next : leValue (buf.drop taken) =
        (leValue (buf.drop (taken + 1)) <<< 8) % 2 ^ 64 ||| (buf[taken]).toNat := by
      rw [List.drop_eq_getElem_cons here, leValue, Nat.mod_eq_of_lt small,
        ← Nat.shiftLeft_add_eq_or_of_lt (buf[taken]).toNat_lt, Nat.shiftLeft_eq]
      omega
    rw [List.range_succ, List.reverse_append, List.reverse_singleton, List.singleton_append,
      List.foldlM_cons, getAt_of_lt here, ok_bind, pure_eq_ok, ok_bind, ← next]
    exact ih (by omega)

namespace RandomBytes

variable {ρ : Type} (engine : RandomBytes ρ)

/-- The draw for a bound: the bits of the bound, of as many bytes as the bound has. -/
def masked (n : Nat) (r : ρ) : Nat × ρ :=
  (leValue (engine.bytes (byteLength n) r).1 % 2 ^ n.size, (engine.bytes (byteLength n) r).2)

/-- The sampler takes the first draw below its bound. -/
def Sampled (n : Nat) : ρ → Nat → ρ → Prop := Accepted (· < n) (engine.masked n)

theorem nat_eq (positive : 0 < n) (fits : n < 2 ^ 64) (r : ρ) : engine.nat rounds n r =
    drawUntil (· < n) (engine.draw (byteLength n) (2 ^ n.size - 1)) rounds r := by
  simp only [nat, ensure_of positive, byteCount_eq fits, ensure_of (byteLength_le fits),
    mask_eq fits, ok_bind]

theorem draw_eq (fits : n < 2 ^ 64) (r : ρ) :
    engine.draw (byteLength n) (2 ^ n.size - 1) r = .ok (engine.masked n r) := by
  simp only [draw, combine_eq (engine.length_bytes (byteLength n) r) (byteLength_le fits), ok_bind,
    pure_eq_ok, Nat.and_two_pow_sub_one_eq_mod, masked]

variable (rounds) in
/-- **A number drawn is below its bound**, and a sampler that has not returned is still running. -/
theorem nat_cases (positive : 0 < n) (fits : n < 2 ^ 64) (r : ρ) :
    (∃ v t, engine.nat rounds n r = .ok (v, t) ∧ v < n ∧ engine.Sampled n r v t) ∨
      engine.nat rounds n r = .error (.err .running) := by
  rw [engine.nat_eq positive fits]
  obtain ⟨v, t, ran, accepted⟩ | still :=
    drawUntil_cases (· < n) (engine.draw_eq fits) rounds r
  · exact .inl ⟨v, t, ran, accepted.holds, accepted⟩
  · exact .inr still

variable {engine}

theorem Sampled.below {r t : ρ} {v : Nat} (sampled : engine.Sampled n r v t) : v < n := by
  unfold Sampled at sampled
  exact sampled.holds

theorem Sampled.reached {r t : ρ} {v : Nat} (sampled : engine.Sampled n r v t) (fits : n < 2 ^ 64) :
    ∃ enough, ∀ rounds ≥ enough, engine.nat rounds n r = .ok (v, t) := by
  have below := sampled.below
  obtain ⟨enough, ran⟩ := Accepted.reached (engine.draw_eq fits) sampled
  exact ⟨enough, fun rounds more => by rw [engine.nat_eq (by omega) fits, ran rounds more]⟩

end RandomBytes

/-! ### The partial shuffle -/

namespace RandomBytes

variable {ρ : Type} (engine : RandomBytes ρ)

/-- None of the samplers with these bounds, one after the other, rejects forever. -/
def Serves : List Nat → ρ → Prop
  | [], _ => True
  | n :: bounds, r => ∃ v t, engine.Sampled n r v t ∧ Serves bounds t

/-- The bounds of the draws for the positions from `i` on. -/
def bounds (n i len : Nat) : List Nat := (List.range' i len).map (n - ·)

variable (rounds) in
/-- **A run of the shuffle** keeps what was drawn before it and is served by every sampler; the table
it leaves does not depend on where the indices are written. -/
theorem run_chooseStep (size : n < 2 ^ 64) (len : Nat) {i : Nat} (fits : i + len ≤ n) {a : List Nat}
    (table : a.Perm (List.range n)) (r : ρ) :
    (∃ a' t, engine.Serves (bounds n i len) r ∧
      ∀ {k : Nat} {res : List Nat}, Drawn n k i res a → i + len ≤ k → ∃ res',
        (List.range' i len).foldlM (engine.chooseStep rounds n) ((res, a), r) =
          .ok ((res', a'), t) ∧
        Drawn n k (i + len) res' a' ∧ res'.take i = res.take i ∧
        res'.drop (i + len) = res.drop (i + len)) ∨
    ∀ {k : Nat} {res : List Nat}, Drawn n k i res a → i + len ≤ k →
      (List.range' i len).foldlM (engine.chooseStep rounds n) ((res, a), r) =
        .error (.err .running) := by
  induction len generalizing i a r with
  | zero => exact .inl ⟨a, r, trivial, fun drawn _ => ⟨_, rfl, drawn, rfl, rfl⟩⟩
  | succ len ih =>
    simp only [List.range'_succ, List.foldlM_cons]
    obtain ⟨v, t, ran, below, sampled⟩ | still :=
      engine.nat_cases rounds (n := n - i) (by omega) (by omega) r
    · obtain ⟨a', here, swapped, table', placed⟩ := place_returns (ε := Running) table below
      have step : ∀ {k : Nat} {res : List Nat}, Drawn n k i res a → i < k →
          engine.chooseStep rounds n ((res, a), r) i = .ok ((res.set i a'[i], a'), t) := by
        intro k res drawn more
        simp only [chooseStep, ran, ok_bind, swapped, getAt_of_lt here, (placed drawn more).1,
          pure_eq_ok]
      have next : ∀ {k : Nat} {res : List Nat}, Drawn n k i res a → i < k →
          Drawn n k (i + 1) (res.set i a'[i]) a' := fun drawn more => (placed drawn more).2
      obtain ⟨a'', t', served, rest⟩ | still := ih (i := i + 1) (by omega) table' t
      · refine .inl ⟨a'', t', ⟨v, t, sampled, served⟩, fun {k res} drawn more => ?_⟩
        obtain ⟨res', ran', drawn', front, back⟩ := rest (next drawn (by omega)) (by omega)
        rw [Nat.add_right_comm, Nat.add_assoc] at drawn' back
        refine ⟨res', by rw [step drawn (by omega), ok_bind, ran'], drawn', ?_, ?_⟩
        · have shorter := congrArg (List.take i) front
          rw [List.take_take, List.take_take, Nat.min_eq_left (by omega)] at shorter
          rw [shorter, List.take_set_of_le le_rfl]
        · rw [back, List.drop_set_of_lt (by omega)]
      · refine .inr fun {k res} drawn more => ?_
        rw [step drawn (by omega), ok_bind]
        exact still (next drawn (by omega)) (by omega)
    · refine .inr fun {k res} drawn more => ?_
      rw [chooseStep, still]
      rfl

variable {k : Nat} {res : List Nat}

theorem chooseStep_reached (size : n < 2 ^ 64) (len : Nat) {i : Nat} (fits : i + len ≤ n)
    {a : List Nat} (table : a.Perm (List.range n)) {r : ρ}
    (served : engine.Serves (bounds n i len) r) (drawn : Drawn n k i res a) (room : i + len ≤ k) :
    ∃ rounds out, (List.range' i len).foldlM (engine.chooseStep rounds n) ((res, a), r) =
      .ok out := by
  obtain ⟨enough, all⟩ : ∃ enough, ∀ rounds ≥ enough, ∃ out,
      (List.range' i len).foldlM (engine.chooseStep rounds n) ((res, a), r) = .ok out := by
    induction len generalizing i a r res with
    | zero => exact ⟨0, fun _ _ => ⟨_, rfl⟩⟩
    | succ len ih =>
      obtain ⟨v, t, sampled, rest⟩ := served
      have bound : n - i < 2 ^ 64 := by omega
      obtain ⟨here, ran⟩ := sampled.reached bound
      obtain ⟨a', inside, swapped, table', placed⟩ :=
        place_returns (ε := Running) table sampled.below
      obtain ⟨recorded, drawn'⟩ := placed drawn (by omega)
      obtain ⟨later, finished⟩ := ih (i := i + 1) (by omega) table' rest drawn' (by omega)
      refine ⟨max here later, fun rounds enough => ?_⟩
      simp only [List.range'_succ, List.foldlM_cons, chooseStep, ran rounds (by omega), ok_bind,
        swapped, getAt_of_lt inside, recorded, pure_eq_ok]
      exact finished rounds (by omega)
  obtain ⟨out, ran⟩ := all enough le_rfl
  exact ⟨enough, out, ran⟩

theorem choose_eq (some : k ≠ 0) (fits : k ≤ n) (room : k ≤ res.length) (r : ρ) :
    engine.choose rounds res n k r = (do
      let ((res, _), r) ← (List.range' 0 k).foldlM (engine.chooseStep rounds n)
        ((res, List.range n), r)
      pure (res, r)) := by
  rw [choose, if_neg (by omega), ensure_of ⟨fits, room⟩, ok_bind]
  simp only [List.range_eq_range']

theorem drawn_start (res : List Nat) : Drawn n res.length 0 res (List.range n) :=
  ⟨List.Perm.refl _, rfl, rfl⟩

variable (rounds) in
theorem choose_cases (size : n < 2 ^ 64) (fits : k ≤ n) (r : ρ) :
    (∃ a t, engine.Serves (bounds n 0 k) r ∧ ∀ {res : List Nat}, k ≤ res.length → ∃ idx,
        engine.choose rounds res n k r = .ok (idx, t) ∧ Drawn n res.length k idx a ∧
        idx.drop k = res.drop k) ∨
      ∀ {res : List Nat}, k ≤ res.length →
        engine.choose rounds res n k r = .error (.err .running) := by
  by_cases some : k = 0
  · subst some
    refine .inl ⟨List.range n, r, trivial, fun {res} _ => ⟨res, ?_, drawn_start res, rfl⟩⟩
    rw [choose, if_pos (.inr rfl), pure_eq_ok]
  obtain ⟨a, t, served, run⟩ | still := engine.run_chooseStep rounds size k
    (i := 0) (by omega) (List.Perm.refl _) r
  · refine .inl ⟨a, t, served, fun {res} room => ?_⟩
    obtain ⟨idx, ran, drawn, _, back⟩ := run (drawn_start res) (by omega)
    rw [Nat.zero_add] at drawn back
    exact ⟨idx, by rw [engine.choose_eq some fits room, ran]; rfl, drawn, back⟩
  · refine .inr fun {res} room => ?_
    rw [engine.choose_eq some fits room, still (drawn_start res) (by omega)]
    rfl

/-- **A shorter choice is the front of a longer one** from the same bytes. -/
theorem choose_prefix (size : n < 2 ^ 64) {j : Nat} (shorter : j ≤ k) (fits : k ≤ n)
    {other idx : List Nat} (room : k ≤ res.length) (room' : j ≤ other.length) {r t : ρ}
    (ran : engine.choose rounds res n k r = .ok (idx, t)) :
    ∃ idx' t', engine.choose rounds other n j r = .ok (idx', t') ∧ idx'.take j = idx.take j := by
  by_cases none : j = 0
  · subst none
    exact ⟨other, r, by rw [choose, if_pos (.inr rfl), pure_eq_ok], rfl⟩
  have split : List.range' 0 k = List.range' 0 j ++ List.range' j (k - j) := by
    have joined := @List.range'_append_1 0 j (k - j)
    rwa [Nat.zero_add, Nat.add_sub_cancel' shorter, eq_comm] at joined
  rw [engine.choose_eq (by omega) fits room, split, List.foldlM_append] at ran
  obtain ⟨a, s, _, first⟩ | still := engine.run_chooseStep rounds size j
    (i := 0) (by omega) (List.Perm.refl _) r
  · obtain ⟨res', ran', drawn, -, -⟩ := first (drawn_start res) (by omega)
    obtain ⟨idx', ranOther, drawnOther, -, -⟩ := first (drawn_start other) (by omega)
    rw [Nat.zero_add] at drawn drawnOther
    refine ⟨idx', s, by rw [engine.choose_eq none (by omega) room', ranOther]; rfl, ?_⟩
    rw [ran', ok_bind] at ran
    obtain ⟨b, s', _, second⟩ | still := engine.run_chooseStep rounds size
      (k - j) (i := j) (by omega) drawn.table s
    · obtain ⟨last, ranLast, -, front, -⟩ := second drawn (by omega)
      rw [ranLast, ok_bind] at ran
      obtain ⟨rfl, -⟩ := Prod.mk.inj (Except.ok.inj ran)
      rw [front, drawn.front, drawnOther.front]
    · rw [still drawn (by omega)] at ran
      cases ran
  · rw [still (drawn_start res) (by omega)] at ran
    cases ran

/-- **The sampler.** It returns exactly when one of its draws is below the bound, the number it
returns is below the bound, and otherwise it is still running. -/
theorem nat_samples (positive : 0 < n) (fits : n < 2 ^ 64) (r : ρ) :
    (∀ rounds, (∃ v t, engine.nat rounds n r = .ok (v, t) ∧ v < n) ∨
      engine.nat rounds n r = .error (.err .running)) ∧
    ((∃ rounds out, engine.nat rounds n r = .ok out) ↔
      ∃ skipped, drawAfter (engine.masked n) skipped r < n) := by
  refine ⟨fun rounds => ?_, ?_⟩
  · obtain ⟨v, t, ran, below, _⟩ | still := engine.nat_cases rounds positive fits r
    · exact .inl ⟨v, t, ran, below⟩
    · exact .inr still
  · rw [← exists_accepted (· < n)]
    constructor
    · rintro ⟨rounds, out, ran⟩
      obtain ⟨v, t, _, _, sampled⟩ | still := engine.nat_cases rounds positive fits r
      · exact ⟨v, t, sampled⟩
      · rw [still] at ran
        cases ran
    · rintro ⟨v, t, accepted⟩
      have sampled : engine.Sampled n r v t := accepted
      obtain ⟨enough, ran⟩ := sampled.reached fits
      exact ⟨enough, (v, t), ran enough le_rfl⟩

/-- **Choosing distinct indices.** For every source of bytes, a choice of `k` indices below `n` is
still running or it has returned `k` distinct indices below `n` at the front of the result, of which
every choice of fewer indices from the same bytes returns a prefix. It returns exactly when none of
its samplers rejects forever; and every sampler returns a number below its bound, exactly when one
of its draws is. -/
theorem choose_samples :
    (∀ (n k : Nat) (res : List Nat) (r : ρ), n < 2 ^ 64 → k ≤ n → k ≤ res.length →
      (∀ rounds, (∃ idx t, engine.choose rounds res n k r = .ok (idx, t) ∧
          (idx.take k).length = k ∧ (idx.take k).Nodup ∧ (∀ i ∈ idx.take k, i < n) ∧
          idx.drop k = res.drop k ∧
          ∀ (j : Nat) (other : List Nat), j ≤ k → j ≤ other.length → ∃ idx' t',
            engine.choose rounds other n j r = .ok (idx', t') ∧ idx'.take j = idx.take j) ∨
        engine.choose rounds res n k r = .error (.err .running)) ∧
      ((∃ rounds out, engine.choose rounds res n k r = .ok out) ↔ engine.Serves (bounds n 0 k) r)) ∧
    ∀ (n : Nat) (r : ρ), 0 < n → n < 2 ^ 64 →
      (∀ rounds, (∃ v t, engine.nat rounds n r = .ok (v, t) ∧ v < n) ∨
        engine.nat rounds n r = .error (.err .running)) ∧
      ((∃ rounds out, engine.nat rounds n r = .ok out) ↔
        ∃ skipped, drawAfter (engine.masked n) skipped r < n) := by
  refine ⟨fun n k res r size fits room => ⟨fun rounds => ?_, ?_⟩,
    fun n r positive fits => engine.nat_samples positive fits r⟩
  · obtain ⟨a, t, _, chosen⟩ | still := engine.choose_cases rounds size fits r
    · obtain ⟨idx, ran, drawn, rest⟩ := chosen room
      have length : idx.length = res.length := drawn.size
      obtain ⟨distinct, inside⟩ := drawn.distinct
      exact .inl ⟨idx, t, ran, by rw [List.length_take]; omega, distinct, inside, rest,
        fun j other shorter room' => engine.choose_prefix size shorter fits room room' ran⟩
    · exact .inr (still room)
  · constructor
    · rintro ⟨rounds, out, ran⟩
      obtain ⟨a, t, served, _⟩ | still := engine.choose_cases rounds size fits r
      · exact served
      · rw [still room] at ran
        cases ran
    · intro served
      by_cases none : k = 0
      · exact ⟨0, (res, r), by rw [choose, if_pos (.inr none), pure_eq_ok]⟩
      obtain ⟨rounds, out, ran⟩ := engine.chooseStep_reached size k (i := 0) (by omega)
        (List.Perm.refl _) served (drawn_start res) (by omega)
      exact ⟨rounds, (out.1.1, out.2), by rw [engine.choose_eq none fits room, ran]; rfl⟩

/-- Three indices below five from a stream whose first three bytes are rejected. -/
theorem choose_samples_stream : ∃ t,
    (ofStream fun i => UInt8.ofNat (i + 5)).choose 5 [0, 0, 0] 5 3 0 = .ok ([0, 2, 4], t) ∧
      ∃ idx t', (ofStream fun i => UInt8.ofNat (i + 5)).choose 5 [0, 0] 5 2 0 = .ok (idx, t') ∧
        idx.take 2 = [0, 2] := by
  have ran : (ofStream fun i => UInt8.ofNat (i + 5)).choose 5 [0, 0, 0] 5 3 0 =
    .ok ([0, 2, 4], 6) := by decide +kernel
  obtain ⟨idx, t, ran', -, -, -, -, shorter⟩ | still :=
    ((choose_samples (ofStream fun i => UInt8.ofNat (i + 5))).1 5 3 [0, 0, 0] 0 (by decide)
      (by decide) (by decide)).1 5
  · obtain ⟨rfl, rfl⟩ := Prod.mk.inj (Except.ok.inj (ran.symm.trans ran'))
    exact ⟨6, ran, shorter 2 [0, 0] (by decide) (by decide)⟩
  · rw [ran] at still
    cases still

theorem drawAfter_ones (skipped r : Nat) :
    drawAfter ((ofStream fun _ => 0xff).masked 3) skipped r = 3 := by
  have one : byteLength 3 = 1 := by
    rw [byteLength, Nat.digits_of_lt 256 3 (by decide) (by decide), List.length_singleton]
  have two : Nat.size 3 = 2 := by decide +kernel
  have each : ∀ r, ((ofStream fun _ => 0xff).masked 3 r).1 = 3 := fun r => by
    rw [masked, one, two]
    simp [ofStream, leValue]
  induction skipped generalizing r with
  | zero => exact each r
  | succ skipped ih => exact ih _

/-- **A source whose draws are all rejected keeps the choice running.** -/
theorem choose_rejects : ¬ ∀ (stream : Nat → UInt8) (n k : Nat) (res : List Nat), n < 2 ^ 64 →
    k ≤ n → res.length = k → ∃ rounds idx t,
      (ofStream stream).choose rounds res n k 0 = .ok (idx, t) ∧ idx.length = k ∧ idx.Nodup ∧
        ∀ i ∈ idx, i < n := by
  intro all
  obtain ⟨rounds, idx, t, ran, -⟩ := all (fun _ => 0xff) 3 1 [0] (by decide) (by decide) rfl
  obtain ⟨_, _, served, _⟩ | still :=
    (ofStream fun _ => 0xff).choose_cases rounds (n := 3) (k := 1) (by decide)
      (by decide) 0
  · obtain ⟨v, t, sampled, -⟩ := served
    obtain ⟨skipped, below⟩ := (exists_accepted (· < 3)).mp ⟨v, t, sampled⟩
    rw [drawAfter_ones] at below
    omega
  · rw [still (by decide)] at ran
    cases ran

end RandomBytes

end Longfellow
