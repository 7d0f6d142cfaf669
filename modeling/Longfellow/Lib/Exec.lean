/-
**Fallible code that can also panic.**

A call of the modelled language ends in a value, in an error that it returns, or in a panic
(a failed assertion, an index out of bounds). `Exec ε` is that result monad, with the checked
array accesses and the assertions the code is made of, and the rules the proofs run it by:

* `foldlM_preserves`, `foldlM_returns` — **the loop rules**: an invariant of every step is an
  invariant of the loop, and a loop whose steps all return under the invariant returns.
-/

import Mathlib.Algebra.Group.Nat.Defs
import Mathlib.Data.List.Forall2
import Mathlib.Data.List.Infix

namespace Lib

/-- Why a call did not return a value: it panicked, or it returned an error. -/
inductive Fault (ε : Type) where
  | panic (message : String)
  | err (error : ε)
  deriving DecidableEq, Repr

/-- The result of running fallible code. -/
abbrev Exec (ε α : Type) := Except (Fault ε) α

variable {ε α β σ : Type}

/-- Abort the run with a panic message. -/
def abort (message : String) : Exec ε α := .error (.panic message)

/-- Return an error. -/
def raise (error : ε) : Exec ε α := .error (.err error)

/-- An assertion: a panic unless the condition holds. -/
def ensure (cond : Prop) [Decidable cond] (message : String) : Exec ε Unit :=
  if cond then pure () else abort message

/-- A guard: the error is returned unless the condition holds. -/
def check (cond : Prop) [Decidable cond] (error : ε) : Exec ε Unit :=
  if cond then pure () else raise error

/-- A checked read of an array cell. -/
def getAt (xs : List α) (i : Nat) : Exec ε α :=
  match xs[i]? with
  | some a => pure a
  | none => abort "index out of bounds"

/-- A checked write of an array cell. -/
def setAt (xs : List α) (i : Nat) (a : α) : Exec ε (List α) :=
  if i < xs.length then pure (xs.set i a) else abort "index out of bounds"

/-- A checked slice of an array, from `lo` up to `hi`. -/
def slice (xs : List α) (lo hi : Nat) : Exec ε (List α) :=
  if lo ≤ hi ∧ hi ≤ xs.length then pure ((xs.drop lo).take (hi - lo))
  else abort "range out of range for slice"

/-- Work on a window of an array, from `lo` up to `hi`. -/
def withSlice (xs : List α) (lo hi : Nat) (work : List α → Exec ε (List α)) :
    Exec ε (List α) := do
  let window ← slice xs lo hi
  let window ← work window
  pure (xs.take lo ++ window ++ xs.drop hi)

/-- The value of an option, or an error. -/
def okOr (x : Option α) (error : ε) : Exec ε α :=
  match x with
  | some a => pure a
  | none => raise error

/-- The value of an option, or a panic with the message of the `expect`. -/
def expect (x : Option α) (message : String) : Exec ε α :=
  match x with
  | some a => pure a
  | none => abort message

/-- A checked read of an array of two. -/
def slotOf (pair : α × α) : Nat → Option α
  | 0 => some pair.1
  | 1 => some pair.2
  | _ => none

/-- Continue with the error of a failed call; a panic stays a panic. -/
def mapErr {δ : Type} (handle : δ → Exec ε α) (x : Exec δ α) : Exec ε α :=
  match x with
  | .ok a => pure a
  | .error (.panic message) => abort message
  | .error (.err error) => handle error

/-! ### Sizes of 64 bits -/

/-- A product, or nothing when it does not fit. -/
def checkedMul (a b : Nat) : Option Nat := if a * b < 2 ^ 64 then some (a * b) else none

/-- A sum, or nothing when it does not fit. -/
def checkedAdd (a b : Nat) : Option Nat := if a + b < 2 ^ 64 then some (a + b) else none

/-- A difference of unsigned sizes. -/
def checkedSub (a b : Nat) : Exec ε Nat :=
  if b ≤ a then pure (a - b) else abort "attempt to subtract with overflow"

/-- A quotient rounded up. -/
def divCeil (a b : Nat) : Nat := (a + b - 1) / b

theorem le_divCeil_mul (a : Nat) {b : Nat} (pos : 0 < b) : a ≤ divCeil a b * b := by
  have split := Nat.div_add_mod (a + b - 1) b
  have small := Nat.mod_lt (a + b - 1) pos
  rw [Nat.mul_comm] at split
  rw [divCeil]
  omega

variable {i : Nat}

theorem mul_lt_of_lt_divCeil {a b : Nat} (pos : 0 < b) (row : i < divCeil a b) : i * b < a := by
  have split := Nat.div_mul_le_self (a + b - 1) b
  have next := Nat.mul_le_mul_right b (show i + 1 ≤ (a + b - 1) / b from row)
  rw [Nat.succ_mul] at next
  omega

/-! ### Running the primitives -/

@[simp] theorem pure_eq_ok (a : α) : (pure a : Exec ε α) = .ok a := rfl

@[simp] theorem ok_bind (a : α) (f : α → Exec ε β) : (Except.ok a >>= f : Exec ε β) = f a := rfl

@[simp] theorem error_bind (e : Fault ε) (f : α → Exec ε β) :
    (Except.error e >>= f : Exec ε β) = .error e := rfl

variable {b : β} {x : Exec ε α} {f : α → Exec ε β}

theorem bind_eq_ok :
    (x >>= f) = .ok b ↔ ∃ a, x = .ok a ∧ f a = .ok b := by
  cases x with
  | error e => simp
  | ok a => simp

@[simp] theorem abort_ne_ok (message : String) (a : α) :
    (abort message : Exec ε α) ≠ .ok a := by simp [abort]

@[simp] theorem raise_ne_ok (error : ε) (a : α) : (raise error : Exec ε α) ≠ .ok a := by
  simp [raise]

variable {cond : Prop} {message : String}

@[simp] theorem ensure_eq_ok [Decidable cond] {u : Unit} :
    (ensure cond message : Exec ε Unit) = .ok u ↔ cond := by
  by_cases holds : cond <;> simp [ensure, holds]

@[simp] theorem check_eq_ok [Decidable cond] {error : ε} {u : Unit} :
    (check cond error : Exec ε Unit) = .ok u ↔ cond := by
  by_cases holds : cond <;> simp [check, holds]

theorem ensure_of [Decidable cond] (holds : cond) :
    (ensure cond message : Exec ε Unit) = .ok () := ensure_eq_ok.mpr holds

theorem check_of [Decidable cond] {error : ε} (holds : cond) :
    (check cond error : Exec ε Unit) = .ok () := check_eq_ok.mpr holds

theorem check_check (a b : Prop) [Decidable a] [Decidable b] (error : ε) :
    (check a error >>= fun _ => check b error) = check (a ∧ b) error := by
  by_cases holds : a
  · rw [check_of holds, ok_bind, check, check]
    simp only [holds, true_and]
  · have first : check a error = raise error := if_neg holds
    have both : check (a ∧ b) error = raise error := if_neg fun all => holds all.1
    rw [first, both]
    rfl

theorem okOr_bind (x : Option α) (g : α → Option β) (error : ε) :
    (okOr x error >>= fun a => okOr (g a) error) = okOr (x.bind g) error := by
  cases x <;> rfl

variable {δ : Type}

@[simp] theorem mapErr_ok (handle : δ → Exec ε α) (a : α) :
    mapErr handle (.ok a) = .ok a := rfl

variable {a : α}

theorem mapErr_eq_ok {handle : δ → Exec ε α} {x : Exec δ α} (fails : ∀ e, handle e ≠ .ok a) :
    mapErr handle x = .ok a ↔ x = .ok a := by
  match x with
  | .ok b => exact Iff.rfl.trans (by simp)
  | .error (.panic message) => simp [mapErr]
  | .error (.err e) => simpa [mapErr] using fails e

@[simp] theorem expect_some (a : α) (message : String) :
    (expect (some a) message : Exec ε α) = .ok a := rfl

theorem expect_eq_ok {x : Option α} :
    (expect x message : Exec ε α) = .ok a ↔ x = some a := by
  cases x <;> simp [expect]

variable {xs : List α}

theorem getAt_eq_ok :
    (getAt xs i : Exec ε α) = .ok a ↔ xs[i]? = some a := by
  unfold getAt
  cases found : xs[i]? <;> simp

theorem getAt_of_lt (bound : i < xs.length) :
    (getAt xs i : Exec ε α) = .ok xs[i] :=
  getAt_eq_ok.mpr (List.getElem?_eq_getElem bound)

theorem setAt_eq_ok {ys : List α} :
    (setAt xs i a : Exec ε (List α)) = .ok ys ↔ i < xs.length ∧ ys = xs.set i a := by
  by_cases bound : i < xs.length
  · simp [setAt, bound, eq_comm]
  · simp [setAt, bound]

theorem setAt_of_lt (bound : i < xs.length) :
    (setAt xs i a : Exec ε (List α)) = .ok (xs.set i a) :=
  setAt_eq_ok.mpr ⟨bound, rfl⟩

theorem slice_of_le {lo hi : Nat} (ordered : lo ≤ hi) (bound : hi ≤ xs.length) :
    (slice xs lo hi : Exec ε (List α)) = .ok ((xs.drop lo).take (hi - lo)) :=
  if_pos ⟨ordered, bound⟩

theorem withSlice_of_le {window : List α} {lo hi : Nat} {work : List α → Exec ε (List α)}
    (ordered : lo ≤ hi) (bound : hi ≤ xs.length)
    (ran : work ((xs.drop lo).take (hi - lo)) = .ok window) :
    withSlice xs lo hi work = .ok (xs.take lo ++ window ++ xs.drop hi) := by
  rw [withSlice, slice_of_le ordered bound, ok_bind, ran, ok_bind, pure_eq_ok]

theorem checkedSub_eq_ok {a b c : Nat} :
    (checkedSub a b : Exec ε Nat) = .ok c ↔ b ≤ a ∧ c = a - b := by
  by_cases ordered : b ≤ a
  · simp [checkedSub, ordered, eq_comm]
  · simp [checkedSub, ordered]

theorem checkedSub_of_le {a b : Nat} (ordered : b ≤ a) :
    (checkedSub a b : Exec ε Nat) = .ok (a - b) := checkedSub_eq_ok.mpr ⟨ordered, rfl⟩

/-- An index into a table stays one when the table grows at its end. -/
theorem getElem?_of_prefixed {ys : List α} (grown : xs <+: ys) (found : xs[i]? = some a) :
    ys[i]? = some a := by
  obtain ⟨more, rfl⟩ := grown
  obtain ⟨bound, _⟩ := List.getElem?_eq_some_iff.mp found
  rw [List.getElem?_append_left bound, found]

theorem of_drop_eq_cons {rest : List α} (left : xs.drop i = a :: rest) :
    xs[i]? = some a ∧ xs.drop (i + 1) = rest := by
  have first := congrArg List.head? left
  have tail := congrArg List.tail left
  rw [List.head?_drop, List.head?_cons] at first
  rw [List.tail_drop, List.tail_cons] at tail
  exact ⟨first, tail⟩

/-! ### Pairs -/

theorem lt_of_slotOf {pair : α × α} (found : slotOf pair i = some a) :
    i < 2 := by
  match i with
  | 0 => decide
  | 1 => decide
  | i + 2 => simp [slotOf] at found

theorem bounds_of_lookup {entries : List α} {pair : α → β × β} {j : Nat}
    (found : (entries[i]?.bind fun entry => slotOf (pair entry) j) = some b) :
    i < entries.length ∧ j < 2 := by
  obtain ⟨entry, isEntry, isSlot⟩ := Option.bind_eq_some_iff.mp found
  exact ⟨(List.getElem?_eq_some_iff.mp isEntry).1, lt_of_slotOf isSlot⟩

/-! ### Loops -/

variable {g : α → β}

/-- A loop whose steps all return a value collects them. -/
theorem mapM_eq_ok_map (each : ∀ x ∈ xs, f x = .ok (g x)) : xs.mapM f = .ok (xs.map g) := by
  induction xs with
  | nil => rfl
  | cons x xs ih =>
    rw [List.mapM_cons, each x (List.mem_cons_self ..), ok_bind,
      ih fun y member => each y (List.mem_cons_of_mem _ member)]
    rfl

theorem forM_eq_ok {f : α → Exec ε Unit} (each : ∀ x ∈ xs, f x = .ok ()) :
    xs.forM f = .ok () := by
  induction xs with
  | nil => rfl
  | cons x xs ih =>
    rw [List.forM, each x (List.mem_cons_self ..), ok_bind]
    exact ih fun y member => each y (List.mem_cons_of_mem _ member)

variable {ys : List β}

theorem mapM_eq_ok (ran : xs.mapM f = .ok ys) :
    List.Forall₂ (fun x y => f x = .ok y) xs ys := by
  induction xs generalizing ys with
  | nil =>
    obtain rfl := Except.ok.inj ran
    exact .nil
  | cons x xs ih =>
    rw [List.mapM_cons, bind_eq_ok] at ran
    obtain ⟨y, head, ran⟩ := ran
    rw [bind_eq_ok] at ran
    obtain ⟨tail, later, ran⟩ := ran
    obtain rfl := Except.ok.inj ran
    exact .cons head (ih later)

variable {r : α → β → Prop}

theorem exists_of_mem_left (related : List.Forall₂ r xs ys) {x : α} (member : x ∈ xs) :
    ∃ y ∈ ys, r x y := by
  induction related with
  | nil => cases member
  | cons head _ ih =>
    rcases List.mem_cons.mp member with rfl | later
    · exact ⟨_, List.mem_cons_self .., head⟩
    · obtain ⟨y, found, here⟩ := ih later
      exact ⟨y, List.mem_cons_of_mem _ found, here⟩

theorem exists_of_mem_right (related : List.Forall₂ r xs ys) {y : β} (member : y ∈ ys) :
    ∃ x ∈ xs, r x y :=
  exists_of_mem_left (List.Forall₂.flip (R := fun y x => r x y) related) member

variable {γ : Type}

/-- A measure of the results of a loop, from a measure of its items. -/
theorem map_eq_of_mapM {g : β → γ} {h : α → γ} (each : ∀ {x y}, f x = .ok y → g y = h x)
    (ran : xs.mapM f = .ok ys) :
    ys.map g = xs.map h := by
  have related := mapM_eq_ok ran
  clear ran
  induction related with
  | nil => rfl
  | cons head _ ih => rw [List.map_cons, List.map_cons, each head, ih]

theorem mapM_of_forall₂ (each : List.Forall₂ (fun x y => f x = .ok y) xs ys) :
    xs.mapM f = .ok ys := by
  induction each with
  | nil => rfl
  | cons head _ ih => rw [List.mapM_cons, head, ok_bind, ih, ok_bind, pure_eq_ok]

theorem mapM_related {g : α → γ} {r : β → γ → Prop} {l : List α}
    (each : ∀ x ∈ l, ∃ y, f x = .ok y ∧ r y (g x)) :
    ∃ ys, l.mapM f = .ok ys ∧ List.Forall₂ r ys (l.map g) := by
  induction l with
  | nil => exact ⟨[], rfl, .nil⟩
  | cons x l ih =>
    obtain ⟨y, ran, related⟩ := each x (List.mem_cons_self ..)
    obtain ⟨ys, later, all⟩ := ih fun other member => each other (List.mem_cons_of_mem _ member)
    exact ⟨y :: ys, by rw [List.mapM_cons, ran, ok_bind, later, ok_bind, pure_eq_ok],
      .cons related all⟩

theorem mapM_returns {l : List α} (each : ∀ x ∈ l, ∃ y, f x = .ok y ∧ r x y) :
    ∃ ys, l.mapM f = .ok ys ∧ List.Forall₂ r l ys := by
  obtain ⟨ys, ran, related⟩ := mapM_related (r := fun y x => r x y) (g := id) each
  rw [List.map_id] at related
  exact ⟨ys, ran, related.flip⟩

theorem forall₂_comp {s : β → γ → Prop} {t : α → γ → Prop} {zs : List γ}
    (first : List.Forall₂ r xs ys) (second : List.Forall₂ s ys zs)
    (both : ∀ x y z, r x y → s y z → t x z) :
    List.Forall₂ t xs zs := by
  induction first generalizing zs with
  | nil =>
    obtain rfl := List.forall₂_nil_left_iff.mp second
    exact .nil
  | cons head _ ih =>
    obtain ⟨z, rest, here, later, rfl⟩ := List.forall₂_cons_left_iff.mp second
    exact .cons (both _ _ _ head here) (ih later)

theorem mapM_forall₂ {g : γ → δ} {r : α → γ → Prop} {s : β → δ → Prop}
    (each : ∀ {x z}, r x z → ∃ y, f x = .ok y ∧ s y (g z)) {zs : List γ}
    (related : List.Forall₂ r xs zs) :
    ∃ ys, xs.mapM f = .ok ys ∧ List.Forall₂ s ys (zs.map g) := by
  induction related with
  | nil => exact ⟨[], rfl, .nil⟩
  | cons head _ ih =>
    obtain ⟨y, ran, here⟩ := each head
    obtain ⟨ys, later, all⟩ := ih
    exact ⟨y :: ys, by rw [List.mapM_cons, ran, ok_bind, later, ok_bind, pure_eq_ok],
      .cons here all⟩

variable {s : σ}

/-- What a step that returns says of its item, a loop that returns says of all items. -/
theorem forall_of_foldlM {f : σ → α → Exec ε σ} {p : α → Prop}
    (each : ∀ {s x t}, f s x = .ok t → p x) {t : σ} (ran : xs.foldlM f s = .ok t) :
    ∀ x ∈ xs, p x := by
  induction xs generalizing s with
  | nil => exact fun x member => absurd member List.not_mem_nil
  | cons x xs ih =>
    rw [List.foldlM_cons, bind_eq_ok] at ran
    obtain ⟨next, stepped, rest⟩ := ran
    exact List.forall_mem_cons.mpr ⟨each stepped, ih rest⟩

theorem forall_of_foldlM_check {f : σ → α → Exec ε σ} {p : α → Prop} [DecidablePred p] {e : α → ε}
    {k : σ → α → Exec ε σ} (checks : ∀ s x, f s x = check (p x) (e x) >>= fun _ => k s x) {t : σ}
    (ran : xs.foldlM f s = .ok t) : ∀ x ∈ xs, p x := by
  refine forall_of_foldlM (fun {s x t} stepped => ?_) ran
  rw [checks] at stepped
  obtain ⟨_, holds, _⟩ := bind_eq_ok.mp stepped
  exact check_eq_ok.mp holds

theorem forall₂_of_zip_all {r : α → β → Bool} {as : List α} {bs : List β} :
    (as.length = bs.length ∧ (as.zip bs).all (fun pair => r pair.1 pair.2) = true) ↔
      List.Forall₂ (fun b a => r a b = true) bs as := by
  induction as generalizing bs with
  | nil => cases bs <;> simp
  | cons a as ih =>
    cases bs with
    | nil => simp
    | cons b bs =>
      rw [List.forall₂_cons, ← ih]
      simp only [List.length_cons, Nat.add_right_cancel_iff, List.zip_cons_cons,
        List.all_cons, Bool.and_eq_true]
      tauto

/-- **Partial correctness of a loop**: if every step from a state that satisfies the invariant of
the items done so far gives a state that satisfies it with the item added, then a loop that
returns does so in a state that satisfies the invariant of all items. -/
theorem foldlM_preserves {f : σ → α → Exec ε σ} (inv : List α → σ → Prop) {t : σ} (start : inv [] s)
    (step : ∀ {done x s t}, done ++ [x] <+: xs → inv done s → f s x = .ok t → inv (done ++ [x]) t)
    (ran : xs.foldlM f s = .ok t) : inv xs t := by
  suffices general : ∀ (todo done : List α) (s : σ), done ++ todo = xs → inv done s →
      todo.foldlM f s = .ok t → inv xs t from general xs [] s rfl start ran
  intro todo
  induction todo with
  | nil =>
    intro done s split holds ran
    rw [List.append_nil] at split
    simp only [List.foldlM_nil, pure_eq_ok, Except.ok.injEq] at ran
    rw [← split, ← ran]
    exact holds
  | cons x todo ih =>
    intro done s split holds ran
    rw [List.foldlM_cons, bind_eq_ok] at ran
    obtain ⟨next, stepped, ran⟩ := ran
    have split' : (done ++ [x]) ++ todo = xs := by simpa using split
    exact ih (done ++ [x]) next split' (step ⟨todo, split'⟩ holds stepped) ran

/-- **Total correctness of a loop**: the invariant also makes every step return. -/
theorem foldlM_returns {f : σ → α → Exec ε σ} (inv : List α → σ → Prop) (start : inv [] s)
    (step : ∀ {done x s}, done ++ [x] <+: xs → inv done s →
      ∃ t, f s x = .ok t ∧ inv (done ++ [x]) t) :
    ∃ t, xs.foldlM f s = .ok t ∧ inv xs t := by
  suffices general : ∀ (todo done : List α) (s : σ), done ++ todo = xs → inv done s →
      ∃ t, todo.foldlM f s = .ok t ∧ inv xs t from general xs [] s rfl start
  intro todo
  induction todo with
  | nil =>
    intro done s split holds
    rw [List.append_nil] at split
    exact ⟨s, rfl, split ▸ holds⟩
  | cons x todo ih =>
    intro done s split holds
    have split' : (done ++ [x]) ++ todo = xs := by simpa using split
    obtain ⟨next, stepped, held⟩ := step ⟨todo, split'⟩ holds
    obtain ⟨t, ran, final⟩ := ih (done ++ [x]) next split' held
    refine ⟨t, ?_, final⟩
    rw [List.foldlM_cons, stepped]
    exact ran

/-- **Total correctness of a counting loop.** -/
theorem foldlM_range'_returns {f : σ → Nat → Exec ε σ} (inv : Nat → σ → Prop) {k n : Nat}
    (start : inv k s)
    (step : ∀ {i s}, k ≤ i → i < k + n → inv i s → ∃ t, f s i = .ok t ∧ inv (i + 1) t) :
    ∃ t, (List.range' k n).foldlM f s = .ok t ∧ inv (k + n) t := by
  induction n generalizing k s with
  | zero => exact ⟨s, rfl, start⟩
  | succ n ih =>
    obtain ⟨next, stepped, held⟩ := step (le_refl k) (by omega) start
    obtain ⟨t, ran, final⟩ := ih held fun above below => step (by omega) (by omega)
    refine ⟨t, ?_, ?_⟩
    · rw [List.range'_succ, List.foldlM_cons, stepped, ok_bind, ran]
    · rwa [show k + (n + 1) = k + 1 + n by omega]

theorem foldlM_range_returns {f : σ → Nat → Exec ε σ} (inv : Nat → σ → Prop) {n : Nat}
    (start : inv 0 s) (step : ∀ {i s}, i < n → inv i s → ∃ t, f s i = .ok t ∧ inv (i + 1) t) :
    ∃ t, (List.range n).foldlM f s = .ok t ∧ inv n t := by
  rw [List.range_eq_range']
  simpa using foldlM_range'_returns inv start fun _ below => step (by omega)

/-- **A loop that appends** what each step makes of something it draws. -/
theorem foldlM_append_returns [Inhabited γ] {f : List β × σ → Nat → Exec ε (List β × σ)}
    (drawn : Nat → γ → Prop) (made : Nat → γ → List β) {n : Nat}
    (step : ∀ i < n, ∀ state, ∃ c s, drawn i c ∧ f state i = .ok (state.1 ++ made i c, s))
    (state : List β × σ) : ∃ (c : Nat → γ) (s : σ), (∀ i < n, drawn i (c i)) ∧
      (List.range n).foldlM f state =
        .ok (state.1 ++ (List.range n).flatMap fun i => made i (c i), s) := by
  induction n with
  | zero => exact ⟨fun _ => default, state.2, fun i below => absurd below (Nat.not_lt_zero i), by simp⟩
  | succ n ih =>
    obtain ⟨c, s, each, ran⟩ := ih fun i below => step i (by omega)
    obtain ⟨last, s', here, stepped⟩ := step n (Nat.lt_succ_self n)
      (state.1 ++ (List.range n).flatMap fun i => made i (c i), s)
    have before : ∀ i < n, Function.update c n last i = c i := fun i below =>
      Function.update_of_ne below.ne _ _
    refine ⟨Function.update c n last, s', fun i below => ?_, ?_⟩
    · rcases Nat.lt_succ_iff_lt_or_eq.mp below with earlier | rfl
      · rw [before i earlier]
        exact each i earlier
      · rwa [Function.update_self]
    · have same : ((List.range n).flatMap fun i => made i (Function.update c n last i)) =
          (List.range n).flatMap fun i => made i (c i) :=
        List.flatMap_congr fun i member => by rw [before i (List.mem_range.mp member)]
      rw [List.range_succ, List.foldlM_append, ran, ok_bind, List.foldlM_cons, stepped, ok_bind,
        List.foldlM_nil, List.flatMap_append, same, List.flatMap_singleton, Function.update_self,
        List.append_assoc]
      rfl

/-! ### Calls that never panic -/

/-- The call returns `a` if the condition holds and an error if it does not; it never panics. -/
structure Decides (x : Exec ε α) (cond : Prop) (a : α) : Prop where
  returns : cond → x = .ok a
  fails : ¬cond → ∃ error, x = raise error

theorem decides_pure (a : α) : Decides (pure a : Exec ε α) True a :=
  ⟨fun _ => rfl, fun absurd => (absurd trivial).elim⟩

theorem decides_check (cond : Prop) [Decidable cond] (error : ε) :
    Decides (check cond error) cond () :=
  ⟨check_of, fun fails => ⟨error, if_neg fails⟩⟩

theorem Decides.congr {cond' : Prop} (decides : Decides x cond a) (same : cond ↔ cond') :
    Decides x cond' a :=
  ⟨fun holds => decides.returns (same.mpr holds), fun fails => decides.fails (mt same.mp fails)⟩

theorem Decides.bind {first second : Prop} (head : Decides x first a)
    (tail : first → Decides (f a) second b) :
    Decides (x >>= f) (first ∧ second) b := by
  refine ⟨fun ⟨holds, later⟩ => ?_, fun fails => ?_⟩
  · rw [head.returns holds, ok_bind, (tail holds).returns later]
  · by_cases holds : first
    · rw [head.returns holds, ok_bind]
      exact (tail holds).fails fun later => fails ⟨holds, later⟩
    · obtain ⟨error, failed⟩ := head.fails holds
      exact ⟨error, by rw [failed]; rfl⟩

/-- What follows a call without a condition of its own keeps the condition. -/
theorem Decides.andThen (head : Decides x cond a) (tail : f a = .ok b) : Decides (x >>= f) cond b :=
  (head.bind fun _ => ⟨fun _ => tail, fun absurd => (absurd trivial).elim⟩).congr (iff_of_eq (and_true cond))

theorem Decides.mapErr {handle : δ → ε} {x : Exec δ α} (decides : Decides x cond a) :
    Decides (mapErr (fun e => raise (handle e)) x) cond a := by
  refine ⟨fun holds => by rw [decides.returns holds, mapErr_ok], fun fails => ?_⟩
  obtain ⟨error, failed⟩ := decides.fails fails
  exact ⟨handle error, by rw [failed]; rfl⟩

theorem decides_foldlM {f : σ → α → Exec ε σ} {g : σ → α → σ} {cond : α → Prop} (inv : σ → Prop)
    (start : inv s)
    (step : ∀ {s x}, x ∈ xs → inv s → Decides (f s x) (cond x) (g s x) ∧ inv (g s x)) :
    Decides (xs.foldlM f s) (∀ x ∈ xs, cond x) (xs.foldl g s) := by
  induction xs generalizing s with
  | nil => exact (decides_pure s).congr (by simp)
  | cons x xs ih =>
    obtain ⟨here, kept⟩ := step (List.mem_cons_self ..) start
    have later := ih kept fun member => step (List.mem_cons_of_mem _ member)
    rw [List.foldlM_cons, List.foldl_cons]
    exact (here.bind fun _ => later).congr List.forall_mem_cons.symm

theorem decides_mapM {cond : α → Prop} (each : ∀ x, Decides (f x) (cond x) (g x)) (xs : List α) :
    Decides (xs.mapM f) (∀ x ∈ xs, cond x) (xs.map g) := by
  induction xs with
  | nil => exact (decides_pure []).congr (by simp)
  | cons x xs ih =>
    rw [List.mapM_cons, List.map_cons]
    have rest : Decides (xs.mapM f >>= fun ys => pure (g x :: ys)) (∀ x ∈ xs, cond x)
        (g x :: xs.map g) := ih.andThen rfl
    exact ((each x).bind fun _ => rest).congr List.forall_mem_cons.symm

theorem decides_forM {f : α → Exec ε Unit} {cond : α → Prop}
    (each : ∀ x, Decides (f x) (cond x) ()) (xs : List α) :
    Decides (xs.forM f) (∀ x ∈ xs, cond x) () := by
  induction xs with
  | nil => exact (decides_pure ()).congr (by simp)
  | cons x xs ih => exact ((each x).bind fun _ => ih).congr List.forall_mem_cons.symm

theorem foldlM_eq_ok_foldl {f : σ → α → Exec ε σ} {g : σ → α → σ} (inv : σ → Prop) (start : inv s)
    (step : ∀ {s x}, x ∈ xs → inv s → f s x = .ok (g s x) ∧ inv (g s x)) :
    xs.foldlM f s = .ok (xs.foldl g s) := by
  refine (decides_foldlM inv start ?_ : Decides _ (∀ x ∈ xs, True) _).returns fun _ _ => trivial
  intro s x member holds
  obtain ⟨returned, kept⟩ := step member holds
  exact ⟨⟨fun _ => returned, fun absurd => (absurd trivial).elim⟩, kept⟩

/-! ### Calls that assert what they need -/

/-- The call returns `a` if the condition holds and panics if it does not; it returns no error. -/
structure Asserts (x : Exec ε α) (cond : Prop) (a : α) : Prop where
  returns : cond → x = .ok a
  panics : ¬cond → ∃ message, x = abort message

theorem asserts_pure (a : α) : Asserts (pure a : Exec ε α) True a :=
  ⟨fun _ => rfl, fun absurd => (absurd trivial).elim⟩

theorem Asserts.eq_of_ok {b : α} (asserts : Asserts x cond a) (returned : x = .ok b) : b = a := by
  by_cases holds : cond
  · exact Except.ok.inj (returned.symm.trans (asserts.returns holds))
  · obtain ⟨message, panicked⟩ := asserts.panics holds
    rw [returned] at panicked
    cases panicked

theorem asserts_ensure (cond : Prop) [Decidable cond] (message : String) :
    Asserts (ensure cond message : Exec ε Unit) cond () :=
  ⟨ensure_of, fun fails => ⟨message, if_neg fails⟩⟩

theorem asserts_checkedSub (a b : Nat) : Asserts (checkedSub a b : Exec ε Nat) (b ≤ a) (a - b) :=
  ⟨checkedSub_of_le, fun unordered => ⟨_, if_neg unordered⟩⟩

theorem Decides.asserts {handle : δ → String} {x : Exec δ α} (decides : Decides x cond a) :
    Asserts (Lib.mapErr (fun e => abort (handle e)) x : Exec ε α) cond a := by
  refine ⟨fun holds => ?_, fun fails => ?_⟩
  · rw [decides.returns holds]
    rfl
  · obtain ⟨e, failed⟩ := decides.fails fails
    rw [failed]
    exact ⟨handle e, rfl⟩

theorem Asserts.congr {cond' : Prop} (asserts : Asserts x cond a) (same : cond ↔ cond') :
    Asserts x cond' a :=
  ⟨fun holds => asserts.returns (same.mpr holds), fun fails => asserts.panics (mt same.mp fails)⟩

theorem Asserts.bind {first second : Prop} (head : Asserts x first a)
    (tail : first → Asserts (f a) second b) :
    Asserts (x >>= f) (first ∧ second) b := by
  refine ⟨fun ⟨holds, later⟩ => ?_, fun fails => ?_⟩
  · rw [head.returns holds, ok_bind, (tail holds).returns later]
  · by_cases holds : first
    · rw [head.returns holds, ok_bind]
      exact (tail holds).panics fun later => fails ⟨holds, later⟩
    · obtain ⟨message, panicked⟩ := head.panics holds
      exact ⟨message, by rw [panicked]; rfl⟩

/-- What follows a call without a condition of its own keeps the condition. -/
theorem Asserts.andThen (head : Asserts x cond a) (tail : f a = .ok b) : Asserts (x >>= f) cond b :=
  (head.bind fun _ => ⟨fun _ => tail, fun absurd => (absurd trivial).elim⟩).congr
    (iff_of_eq (and_true cond))

theorem asserts_mapM {cond : α → Prop} (each : ∀ x, Asserts (f x) (cond x) (g x)) (xs : List α) :
    Asserts (xs.mapM f) (∀ x ∈ xs, cond x) (xs.map g) := by
  induction xs with
  | nil => exact (asserts_pure _).congr (by simp)
  | cons x xs ih =>
    rw [List.mapM_cons, List.map_cons]
    have rest : Asserts (xs.mapM f >>= fun ys => pure (g x :: ys)) (∀ x ∈ xs, cond x)
        (g x :: xs.map g) := ih.andThen rfl
    exact ((each x).bind fun _ => rest).congr List.forall_mem_cons.symm

end Lib
