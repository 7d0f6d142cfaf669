/-
**Two readers in step.**

Two readers of one format may check different things and fail differently. They agree when, on
bytes that both accept, their values are related and they stop at the same byte. The property
composes along the two programs:

* `agree_records` — **a reader that takes records in batches**, against one that takes them one by
  one.

Two programs that differ in a data structure only do more: they also fail alike. `Alike` says so of
two calls and `AlikeReader` of two readers, with rules of the same shape.
-/

import Longfellow.Lib.Safe

namespace Lib

variable {ε δ α β γ κ σ : Type} {rel : α → β → Prop}

/-- On bytes that both readers accept they return related values and leave the same bytes. -/
def Agree (first : Reader ε α) (second : Reader δ β) (rel : α → β → Prop) : Prop :=
  ∀ bytes a b rest rest', first.run bytes = .ok (a, rest) → second.run bytes = .ok (b, rest') →
    rel a b ∧ rest' = rest

variable {first : Reader ε α} {second : Reader δ β}

theorem agree_pure {a : α} {b : β} (related : rel a b) :
    Agree (pure a : Reader ε α) (pure b : Reader δ β) rel := by
  intro bytes a' b' rest rest' ran ran'
  obtain ⟨rfl, rfl⟩ := reader_pure_eq_ok.mp ran
  obtain ⟨rfl, rfl⟩ := reader_pure_eq_ok.mp ran'
  exact ⟨related, rfl⟩

variable {rel' : γ → κ → Prop} {next : γ → Reader ε α}

theorem Agree.bind {next : α → Reader ε γ} {next' : β → Reader δ κ} (head : Agree first second rel)
    (tail : ∀ a b, rel a b → Agree (next a) (next' b) rel') :
    Agree (first >>= next) (second >>= next') rel' := by
  intro bytes c d rest rest' ran ran'
  obtain ⟨a, middle, left, ran⟩ := reader_bind_eq_ok.mp ran
  obtain ⟨b, middle', right, ran'⟩ := reader_bind_eq_ok.mp ran'
  obtain ⟨related, rfl⟩ := head bytes a b middle middle' left right
  exact tail a b related middle' c d rest rest' ran ran'

theorem Agree.andReturnLeft {rel' : γ → β → Prop} (agree : Agree first second rel) {g : α → γ}
    (related : ∀ a b, rel a b → rel' (g a) b) :
    Agree (first >>= fun a => Pure.pure (g a)) second rel' := by
  intro bytes c b rest rest' ran ran'
  obtain ⟨a, middle, left, ran⟩ := reader_bind_eq_ok.mp ran
  obtain ⟨rfl, rfl⟩ := reader_pure_eq_ok.mp ran
  obtain ⟨holds, rfl⟩ := agree bytes a b _ rest' left ran'
  exact ⟨related a b holds, rfl⟩

/-! ### Steps of one of the readers -/

theorem Agree.liftLeft {x : Exec ε γ}
    (tail : ∀ c, x = .ok c → Agree (next c) second rel) : Agree (liftM x >>= next) second rel := by
  intro bytes a b rest rest' ran ran'
  obtain ⟨c, middle, lifted, ran⟩ := reader_bind_eq_ok.mp ran
  obtain ⟨holds, rfl⟩ := reader_lift_eq_ok.mp lifted
  exact tail c holds bytes a b rest rest' ran ran'

theorem Agree.liftRight {x : Exec δ γ} {next : γ → Reader δ β}
    (tail : ∀ c, x = .ok c → Agree first (next c) rel) : Agree first (liftM x >>= next) rel := by
  intro bytes a b rest rest' ran ran'
  obtain ⟨c, middle, lifted, ran'⟩ := reader_bind_eq_ok.mp ran'
  obtain ⟨holds, rfl⟩ := reader_lift_eq_ok.mp lifted
  exact tail c holds bytes a b rest rest' ran ran'

theorem Agree.demandLeft {cond : Prop} [Decidable cond] {error : ε} {next : Unit → Reader ε α}
    (tail : cond → Agree (next ()) second rel) : Agree (demand cond error >>= next) second rel :=
  Agree.liftLeft fun _ passes => tail (check_eq_ok.mp passes)

theorem Agree.demandRight {cond : Prop} [Decidable cond] {error : δ} {next : Unit → Reader δ β}
    (tail : cond → Agree first (next ()) rel) : Agree first (demand cond error >>= next) rel :=
  Agree.liftRight fun _ passes => tail (check_eq_ok.mp passes)

theorem Agree.lookLeft {look : Reader ε γ}
    (looks : ∀ bytes c rest, look.run bytes = .ok (c, rest) → rest = bytes)
    (tail : ∀ c, Agree (next c) second rel) : Agree (look >>= next) second rel := by
  intro bytes a b rest rest' ran ran'
  obtain ⟨c, middle, looked, continued⟩ := reader_bind_eq_ok.mp ran
  obtain rfl := looks bytes c middle looked
  exact tail c middle a b rest rest' continued ran'

variable {eof : δ} {step : σ → Bytes → Exec δ σ} {s : σ}

theorem Agree.splitRight (width width' : Nat) {next : Bytes → Reader δ β}
    (agree : Agree first (takeBytes width eof >>= fun front => takeBytes width' eof >>= fun back =>
      next (front ++ back)) rel) :
    Agree first (takeBytes (width + width') eof >>= next) rel := by
  intro bytes a b rest rest' ran ran'
  obtain ⟨whole, middle, taken, continued⟩ := reader_bind_eq_ok.mp ran'
  obtain ⟨size, rfl⟩ := takeBytes_eq_ok.mp taken
  refine agree _ a b rest rest' ran ?_
  refine reader_bind_eq_ok.mpr ⟨whole.take width, whole.drop width ++ middle,
    takeBytes_eq_ok.mpr ⟨?_, ?_⟩, reader_bind_eq_ok.mpr ⟨whole.drop width, middle,
      takeBytes_eq_ok.mpr ⟨?_, rfl⟩, ?_⟩⟩
  · rw [List.length_take, size]
    exact Nat.min_eq_left (Nat.le_add_right width width')
  · rw [← List.append_assoc, List.take_append_drop]
  · rw [List.length_drop, size, Nat.add_sub_cancel_left]
  · rwa [List.take_append_drop]

/-! ### Loops -/

theorem agree_many (each : Agree first second rel) (count : Nat) :
    Agree (readMany first count) (readMany second count) fun as bs =>
      as.length = count ∧ List.Forall₂ rel as bs := by
  induction count with
  | zero => exact agree_pure ⟨rfl, .nil⟩
  | succ count ih =>
    refine each.bind fun a b head => ?_
    exact ih.bind fun as bs tail =>
      agree_pure ⟨congrArg (· + 1) tail.1, .cons head tail.2⟩

/-- Read records of `width` bytes one by one, and run a step on each. -/
def readEach (width : Nat) (eof : δ) (step : σ → Bytes → Exec δ σ) : Nat → σ → Reader δ σ
  | 0, s => pure s
  | count + 1, s => do
    let record ← takeBytes width eof
    let s ← liftM (step s record)
    readEach width eof step count s

theorem readEach_of_foldRecords {width : Nat} {count : Nat}
    {buffer : Bytes} (size : buffer.length = count * width) {t : σ}
    (ran : foldRecords width step count buffer s = .ok t) (remaining : Nat) (rest : Bytes) :
    (readEach width eof step (count + remaining) s).run (buffer ++ rest) =
      (readEach width eof step remaining t).run rest := by
  induction count generalizing buffer s with
  | zero =>
    obtain rfl := List.eq_nil_of_length_eq_zero (size.trans (Nat.zero_mul width))
    obtain rfl := Except.ok.inj ran
    rw [Nat.zero_add, List.nil_append]
  | succ count ih =>
    obtain ⟨middle, stepped, ran⟩ := bind_eq_ok.mp ran
    have enough : width ≤ buffer.length := by
      rw [size, Nat.succ_mul]
      exact Nat.le_add_left _ _
    have first : (takeBytes width eof).run (buffer ++ rest) =
        .ok (buffer.take width, buffer.drop width ++ rest) :=
      takeBytes_eq_ok.mpr ⟨List.length_take_of_le enough, by
        rw [← List.append_assoc, List.take_append_drop]⟩
    have size' : (buffer.drop width).length = count * width := by
      rw [List.length_drop, size, Nat.succ_mul, Nat.add_sub_cancel]
    have later := ih size' ran
    rw [Nat.succ_add, readEach, StateT.run_bind, first, ok_bind, StateT.run_bind]
    rw [show (liftM (step s (buffer.take width)) : Reader δ σ).run (buffer.drop width ++ rest) =
      .ok (middle, buffer.drop width ++ rest) from reader_lift_eq_ok.mpr ⟨stepped, rfl⟩, ok_bind]
    exact later

/-- **Batches make no difference** to what is accepted. -/
theorem readEach_of_readRecords {width batch : Nat} {remaining : Nat}
    {t : σ} {bytes rest : Bytes}
    (ran : (readRecords width batch eof step remaining s).run bytes = .ok (t, rest)) :
    (readEach width eof step remaining s).run bytes = .ok (t, rest) := by
  induction remaining using Nat.strong_induction_on generalizing s bytes with
  | _ n ih =>
    unfold readRecords at ran
    by_cases done : n = 0
    · rw [if_pos done] at ran
      subst done
      exact ran
    rw [if_neg done] at ran
    obtain ⟨buffer, middle, taken, continued⟩ := reader_bind_eq_ok.mp ran
    obtain ⟨u, middle', lifted, others⟩ := reader_bind_eq_ok.mp continued
    obtain ⟨folded, rfl⟩ := reader_lift_eq_ok.mp lifted
    obtain ⟨size, rfl⟩ := takeBytes_eq_ok.mp taken
    have later := ih (n - min n (batch + 1)) (by omega) others
    have front : (readEach width eof step (min n (batch + 1) + (n - min n (batch + 1))) s).run
        (buffer ++ middle) = _ := readEach_of_foldRecords size folded (n - min n (batch + 1)) middle
    rw [Nat.add_sub_cancel' (Nat.min_le_left n (batch + 1))] at front
    exact front.trans later

/-- **A reader that takes records in batches** agrees with what agrees with one that takes them one
by one. -/
theorem agree_records {width batch : Nat} {count : Nat}
    {rel : α → σ → Prop} (agree : Agree first (readEach width eof step count s) rel) :
    Agree first (readRecords width batch eof step count s) rel :=
  fun bytes a b rest rest' ran ran' =>
    agree bytes a b rest rest' ran (readEach_of_readRecords ran')

/-! ### Programs that also fail alike -/

/-- Both calls return, and what they return is related, or both end with the same fault. -/
def Alike (x : Exec ε α) (y : Exec ε β) (rel : α → β → Prop) : Prop :=
  (∃ a b, x = .ok a ∧ y = .ok b ∧ rel a b) ∨ ∃ fault, x = .error fault ∧ y = .error fault

variable {x : Exec ε α} {y : Exec ε β}

theorem alike_ok {a : α} {b : β} (ran : x = .ok a) (ran' : y = .ok b)
    (related : rel a b) : Alike x y rel :=
  .inl ⟨a, b, ran, ran', related⟩

theorem alike_self (x : Exec ε α) : Alike x x fun a b => b = a ∧ x = .ok a := by
  cases x with
  | ok a => exact alike_ok rfl rfl ⟨rfl, rfl⟩
  | error fault => exact .inr ⟨fault, rfl, rfl⟩

theorem Alike.mono {rel' : α → β → Prop} (alike : Alike x y rel)
    (weaker : ∀ a b, rel a b → rel' a b) : Alike x y rel' := by
  rcases alike with ⟨a, b, ran, ran', related⟩ | failed
  · exact alike_ok ran ran' (weaker a b related)
  · exact .inr failed

/-- **A sequence.** -/
theorem Alike.bind {next : α → Exec ε γ} {next' : β → Exec ε κ}
    (head : Alike x y rel) (tail : ∀ a b, rel a b → Alike (next a) (next' b) rel') :
    Alike (x >>= next) (y >>= next') rel' := by
  rcases head with ⟨a, b, rfl, rfl, related⟩ | ⟨fault, rfl, rfl⟩
  · exact tail a b related
  · exact .inr ⟨fault, rfl, rfl⟩

/-- On every byte string both readers return related values and leave the same bytes, or they fail
alike. -/
def AlikeReader (first : Reader ε α) (second : Reader ε β) (rel : α → β → Prop) : Prop :=
  ∀ bytes, Alike (first.run bytes) (second.run bytes) fun a b => rel a.1 b.1 ∧ b.2 = a.2

theorem alikeReader_pure {a : α} {b : β} (related : rel a b) :
    AlikeReader (pure a : Reader ε α) (pure b) rel :=
  fun _ => alike_ok rfl rfl ⟨related, rfl⟩

theorem alikeReader_self (reader : Reader ε α) : AlikeReader reader reader fun a b => b = a :=
  fun bytes => (alike_self (reader.run bytes)).mono fun _ _ same => by
    rw [same.1]
    exact ⟨rfl, rfl⟩

theorem SafeReader.alike {reader : Reader ε α} {post : α → Prop} (safe : SafeReader reader post) :
    AlikeReader reader reader fun a b => b = a ∧ post a := by
  refine fun bytes => (alike_self (reader.run bytes)).mono fun a b same => ?_
  rw [same.1]
  exact ⟨⟨rfl, (safe bytes).of_ok same.2⟩, rfl⟩

theorem alikeReader_lift (alike : Alike x y rel) :
    AlikeReader (liftM x : Reader ε α) (liftM y) rel := by
  intro bytes
  rcases alike with ⟨a, b, rfl, rfl, related⟩ | ⟨fault, rfl, rfl⟩
  · exact alike_ok rfl rfl ⟨related, rfl⟩
  · exact .inr ⟨fault, rfl, rfl⟩

/-- **A sequence of readers.** -/
theorem AlikeReader.bind {first : Reader ε α} {second : Reader ε β} {next : α → Reader ε γ}
    {next' : β → Reader ε κ} (head : AlikeReader first second rel)
    (tail : ∀ a b, rel a b → AlikeReader (next a) (next' b) rel') :
    AlikeReader (first >>= next) (second >>= next') rel' := by
  intro bytes
  rw [StateT.run_bind, StateT.run_bind]
  refine (head bytes).bind fun a b ⟨related, same⟩ => ?_
  rw [same]
  exact tail a.1 b.1 related a.2

section Records

variable {τ : Type} {width : ℕ} {step : σ → Bytes → Exec ε σ} {step' : τ → Bytes → Exec ε τ}
  (inv : ℕ → σ → τ → Prop) {total : ℕ}
  (each : ∀ i s t chunk, i < total → inv i s t → Alike (step s chunk) (step' t chunk) (inv (i + 1)))

include each in
theorem alike_foldRecords {count i : ℕ} (buffer : Bytes) {t : τ} (start : inv i s t)
    (within : i + count ≤ total) :
    Alike (foldRecords width step count buffer s) (foldRecords width step' count buffer t)
      (inv (i + count)) := by
  induction count generalizing i buffer s t with
  | zero => exact alike_ok rfl rfl start
  | succ count ih =>
    refine (each i s t _ (by omega) start).bind fun s' t' holds => ?_
    rw [← Nat.add_assoc, Nat.add_right_comm]
    exact ih _ holds (by omega)

include each in
/-- **Records in batches**, over states that stay related. -/
theorem alikeReader_records {batch : ℕ} {eof : ε} {remaining i : ℕ} {t : τ}
    (start : inv i s t) (all : i + remaining = total) :
    AlikeReader (readRecords width batch eof step remaining s)
      (readRecords width batch eof step' remaining t) (inv total) := by
  induction remaining using Nat.strong_induction_on generalizing i s t with
  | _ remaining ih =>
    unfold readRecords
    by_cases done : remaining = 0
    · rw [if_pos done, if_pos done]
      obtain rfl : i = total := by omega
      exact alikeReader_pure start
    · rw [if_neg done, if_neg done]
      refine (alikeReader_self _).bind fun buffer buffer' same => ?_
      rw [same]
      refine (alikeReader_lift (alike_foldRecords inv each buffer start (by omega))).bind
        fun s' t' holds => ?_
      exact ih (remaining - min remaining (batch + 1)) (by omega) holds (by omega)

end Records

end Lib
