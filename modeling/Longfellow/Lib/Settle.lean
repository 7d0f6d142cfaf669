/-
**Enough fuel.**

A recursion that is bounded by a fuel stands for one that is not when the fuel does not matter any
more: from some fuel on, all runs from a state are the same. `Settles inv allowed s c post` says so
of the runs `c fuel` over a state that only grows, with what holds when they return (`Ensures`) and
the faults they may end with; the fault of a lack of fuel is not among those.

* `Settles.bind`, `settles_mapM` — the rules of sequence and of loops;
* `Settles.succ` — a recursion that takes a unit of fuel settles when its body does.
-/

import Longfellow.Lib.Grow

namespace Lib

variable {ε σ α β : Type} [Preorder σ] {inv : σ → Prop} {allowed : Fault ε → Prop} {s : σ}

/-- From some fuel on the runs are the same: they return where the invariant and `post` hold, or
they end with a fault that is allowed. -/
inductive Settles (inv : σ → Prop) (allowed : Fault ε → Prop) (s : σ)
    (c : Nat → StateT σ (Exec ε) α) (post : σ → α → Prop) : Prop
  | returns (a : α) (s' : σ) (enough : Nat)
      (ran : ∀ fuel, enough ≤ fuel → (c fuel).run s = .ok (a, s'))
      (later : s ≤ s') (holds : inv s') (here : post s' a)
  | fails {fault : Fault ε} (enough : Nat)
      (ran : ∀ fuel, enough ≤ fuel → (c fuel).run s = .error fault) (isAllowed : allowed fault)

variable {c : Nat → StateT σ (Exec ε) α} {post post' : σ → α → Prop}

theorem Settles.mono (settles : Settles inv allowed s c post)
    (weaker : ∀ {a s'}, s ≤ s' → inv s' → post s' a → post' s' a) :
    Settles inv allowed s c post' := by
  cases settles with
  | returns _ _ enough ran later holds here =>
    exact .returns _ _ enough ran later holds (weaker later holds here)
  | fails enough ran isAllowed => exact .fails enough ran isAllowed

theorem Settles.and_ensures {inv' : σ → Prop} (settles : Settles inv allowed s c post)
    (ensures : ∀ fuel, Ensures inv' s (c fuel) post') :
    Settles (fun s => inv s ∧ inv' s) allowed s c fun s' a => post s' a ∧ post' s' a := by
  cases settles with
  | returns a s' enough ran later holds here =>
    obtain ⟨-, holds', here'⟩ := (ensures enough).ran (ran enough le_rfl)
    exact .returns a s' enough ran later ⟨holds, holds'⟩ ⟨here, here'⟩
  | fails enough ran isAllowed => exact .fails enough ran isAllowed

theorem Settles.succ {body : Nat → StateT σ (Exec ε) α} (unfolds : ∀ fuel, c (fuel + 1) = body fuel)
    (settles : Settles inv allowed s body post) : Settles inv allowed s c post := by
  have steps : ∀ {enough fuel : Nat}, enough + 1 ≤ fuel → ∃ less, enough ≤ less ∧ fuel = less + 1 :=
    fun {_ fuel} more => ⟨fuel - 1, by omega, by omega⟩
  cases settles with
  | returns _ _ enough ran later holds here =>
    refine .returns _ _ (enough + 1) (fun fuel more => ?_) later holds here
    obtain ⟨less, enoughLess, rfl⟩ := steps more
    rw [unfolds, ran less enoughLess]
  | fails enough ran isAllowed =>
    refine .fails (enough + 1) (fun fuel more => ?_) isAllowed
    obtain ⟨less, enoughLess, rfl⟩ := steps more
    rw [unfolds, ran less enoughLess]

variable {c' : Nat → StateT σ (Exec ε) α}

theorem Settles.congr (same : ∀ fuel, (c' fuel).run s = (c fuel).run s)
    (settles : Settles inv allowed s c post) :
    Settles inv allowed s c' post := by
  cases settles with
  | returns _ _ enough ran later holds here =>
    exact .returns _ _ enough (fun fuel more => by rw [same, ran fuel more]) later holds here
  | fails enough ran isAllowed =>
    exact .fails enough (fun fuel more => by rw [same, ran fuel more]) isAllowed

theorem Settles.after (settles : Settles inv allowed s c post) (enough : Nat)
    (same : ∀ fuel, enough ≤ fuel → (c' fuel).run s = (c fuel).run s) :
    Settles inv allowed s c' post := by
  cases settles with
  | returns _ _ enough' ran later holds here =>
    exact .returns _ _ (max enough enough')
      (fun fuel more => by rw [same fuel (by omega), ran fuel (by omega)]) later holds here
  | fails enough' ran isAllowed =>
    exact .fails (max enough enough')
      (fun fuel more => by rw [same fuel (by omega), ran fuel (by omega)]) isAllowed

theorem settles_ite {p : Prop} [Decidable p] {c : Nat → StateT σ (Exec ε) α}
    (yes : p → Settles inv allowed s c post) (no : ¬p → Settles inv allowed s c' post) :
    Settles inv allowed s (fun fuel => if p then c fuel else c' fuel) post := by
  by_cases holds : p
  · simp only [if_pos holds]
    exact yes holds
  · simp only [if_neg holds]
    exact no holds

variable {f : Nat → α → StateT σ (Exec ε) β}

theorem Settles.bind {mid : σ → α → Prop} {post : σ → β → Prop}
    (first : Settles inv allowed s c mid) (second : ∀ {a s'}, s ≤ s' → inv s' → mid s' a →
      Settles inv allowed s' (fun fuel => f fuel a) post) :
    Settles inv allowed s (fun fuel => c fuel >>= f fuel) post := by
  cases first with
  | returns _ _ enough ran later holds here =>
    cases second later holds here with
    | returns _ _ enough' ran' later' holds' here' =>
      refine .returns _ _ (max enough enough') (fun fuel more => ?_) (later.trans later') holds'
        here'
      rw [StateT.run_bind, ran fuel (by omega)]
      exact ran' fuel (by omega)
    | fails enough' ran' isAllowed =>
      refine .fails (max enough enough') (fun fuel more => ?_) isAllowed
      rw [StateT.run_bind, ran fuel (by omega)]
      exact ran' fuel (by omega)
  | fails enough ran isAllowed =>
    refine .fails enough (fun fuel more => ?_) isAllowed
    rw [StateT.run_bind, ran fuel more]
    rfl

theorem settles_pure {a : α} (holds : inv s) (here : post s a) :
    Settles inv allowed s (fun _ => pure a) post :=
  .returns a s 0 (fun _ _ => rfl) le_rfl holds here

theorem settles_lift_bind {x : Exec ε α} {post : σ → β → Prop}
    (next : ∀ {a}, x = .ok a → Settles inv allowed s (fun fuel => f fuel a) post)
    (stops : ∀ {fault}, x = .error fault → allowed fault) :
    Settles inv allowed s (fun fuel => (liftM x : StateT σ (Exec ε) α) >>= f fuel) post := by
  rcases called : x with fault | a
  · exact .fails 0 (fun _ _ => rfl) (stops called)
  · exact (next called).congr fun _ => rfl

theorem settles_get_bind {f : Nat → σ → StateT σ (Exec ε) α}
    (next : Settles inv allowed s (fun fuel => f fuel s) post) :
    Settles inv allowed s (fun fuel => (get : StateT σ (Exec ε) σ) >>= f fuel) post :=
  Settles.congr (c := fun fuel => f fuel s) (fun _ => rfl) next

theorem settles_mapM (post : σ → α → β → Prop)
    (keeps : ∀ {s s' a b}, s ≤ s' → inv s → post s a b → post s' a b) {xs : List α} (holds : inv s)
    (each : ∀ a ∈ xs, ∀ {s'}, s ≤ s' → inv s' →
      Settles inv allowed s' (fun fuel => f fuel a) fun s'' => post s'' a) :
    Settles inv allowed s (fun fuel => xs.mapM (f fuel)) fun s' ys =>
      List.Forall₂ (post s') xs ys := by
  induction xs generalizing s with
  | nil => exact settles_pure holds List.Forall₂.nil
  | cons x xs ih =>
    refine Settles.congr (fun fuel => by rw [List.mapM_cons]) ?_
    refine (each x List.mem_cons_self le_rfl holds).bind fun {y s'} later holds' here => ?_
    refine (ih holds' fun a member s'' after => each a (List.mem_cons_of_mem _ member)
      (later.trans after)).bind fun {ys s''} after holds'' rest => ?_
    exact settles_pure holds'' (.cons (keeps after holds' here) rest)

end Lib
