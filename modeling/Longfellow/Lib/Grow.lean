/-
**Code over a state that only grows.**

A builder appends to its state and never takes back what it wrote, so what was true of an entry
stays true. `Ensures inv s m post` is partial correctness for such code: a call of `m` in state `s`
that returns does so in a later state where the invariant and `post` hold.

* `ensures_mapM` — **the loop rule**: what every step ensures, and later states keep, holds of all
  results at the end.
-/

import Longfellow.Lib.Exec

namespace Lib

variable {ε σ α β : Type} [Preorder σ] {inv : σ → Prop} {s : σ} {m : StateT σ (Exec ε) α}

/-- A call from `s` that returns ends in a later state with the invariant, where `post` holds. -/
structure Ensures (inv : σ → Prop) (s : σ) (m : StateT σ (Exec ε) α) (post : σ → α → Prop) :
    Prop where
  ran : ∀ {a s'}, m.run s = .ok (a, s') → s ≤ s' ∧ inv s' ∧ post s' a

theorem Ensures.mono {post post' : σ → α → Prop}
    (ensures : Ensures inv s m post)
    (weaker : ∀ {a s'}, s ≤ s' → inv s' → post s' a → post' s' a) : Ensures inv s m post' := by
  refine ⟨fun ran => ?_⟩
  obtain ⟨later, holds, here⟩ := ensures.ran ran
  exact ⟨later, holds, weaker later holds here⟩

variable {f : α → StateT σ (Exec ε) β} {post : σ → β → Prop}

theorem Ensures.bind {mid : σ → α → Prop} (first : Ensures inv s m mid)
    (second : ∀ {a s'}, s ≤ s' → inv s' → mid s' a → Ensures inv s' (f a) post) :
    Ensures inv s (m >>= f) post := by
  refine ⟨fun ran => ?_⟩
  rw [StateT.run_bind] at ran
  obtain ⟨⟨a, s'⟩, head, tail⟩ := bind_eq_ok.mp ran
  obtain ⟨later, holds, here⟩ := first.ran head
  obtain ⟨later', holds', there⟩ := (second later holds here).ran tail
  exact ⟨later.trans later', holds', there⟩

theorem ensures_pure {a : α} {post : σ → α → Prop} (holds : inv s) (here : post s a) :
    Ensures inv s (pure a : StateT σ (Exec ε) α) post := by
  refine ⟨fun ran => ?_⟩
  obtain ⟨rfl, rfl⟩ := Prod.mk.inj (Except.ok.inj ran)
  exact ⟨le_rfl, holds, here⟩

theorem ensures_lift_bind {x : Exec ε α} (next : ∀ {a}, x = .ok a → Ensures inv s (f a) post) :
    Ensures inv s ((liftM x : StateT σ (Exec ε) α) >>= f) post := by
  refine ⟨fun ran => ?_⟩
  rw [StateT.run_bind] at ran
  obtain ⟨⟨a, s'⟩, head, tail⟩ := bind_eq_ok.mp ran
  obtain ⟨a', called, rest⟩ := bind_eq_ok.mp head
  obtain ⟨rfl, rfl⟩ := Prod.mk.inj (Except.ok.inj rest)
  exact (next called).ran tail

theorem ensures_get_bind {f : σ → StateT σ (Exec ε) β} (next : Ensures inv s (f s) post) :
    Ensures inv s ((get : StateT σ (Exec ε) σ) >>= f) post := ⟨fun ran => next.ran ran⟩

theorem ensures_mapM (post : σ → α → β → Prop)
    (keeps : ∀ {s s' a b}, s ≤ s' → inv s → post s a b → post s' a b) {xs : List α} (holds : inv s)
    (each : ∀ a ∈ xs, ∀ {s'}, s ≤ s' → inv s' → Ensures inv s' (f a) fun s'' => post s'' a) :
    Ensures inv s (xs.mapM f) fun s' ys => List.Forall₂ (post s') xs ys := by
  induction xs generalizing s with
  | nil => exact ensures_pure holds List.Forall₂.nil
  | cons x xs ih =>
    rw [List.mapM_cons]
    refine (each x (List.mem_cons_self ..) le_rfl holds).bind fun {y s'} later holds' here => ?_
    refine (ih holds' fun a member s'' after => each a (List.mem_cons_of_mem _ member)
      (later.trans after)).bind fun {ys s''} after holds'' rest => ?_
    exact ensures_pure holds'' (.cons (keeps after holds' here) rest)

end Lib
