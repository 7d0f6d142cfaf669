/-
**Building code that follows a run.**

One program is run twice: directly, with a value for everything, and by a builder that appends to
a state. `Follows inv s m m' rel` says that whenever both return, what the builder returns is
related to what the direct run returns. Both may keep a state of their own on the side, which the
relation does not look at.

* `Follows.bind` — the rule of sequence.
-/

import Longfellow.Lib.Grow

namespace Lib

variable {ε σ τ τ' α β α' β' : Type} [Preorder σ] {inv : σ → Prop} {s : σ}

/-- When both calls return, the builder is in a later state with the invariant, and the results
are related there. -/
structure Follows (inv : σ → Prop) (s : σ) (m : StateT τ (Exec ε) α)
    (m' : StateT τ' (StateT σ (Exec ε)) β) (rel : σ → α → β → Prop) : Prop where
  ran : ∀ {t a u t'}, m.run t = .ok (a, u) → Ensures inv s (m'.run t') fun s' b => rel s' a b.1

variable {m : StateT τ (Exec ε) α} {m' : StateT τ' (StateT σ (Exec ε)) β}

variable {mid : σ → α → β → Prop} {rel : σ → α' → β' → Prop}

theorem Follows.bind {f : α → StateT τ (Exec ε) α'} {f' : β → StateT τ' (StateT σ (Exec ε)) β'}
    (first : Follows inv s m m' mid)
    (second : ∀ {a b s'}, s ≤ s' → inv s' → mid s' a b → Follows inv s' (f a) (f' b) rel) :
    Follows inv s (m >>= f) (m' >>= f') rel := by
  refine ⟨fun {t a u t'} ran => ?_⟩
  rw [StateT.run_bind] at ran
  obtain ⟨⟨a', u'⟩, head, tail⟩ := bind_eq_ok.mp ran
  rw [StateT.run_bind]
  exact (first.ran head).bind fun later holds here => (second later holds here).ran tail

theorem Follows.map {f : α → α'} {f' : β → β'}
    (follows : Follows inv s m m' mid) (made : ∀ {s' a b}, mid s' a b → rel s' (f a) (f' b)) :
    Follows inv s (f <$> m) (f' <$> m') rel := by
  refine ⟨fun {t a u t'} ran => ?_⟩
  rw [StateT.run_map, map_eq_pure_bind] at ran
  obtain ⟨⟨a', u'⟩, head, tail⟩ := bind_eq_ok.mp ran
  obtain ⟨rfl, rfl⟩ := Prod.mk.inj (Except.ok.inj tail)
  rw [StateT.run_map, map_eq_pure_bind]
  exact (follows.ran head).bind fun _ holds here => ensures_pure holds (made here)

variable {rel : σ → α → β → Prop}

variable {a : α}

theorem follows_pure {b : β} (holds : inv s) (here : rel s a b) :
    Follows inv s (pure a : StateT τ (Exec ε) α) (pure b : StateT τ' (StateT σ (Exec ε)) β) rel := by
  refine ⟨fun ran => ?_⟩
  obtain ⟨rfl, rfl⟩ := Prod.mk.inj (Except.ok.inj ran)
  exact ensures_pure holds here

theorem follows_of_ensures {m' : StateT σ (Exec ε) β}
    (ensures : Ensures inv s m' fun s' b => rel s' a b) :
    Follows inv s (pure a : StateT τ (Exec ε) α)
      (liftM m' : StateT τ' (StateT σ (Exec ε)) β) rel := by
  refine ⟨fun {t a' u t'} ran => ?_⟩
  obtain ⟨rfl, rfl⟩ := Prod.mk.inj (Except.ok.inj ran)
  have run : (liftM m' : StateT τ' (StateT σ (Exec ε)) β).run t' = m' >>= fun b => pure (b, t') :=
    rfl
  rw [run]
  exact ensures.bind fun _ holds here => ensures_pure holds here

/-- The same, when the builder returns something made from its result. -/
theorem follows_of_ensures_map {m' : StateT σ (Exec ε) β} {f : β → β'} {rel : σ → α → β' → Prop}
    (ensures : Ensures inv s m' fun s' b => rel s' a (f b)) :
    Follows inv s (pure a : StateT τ (Exec ε) α)
      ((liftM m' : StateT τ' (StateT σ (Exec ε)) β) >>= fun b => pure (f b)) rel := by
  refine ⟨fun {t a' u t'} ran => ?_⟩
  obtain ⟨rfl, rfl⟩ := Prod.mk.inj (Except.ok.inj ran)
  have run : ((liftM m' : StateT τ' (StateT σ (Exec ε)) β) >>= fun b => pure (f b)).run t' =
      (m' >>= fun b => pure (b, t')) >>= fun p => pure (f p.1, p.2) := rfl
  rw [run, bind_assoc]
  refine ensures.bind fun _ holds here => ?_
  rw [pure_bind]
  exact ensures_pure holds here

theorem follows_of_eq (known : ∀ {t a' u}, m.run t = .ok (a', u) → a' = a)
    (ensures : ∀ {t'}, Ensures inv s (m'.run t') fun s' b => rel s' a b.1) :
    Follows inv s m m' rel :=
  ⟨fun ran => known ran ▸ ensures⟩

theorem follows_lift {x : Exec ε α} {y : Exec ε β} (holds : inv s)
    (both : ∀ {a b}, x = .ok a → y = .ok b → rel s a b) :
    Follows inv s (liftM x : StateT τ (Exec ε) α)
      (liftM y : StateT τ' (StateT σ (Exec ε)) β) rel := by
  refine ⟨fun {t a u t'} ran => ?_⟩
  obtain ⟨a', called, rest⟩ := bind_eq_ok.mp ran
  obtain ⟨rfl, rfl⟩ := Prod.mk.inj (Except.ok.inj rest)
  have run : (liftM y : StateT τ' (StateT σ (Exec ε)) β).run t' =
      (liftM y : StateT σ (Exec ε) β) >>= fun b => pure (b, t') := rfl
  rw [run]
  exact ensures_lift_bind fun called' => ensures_pure holds (both called called')

theorem follows_ensure {x y : Exec ε Unit} (holds : inv s) :
    Follows inv s (liftM x : StateT τ (Exec ε) Unit)
      (liftM y : StateT τ' (StateT σ (Exec ε)) Unit) fun _ _ _ => True :=
  follows_lift holds fun _ _ => trivial

theorem follows_getAt {xs : List α} {ys : List β} (holds : inv s)
    (related : List.Forall₂ (rel s) xs ys) (i : Nat) :
    Follows inv s (liftM (getAt xs i : Exec ε α) : StateT τ (Exec ε) α)
      (liftM (getAt ys i : Exec ε β) : StateT τ' (StateT σ (Exec ε)) β) rel := by
  refine follows_lift holds fun {a b} first second => ?_
  obtain ⟨bound, rfl⟩ := List.getElem?_eq_some_iff.mp (getAt_eq_ok.mp first)
  obtain ⟨bound', rfl⟩ := List.getElem?_eq_some_iff.mp (getAt_eq_ok.mp second)
  exact related.get bound bound'

theorem follows_mapM {ι : Type} {f : ι → StateT τ (Exec ε) α}
    {f' : ι → StateT τ' (StateT σ (Exec ε)) β} (rel : σ → α → β → Prop)
    (keeps : ∀ {s s' a b}, s ≤ s' → inv s → rel s a b → rel s' a b) {is : List ι} (holds : inv s)
    (each : ∀ i ∈ is, ∀ {s'}, s ≤ s' → inv s' → Follows inv s' (f i) (f' i) rel) :
    Follows inv s (is.mapM f) (is.mapM f') fun s' as bs => List.Forall₂ (rel s') as bs := by
  induction is generalizing s with
  | nil => exact follows_pure holds List.Forall₂.nil
  | cons i is ih =>
    rw [List.mapM_cons, List.mapM_cons]
    refine (each i (List.mem_cons_self ..) le_rfl holds).bind
      fun {a b s'} later holds' here => ?_
    refine (ih holds' fun j member s'' after => each j (List.mem_cons_of_mem _ member)
      (later.trans after)).bind fun {as bs s''} after holds'' rest => ?_
    exact follows_pure holds'' (.cons (keeps after holds' here) rest)

end Lib
