/-
**The tree of paths** (`compile/logic/src/scope.rs`, `ScopeTree`).

A path that is made twice is the same node of the tree, and the tail of a path is a node before it.
So the tree is the list of the paths made so far, each of them once.

* `Spells tree paths` — the tree holds exactly `paths`, the path number `i` at the node `i`.
-/

import Longfellow.Compile.Scope

namespace Longfellow.Compile

open Lib

variable {ε : Type}

/-- The node of the path with `name` in front of `parent`, if it was made. -/
def ScopeTree.child (tree : ScopeTree) (parent : ScopeId) (name : String) : Option ScopeId :=
  ((tree.children.lookup parent).getD ∅).lookup name

/-- The tree holds the paths, the path number `i` at the node `i`. -/
structure Spells (tree : ScopeTree) (paths : List (List String)) : Prop where
  length : paths.length = tree.scopes.length
  different : paths.Nodup
  empty : tree.scopes[0]? = some .empty ∧ paths[0]? = some []
  node : ∀ {i : Nat} {node : ScopeNode}, 0 < i → tree.scopes[i]? = some node →
    ∃ name next tail, node = .cons name next ∧ next.toNat < i ∧
      paths[next.toNat]? = some tail ∧ paths[i]? = some (name :: tail)
  child : ∀ parent name id, tree.child parent name = some id ↔
    ∃ tail, paths[parent.toNat]? = some tail ∧ paths[id.toNat]? = some (name :: tail)
  fits : paths.length ≤ 2 ^ 32

variable {tree : ScopeTree} {paths : List (List String)}

theorem spells_new : Spells ScopeTree.new [[]] where
  length := rfl
  different := List.nodup_singleton _
  empty := ⟨rfl, rfl⟩
  node := by
    intro i node pos found
    obtain ⟨inside, _⟩ := List.getElem?_eq_some_iff.mp found
    simp only [ScopeTree.new, List.length_singleton] at inside
    omega
  child := by
    intro parent name id
    constructor
    · intro found
      have none : ScopeTree.new.child parent name = none := rfl
      rw [none] at found
      exact nomatch found
    · rintro ⟨tail, _, found⟩
      have member := List.mem_of_getElem? found
      simp at member
  fits := by simp

theorem index_unique {α : Type} {xs : List α} (different : xs.Nodup) {i j : Nat} {x : α}
    (first : xs[i]? = some x) (second : xs[j]? = some x) : i = j := by
  obtain ⟨inside, _⟩ := List.getElem?_eq_some_iff.mp first
  exact (List.getElem?_inj inside different).mp (first.trans second.symm)

theorem ScopeTree.child_insert (tree : ScopeTree) (scopes : List ScopeNode) (parent : ScopeId)
    (name : String) (id parent' : ScopeId) (name' : String) :
    (⟨scopes, tree.children.insert parent
      (((tree.children.lookup parent).getD ∅).insert name id)⟩ : ScopeTree).child parent' name' =
      if parent' = parent ∧ name' = name then some id else tree.child parent' name' := by
  unfold ScopeTree.child
  by_cases here : parent' = parent
  · subst here
    rw [AList.lookup_insert, Option.getD_some]
    by_cases named : name' = name
    · subst named
      rw [AList.lookup_insert, if_pos ⟨rfl, rfl⟩]
    · rw [AList.lookup_insert_ne named, if_neg fun both => named both.2]
  · rw [AList.lookup_insert_ne here, if_neg fun both => here both.1]

theorem Spells.tail_mem (spells : Spells tree paths) {i : Nat} {name : String} {tail : List String}
    (found : paths[i]? = some (name :: tail)) : tail ∈ paths := by
  obtain ⟨inside, _⟩ := List.getElem?_eq_some_iff.mp found
  have pos : 0 < i := by
    rcases Nat.eq_zero_or_pos i with rfl | pos
    · rw [spells.empty.2] at found
      exact nomatch Option.some.inj found
    · exact pos
  have node := List.getElem?_eq_getElem (spells.length ▸ inside : i < tree.scopes.length)
  obtain ⟨_, next, tail', _, _, below, whole⟩ := spells.node pos node
  obtain ⟨-, rfl⟩ := List.cons.inj (Option.some.inj (found.symm.trans whole))
  exact List.mem_of_getElem? below

theorem Spells.cons (spells : Spells tree paths) {parent : ScopeId} {tail : List String}
    (known : paths[parent.toNat]? = some tail) (name : String)
    (room : (name :: tail) ∈ paths ∨ paths.length < 2 ^ 32) :
    ∃ paths', Spells (tree.cons name parent).2 paths' ∧ paths <+: paths' ∧
      paths'[(tree.cons name parent).1.toNat]? = some (name :: tail) ∧
      ∀ path, path ∈ paths' ↔ path ∈ paths ∨ path = name :: tail := by
  rcases found : tree.child parent name with _ | id
  · -- The path is new.
    have fresh : (name :: tail) ∉ paths := by
      intro member
      obtain ⟨i, inside, here⟩ := List.getElem_of_mem member
      have small : i < 2 ^ 32 := lt_of_lt_of_le inside spells.fits
      have known' : tree.child parent name = some (UInt32.ofNat i) := by
        rw [spells.child]
        refine ⟨tail, known, ?_⟩
        rw [UInt32.toNat_ofNat_of_lt' small, List.getElem?_eq_getElem inside, here]
      rw [found] at known'
      exact nomatch known'
    have small : paths.length < 2 ^ 32 := room.resolve_left fresh
    obtain ⟨inside, _⟩ := List.getElem?_eq_some_iff.mp known
    have number : (UInt32.ofNat tree.scopes.length).toNat = paths.length := by
      rw [← spells.length, UInt32.toNat_ofNat_of_lt' small]
    rw [ScopeTree.child] at found
    rw [ScopeTree.cons, found]
    set new := UInt32.ofNat tree.scopes.length
    have grown : (paths ++ [name :: tail])[new.toNat]? = some (name :: tail) := by
      rw [number, List.getElem?_concat_length]
    have old : ∀ {i : Nat} {path}, paths[i]? = some path →
        (paths ++ [name :: tail])[i]? = some path := fun at' =>
      getElem?_of_prefixed (List.prefix_append ..) at'
    have whole : (paths ++ [name :: tail]).Nodup :=
      List.nodup_append.mpr ⟨spells.different, List.nodup_singleton _, by
        rintro a member b last rfl
        rw [List.mem_singleton.mp last] at member
        exact fresh member⟩
    refine ⟨paths ++ [name :: tail], ⟨?_, whole, ⟨?_, ?_⟩, ?_, ?_, ?_⟩, List.prefix_append .., grown,
      fun path => by simp⟩
    · simp [spells.length]
    · exact getElem?_of_prefixed (List.prefix_append ..) spells.empty.1
    · exact old spells.empty.2
    · intro i node pos at'
      rcases Nat.lt_or_ge i tree.scopes.length with before | after
      · rw [List.getElem?_append_left before] at at'
        obtain ⟨name', next, tail', shape, less, path, full⟩ := spells.node pos at'
        exact ⟨name', next, tail', shape, less, old path, old full⟩
      · have last : i = tree.scopes.length := by
          obtain ⟨bound, _⟩ := List.getElem?_eq_some_iff.mp at'
          rw [List.length_append, List.length_singleton] at bound
          omega
        subst last
        rw [List.getElem?_concat_length] at at'
        exact ⟨name, parent, tail, (Option.some.inj at').symm, spells.length ▸ inside, old known,
          by rw [← spells.length, List.getElem?_concat_length]⟩
    · intro parent' name' id
      rw [ScopeTree.child_insert]
      have only : ∀ {i : Nat}, (paths ++ [name :: tail])[i]? = some (name :: tail) →
          i = paths.length := fun at' => index_unique whole at' List.getElem?_concat_length
      split
      case isTrue here =>
        obtain ⟨rfl, rfl⟩ := here
        constructor
        · rintro made
          obtain rfl := Option.some.inj made
          exact ⟨tail, old known, grown⟩
        · rintro ⟨tail', at', last⟩
          obtain rfl := Option.some.inj ((old known).symm.trans at')
          rw [Option.some.injEq, ← UInt32.toNat_inj, number, only last]
      case isFalse other =>
        rw [spells.child]
        constructor
        · rintro ⟨tail', below, at'⟩
          exact ⟨tail', old below, old at'⟩
        · rintro ⟨tail', below, at'⟩
          rcases Nat.lt_or_ge id.toNat paths.length with before | after
          · rw [List.getElem?_append_left before] at at'
            refine ⟨tail', ?_, at'⟩
            -- The tail of an old path is old.
            obtain ⟨j, bound, here⟩ := List.getElem_of_mem (spells.tail_mem at')
            have same : paths[j]? = some tail' := by rw [List.getElem?_eq_getElem bound, here]
            rwa [index_unique whole below (old same)]
          · -- The new path has one tail, and so one parent.
            have last : id.toNat = paths.length := by
              obtain ⟨bound, _⟩ := List.getElem?_eq_some_iff.mp at'
              rw [List.length_append, List.length_singleton] at bound
              omega
            rw [last, List.getElem?_concat_length] at at'
            obtain ⟨rfl, rfl⟩ := List.cons.inj (Option.some.inj at')
            have index := index_unique whole below (old known)
            exact absurd ⟨UInt32.toNat_inj.mp index, rfl⟩ other
    · rw [List.length_append, List.length_singleton]
      omega
  · obtain ⟨tail', same, there⟩ := (spells.child parent name id).mp found
    obtain rfl : tail = tail' := Option.some.inj (known.symm.trans same)
    rw [ScopeTree.child] at found
    rw [ScopeTree.cons, found]
    exact ⟨paths, spells, List.prefix_rfl, there, fun path =>
      ⟨.inl, fun member => member.elim (fun old => old) fun whole => whole ▸ List.mem_of_getElem? there⟩⟩

/-- **A node resolves to its path.** -/
theorem Spells.resolvePath (spells : Spells tree paths) {path : List String} {scope : ScopeId}
    (found : paths[scope.toNat]? = some path) {fuel : Nat} (enough : scope.toNat < fuel) :
    (tree.resolvePath fuel scope : Exec ε _) = .ok path := by
  -- A path has its tail at a smaller number.
  induction fuel generalizing scope path with
  | zero => omega
  | succ fuel ih =>
    rw [ScopeTree.resolvePath]
    rcases eq_or_ne scope 0 with rfl | other
    · rw [if_pos rfl, pure_eq_ok, Option.some.inj (found.symm.trans spells.empty.2)]
    · have pos : 0 < scope.toNat := by
        have apart : scope.toNat ≠ 0 := fun zero => other (UInt32.toNat_inj.mp zero)
        omega
      obtain ⟨inside, _⟩ := List.getElem?_eq_some_iff.mp found
      have bound : scope.toNat < tree.scopes.length := spells.length ▸ inside
      obtain ⟨name, next, tail, shape, less, below, whole⟩ :=
        spells.node pos (List.getElem?_eq_getElem bound)
      have read : (getAt tree.scopes scope.toNat : Exec ε _) = .ok (.cons name next) := by
        rw [getAt_of_lt bound, shape]
      have rest := ih below (by omega)
      rw [if_neg other, read, ok_bind]
      simp only [rest, ok_bind, pure_eq_ok]
      rw [Option.some.inj (found.symm.trans whole)]

end Longfellow.Compile
