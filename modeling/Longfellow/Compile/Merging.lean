/-
**Merged assertions** (`compile/logic/src/scope.rs`, `compile/compiler/src/logic_impl.rs`).

What a scope is for is written in a book: how many assertions there are, which of them were made one
assertion, and the path of each. The scope keeps the book through every call, as long as the numbers
of assertions and of paths fit their 32 bits.

* `Represents` — the records, the member lists and the tree are those of the book.
-/

import Longfellow.Compile.Classes
import Longfellow.Compile.Paths

namespace Longfellow.Compile

open Lib

variable {ε : Type}

/-! ### The book -/

/-- The number of assertions, the pairs that were merged, the paths of the assertions, and all the
paths that assertions have had, with the empty one. -/
structure Book where
  count : ℕ
  merged : ℕ → ℕ → Prop
  path : ℕ → List String
  made : Finset (List String)

def Book.new : Book := ⟨0, fun _ _ => False, fun _ => [], {[]}⟩

/-- The assertions are the same one: the equivalence closure of the merged pairs. -/
def Book.Same (book : Book) : ℕ → ℕ → Prop := Relation.EqvGen book.merged

/-- The number of an assertion. -/
def Book.Has (book : Book) (id : AssertionId) : Prop := 0 < id.toNat ∧ id.toNat ≤ book.count

open Classical in
/-- The book after a call. -/
noncomputable def Book.after (book : Book) : ScopeCall → Book
  | .newLeaf name =>
    { book with
      count := book.count + 1
      path := Function.update book.path (book.count + 1) [name]
      made := insert [name] book.made }
  | .prependScope id name =>
    if book.Has id then
      { book with
        path := fun a => if book.Same id.toNat a then name :: book.path a else book.path a
        made := book.made ∪ ((Finset.range (book.count + 1)).filter
          (book.Same id.toNat)).image fun a => name :: book.path a }
    else book
  | .find _ => book
  | .union id1 id2 =>
    if book.Has id1 ∧ book.Has id2 then
      { book with merged := fun x y => book.merged x y ∨ (x = id1.toNat ∧ y = id2.toNat) }
    else book

/-- The book after some calls. -/
noncomputable def Book.of (calls : List ScopeCall) : Book := calls.foldl Book.after Book.new

/-- The assertions have different numbers, and so have the paths. -/
structure Book.Fits (book : Book) : Prop where
  count : book.count < 2 ^ 32
  paths : book.made.card ≤ 2 ^ 32

theorem Book.Fits.before {book : Book} {call : ScopeCall} (fits : (book.after call).Fits) :
    book.Fits := by
  obtain ⟨count, paths⟩ := fits
  have fewer : book.count ≤ (book.after call).count := by
    cases call <;> simp only [Book.after] <;> try split_ifs
    all_goals simp
  have shorter : book.made ⊆ (book.after call).made := by
    cases call <;> simp only [Book.after] <;> try split_ifs
    all_goals simp
  exact ⟨lt_of_le_of_lt fewer count, (Finset.card_le_card shorter).trans paths⟩

/-! ### The scope of a book -/

/-- The tree holds all paths, and the records have those of the assertions. -/
def Labelled (state : AssertionScope) (path : ℕ → List String) (made : Finset (List String)) :
    Prop :=
  ∃ paths, Spells state.tree paths ∧ paths.toFinset = made ∧
    ∀ {a : ℕ} {record : AssertionRecord}, 0 < a → state.records[a]? = some record →
      paths[record.scope.toNat]? = some (path a)

/-- The scope is the one of the book. -/
structure Represents (book : Book) (state : AssertionScope) : Prop where
  formed : WellParented state.records
  length : state.records.length = book.count + 1
  fits : book.count < 2 ^ 32
  classes : ∀ x y, SameRoot (parentOf state.records) x y ↔ book.Same x y
  keys : ∀ rep, (state.members.lookup rep).isSome ↔
    book.Has rep ∧ HasRoot (parentOf state.records) rep.toNat rep.toNat
  members : ∀ {rep : AssertionId} {members : List AssertionId},
    state.members.lookup rep = some members → members.Nodup ∧
      ∀ id : AssertionId, id ∈ members ↔ HasRoot (parentOf state.records) id.toNat rep.toNat
  labelled : Labelled state book.path book.made

variable {book : Book} {state : AssertionScope}

variable {id : AssertionId}

theorem Represents.has_iff (keeps : Represents book state) :
    book.Has id ↔ 0 < id.toNat ∧ id.toNat < state.records.length := by
  rw [Book.Has, keeps.length, Nat.lt_succ_iff]

theorem Represents.outside_of_not_has (keeps : Represents book state) (none : ¬book.Has id) :
    id = 0 ∨ state.records.length ≤ id.toNat := by
  rw [keeps.has_iff] at none
  by_cases zero : id.toNat = 0
  · exact .inl (UInt32.toNat_inj.mp zero)
  · exact .inr (by omega)

theorem represents_new : Represents Book.new AssertionScope.new := by
  have self : ∀ i, parentOf AssertionScope.new.records i = i := by
    intro i
    cases i with
    | zero => rfl
    | succ i => exact parentOf_of_le (by simp [AssertionScope.new])
  refine ⟨⟨by simp [AssertionScope.new], self 0, ?_, fun x => ⟨x, hasRoot_self (self x)⟩⟩, rfl,
    by decide, fun x y => ?_, fun rep => ?_, ?_, [[]], spells_new, by simp [Book.new], ?_⟩
  · intro i record pos found
    obtain ⟨inside, _⟩ := List.getElem?_eq_some_iff.mp found
    simp only [AssertionScope.new, List.length_singleton] at inside
    omega
  · constructor
    · rintro ⟨r, left, right⟩
      obtain rfl := left.unique (hasRoot_self (self x))
      obtain rfl := right.unique (hasRoot_self (self y))
      exact .refl _
    · intro same
      induction same with
      | rel _ _ pair => exact pair.elim
      | refl x => exact ⟨x, hasRoot_self (self x), hasRoot_self (self x)⟩
      | symm _ _ _ ih => exact ih.symm
      | trans _ _ _ _ _ ih ih' => exact ih.trans ih'
  · constructor
    · exact fun found => nomatch found
    · rintro ⟨⟨pos, bound⟩, _⟩
      simp only [Book.new] at bound
      omega
  · exact fun found => nomatch found
  · intro a record pos found
    obtain ⟨inside, _⟩ := List.getElem?_eq_some_iff.mp found
    simp only [AssertionScope.new, List.length_singleton] at inside
    omega

variable {records' : List AssertionRecord}

theorem Represents.compressed (keeps : Represents book state)
    (same : Compressed state.records records') :
    Represents book { state with records := records' } := by
  obtain ⟨paths, spells, all, at'⟩ := keeps.labelled
  exact {
    formed := same.formed
    length := same.length.trans keeps.length
    fits := keeps.fits
    classes := fun x y => (sameRoot_congr same.roots).trans (keeps.classes x y)
    keys := fun rep => by rw [same.roots]; exact keeps.keys rep
    members := fun found => by
      simp only [same.roots]
      exact keeps.members found
    labelled := ⟨paths, spells, all, fun {a record} pos found => by
      obtain ⟨before, found', scope⟩ := same.scope found
      rw [← scope]
      exact at' pos found'⟩ }

/-! ### Searches -/

theorem Book.Has.ne_zero (has : book.Has id) : id ≠ 0 := by
  rintro rfl
  exact absurd has.1 (by decide)

theorem Represents.findRep (keeps : Represents book state) (id : AssertionId) :
    ∃ rep records', (findRep state.records id : Exec ε _) = .ok (rep, records') ∧
      Compressed state.records records' ∧
      (book.Has id → HasRoot (parentOf state.records) id.toNat rep.toNat ∧ book.Has rep) ∧
      (¬book.Has id → rep = 0) := by
  by_cases has : book.Has id
  · obtain ⟨pos, inside⟩ := keeps.has_iff.mp has
    obtain ⟨rep, records', ran, root, same⟩ := findRep_returns (ε := ε) keeps.formed pos inside
    exact ⟨rep, records', ran, same,
      fun _ => ⟨root, keeps.has_iff.mpr (keeps.formed.root_mem root pos inside)⟩,
      fun none => absurd has none⟩
  · exact ⟨0, state.records, findRep_outside (keeps.outside_of_not_has has), .refl keeps.formed,
      fun some => absurd some has, fun _ => rfl⟩

/-- **A search** keeps the book. -/
theorem Represents.find (keeps : Represents book state) (id : AssertionId) :
    ∃ rep state', (state.find id : Exec ε _) = .ok (rep, state') ∧ Represents book state' ∧
      (book.Has id → HasRoot (parentOf state.records) id.toNat rep.toNat ∧ book.Has rep) ∧
      (¬book.Has id → rep = 0) := by
  obtain ⟨rep, records', ran, same, known, unknown⟩ := keeps.findRep (ε := ε) id
  rcases eq_or_ne id 0 with rfl | some
  · have none : ¬book.Has 0 := fun has => has.ne_zero rfl
    exact ⟨0, state, by rw [AssertionScope.find, if_pos rfl, pure_eq_ok], keeps,
      fun has => absurd has none, fun _ => rfl⟩
  · refine ⟨rep, { state with records := records' }, ?_, keeps.compressed same, known, unknown⟩
    rw [AssertionScope.find, if_neg some, ran]
    rfl

/-! ### A new assertion -/

theorem parentOf_concat (records : List AssertionRecord) (number : id.toNat = records.length)
    (scope : ScopeId) :
    parentOf (records ++ [⟨scope, id⟩]) = parentOf records := by
  funext i
  rcases Nat.lt_trichotomy i records.length with before | rfl | after
  · unfold parentOf
    rw [List.getElem?_append_left before]
  · rw [parentOf_of_le le_rfl, parentOf, List.getElem?_concat_length]
    by_cases zero : id = 0
    · exact if_pos zero
    · exact (if_neg zero).trans number
  · have beyond : (records ++ [(⟨scope, id⟩ : AssertionRecord)]).length ≤ i := by
      rw [List.length_append, List.length_singleton]
      omega
    rw [parentOf_of_le beyond, parentOf_of_le (by omega)]

/-- **A new assertion** gets the next number. -/
theorem Represents.newLeaf (keeps : Represents book state) (name : String)
    (fits : (book.after (.newLeaf name)).Fits) :
    Represents (book.after (.newLeaf name)) (state.newLeaf name).2 ∧
      (state.newLeaf name).1.toNat = book.count + 1 := by
  obtain ⟨paths, spells, all, at'⟩ := keeps.labelled
  obtain ⟨count, card⟩ := fits
  simp only [Book.after] at count card
  have room : [name] ∈ paths ∨ paths.length < 2 ^ 32 := by
    by_cases old : [name] ∈ paths
    · exact .inl old
    · have fresh : [name] ∉ book.made := by rwa [← all, List.mem_toFinset]
      rw [Finset.card_insert_of_notMem fresh, ← all,
        List.toFinset_card_of_nodup spells.different] at card
      exact .inr card
  have root : paths[(0 : ScopeId).toNat]? = some [] := spells.empty.2
  obtain ⟨paths', spells', grown, here, whole⟩ := spells.cons root name room
  have number : (UInt32.ofNat state.records.length).toNat = state.records.length := by
    rw [keeps.length, UInt32.toNat_ofNat_of_lt' count]
  set id := UInt32.ofNat state.records.length
  set scope := (state.tree.cons name 0).1
  have same := parentOf_concat state.records number scope
  have parents : parentOf (state.newLeaf name).2.records = parentOf state.records := same
  have lookup : ∀ rep, (state.newLeaf name).2.members.lookup rep =
      if rep = id then some [id] else state.members.lookup rep := by
    intro rep
    split
    case isTrue here => rw [here]; exact AList.lookup_insert _
    case isFalse other => exact AList.lookup_insert_ne other
  have idPos : 0 < id.toNat := number ▸ keeps.formed.nonempty
  have idRoot : ∀ a, HasRoot (parentOf state.records) a id.toNat ↔ a = id.toNat := by
    intro a
    constructor
    · intro root
      by_contra other
      by_cases inside : 0 < a ∧ a < state.records.length
      · have := keeps.formed.root_mem root inside.1 inside.2
        omega
      · rw [keeps.formed.hasRoot_outside (by omega)] at root
        exact other root.symm
    · rintro rfl
      exact (keeps.formed.hasRoot_outside (.inr number.ge)).mpr rfl
  have entry : ∀ {i record}, (state.records ++ [⟨scope, id⟩])[i]? = some record →
      state.records[i]? = some record ∨ (i = state.records.length ∧ record = ⟨scope, id⟩) := by
    intro i record found
    rcases Nat.lt_or_ge i state.records.length with before | after
    · rw [List.getElem?_append_left before] at found
      exact .inl found
    · obtain ⟨bound, _⟩ := List.getElem?_eq_some_iff.mp found
      rw [List.length_append, List.length_singleton] at bound
      obtain rfl : i = state.records.length := by omega
      rw [List.getElem?_concat_length] at found
      exact .inr ⟨rfl, (Option.some.inj found).symm⟩
  refine ⟨⟨⟨?_, ?_, ?_, ?_⟩, ?_, count, ?_, ?_, ?_, paths', spells', ?_, ?_⟩,
    number.trans keeps.length⟩
  · simp [AssertionScope.newLeaf]
  · exact (congrFun same 0).trans keeps.formed.none
  · intro i record pos found
    have longer : (state.newLeaf name).2.records.length = state.records.length + 1 := by
      simp [AssertionScope.newLeaf]
    rw [longer]
    rcases entry found with old | ⟨_, rfl⟩
    · obtain ⟨some, bound⟩ := keeps.formed.parents pos old
      exact ⟨some, by omega⟩
    · refine ⟨fun zero => ?_, by rw [number]; omega⟩
      rw [show id = 0 from zero] at idPos
      exact absurd idPos (by decide)
  · intro x
    obtain ⟨r, root⟩ := keeps.formed.grounded x
    exact ⟨r, same ▸ root⟩
  · simp [AssertionScope.newLeaf, Book.after, keeps.length]
  · intro x y
    exact (sameRoot_congr fun x r => same ▸ Iff.rfl).trans (keeps.classes x y)
  · intro rep
    have has : (book.after (.newLeaf name)).Has rep ↔ book.Has rep ∨ rep = id := by
      rw [Book.Has, Book.Has, ← UInt32.toNat_inj, number, keeps.length]
      simp only [Book.after]
      omega
    rw [lookup, has, parents]
    split
    case isTrue here => simp [here, (idRoot id.toNat).mpr rfl]
    case isFalse other => rw [keeps.keys, or_iff_left other]
  · intro rep members found
    rw [lookup] at found
    rw [parents]
    split at found
    case isTrue here =>
      obtain rfl := Option.some.inj found
      exact ⟨List.nodup_singleton _, fun a => by
        rw [here, idRoot, List.mem_singleton, UInt32.toNat_inj]⟩
    case isFalse => exact keeps.members found
  · ext path
    simp only [Book.after, List.mem_toFinset, whole, Finset.mem_insert, ← all]
    exact or_comm
  · intro a record pos found
    simp only [Book.after]
    rcases entry found with old | ⟨rfl, rfl⟩
    · have other : a ≠ book.count + 1 := by
        obtain ⟨bound, _⟩ := List.getElem?_eq_some_iff.mp old
        rw [keeps.length] at bound
        omega
      rw [Function.update_of_ne other]
      exact getElem?_of_prefixed grown (at' pos old)
    · rw [keeps.length, Function.update_self]
      exact here

/-! ### One more name -/

variable {records : List AssertionRecord}

theorem parentOf_congr
    (same : records'.map AssertionRecord.parent = records.map AssertionRecord.parent) :
    parentOf records' = parentOf records := by
  funext i
  have entry := congrArg (fun parents => parents[i]?) same
  simp only [List.getElem?_map] at entry
  unfold parentOf
  rcases first : records[i]? with _ | record <;> rcases second : records'[i]? with _ | record' <;>
    rw [first, second] at entry <;> simp_all

theorem WellParented.congr (formed : WellParented records)
    (same : records'.map AssertionRecord.parent = records.map AssertionRecord.parent) :
    WellParented records' := by
  have parents := parentOf_congr same
  have length : records'.length = records.length := by simpa using congrArg List.length same
  refine ⟨length ▸ formed.nonempty, parents ▸ formed.none, fun {i record} pos found => ?_,
    parents ▸ formed.grounded⟩
  have entry := congrArg (fun parents => parents[i]?) same
  simp only [List.getElem?_map, found, Option.map_some] at entry
  obtain ⟨before, old, parent⟩ := Option.map_eq_some_iff.mp entry.symm
  rw [← parent, length]
  exact formed.parents pos old

variable {path : ℕ → List String} {made : Finset (List String)} {name : String}

theorem Labelled.prependTo (labelled : Labelled state path made) (pos : 0 < id.toNat)
    (inside : id.toNat < state.records.length)
    (fits : (insert (name :: path id.toNat) made).card ≤ 2 ^ 32) :
    ∃ state', (state.prependTo name id : Exec ε _) = .ok state' ∧
      Labelled state' (Function.update path id.toNat (name :: path id.toNat))
        (insert (name :: path id.toNat) made) ∧
      state'.records.map AssertionRecord.parent = state.records.map AssertionRecord.parent ∧
      state'.members = state.members := by
  obtain ⟨paths, spells, all, at'⟩ := labelled
  have found := List.getElem?_eq_getElem inside
  have room : (name :: path id.toNat) ∈ paths ∨ paths.length < 2 ^ 32 := by
    by_cases old : (name :: path id.toNat) ∈ paths
    · exact .inl old
    · have fresh : (name :: path id.toNat) ∉ made := by rwa [← all, List.mem_toFinset]
      rw [Finset.card_insert_of_notMem fresh, ← all,
        List.toFinset_card_of_nodup spells.different] at fits
      exact .inr fits
  obtain ⟨paths', spells', grown, here, whole⟩ := spells.cons (at' pos found) name room
  refine ⟨⟨state.records.set id.toNat ⟨(state.tree.cons name state.records[id.toNat].scope).1,
    state.records[id.toNat].parent⟩, state.members,
    (state.tree.cons name state.records[id.toNat].scope).2⟩, ?_, ⟨paths', spells', ?_, ?_⟩, ?_, rfl⟩
  · rw [AssertionScope.prependTo, getAt_of_lt inside, ok_bind]
    simp only [setAt_of_lt inside, ok_bind, pure_eq_ok]
  · ext other
    rw [List.mem_toFinset, whole, Finset.mem_insert, ← all, List.mem_toFinset]
    exact or_comm
  · intro a record pos' found'
    by_cases same : a = id.toNat
    · subst same
      rw [List.getElem?_set_self inside] at found'
      rw [Function.update_self, ← Option.some.inj found']
      exact here
    · rw [List.getElem?_set_ne fun equal => same equal.symm] at found'
      rw [Function.update_of_ne same]
      exact getElem?_of_prefixed grown (at' pos' found')
  · rw [List.map_set]
    have bound : id.toNat < (state.records.map AssertionRecord.parent).length := by
      rwa [List.length_map]
    have kept := List.set_getElem_self bound
    rwa [List.getElem_map] at kept

theorem Labelled.prependAll (labelled : Labelled state path made) {members : List AssertionId}
    (different : members.Nodup)
    (inside : ∀ id ∈ members, 0 < id.toNat ∧ id.toNat < state.records.length)
    (fits : (made ∪ (members.map fun id => name :: path id.toNat).toFinset).card ≤ 2 ^ 32) :
    ∃ state', (members.foldlM (AssertionScope.prependTo name) state : Exec ε _) = .ok state' ∧
      Labelled state' (fun a => if a ∈ members.map UInt32.toNat then name :: path a else path a)
        (made ∪ (members.map fun id => name :: path id.toNat).toFinset) ∧
      state'.records.map AssertionRecord.parent = state.records.map AssertionRecord.parent ∧
      state'.members = state.members := by
  -- The paths of the assertions that are left are the ones of before.
  induction members generalizing state path made with
  | nil => exact ⟨state, rfl, by simpa using labelled, rfl, rfl⟩
  | cons id rest ih =>
    obtain ⟨fresh, others⟩ := List.nodup_cons.mp different
    obtain ⟨pos, bound⟩ := inside id List.mem_cons_self
    have split : made ∪ ((id :: rest).map fun id => name :: path id.toNat).toFinset =
        insert (name :: path id.toNat) made ∪
          (rest.map fun id => name :: path id.toNat).toFinset := by
      rw [List.map_cons, List.toFinset_cons, Finset.union_insert, Finset.insert_union]
    rw [split] at fits ⊢
    obtain ⟨state₁, first, labelled₁, parents₁, members₁⟩ := labelled.prependTo (ε := ε) pos bound
      ((Finset.card_le_card Finset.subset_union_left).trans fits)
    have length : state₁.records.length = state.records.length := by
      simpa using congrArg List.length parents₁
    have apart : ∀ id' ∈ rest, id'.toNat ≠ id.toNat := by
      rintro id' member same
      exact fresh (UInt32.toNat_inj.mp same ▸ member)
    have unchanged : (rest.map fun id' => name ::
        Function.update path id.toNat (name :: path id.toNat) id'.toNat) =
        rest.map fun id' => name :: path id'.toNat :=
      List.map_congr_left fun id' member => by
        rw [Function.update_of_ne (apart id' member)]
    obtain ⟨state₂, later, labelled₂, parents₂, members₂⟩ := ih labelled₁ others
      (fun id' member => length ▸ inside id' (List.mem_cons_of_mem _ member))
      (by rwa [unchanged])
    rw [unchanged] at labelled₂
    refine ⟨state₂, by rw [List.foldlM_cons, first, ok_bind, later], ?_,
      parents₂.trans parents₁, members₂.trans members₁⟩
    convert labelled₂ using 2 with a
    have none : id.toNat ∉ rest.map UInt32.toNat := by
      intro member
      obtain ⟨id', member', same⟩ := List.mem_map.mp member
      exact apart id' member' same
    by_cases same : a = id.toNat
    · subst same
      simp [none]
    · simp [same]

/-- **A name in front of a class**. -/
theorem Represents.prependScope (keeps : Represents book state) (id : AssertionId) (name : String)
    (fits : (book.after (.prependScope id name)).Fits) :
    ∃ state', (state.prependScope id name : Exec ε _) = .ok state' ∧
      Represents (book.after (.prependScope id name)) state' := by
  classical
  by_cases has : book.Has id
  · obtain ⟨root, records', ran, same, known, _⟩ := keeps.findRep (ε := ε) id
    obtain ⟨isRoot, hasRoot⟩ := known has
    have keeps' := keeps.compressed same
    obtain ⟨members, found⟩ := Option.isSome_iff_exists.mp
      ((keeps.keys root).mpr ⟨hasRoot, isRoot.self⟩)
    obtain ⟨different, exact'⟩ := keeps.members found
    have inside : ∀ a ∈ members, 0 < a.toNat ∧ a.toNat < records'.length := by
      intro a member
      obtain ⟨pos, bound⟩ := keeps.has_iff.mp hasRoot
      have := keeps.formed.mem_of_root ((exact' a).mp member) pos bound
      rwa [same.length]
    have class' : ∀ a, a ∈ members.map UInt32.toNat ↔ book.Same id.toNat a := by
      intro a
      rw [← keeps.classes, isRoot.sameRoot_iff, List.mem_map]
      constructor
      · rintro ⟨b, member, rfl⟩
        exact (exact' b).mp member
      · intro other
        obtain ⟨pos, bound⟩ := keeps.has_iff.mp hasRoot
        obtain ⟨pos', bound'⟩ := keeps.formed.mem_of_root other pos bound
        have number : (UInt32.ofNat a).toNat = a :=
          UInt32.toNat_ofNat_of_lt' (lt_of_lt_of_le bound' (keeps.length ▸ keeps.fits))
        exact ⟨UInt32.ofNat a, (exact' _).mpr (number.symm ▸ other), number⟩
    have after : book.after (.prependScope id name) =
        { book with
          path := fun a => if book.Same id.toNat a then name :: book.path a else book.path a
          made := book.made ∪ (members.map fun id => name :: book.path id.toNat).toFinset } := by
      have image : ((Finset.range (book.count + 1)).filter (book.Same id.toNat)).image
          (fun a => name :: book.path a) =
            (members.map fun id => name :: book.path id.toNat).toFinset := by
        ext path
        simp only [Finset.mem_image, Finset.mem_filter, Finset.mem_range, List.mem_toFinset,
          List.mem_map, ← class', ← keeps.length]
        constructor
        · rintro ⟨_, ⟨_, b, member, rfl⟩, whole⟩
          exact ⟨b, member, whole⟩
        · rintro ⟨b, member, whole⟩
          exact ⟨b.toNat, ⟨same.length ▸ (inside b member).2, b, member, rfl⟩, whole⟩
      simp only [Book.after, if_pos has, image]
    rw [after] at fits ⊢
    obtain ⟨state', done, labelled, parents, membersSame⟩ :=
      keeps'.labelled.prependAll (ε := ε) different inside fits.paths
    refine ⟨state', ?_, ?_⟩
    · rw [AssertionScope.prependScope, if_neg has.ne_zero, ran, ok_bind]
      simp only [hasRoot.ne_zero, if_false, found]
      exact done
    · have roots := parentOf_congr parents
      have length : state'.records.length = records'.length := by
        simpa using congrArg List.length parents
      exact {
        formed := same.formed.congr parents
        length := length.trans keeps'.length
        fits := keeps.fits
        classes := fun x y => roots ▸ keeps'.classes x y
        keys := fun rep => by
          rw [membersSame, roots]
          exact keeps'.keys rep
        members := fun at' => by
          rw [membersSame] at at'
          rw [roots]
          exact keeps'.members at'
        labelled := by
          simp only [class'] at labelled
          exact labelled }
  · have outside := keeps.outside_of_not_has has
    have after : book.after (.prependScope id name) = book := if_neg has
    rw [after]
    refine ⟨state, ?_, keeps⟩
    rw [AssertionScope.prependScope]
    split
    · rfl
    · rw [findRep_outside outside]
      rfl

/-! ### One class of two -/

/-- The records after the representative `b` was hung below the representative `a`. -/
theorem linked_set (formed : WellParented records) {a b : AssertionId} {record : AssertionRecord}
    (some : a ≠ 0) (inside : a.toNat < records.length) (pos : 0 < b.toNat)
    (bound : b.toNat < records.length) (left : parentOf records a.toNat = a.toNat)
    (right : parentOf records b.toNat = b.toNat) (apart : a ≠ b) :
    Linked (parentOf records) a.toNat b.toNat
        (parentOf (records.set b.toNat { record with parent := a })) ∧
      WellParented (records.set b.toNat { record with parent := a }) := by
  have linked : Linked (parentOf records) a.toNat b.toNat
      (parentOf (records.set b.toNat { record with parent := a })) :=
    ⟨left, right, fun same => apart (UInt32.toNat_inj.mp same),
      by rw [parentOf_set bound some, if_pos rfl],
      fun i other => by rw [parentOf_set bound some, if_neg other]⟩
  exact ⟨linked, formed.set pos bound some inside (linked.grounded formed.grounded)⟩

/-- The representative `rep2` is hung below `rep1`, and its members go there. -/
theorem Represents.link (keeps : Represents book state) {id1 id2 rep1 rep2 : AssertionId}
    (apart : rep1 ≠ rep2) (has1 : book.Has rep1) (has2 : book.Has rep2)
    (root1 : HasRoot (parentOf state.records) id1.toNat rep1.toNat)
    (root2 : HasRoot (parentOf state.records) id2.toNat rep2.toNat) :
    ∃ state', ((do
      let record ← getAt state.records rep2.toNat
      let records ← setAt state.records rep2.toNat { record with parent := rep1 }
      match state.members.lookup rep2 with
      | some m2 =>
        let rest := state.members.erase rep2
        let m1 := (rest.lookup rep1).getD []
        pure ⟨records, rest.insert rep1 (m1 ++ m2), state.tree⟩
      | none => pure { state with records } : Exec ε AssertionScope)) = .ok state' ∧
      Represents { book with
        merged := fun x y => book.merged x y ∨ (x = id1.toNat ∧ y = id2.toNat) } state' := by
  obtain ⟨pos1, inside1⟩ := keeps.has_iff.mp has1
  obtain ⟨pos2, inside2⟩ := keeps.has_iff.mp has2
  obtain ⟨linked, formed⟩ := @linked_set _ keeps.formed rep1 rep2 state.records[rep2.toNat]
    has1.ne_zero inside1 pos2 inside2 root1.top root2.top apart
  obtain ⟨m1, found1⟩ := Option.isSome_iff_exists.mp ((keeps.keys rep1).mpr ⟨has1, root1.self⟩)
  obtain ⟨m2, found2⟩ := Option.isSome_iff_exists.mp ((keeps.keys rep2).mpr ⟨has2, root2.self⟩)
  obtain ⟨different1, exact1⟩ := keeps.members found1
  obtain ⟨different2, exact2⟩ := keeps.members found2
  have roots := fun x r => hasRoot_link_iff (x := x) (r := r) linked keeps.formed.grounded
  have rest : (state.members.erase rep2).lookup rep1 = some m1 :=
    (AList.lookup_erase_ne apart).trans found1
  have lookup : ∀ rep, ((state.members.erase rep2).insert rep1 (m1 ++ m2)).lookup rep =
      if rep = rep1 then some (m1 ++ m2) else if rep = rep2 then none
        else state.members.lookup rep := by
    intro rep
    split
    case isTrue here => rw [here, AList.lookup_insert]
    case isFalse other =>
      rw [AList.lookup_insert_ne other]
      split
      case isTrue here => rw [here, AList.lookup_erase]
      case isFalse other' => rw [AList.lookup_erase_ne other']
  obtain ⟨paths, spells, all, at'⟩ := keeps.labelled
  refine ⟨⟨state.records.set rep2.toNat { state.records[rep2.toNat] with parent := rep1 },
    (state.members.erase rep2).insert rep1 (m1 ++ m2), state.tree⟩, ?_, ?_⟩
  · rw [getAt_of_lt inside2, ok_bind, setAt_of_lt inside2, ok_bind]
    simp only [found2, rest, Option.getD_some, pure_eq_ok]
  · refine ⟨formed, by rw [List.length_set]; exact keeps.length, keeps.fits, fun x y => ?_,
      fun rep => ?_, fun {rep members} found => ?_, paths, spells, all,
      fun {a record} pos found => ?_⟩
    · exact sameRoot_link_iff linked keeps.formed.grounded keeps.classes root1 root2
    · rw [lookup, roots]
      split_ifs with first second
      · subst first
        have other : rep.toNat ≠ rep2.toNat := fun same => apart (UInt32.toNat_inj.mp same)
        exact iff_of_true rfl ⟨has1, .inl ⟨root1.self, other⟩⟩
      · subst second
        have other : rep.toNat ≠ rep1.toNat := fun same => first (UInt32.toNat_inj.mp same)
        refine iff_of_false (fun none => nomatch none) ?_
        rintro ⟨_, ⟨_, away⟩ | ⟨_, same⟩⟩
        · exact away rfl
        · exact other same
      · simp only [keeps.keys, UInt32.toNat_inj, Ne, first, second, not_false_eq_true, and_true,
          and_false, or_false]
        exact Iff.rfl
    · rw [lookup] at found
      simp only [roots, Ne, UInt32.toNat_inj]
      split_ifs at found with first second
      · obtain rfl := Option.some.inj found
        subst first
        refine ⟨List.nodup_append.mpr ⟨different1, different2, ?_⟩, fun a => ?_⟩
        · rintro a member b member' rfl
          have same := ((exact1 a).mp member).unique ((exact2 a).mp member')
          exact apart (UInt32.toNat_inj.mp same)
        · simp only [List.mem_append, exact1, exact2, apart, not_false_eq_true, and_true]
      · simp only [first, second, not_false_eq_true, and_true, and_false, or_false]
        exact keeps.members found
    · rw [List.getElem?_set] at found
      split at found
      case isTrue here =>
        obtain rfl := Option.some.inj found
        have old := at' pos2 (List.getElem?_eq_getElem inside2)
        exact here ▸ old
      case isFalse => exact at' pos found

/-- **Two classes become one**. -/
theorem Represents.union (keeps : Represents book state) (id1 id2 : AssertionId) :
    ∃ state', (state.union id1 id2 : Exec ε _) = .ok state' ∧
      Represents (book.after (.union id1 id2)) state' := by
  obtain ⟨rep1, records₁, ran₁, same₁, known₁, unknown₁⟩ := keeps.findRep (ε := ε) id1
  have keeps₁ := keeps.compressed same₁
  obtain ⟨rep2, records₂, ran₂, same₂, known₂, unknown₂⟩ := keeps₁.findRep (ε := ε) id2
  have keeps₂ := keeps₁.compressed same₂
  by_cases has : book.Has id1 ∧ book.Has id2
  · obtain ⟨has1, has2⟩ := has
    obtain ⟨root1, hasRep1⟩ := known₁ has1
    obtain ⟨root2, hasRep2⟩ := known₂ has2
    have after : book.after (.union id1 id2) =
        { book with
          merged := fun x y => book.merged x y ∨ (x = id1.toNat ∧ y = id2.toNat) } :=
      if_pos ⟨has1, has2⟩
    rw [after, AssertionScope.union, if_neg (by simp [has1.ne_zero, has2.ne_zero]), ran₁, ok_bind]
    simp only [ran₂, ok_bind, hasRep1.ne_zero, hasRep2.ne_zero, false_or]
    have root1 := (same₂.roots _ _).mpr ((same₁.roots _ _).mpr root1)
    have root2 := (same₂.roots _ _).mpr root2
    by_cases equal : rep1 = rep2
    · subst equal
      refine ⟨_, by rw [if_pos rfl, pure_eq_ok], ?_⟩
      have known := (keeps₂.classes _ _).mp ⟨_, root1, root2⟩
      exact { keeps₂ with
        classes := fun x y => (keeps₂.classes x y).trans (eqvGen_or_iff known).symm }
    · rw [if_neg equal]
      exact keeps₂.link equal hasRep1 hasRep2 root1 root2
  · have after : book.after (.union id1 id2) = book := if_neg has
    rw [after]
    by_cases nil : id1 = 0 ∨ id2 = 0
    · exact ⟨state, by rw [AssertionScope.union, if_pos nil, pure_eq_ok], keeps⟩
    · refine ⟨_, ?_, keeps₂⟩
      have none : rep1 = 0 ∨ rep2 = 0 ∨ rep1 = rep2 := by
        rcases not_and_or.mp has with none | none
        · exact .inl (unknown₁ none)
        · exact .inr (.inl (unknown₂ none))
      rw [AssertionScope.union, if_neg nil, ran₁, ok_bind]
      simp only [ran₂, ok_bind, if_pos none, pure_eq_ok]

end Longfellow.Compile
