/-
**Finding representatives** (`compile/logic/src/scope.rs`, `find_rep`).

The records are a forest of parents (`Lib.UnionFind`), in which the search for a representative
climbs and which path compression changes without moving a root.

* `findRep_returns` — **the search ends, at the root**, and leaves compressed records.
-/

import Longfellow.Compile.Scope
import Longfellow.Lib.UnionFind

namespace Longfellow.Compile

open Lib

variable {ε : Type} {records records' : List AssertionRecord}

/-- The parents of the records; what is no record is its own parent. -/
def parentOf (records : List AssertionRecord) (i : Nat) : Nat :=
  match records[i]? with
  | some record => if record.parent = 0 then i else record.parent.toNat
  | none => i

/-- The parents of the assertions are assertions. -/
structure WellParented (records : List AssertionRecord) : Prop where
  nonempty : 0 < records.length
  none : parentOf records 0 = 0
  parents : ∀ {i : Nat} {record : AssertionRecord}, 0 < i → records[i]? = some record →
    record.parent ≠ 0 ∧ record.parent.toNat < records.length
  grounded : Grounded (parentOf records)

/-- The same paths and the same roots. -/
structure Compressed (records records' : List AssertionRecord) : Prop where
  scopes : records'.map AssertionRecord.scope = records.map AssertionRecord.scope
  formed : WellParented records'
  roots : ∀ x r, HasRoot (parentOf records') x r ↔ HasRoot (parentOf records) x r

theorem Compressed.refl (formed : WellParented records) : Compressed records records :=
  ⟨rfl, formed, fun _ _ => Iff.rfl⟩

theorem Compressed.trans {records'' : List AssertionRecord} (first : Compressed records records')
    (second : Compressed records' records'') : Compressed records records'' :=
  ⟨second.scopes.trans first.scopes, second.formed,
    fun x r => (second.roots x r).trans (first.roots x r)⟩

theorem Compressed.length (compressed : Compressed records records') :
    records'.length = records.length := by
  simpa using congrArg List.length compressed.scopes

variable {i : Nat}

theorem Compressed.scope (compressed : Compressed records records') {record : AssertionRecord}
    (found : records'[i]? = some record) :
    ∃ before, records[i]? = some before ∧ before.scope = record.scope := by
  have same := congrArg (fun scopes => scopes[i]?) compressed.scopes
  simp only [List.getElem?_map, found, Option.map_some] at same
  exact Option.map_eq_some_iff.mp same.symm

/-! ### Parents -/

theorem WellParented.parentOf_eq (formed : WellParented records) {record : AssertionRecord}
    (pos : 0 < i) (found : records[i]? = some record) :
    parentOf records i = record.parent.toNat := by
  rw [parentOf, found]
  exact if_neg (formed.parents pos found).1

theorem WellParented.parentOf_mem (formed : WellParented records) (pos : 0 < i)
    (inside : i < records.length) :
    0 < parentOf records i ∧ parentOf records i < records.length := by
  have found := List.getElem?_eq_getElem inside
  obtain ⟨some, bound⟩ := formed.parents pos found
  rw [formed.parentOf_eq pos found]
  have apart : records[i].parent.toNat ≠ 0 := fun zero => some (UInt32.toNat_inj.mp zero)
  exact ⟨by omega, bound⟩

theorem parentOf_of_le (outside : records.length ≤ i) : parentOf records i = i := by
  rw [parentOf, List.getElem?_eq_none outside]

variable {r : Nat}

theorem WellParented.root_mem (formed : WellParented records)
    (root : HasRoot (parentOf records) i r) (pos : 0 < i) (inside : i < records.length) :
    0 < r ∧ r < records.length := by
  obtain ⟨n, climbs⟩ := root
  induction climbs with
  | root => exact ⟨pos, inside⟩
  | step _ _ ih =>
    obtain ⟨pos', inside'⟩ := formed.parentOf_mem pos inside
    exact ih pos' inside'

theorem WellParented.hasRoot_outside (formed : WellParented records)
    (outside : i = 0 ∨ records.length ≤ i) : HasRoot (parentOf records) i r ↔ r = i := by
  have top : parentOf records i = i := by
    rcases outside with rfl | beyond
    · exact formed.none
    · exact parentOf_of_le beyond
  constructor
  · exact fun root => root.unique (hasRoot_self top)
  · rintro rfl
    exact hasRoot_self top

theorem WellParented.mem_of_root (formed : WellParented records)
    (root : HasRoot (parentOf records) i r) (pos : 0 < r) (inside : r < records.length) :
    0 < i ∧ i < records.length := by
  by_contra outside
  rw [formed.hasRoot_outside (by omega)] at root
  omega

/-! ### A new parent -/

section Set

variable {curr root : AssertionId} {record : AssertionRecord}

theorem parentOf_set (inside : curr.toNat < records.length) (some : root ≠ 0) (i : Nat) :
    parentOf (records.set curr.toNat { record with parent := root }) i =
      if i = curr.toNat then root.toNat else parentOf records i := by
  unfold parentOf
  by_cases same : i = curr.toNat
  · subst same
    rw [List.getElem?_set_self inside, if_pos rfl]
    exact if_neg some
  · rw [List.getElem?_set_ne fun same' => same same'.symm, if_neg same]

theorem WellParented.set (formed : WellParented records) (pos : 0 < curr.toNat)
    (inside : curr.toNat < records.length) (some : root ≠ 0)
    (rootInside : root.toNat < records.length)
    (grounded : Grounded (parentOf (records.set curr.toNat { record with parent := root }))) :
    WellParented (records.set curr.toNat { record with parent := root }) := by
  refine ⟨?_, ?_, fun {i other} pos' found => ?_, grounded⟩
  · rw [List.length_set]
    exact formed.nonempty
  · rw [parentOf_set inside some, if_neg (by omega), formed.none]
  · rw [List.length_set]
    rw [List.getElem?_set] at found
    split at found
    · obtain rfl := Option.some.inj found
      exact ⟨some, rootInside⟩
    · exact formed.parents pos' found

theorem hung_set (inside : curr.toNat < records.length) (some : root ≠ 0)
    (climbs : HasRoot (parentOf records) curr.toNat root.toNat) (i : Nat) :
    parentOf (records.set curr.toNat { record with parent := root }) i = parentOf records i ∨
      HasRoot (parentOf records) i
        (parentOf (records.set curr.toNat { record with parent := root }) i) := by
  rw [parentOf_set inside some]
  split
  case isTrue same => exact .inr (same ▸ climbs)
  case isFalse => exact .inl rfl

theorem Compressed.hang (formed : WellParented records) (pos : 0 < curr.toNat)
    (found : records[curr.toNat]? = some record)
    (climbs : HasRoot (parentOf records) curr.toNat root.toNat) :
    Compressed records (records.set curr.toNat { record with parent := root }) := by
  obtain ⟨inside, here⟩ := List.getElem?_eq_some_iff.mp found
  obtain ⟨rootPos, rootInside⟩ := formed.root_mem climbs pos inside
  have some : root ≠ 0 := by
    rintro rfl
    exact absurd rootPos (by decide)
  have roots := fun x r => hasRoot_hang_iff (x := x) (r := r) formed.grounded
    (@hung_set _ _ _ record inside some climbs)
  refine ⟨?_, formed.set pos inside some rootInside fun x => ?_, roots⟩
  · rw [List.map_set]
    exact List.set_getElem_self (by simpa using inside) ▸ by simp [here]
  · obtain ⟨r, old⟩ := formed.grounded x
    exact ⟨r, (roots x r).mpr old⟩

end Set

/-! ### The search -/

variable {id : AssertionId}

theorem findRoot_returns (formed : WellParented records) {n fuel : Nat}
    (climbs : Climbs (parentOf records) n id.toNat r) (pos : 0 < id.toNat)
    (inside : id.toNat < records.length) (enough : n < fuel) :
    ∃ root, (findRoot records fuel id : Exec ε _) = .ok root ∧ root.toNat = r := by
  induction fuel generalizing id n with
  | zero => omega
  | succ fuel ih =>
    have found := List.getElem?_eq_getElem inside
    have parent := formed.parentOf_eq pos found
    rw [findRoot, getAt_of_lt inside, ok_bind]
    cases climbs with
    | root top =>
      have isRoot : records[id.toNat].parent = id := UInt32.toNat_inj.mp (parent ▸ top)
      exact ⟨id, by rw [if_neg fun both => both.1 isRoot, pure_eq_ok], rfl⟩
    | step moves rest =>
      obtain ⟨some, bound⟩ := formed.parents pos found
      rw [parent] at moves rest
      have away : records[id.toNat].parent ≠ id := fun same => moves (by rw [same])
      obtain ⟨pos', -⟩ := formed.parentOf_mem pos inside
      obtain ⟨root, ran, number⟩ := ih rest (parent ▸ pos') bound (by omega)
      exact ⟨root, by rw [if_pos ⟨away, some⟩, ran], number⟩

theorem compressPath_returns (formed : WellParented records) {n fuel : Nat}
    {curr root : AssertionId} (climbs : Climbs (parentOf records) n curr.toNat root.toNat)
    (pos : 0 < curr.toNat) (inside : curr.toNat < records.length) (enough : n < fuel) :
    ∃ records', (compressPath root fuel records curr : Exec ε _) = .ok records' ∧
      Compressed records records' := by
  induction fuel generalizing curr records n with
  | zero => omega
  | succ fuel ih =>
    rw [compressPath]
    have found := List.getElem?_eq_getElem inside
    have parent := formed.parentOf_eq pos found
    obtain ⟨pos', inside'⟩ := formed.parentOf_mem pos inside
    have hung := Compressed.hang formed pos found ⟨_, climbs⟩
    obtain ⟨rootPos, _⟩ := formed.root_mem ⟨_, climbs⟩ pos inside
    have rootSome : root ≠ 0 := by
      rintro rfl
      exact absurd rootPos (by decide)
    generalize number : root.toNat = r at climbs
    cases climbs with
    | root =>
      have same : curr = root := UInt32.toNat_inj.mp number.symm
      exact ⟨records, by rw [if_neg fun both => both.1 same, pure_eq_ok], .refl formed⟩
    | @step n _ _ moves rest =>
      subst number
      have away : curr ≠ root := by
        rintro rfl
        exact moves rest.top
      have some : curr ≠ 0 := by
        rintro rfl
        exact absurd pos (by decide)
      -- The rest of the way is at most as long as before.
      obtain ⟨m, shorter, onward⟩ := rest.hang
        (@hung_set _ _ _ records[curr.toNat] inside rootSome ⟨_, .step moves rest⟩)
      rw [parent] at pos' inside' onward
      obtain ⟨records', ran, compressed⟩ := ih hung.formed onward pos'
        (by rwa [List.length_set]) (by omega)
      refine ⟨records', ?_, hung.trans compressed⟩
      rw [if_pos ⟨away, some⟩, getAt_of_lt inside, ok_bind, setAt_of_lt inside, ok_bind, ran]

theorem findRep_outside (outside : id = 0 ∨ records.length ≤ id.toNat) :
    (findRep records id : Exec ε _) = .ok (0, records) := by
  rw [findRep, if_pos outside, pure_eq_ok]

/-- **The search for a representative ends at the root.** -/
theorem findRep_returns (formed : WellParented records) (pos : 0 < id.toNat)
    (inside : id.toNat < records.length) : ∃ root records',
      (findRep records id : Exec ε _) = .ok (root, records') ∧
        HasRoot (parentOf records) id.toNat root.toNat ∧ Compressed records records' := by
  obtain ⟨r, n, climbs⟩ := formed.grounded id.toNat
  have short : n < records.length := by
    have bound := climbs.lt_card (s := Finset.range records.length)
      (fun i member => by
        rw [Finset.mem_range] at member ⊢
        rcases Nat.eq_zero_or_pos i with rfl | pos
        · rw [formed.none]
          exact member
        · exact (formed.parentOf_mem pos member).2) (Finset.mem_range.mpr inside)
    rwa [Finset.card_range] at bound
  obtain ⟨root, ran, rfl⟩ := findRoot_returns (ε := ε) formed climbs pos inside
    (show n < records.length + 1 by omega)
  obtain ⟨records', compressed, same⟩ := compressPath_returns (ε := ε) formed climbs pos inside
    (show n < records.length + 1 by omega)
  have some : ¬(id = 0 ∨ records.length ≤ id.toNat) := by
    rintro (rfl | beyond)
    · exact absurd pos (by decide)
    · omega
  exact ⟨root, records', by rw [findRep, if_neg some, ran, ok_bind, compressed, ok_bind, pure_eq_ok],
    ⟨n, climbs⟩, same⟩

end Longfellow.Compile
