/-
**The reports of a scope** (`compile/logic/src/scope.rs`, `query_fates`, `failed_paths`).

A report first gathers the fates of the classes, a failure standing over everything else, and then
lists the members of the classes it met.

* `scope_faithful` — **classes are the closure of the unions, members are the classes, and reports
  list the paths of the failed classes**, while numbers and paths fit 32 bits.
-/

import Longfellow.Compile.Diagnosis
import Longfellow.Compile.Merging
import Mathlib.Data.FinEnum
import Mathlib.Tactic.Linarith

namespace Longfellow.Compile

open Lib

variable {ε : Type} {book : Book} {state : AssertionScope}

/-! ### The fates of the classes -/

/-- The classes of the assertions in `done`, each once, and those with a failure. -/
structure Grouped (book : Book) (records : List AssertionRecord)
    (done : List (Σ _ : AssertionId, AssertionStatus)) (state : GroupedFates) : Prop where
  same : Compressed records state.1
  different : state.2.2.Nodup
  reps : ∀ rep ∈ state.2.2, book.Has rep ∧ HasRoot (parentOf records) rep.toNat rep.toNat
  listed : ∀ rep, (state.2.1.lookup rep).isSome ↔ rep ∈ state.2.2
  failed : ∀ rep, state.2.1.Failed rep ↔ ∃ entry ∈ done, book.Has entry.1 ∧
    HasRoot (parentOf records) entry.1.toNat rep.toNat ∧ entry.2 ≠ .passed

variable {status : AssertionStatus}

theorem AssertionStatus.ne_passed_iff :
    status ≠ .passed ↔ ∃ message, status = .failed message := by
  cases status <;> simp

variable {fates : Fates} {rep id : AssertionId}

theorem Fates.failed_insert :
    Fates.Failed (fates.insert rep status) id ↔
      (id = rep ∧ status ≠ .passed) ∨ (id ≠ rep ∧ fates.Failed id) := by
  by_cases here : id = rep
  · subst here
    simp [Fates.Failed, AList.lookup_insert, AssertionStatus.ne_passed_iff]
  · simp [Fates.Failed, AList.lookup_insert_ne here, here]

theorem isSome_lookup_insert :
    (AList.lookup id (fates.insert rep status)).isSome ↔ id = rep ∨ (fates.lookup id).isSome := by
  by_cases here : id = rep
  · subst here
    simp [AList.lookup_insert]
  · simp [AList.lookup_insert_ne here, here]

variable {grouped : GroupedFates} {calls : List ScopeCall}

theorem Grouped.step (keeps : Represents book state)
    {done : List (Σ _ : AssertionId, AssertionStatus)}
    (before : Grouped book state.records done grouped) (entry : Σ _ : AssertionId, AssertionStatus) :
    ∃ after, (groupFate grouped entry : Exec ε _) = .ok after ∧
      Grouped book state.records (done ++ [entry]) after := by
  obtain ⟨records, groupFates, reps⟩ := grouped
  obtain ⟨same, different, known, listed, failed⟩ := before
  simp only at same different known listed failed
  obtain ⟨rep, records', ran, same', isRep, noRep⟩ := (keeps.compressed same).findRep (ε := ε) entry.1
  simp only at ran same' isRep
  rw [groupFate, ran, ok_bind]
  -- What the failures are when the fate of `rep` becomes worse.
  have split : ∀ r : AssertionId, (∃ e ∈ done ++ [entry], book.Has e.1 ∧
      HasRoot (parentOf state.records) e.1.toNat r.toNat ∧ e.2 ≠ .passed) ↔
      groupFates.Failed r ∨ (book.Has entry.1 ∧
        HasRoot (parentOf state.records) entry.1.toNat r.toNat ∧ entry.2 ≠ .passed) := by
    intro r
    rw [failed]
    simp only [List.mem_append, List.mem_singleton, or_and_right, exists_or, exists_eq_left]
  by_cases has : book.Has entry.1
  · obtain ⟨root, hasRep⟩ := isRep has
    have root := (same.roots _ _).mp root
    have atRep : ∀ r : AssertionId, (book.Has entry.1 ∧
        HasRoot (parentOf state.records) entry.1.toNat r.toNat ∧ entry.2 ≠ .passed) ↔
        r = rep ∧ entry.2 ≠ .passed := by
      intro r
      constructor
      · rintro ⟨_, root', failure⟩
        exact ⟨UInt32.toNat_inj.mp (root'.unique root), failure⟩
      · rintro ⟨rfl, failure⟩
        exact ⟨has, root, failure⟩
    simp only [hasRep.ne_zero, if_false]
    have together := same.trans same'
    rcases found : groupFates.lookup rep with _ | status
    · have fresh : rep ∉ reps := by
        rw [← listed, found]
        exact fun none => nomatch none
      have unfailed : ¬groupFates.Failed rep := by
        rintro ⟨message, some⟩
        rw [found] at some
        exact nomatch some
      refine ⟨_, rfl, together, ?_, ?_, fun r => ?_, fun r => ?_⟩
      · exact List.nodup_append.mpr ⟨different, List.nodup_singleton _, by
          rintro a member b last rfl
          exact fresh (List.mem_singleton.mp last ▸ member)⟩
      · intro r member
        rcases List.mem_append.mp member with old | new
        · exact known r old
        · rw [List.mem_singleton.mp new]
          exact ⟨hasRep, root.self⟩
      · simp only [isSome_lookup_insert, listed, List.mem_append, List.mem_singleton, or_comm]
      · rw [split, atRep, Fates.failed_insert]
        constructor
        · rintro (new | ⟨_, old⟩)
          · exact .inr new
          · exact .inl old
        · rintro (old | new)
          · exact .inr ⟨fun here => unfailed (here ▸ old), old⟩
          · exact .inl new
    · have member : rep ∈ reps := by
        rw [← listed, found]
        rfl
      rcases verdict : entry.2 with _ | message
      · exact ⟨_, rfl, together, different, known, listed, fun r => by
          rw [split, atRep, verdict]
          simp⟩
      · refine ⟨_, rfl, together, different, known, fun r => ?_, fun r => ?_⟩
        · simp only [isSome_lookup_insert, listed]
          exact ⟨fun either => either.elim (fun here => here ▸ member) fun old => old, .inr⟩
        · rw [split, atRep, Fates.failed_insert, verdict]
          by_cases here : r = rep <;> simp [here]
  · simp only [noRep has, if_true]
    refine ⟨_, rfl, same.trans same', different, known, listed, fun r => ?_⟩
    rw [split]
    simp [has]

theorem grouped_fates (keeps : Represents book state)
    (entries : List (Σ _ : AssertionId, AssertionStatus)) :
    ∃ grouped, (entries.foldlM groupFate (state.records, ∅, []) : Exec ε _) = .ok grouped ∧
      Grouped book state.records entries grouped := by
  refine foldlM_returns (Grouped book state.records) ?_ fun {done entry s} _ before =>
    before.step keeps entry
  exact ⟨.refl keeps.formed, List.nodup_nil, by simp, by simp, by simp [Fates.Failed]⟩

/-! ### The lists of paths -/

open Classical in
/-- The paths of the assertions whose class has a failed fate. -/
noncomputable def Book.failed (book : Book) (fates : Fates) : List String :=
  ((List.range' 1 book.count).filter fun a =>
    ∃ id, book.Has id ∧ book.Same id.toNat a ∧ fates.Failed id).map fun a =>
      "/".intercalate (book.path a)

/-- What is said of a member of a class. -/
def Book.line (book : Book) (fate : AssertionStatus) (id : AssertionId) : String × AssertionStatus :=
  ("/".intercalate (book.path id.toNat), fate)

theorem pathMatches_empty (path : String) : pathMatches path "" = true := by
  simp [pathMatches]

theorem Represents.reportMember (keeps : Represents book state) (has : book.Has id)
    (fate : AssertionStatus) (results : List (String × AssertionStatus)) :
    (state.reportMember "" fate results id : Exec ε _) = .ok (results ++ [book.line fate id]) := by
  obtain ⟨pos, inside⟩ := keeps.has_iff.mp has
  obtain ⟨paths, spells, _, at'⟩ := keeps.labelled
  have found := at' pos (List.getElem?_eq_getElem inside)
  have bound := (List.getElem?_eq_some_iff.mp found).choose
  rw [spells.length] at bound
  rw [AssertionScope.reportMember, getAt_of_lt inside, ok_bind,
    spells.resolvePath found (by omega), ok_bind]
  simp only [pathMatches_empty, if_true, pure_eq_ok, Book.line]

theorem Represents.has_of_mem (keeps : Represents book state) {members : List AssertionId}
    (found : state.members.lookup rep = some members) (member : id ∈ members) : book.Has id := by
  obtain ⟨has, _⟩ := (keeps.keys rep).mp (by rw [found]; rfl)
  obtain ⟨pos, inside⟩ := keeps.has_iff.mp has
  exact keeps.has_iff.mpr
    (keeps.formed.mem_of_root (((keeps.members found).2 id).mp member) pos inside)

/-- The members of a class. -/
def AssertionScope.membersOf (state : AssertionScope) (rep : AssertionId) : List AssertionId :=
  (state.members.lookup rep).getD []

theorem Represents.reportClass (keeps : Represents book state) {groupFates : Fates}
    {fate : AssertionStatus} (found : groupFates.lookup rep = some fate)
    (results : List (String × AssertionStatus)) :
    (state.reportClass "" groupFates results rep : Exec ε _) =
      .ok (results ++ (state.membersOf rep).map (book.line fate)) := by
  rw [AssertionScope.reportClass, found, expect_some, AssertionScope.membersOf]
  rcases listed : state.members.lookup rep with _ | members
  · simp
  · have each : ∃ t, members.foldlM (state.reportMember (ε := ε) "" fate) results = .ok t ∧
        t = results ++ members.map (book.line fate) :=
      foldlM_returns (fun done t => t = results ++ done.map (book.line fate)) (by simp)
        fun {done id s} part before => by
          subst before
          have member : id ∈ members := part.subset (by simp)
          exact ⟨_, keeps.reportMember (keeps.has_of_mem listed member) fate _, by simp⟩
    obtain ⟨_, ran, rfl⟩ := each
    simpa using ran

/-- The numbers of the members of the failed classes. -/
def AssertionScope.failedMembers (state : AssertionScope) (grouped : GroupedFates) : List Nat :=
  grouped.2.2.flatMap fun rep =>
    if (grouped.2.1.lookup rep).getD .passed ≠ .passed then (state.membersOf rep).map UInt32.toNat
    else []

theorem getD_ne_passed_iff :
    (fates.lookup id).getD .passed ≠ .passed ↔ fates.Failed id := by
  unfold Fates.Failed
  rcases fates.lookup id with _ | status
  · simp
  · simp [AssertionStatus.ne_passed_iff]

theorem Represents.membersOf_spec (keeps : Represents book state) (rep : AssertionId) :
    (state.membersOf rep).Nodup ∧ ∀ id, id ∈ state.membersOf rep →
      HasRoot (parentOf state.records) id.toNat rep.toNat := by
  unfold AssertionScope.membersOf
  rcases found : state.members.lookup rep with _ | members
  · simp
  · obtain ⟨different, exact'⟩ := keeps.members found
    exact ⟨different, fun id => (exact' id).mp⟩

theorem Represents.nodup_failedMembers (keeps : Represents book state)
    (different : grouped.2.2.Nodup) : (state.failedMembers grouped).Nodup := by
  rw [AssertionScope.failedMembers, List.nodup_flatMap]
  constructor
  · intro rep _
    split
    · exact (keeps.membersOf_spec rep).1.map fun _ _ same => UInt32.toNat_inj.mp same
    · exact List.nodup_nil
  · refine different.imp fun {rep rep'} apart a member member' => apart ?_
    have root : ∀ {rep : AssertionId}, (a ∈ if (grouped.2.1.lookup rep).getD .passed ≠ .passed then
        (state.membersOf rep).map UInt32.toNat else []) →
          HasRoot (parentOf state.records) a rep.toNat := by
      intro rep member
      split at member
      · obtain ⟨id, listed, rfl⟩ := List.mem_map.mp member
        exact (keeps.membersOf_spec rep).2 id listed
      · exact absurd member List.not_mem_nil
    exact UInt32.toNat_inj.mp ((root member).unique (root member'))

theorem Represents.mem_failedMembers (keeps : Represents book state)
    {entries : List (Σ _ : AssertionId, AssertionStatus)}
    (all : ∀ e, e ∈ entries ↔ e ∈ fates.entries) (made : Grouped book state.records entries grouped)
    (a : Nat) :
    a ∈ state.failedMembers grouped ↔ (1 ≤ a ∧ a < 1 + book.count) ∧
      ∃ id, book.Has id ∧ book.Same id.toNat a ∧ fates.Failed id := by
  have member : a ∈ state.failedMembers grouped ↔ ∃ rep ∈ grouped.2.2, grouped.2.1.Failed rep ∧
      ∃ id ∈ state.membersOf rep, id.toNat = a := by
    rw [AssertionScope.failedMembers, List.mem_flatMap]
    refine exists_congr fun rep => and_congr_right fun _ => ?_
    rw [← getD_ne_passed_iff]
    split
    case isTrue failure => simp [failure]
    case isFalse passed => simp [passed]
  rw [member]
  constructor
  · rintro ⟨rep, listed, failure, id, among, rfl⟩
    obtain ⟨entry, one, has, root, status⟩ := (made.failed rep).mp failure
    obtain ⟨hasRep, _⟩ := made.reps rep listed
    have root' := (keeps.membersOf_spec rep).2 id among
    obtain ⟨pos, bound⟩ := keeps.has_iff.mp hasRep
    obtain ⟨pos', bound'⟩ := keeps.formed.mem_of_root root' pos bound
    rw [keeps.length] at bound'
    obtain ⟨message, verdict⟩ := AssertionStatus.ne_passed_iff.mp status
    refine ⟨⟨pos', by omega⟩, entry.1, has, (keeps.classes _ _).mp ⟨_, root, root'⟩, message, ?_⟩
    exact verdict ▸ AList.mem_lookup_iff.mpr ((all entry).mp one)
  · rintro ⟨⟨pos, bound⟩, id, has, same, message, found⟩
    obtain ⟨rep, _, _, _, known, _⟩ := keeps.findRep (ε := String) id
    obtain ⟨root, hasRep⟩ := known has
    have root' := root.sameRoot_iff.mp ((keeps.classes _ _).mpr same)
    have failure : grouped.2.1.Failed rep := (made.failed rep).mpr
      ⟨⟨id, .failed message⟩, (all _).mpr (AList.mem_lookup_iff.mp found), has, root, by simp⟩
    obtain ⟨text, some⟩ := failure
    obtain ⟨members, listed⟩ := Option.isSome_iff_exists.mp
      ((keeps.keys rep).mpr ⟨hasRep, root.self⟩)
    have number : (UInt32.ofNat a).toNat = a :=
      UInt32.toNat_ofNat_of_lt' (lt_of_le_of_lt (Nat.lt_one_add_iff.mp bound) keeps.fits)
    refine ⟨rep, (made.listed rep).mp (by rw [some]; rfl), ⟨text, some⟩, UInt32.ofNat a, ?_, number⟩
    rw [AssertionScope.membersOf, listed]
    exact ((keeps.members listed).2 _).mpr (number.symm ▸ root')

theorem Book.map_failed_lines (book : Book) (reps : List AssertionId)
    (members : AssertionId → List AssertionId) (fate : AssertionId → AssertionStatus) :
    ((reps.flatMap fun rep => (members rep).map (book.line (fate rep))).filter
      fun result => result.2 ≠ .passed).map Prod.fst =
    (reps.flatMap fun rep => if fate rep ≠ .passed then (members rep).map UInt32.toNat
      else []).map fun a => "/".intercalate (book.path a) := by
  rw [List.filter_flatMap, List.map_flatMap, List.map_flatMap]
  refine List.flatMap_congr fun rep _ => ?_
  by_cases passed : fate rep = .passed
  · simp [Book.line, passed, List.filter_map, Function.comp_def]
  · simp [Book.line, passed, List.filter_map, Function.comp_def]

/-- **The failed paths** are those of the assertions whose class has a failed fate. -/
theorem Represents.failedPaths (keeps : Represents book state) (fates : Fates) :
    ∃ paths state', (state.failedPaths fates : Exec ε _) = .ok (paths, state') ∧
      paths.Perm (book.failed fates) ∧ Represents book state' := by
  set entries := fates.entries.mergeSort fun a b => a.1 ≤ b.1 with sorted
  have all : ∀ e, e ∈ entries ↔ e ∈ fates.entries := fun e => List.mem_mergeSort
  obtain ⟨grouped, ran, made⟩ := grouped_fates (ε := ε) keeps entries
  obtain ⟨records', groupFates, reps⟩ := grouped
  have keeps' := keeps.compressed made.same
  simp only at keeps'
  set state' : AssertionScope := { state with records := records' }
  set fate : AssertionId → AssertionStatus := fun rep => (groupFates.lookup rep).getD .passed
  have reports : ∃ t, reps.foldlM (state'.reportClass (ε := ε) "" groupFates) [] = .ok t ∧
      t = reps.flatMap fun rep => (state'.membersOf rep).map (book.line (fate rep)) :=
    foldlM_returns (fun done t => t = done.flatMap fun rep =>
      (state'.membersOf rep).map (book.line (fate rep))) rfl fun {done rep s} part before => by
        subst before
        have member : rep ∈ reps := part.subset (by simp)
        obtain ⟨status, found⟩ := Option.isSome_iff_exists.mp ((made.listed rep).mpr member)
        refine ⟨_, keeps'.reportClass found _, ?_⟩
        simp [fate, show AList.lookup rep groupFates = some status from found]
  obtain ⟨_, listed, rfl⟩ := reports
  refine ⟨((reps.flatMap fun rep => (state'.membersOf rep).map (book.line (fate rep))).filter
    fun result => result.2 ≠ .passed).map Prod.fst, state', ?_, ?_, keeps'⟩
  · have queried : (state.queryFates "" fates : Exec ε _) = .ok (reps.flatMap fun rep =>
        (state'.membersOf rep).map (book.line (fate rep)), state') := by
      rw [AssertionScope.queryFates, ← sorted, ran, ok_bind]
      change (reps.foldlM (state'.reportClass "" groupFates) [] >>= _) = _
      rw [listed]
      rfl
    rw [AssertionScope.failedPaths, queried]
    rfl
  · rw [Book.map_failed_lines]
    refine List.Perm.map _ ((List.perm_ext_iff_of_nodup
      (keeps.nodup_failedMembers made.different) ?_).mpr fun a => ?_)
    · exact (List.nodup_range' ..).filter _
    · rw [keeps.mem_failedMembers all made, List.mem_filter, List.mem_range'_1]
      simp

/-! ### Runs -/

/-- What a call returns: the next number for a new assertion, and a member of the class for a
search. -/
def Book.Returns (book : Book) : ScopeCall → AssertionId → Prop
  | .newLeaf _, id => id.toNat = book.count + 1
  | .find id, rep =>
    (book.Has id → book.Has rep ∧ book.Same id.toNat rep.toNat) ∧ (¬book.Has id → rep = 0)
  | .prependScope _ _, _ => True
  | .union _ _, _ => True

/-- **One call** keeps the book. -/
theorem Represents.call (keeps : Represents book state) (call : ScopeCall)
    (fits : (book.after call).Fits) :
    ∃ id state', (state.call call : Exec ε _) = .ok (id, state') ∧
      Represents (book.after call) state' ∧ book.Returns call id := by
  cases call with
  | newLeaf name =>
    obtain ⟨after, number⟩ := keeps.newLeaf name fits
    exact ⟨_, _, rfl, after, number⟩
  | prependScope id name =>
    obtain ⟨state', ran, after⟩ := keeps.prependScope (ε := ε) id name fits
    exact ⟨0, state', by rw [AssertionScope.call, ran]; rfl, after, trivial⟩
  | find id =>
    obtain ⟨rep, state', ran, after, known, unknown⟩ := keeps.find (ε := ε) id
    refine ⟨rep, state', ran, after, fun has => ?_, unknown⟩
    obtain ⟨root, hasRep⟩ := known has
    exact ⟨hasRep, (keeps.classes _ _).mp root.sameRoot⟩
  | union id1 id2 =>
    obtain ⟨state', ran, after⟩ := keeps.union (ε := ε) id1 id2
    exact ⟨0, state', by rw [AssertionScope.call, ran]; rfl, after, trivial⟩

theorem Book.of_concat (calls : List ScopeCall) (call : ScopeCall) :
    Book.of (calls ++ [call]) = (Book.of calls).after call := List.foldl_concat ..

theorem runCalls_concat (calls : List ScopeCall) (call : ScopeCall) :
    (AssertionScope.runCalls (calls ++ [call]) : Exec ε _) =
      AssertionScope.runCalls calls >>= fun state =>
        state.2.call call >>= fun made => pure (state.1 ++ [made.1], made.2) := by
  rw [AssertionScope.runCalls, List.foldlM_append]
  refine bind_congr fun state => ?_
  rw [List.foldlM_cons, bind_assoc]
  exact bind_congr fun made => rfl

/-- **Every run** keeps its book. -/
theorem represents_runCalls (fits : (Book.of calls).Fits) :
    ∃ returned state, (AssertionScope.runCalls calls : Exec ε _) = .ok (returned, state) ∧
      Represents (Book.of calls) state ∧ returned.length = calls.length ∧
      ∀ {i : ℕ} {call : ScopeCall}, calls[i]? = some call → ∃ id, returned[i]? = some id ∧
        (Book.of (calls.take i)).Returns call id := by
  induction calls using List.reverseRecOn with
  | nil => exact ⟨[], _, rfl, represents_new, rfl, fun found => by simp at found⟩
  | append_singleton calls call ih =>
    rw [Book.of_concat] at fits ⊢
    obtain ⟨returned, state, ran, keeps, length, each⟩ := ih fits.before
    obtain ⟨id, state', called, after, returns⟩ := keeps.call (ε := ε) call fits
    refine ⟨returned ++ [id], state', ?_, after, by simp [length], fun {i call'} found => ?_⟩
    · rw [runCalls_concat, ran, ok_bind, called]
      rfl
    · rcases Nat.lt_or_ge i calls.length with before | behind
      · rw [List.getElem?_append_left before] at found
        rw [List.getElem?_append_left (length ▸ before), List.take_append_of_le_length before.le]
        exact each found
      · obtain ⟨bound, _⟩ := List.getElem?_eq_some_iff.mp found
        rw [List.length_append, List.length_singleton] at bound
        obtain rfl : i = calls.length := by omega
        rw [List.getElem?_concat_length] at found
        obtain rfl := Option.some.inj found
        exact ⟨id, by rw [← length, List.getElem?_concat_length], by
          rwa [List.take_left']; rfl⟩

/-! ### What a scope is good for -/

/-- `rep` finds the classes of the book, and the member lists are the classes. -/
structure Partitions (book : Book) (state : AssertionScope) (rep : AssertionId → AssertionId) :
    Prop where
  find : ∀ id, ∃ after, (state.find id : Exec String _) = .ok (rep id, after)
  none : ∀ id, ¬book.Has id → rep id = 0
  closure : ∀ id id', book.Has id → book.Has id' → (rep id = rep id' ↔ book.Same id.toNat id'.toNat)
  member : ∀ id, book.Has id → book.Has (rep id) ∧ book.Same id.toNat (rep id).toNat
  keys : ∀ r, (state.members.lookup r).isSome ↔ ∃ id, book.Has id ∧ rep id = r
  members : ∀ id, book.Has id → ∃ members, state.members.lookup (rep id) = some members ∧
    members.Nodup ∧ ∀ id', id' ∈ members ↔ book.Has id' ∧ book.Same id.toNat id'.toNat

/-- Reports list the paths of the assertions whose class has a failed fate. -/
def ReportsFailures (book : Book) (state : AssertionScope) : Prop :=
  ∀ fates, ∃ paths after, (state.failedPaths fates : Exec String _) = .ok (paths, after) ∧
    paths.Perm (book.failed fates)

/-- The run ends, its calls return what they should, and the scope after it keeps the classes and
reports the failures. -/
def Faithful (calls : List ScopeCall) : Prop :=
  ∃ returned state, (AssertionScope.runCalls calls : Exec String _) = .ok (returned, state) ∧
    (∀ {i : ℕ} {call : ScopeCall}, calls[i]? = some call → ∃ id, returned[i]? = some id ∧
      (Book.of (calls.take i)).Returns call id) ∧
    (∃ rep, Partitions (Book.of calls) state rep) ∧ ReportsFailures (Book.of calls) state

theorem Represents.partitions (keeps : Represents book state) :
    ∃ rep, Partitions book state rep := by
  choose rep after ran keep known unknown using fun id => keeps.find (ε := String) id
  have closure : ∀ {id id'}, book.Has id → book.Has id' →
      (rep id = rep id' ↔ book.Same id.toNat id'.toNat) := by
    intro id id' has has'
    obtain ⟨root, _⟩ := known id has
    obtain ⟨root', _⟩ := known id' has'
    rw [← keeps.classes, root.sameRoot_iff]
    exact ⟨fun same => same ▸ root', fun other => UInt32.toNat_inj.mp (other.unique root')⟩
  refine ⟨rep, fun id => ⟨after id, ran id⟩, unknown, fun _ _ => closure, fun id has => ?_,
    fun r => ?_, fun id has => ?_⟩
  · obtain ⟨root, hasRep⟩ := known id has
    exact ⟨hasRep, (keeps.classes _ _).mp root.sameRoot⟩
  · rw [keeps.keys]
    constructor
    · rintro ⟨has, root⟩
      obtain ⟨root', _⟩ := known r has
      exact ⟨r, has, UInt32.toNat_inj.mp (root'.unique root)⟩
    · rintro ⟨id, has, rfl⟩
      obtain ⟨root, hasRep⟩ := known id has
      exact ⟨hasRep, root.self⟩
  · obtain ⟨root, hasRep⟩ := known id has
    obtain ⟨members, found⟩ := Option.isSome_iff_exists.mp
      ((keeps.keys (rep id)).mpr ⟨hasRep, root.self⟩)
    obtain ⟨different, exact'⟩ := keeps.members found
    refine ⟨members, found, different, fun id' => ?_⟩
    rw [exact', ← keeps.classes, root.sameRoot_iff]
    refine ⟨fun other => ⟨?_, other⟩, And.right⟩
    obtain ⟨pos, bound⟩ := keeps.has_iff.mp hasRep
    exact keeps.has_iff.mpr (keeps.formed.mem_of_root other pos bound)

/-- **A scope is faithful** while the numbers of the assertions and of the paths fit 32 bits. -/
theorem scope_faithful (calls : List ScopeCall) (fits : (Book.of calls).Fits) : Faithful calls := by
  obtain ⟨returned, state, ran, keeps, _, each⟩ := represents_runCalls (ε := String) fits
  refine ⟨returned, state, ran, each, keeps.partitions, fun fates => ?_⟩
  obtain ⟨paths, after, listed, same, _⟩ := keeps.failedPaths (ε := String) fates
  exact ⟨paths, after, listed, same⟩

theorem Book.after_le (book : Book) (call : ScopeCall) :
    (book.after call).count ≤ book.count + 1 ∧
      (book.after call).made.card ≤ book.made.card + (book.count + 1) := by
  classical
  cases call with
  | newLeaf name =>
    have more := Finset.card_insert_le [name] book.made
    exact ⟨le_rfl, by simp only [Book.after]; omega⟩
  | prependScope id name =>
    simp only [Book.after]
    split
    · refine ⟨by simp, (Finset.card_union_le _ _).trans (Nat.add_le_add_left ?_ _)⟩
      refine Finset.card_image_le.trans ((Finset.card_filter_le _ _).trans ?_)
      rw [Finset.card_range]
    · exact ⟨by omega, by omega⟩
  | find => exact ⟨by simp [Book.after], by simp [Book.after]⟩
  | union id1 id2 =>
    simp only [Book.after]
    split <;> exact ⟨by simp, by simp⟩

theorem fits_of_length (short : calls.length < 2 ^ 15) :
    (Book.of calls).Fits := by
  have bounds : (Book.of calls).count ≤ calls.length ∧
      (Book.of calls).made.card ≤ 1 + calls.length * (calls.length + 1) := by
    clear short
    induction calls using List.reverseRecOn with
    | nil => exact ⟨le_rfl, le_rfl⟩
    | append_singleton calls call ih =>
      obtain ⟨count, card⟩ := (Book.of calls).after_le call
      rw [Book.of_concat, List.length_append, List.length_singleton]
      exact ⟨by omega, by nlinarith [ih.1, ih.2]⟩
  exact ⟨by omega, by nlinarith [bounds.2]⟩

/-- Two assertions are merged and put below a name. -/
theorem scope_faithful_pair :
    Faithful [.newLeaf "left", .newLeaf "right", .union 1 2, .prependScope 2 "both", .find 2] :=
  scope_faithful _ (fits_of_length (by decide))

/-! ### Too many assertions -/

theorem count_replicate (n : ℕ) (name : String) :
    (Book.of (List.replicate n (.newLeaf name))).count = n := by
  induction n with
  | zero => rfl
  | succ n ih => rw [List.replicate_succ', Book.of_concat, Book.after, ih]

theorem runCalls_replicate (n : ℕ) (name : String) :
    ∃ returned state, (AssertionScope.runCalls (List.replicate n (.newLeaf name)) : Exec ε _) =
        .ok (returned, state) ∧ state.records.length = n + 1 ∧
      returned = (List.range' 1 n).map UInt32.ofNat := by
  induction n with
  | zero => exact ⟨[], _, rfl, rfl, rfl⟩
  | succ n ih =>
    obtain ⟨returned, state, ran, length, rfl⟩ := ih
    refine ⟨_, (state.newLeaf name).2, ?_, by simp [AssertionScope.newLeaf, length], rfl⟩
    rw [List.replicate_succ', runCalls_concat, ran, ok_bind]
    simp only [AssertionScope.call, pure_eq_ok, ok_bind, AssertionScope.newLeaf, length]
    rw [List.range'_1_concat, List.map_append, Nat.add_comm n 1]
    rfl

/-- **A hidden failure**: assertion number 2 ^ 32 gets the number zero, and its failure is not
reported. -/
theorem scope_hides_failure :
    (∃ returned state, (AssertionScope.runCalls (List.replicate (2 ^ 32) (.newLeaf "x")) :
        Exec String _) = .ok (returned, state) ∧ returned[2 ^ 32 - 1]? = some 0 ∧
      (state.failedPaths (AList.insert 0 (.failed "expected zero") ∅) : Exec String _) =
        .ok ([], state)) ∧
    ¬Faithful (List.replicate (2 ^ 32) (.newLeaf "x")) := by
  obtain ⟨returned, state, ran, length, rfl⟩ :=
    runCalls_replicate (ε := String) (2 ^ 32) "x"
  have last : ((List.range' 1 (2 ^ 32)).map UInt32.ofNat)[2 ^ 32 - 1]? = some 0 := by
    rw [List.getElem?_map, List.getElem?_range' (by norm_num), Option.map_some]
    rfl
  refine ⟨⟨_, state, ran, last, ?_⟩, ?_⟩
  · have grouped : groupFate (ε := String) (state.records, ∅, []) ⟨0, .failed "expected zero"⟩ =
        .ok (state.records, ∅, []) := by
      rw [groupFate, findRep_outside (.inl rfl)]
      rfl
    have queried : (state.queryFates "" (AList.insert 0 (.failed "expected zero") ∅) :
        Exec String _) = .ok ([], state) := by
      have entries : ((AList.insert 0 (.failed "expected zero") ∅ : Fates).entries.mergeSort
          fun a b => a.1 ≤ b.1) = [⟨0, .failed "expected zero"⟩] := by
        rw [AList.entries_insert]
        exact List.mergeSort_singleton _
      rw [AssertionScope.queryFates, entries, List.foldlM_cons, grouped]
      rfl
    rw [AssertionScope.failedPaths, queried]
    rfl
  · rintro ⟨returned, state', ran', each, _⟩
    obtain ⟨rfl, -⟩ := Prod.mk.inj (Except.ok.inj (ran.symm.trans ran'))
    have called : (List.replicate (2 ^ 32) (ScopeCall.newLeaf "x"))[2 ^ 32 - 1]? =
        some (.newLeaf "x") := by
      rw [List.getElem?_replicate, if_pos (by norm_num)]
    obtain ⟨id, found, number⟩ := each called
    rw [List.take_replicate] at number
    have count := count_replicate (min (2 ^ 32 - 1) (2 ^ 32)) "x"
    rw [Book.Returns, count] at number
    have bound := id.toNat_lt
    omega

end Longfellow.Compile
