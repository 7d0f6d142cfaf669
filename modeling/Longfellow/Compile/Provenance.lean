/-
**Assertions that an evaluation fails, and the compiled graph** (`compile/logic/src/eval.rs`,
`compile/compiler/src/logic_impl.rs`, `algsimp.rs`).

A wire of the direct evaluation carries the fates of the assertions it depends on through every
operation. The rewriter folds nodes away, and with a coefficient of zero it drops the operands
together with the assertions attached to them.

* `compiled_fails` — **a whole program**: what fails in the evaluation fails in the graph, unless an
  operand with an assertion was dropped.
-/

import Longfellow.Compile.Logic
import Longfellow.Compile.Wide
import Longfellow.Lib.Follow

set_option linter.unusedSectionVars false

namespace Longfellow.Compile

open Lib

variable {ε E : Type}

/-! ### Failed assertions -/

/-- Some assertion failed. -/
def SomeFailed (fates : Fates) : Prop := ∃ fate ∈ fates.entries, fate.2 ≠ .passed

theorem someFailed_iff {fates : Fates} : SomeFailed fates ↔ Fates.isOk fates = false := by
  simp [SomeFailed, Fates.isOk]

theorem someFailed_mergeAssertions {left right : Fates}
    (failed : SomeFailed (mergeAssertions left right)) :
    SomeFailed left ∨ SomeFailed right := by
  unfold mergeAssertions at failed
  split at failed
  · exact .inr failed
  · split at failed
    · exact .inl failed
    · obtain ⟨⟨id, status⟩, member, notPassed⟩ := failed
      rcases AList.mem_lookup_union.mp (AList.mem_lookup_iff.mpr member) with here | ⟨_, here⟩
      · exact .inr ⟨⟨id, status⟩, AList.mem_lookup_iff.mp here, notPassed⟩
      · exact .inl ⟨⟨id, status⟩, AList.mem_lookup_iff.mp here, notPassed⟩

theorem not_someFailed_empty : ¬ SomeFailed ∅ := fun ⟨_, member, _⟩ => by cases member

/-- A failed assertion of some group. -/
def EvalAssertions.Failed (assertions : EvalAssertions) : Prop :=
  SomeFailed assertions.scopedItems ∨ SomeFailed assertions.unscopedItems

variable [CommRing E] {inputs : Nat → E} {arena arena' : Arena E} {w : EvalWire E}
  {items : List AssertionItem} {kept : NodeId → Prop} {ws : List (EvalWire E)}

section Attached

variable [DecidableEq E]

/-- Some node among the given ones is not zero. -/
def FailsAmong (inputs : Nat → E) (arena : Arena E) (among : NodeId → Prop) : Prop :=
  ∃ c, among c ∧ c < arena.nodes.length ∧ arena.value inputs c ≠ 0

/-- The nodes of some assertions, and of those attached to them. -/
def Asserted (arena : Arena E) (items : List AssertionItem) (c : NodeId) : Prop :=
  ∃ item ∈ items, c = item.expr ∨ c ∈ arena.attachedTo item.expr

theorem FailsAmong.mono {among among' : NodeId → Prop} (fails : FailsAmong inputs arena among)
    (grown : arena ≤ arena') (wider : ∀ {c}, among c → among' c) :
    FailsAmong inputs arena' among' := by
  obtain ⟨c, here, bound, nonzero⟩ := fails
  refine ⟨c, wider here, lt_of_lt_of_le bound grown.1.length_le, ?_⟩
  rwa [value_mono grown bound]

theorem Asserted.mono (grown : arena ≤ arena')
    (bounds : ∀ item ∈ items, item.expr < arena.nodes.length) {c : NodeId}
    (asserted : Asserted arena items c) : Asserted arena' items c := by
  obtain ⟨item, member, here⟩ := asserted
  refine ⟨item, member, here.imp_right fun attached => ?_⟩
  rwa [attachedTo_mono grown (bounds item member)]

/-! ### Wires and assertions of both runs -/

/-- A compiled wire has the value of the evaluated one, and what the evaluated one carries that
failed is attached to it. -/
structure SameWire (inputs : Nat → E) (arena : Arena E) (w : EvalWire E) (x : NodeId) : Prop where
  bound : x < arena.nodes.length
  value : arena.value inputs x = w.value
  fails : arena.Clean → SomeFailed w.assertions → FailsAmong inputs arena (· ∈ arena.attachedTo x)

/-- If assertions of the evaluation failed, so do compiled ones. -/
structure SameAssertions (inputs : Nat → E) (arena : Arena E) (a : EvalAssertions)
    (items : List AssertionItem) : Prop where
  bounds : ∀ item ∈ items, item.expr < arena.nodes.length
  fails : arena.Clean → a.Failed → FailsAmong inputs arena (Asserted arena items)

theorem SameWire.mono {x : NodeId} (grown : arena ≤ arena')
    (formed : arena.WellFormed) (same : SameWire inputs arena w x) :
    SameWire inputs arena' w x where
  bound := lt_of_lt_of_le same.bound grown.1.length_le
  value := by rw [value_mono grown same.bound, same.value]
  fails clean failed := by
    rw [attachedTo_mono grown same.bound]
    exact (same.fails (formed.clean_anti grown clean) failed).mono grown id

theorem SameAssertions.mono {a : EvalAssertions}
    (grown : arena ≤ arena') (formed : arena.WellFormed)
    (same : SameAssertions inputs arena a items) : SameAssertions inputs arena' a items where
  bounds item member := lt_of_lt_of_le (same.bounds item member) grown.1.length_le
  fails clean failed := (same.fails (formed.clean_anti grown clean) failed).mono grown
    fun asserted => asserted.mono grown same.bounds

theorem Denotes.sameWire {x : NodeId}
    (denotes : Denotes inputs arena' x w.value kept) (formed : arena.WellFormed)
    (grown : arena ≤ arena')
    (fails : arena.Clean → SomeFailed w.assertions → FailsAmong inputs arena kept) :
    SameWire inputs arena' w x where
  bound := denotes.bound
  value := denotes.value
  fails clean failed := (fails (formed.clean_anti grown clean) failed).mono grown
    fun isKept => denotes.keeps clean isKept

variable {xs : List NodeId}
  (same : List.Forall₂ (SameWire inputs arena) ws xs)
include same

theorem total_of_same :
    Algsimp.total inputs arena xs = (ws.map EvalWire.value).sum := by
  induction same with
  | nil => rfl
  | cons here _ ih =>
    rw [List.map_cons, List.sum_cons, ← ih, ← here.value]
    rfl

theorem failsAmong_of_same (clean : arena.Clean) (failed : ∃ w ∈ ws, SomeFailed w.assertions) :
    FailsAmong inputs arena (Algsimp.AttachedToSome arena xs) := by
  obtain ⟨w, member, failed⟩ := failed
  obtain ⟨x, listed, same⟩ := exists_of_mem_left same member
  exact (same.fails clean failed).mono le_rfl fun attached => ⟨x, listed, attached⟩

end Attached

/-! ### One operation -/

variable [DecidableEq E] {cmp : E → E → Ordering} {fuel : Nat} {debug : E → String} {v : E}

section

variable (formed : arena.WellFormed)
include formed

theorem follows_wire {m' : Build ε E NodeId}
    (ensures : Ensures Arena.WellFormed arena m' fun arena' x => Denotes inputs arena' x v kept)
    (value : w.value = v)
    (fails : arena.Clean → SomeFailed w.assertions → FailsAmong inputs arena kept) :
    Follows Arena.WellFormed arena (pure w : Evaluating ε (EvalWire E))
      (liftM m' : Compiling ε E NodeId) (SameWire inputs) := by
  refine follows_of_ensures (ensures.mono fun grown _ denotes => ?_)
  subst value
  exact denotes.sameWire formed grown fails

theorem follows_constant (e : E) :
    Follows Arena.WellFormed arena (pure (.ok e) : Evaluating ε (EvalWire E))
      (liftM (Algsimp.constant e : Build ε E NodeId) : Compiling ε E NodeId)
      (SameWire inputs) :=
  follows_wire formed (Algsimp.ensures_constant inputs formed e) rfl
    fun _ failed => (not_someFailed_empty failed).elim

theorem follows_linear {x : NodeId} (same : SameWire inputs arena w x) {e : E}
    (value : v = e * w.value) :
    Follows Arena.WellFormed arena (pure ⟨v, w.assertions⟩ : Evaluating ε (EvalWire E))
      (liftM (Algsimp.linear cmp fuel e x : Build ε E NodeId) : Compiling ε E NodeId)
      (SameWire inputs) :=
  follows_wire formed ((Algsimp.correct ε cmp inputs fuel).linear formed same.bound)
    (by rw [same.value, value]) same.fails

theorem follows_quadratic {w' : EvalWire E} {x x' : NodeId} (same : SameWire inputs arena w x)
    (same' : SameWire inputs arena w' x') {e : E} (value : v = e * (w.value * w'.value)) :
    Follows Arena.WellFormed arena (pure (EvalLogic.combine w w' v) : Evaluating ε (EvalWire E))
      (liftM (Algsimp.quadratic cmp fuel e x x' : Build ε E NodeId) : Compiling ε E NodeId)
      (SameWire inputs) := by
  refine follows_wire formed
    ((Algsimp.correct ε cmp inputs fuel).quadratic formed same.bound same'.bound) ?_
    fun clean failed => ?_
  · rw [same.value, same'.value, ← value]
    rfl
  · rcases someFailed_mergeAssertions failed with first | second
    · exact (same.fails clean first).mono le_rfl .inl
    · exact (same'.fails clean second).mono le_rfl .inr

theorem follows_sum {xs : List NodeId}
    (same : List.Forall₂ (SameWire inputs arena) ws xs) {precious : Bool}
    (value : w.value = (ws.map EvalWire.value).sum)
    (failed : SomeFailed w.assertions → ∃ w ∈ ws, SomeFailed w.assertions) :
    Follows Arena.WellFormed arena (pure w : Evaluating ε (EvalWire E))
      (liftM (Algsimp.sum cmp fuel xs precious : Build ε E NodeId) : Compiling ε E NodeId)
      (SameWire inputs) := by
  have bounds : ∀ x ∈ xs, x < arena.nodes.length := by
    intro x member
    obtain ⟨w, _, same⟩ := exists_of_mem_right same member
    exact same.bound
  exact follows_wire formed ((Algsimp.correct ε cmp inputs fuel).sum formed bounds)
    (by rw [value, total_of_same same]) fun clean here => failsAmong_of_same same clean (failed here)

end

/-- The fold of `EvalLogic.sum`. -/
theorem EvalLogic.sum_spec (ws : List (EvalWire E)) :
    (EvalLogic.sum ws).value = (ws.map EvalWire.value).sum ∧
      (SomeFailed (EvalLogic.sum ws).assertions → ∃ w ∈ ws, SomeFailed w.assertions) := by
  have general : ∀ acc : EvalWire E,
      (ws.foldl (fun acc x =>
        ⟨acc.value + x.value, mergeAssertions acc.assertions x.assertions⟩) acc).value =
          acc.value + (ws.map EvalWire.value).sum ∧
      (SomeFailed (ws.foldl (fun acc x =>
        ⟨acc.value + x.value, mergeAssertions acc.assertions x.assertions⟩) acc).assertions →
          SomeFailed acc.assertions ∨ ∃ w ∈ ws, SomeFailed w.assertions) := by
    induction ws with
    | nil => exact fun acc => ⟨(add_zero _).symm, .inl⟩
    | cons w ws ih =>
      intro acc
      obtain ⟨value, fails⟩ :=
        ih ⟨acc.value + w.value, mergeAssertions acc.assertions w.assertions⟩
      refine ⟨by rw [List.foldl_cons, value, List.map_cons, List.sum_cons, add_assoc],
        fun failed => ?_⟩
      rcases fails failed with merged | ⟨w', member, failed⟩
      · rcases someFailed_mergeAssertions merged with before | here
        · exact .inl before
        · exact .inr ⟨w, List.mem_cons_self .., here⟩
      · exact .inr ⟨w', List.mem_cons_of_mem _ member, failed⟩
  obtain ⟨value, fails⟩ := general (EvalWire.ok 0)
  refine ⟨value.trans (zero_add _), fun failed => ?_⟩
  exact (fails failed).resolve_left not_someFailed_empty

/-! ### Assertions -/

theorem ensures_withAssertions (inputs : Nat → E) (formed : arena.WellFormed) {x : NodeId}
    (bound : x < arena.nodes.length)
    (bounds : ∀ item ∈ items, item.expr < arena.nodes.length) :
    Ensures Arena.WellFormed arena (Algsimp.withAssertions items x : Build ε E NodeId)
      fun arena' y => Denotes inputs arena' y (arena.value inputs x) fun c =>
        Asserted arena items c ∨ c ∈ arena.attachedTo x := by
  unfold Algsimp.withAssertions
  split
  · rename_i empty
    refine ensures_pure formed ((denotes_self bound).weaken rfl fun _ {c} isKept => ?_)
    rcases isKept with ⟨item, member, _⟩ | attached
    · rw [empty] at member
      cases member
    · exact attached
  · refine (ensures_memoExpr formed ?_ (by simp)).mono fun grown formed' found => ?_
    · intro y child
      rcases List.mem_cons.mp child with rfl | asserted
      · exact bound
      · obtain ⟨item, member, rfl⟩ := List.mem_map.mp asserted
        exact bounds item member
    refine (formed'.denotes found).weaken (value_mono grown bound) fun _ {c} isKept => ?_
    refine List.mem_append.mpr (isKept.imp (fun asserted => ?_) fun attached => ?_)
    · obtain ⟨item, member, here⟩ := asserted.mono grown bounds
      exact List.mem_flatMap.mpr ⟨item, member, List.mem_cons.mpr here⟩
    · rwa [attachedTo_mono grown bound]

theorem follows_withAssertions (formed : arena.WellFormed) {a : EvalAssertions} {x : NodeId}
    (sameA : SameAssertions inputs arena a items) (same : SameWire inputs arena w x) :
    Follows Arena.WellFormed arena (pure (EvalLogic.withAssertions a w) : Evaluating ε _)
      (liftM (Algsimp.withAssertions items x : Build ε E NodeId) : Compiling ε E NodeId)
      (SameWire inputs) := by
  refine follows_wire formed (ensures_withAssertions inputs formed same.bound sameA.bounds)
    same.value.symm fun clean failed => ?_
  rcases someFailed_mergeAssertions failed with carried | attached
  · exact (same.fails clean carried).mono le_rfl .inr
  · exact (sameA.fails clean (someFailed_mergeAssertions attached)).mono le_rfl .inl

section

variable {α : Type} (formed : arena.WellFormed) (f : AssertionScope → Exec ε (α × AssertionScope))
include formed f

theorem ensures_onScope (scope : AssertionScope) :
    Ensures Arena.WellFormed arena ((onScope f : Compiling ε E α).run scope) fun _ _ => True := by
  have run : (onScope f : Compiling ε E α).run scope =
      (liftM (f scope) : Build ε E (α × AssertionScope)) >>= pure := (bind_pure _).symm
  rw [run]
  exact ensures_lift_bind fun _ => ensures_pure formed trivial

theorem follows_onScope {β : Type} (g : AssertionScope → Exec ε (β × AssertionScope)) :
    Follows Arena.WellFormed arena (onScope f : Evaluating ε α) (onScope g : Compiling ε E β)
      fun _ _ _ => True :=
  ⟨fun _ => ensures_onScope formed g _⟩

end

theorem follows_assert0 (formed : arena.WellFormed) {x : NodeId}
    (same : SameWire inputs arena w x) (name : String) :
    Follows Arena.WellFormed arena (EvalLogic.assert0 debug name w : Evaluating ε EvalAssertions)
      (CompilerLogic.assert0 fuel name x : Compiling ε E (List AssertionItem))
      (SameAssertions inputs) := by
  refine (follows_ensure formed).bind fun {_ _ arena₁} grown₁ formed₁ _ => ?_
  refine (follows_onScope formed₁ _ _).bind fun {id id' arena₂} grown₂ formed₂ _ => ?_
  have same₂ := (same.mono grown₁ formed).mono grown₂ formed₁
  refine follows_of_ensures_map ((Algsimp.ensures_assert0 inputs fuel formed₂ same₂.bound).mono
    fun {own arena₃} grown₃ formed₃ made => ?_)
  obtain ⟨bounds, nonzero, kept⟩ := made
  have same₃ := same₂.mono grown₃ formed₂
  have asserted : ∀ {y}, y ∈ own → (⟨y, id'⟩ : AssertionItem) ∈
      own.map fun expr => (⟨expr, id'⟩ : AssertionItem) := fun member => List.mem_map_of_mem member
  refine ⟨fun item member => ?_, fun clean failed => ?_⟩
  · obtain ⟨y, listed, rfl⟩ := List.mem_map.mp member
    exact bounds y listed
  · rcases failed with own | carried
    · have notZero : arena₃.value inputs x ≠ 0 := by
        rw [same₃.value]
        intro zero
        obtain ⟨fate, member, notPassed⟩ := own
        rw [if_pos zero] at member
        obtain rfl := List.mem_singleton.mp member
        exact notPassed rfl
      obtain ⟨y, listed, nonzero⟩ := nonzero notZero
      exact ⟨y, ⟨_, asserted listed, .inl rfl⟩, bounds y listed, nonzero⟩
    · refine (same₃.fails clean carried).mono le_rfl fun {c} attached => ?_
      obtain ⟨y, listed, here⟩ := kept attached
      exact ⟨_, asserted listed, .inr here⟩

/-! ### Groups of assertions -/

namespace CompilerLogic

/-- What was seen was taken over. -/
def Grouping.Taken (state : Grouping) : Prop := ∀ pair ∈ state.seen, ⟨pair.1, pair.2⟩ ∈ state.items

/-- The state after an item: the item is taken over, and nothing else is new. -/
structure Takes (items : List AssertionItem) (state state' : Grouping) : Prop where
  taken : state'.Taken
  old : ∀ item ∈ state.items, item ∈ state'.items
  new : ∀ item ∈ items, item ∈ state'.items
  only : ∀ item ∈ state'.items, item ∈ state.items ∨ item ∈ items

variable {state : Grouping} (formed : arena.WellFormed) (name : String) (taken : state.Taken)
  {groups : List EvalAssertions}
include formed name taken

theorem ensures_takeItem (item : AssertionItem) (scope : AssertionScope) :
    Ensures Arena.WellFormed arena ((takeItem name state item : Compiling ε E Grouping).run scope)
      fun _ state' => Takes [item] state state'.1 := by
  have appended : ∀ seenRoots, Takes [item] state
      ⟨state.items ++ [item], state.seen ++ [(item.expr, item.id)], seenRoots⟩ := by
    intro seenRoots
    refine ⟨fun pair member => ?_, fun _ member => List.mem_append_left _ member,
      fun _ member => List.mem_append_right _ member, fun _ member => List.mem_append.mp member⟩
    rcases List.mem_append.mp member with before | here
    · exact List.mem_append_left _ (taken pair before)
    · rw [List.mem_singleton.mp here]
      exact List.mem_append_right _ (List.mem_singleton_self item)
  unfold takeItem
  split
  · rename_i seen
    refine ensures_pure formed ⟨taken, fun _ member => member, fun i member => ?_, fun _ => .inl⟩
    rw [List.mem_singleton.mp member]
    exact taken _ seen
  · rw [StateT.run_bind]
    refine (ensures_onScope formed _ scope).bind fun {found arena₁} _ formed₁ _ => ?_
    split
    · exact ensures_pure formed₁ (appended _)
    · rw [StateT.run_bind]
      refine (ensures_onScope formed₁ _ _).bind fun {_ arena₂} _ formed₂ _ => ?_
      exact ensures_pure formed₂ (appended _)

/-- **The items taken over are those of all groups.** -/
theorem ensures_takeItems (items : List AssertionItem) (scope : AssertionScope) :
    Ensures Arena.WellFormed arena
      ((items.foldlM (takeItem name) state : Compiling ε E Grouping).run scope)
      fun _ state' => Takes items state state'.1 := by
  induction items generalizing arena state scope with
  | nil => exact ensures_pure formed ⟨taken, fun _ member => member, by simp, fun _ => .inl⟩
  | cons item items ih =>
    rw [List.foldlM_cons, StateT.run_bind]
    refine (ensures_takeItem formed name taken item scope).bind
      fun {state₁ arena₁} _ formed₁ here => ?_
    refine (ih formed₁ here.taken state₁.2).mono fun _ _ later => ?_
    refine ⟨later.taken, fun i member => later.old i (here.old i member), fun i member => ?_,
      fun i member => ?_⟩
    · rcases List.mem_cons.mp member with rfl | rest
      · exact later.old i (here.new i (List.mem_singleton_self i))
      · exact later.new i rest
    · rcases later.only i member with before | rest
      · rcases here.only i before with first | own
        · exact .inl first
        · rw [List.mem_singleton.mp own]
          exact .inr (List.mem_cons_self ..)
      · exact .inr (List.mem_cons_of_mem _ rest)

end CompilerLogic

theorem EvalLogic.failed_mergeAll
    (failed : (EvalLogic.mergeAll groups).Failed) : ∃ a ∈ groups, a.Failed := by
  have general : ∀ acc : EvalAssertions,
      (groups.foldl (fun acc a => ⟨mergeAssertions acc.scopedItems a.scopedItems,
        mergeAssertions acc.unscopedItems a.unscopedItems⟩) acc : EvalAssertions).Failed →
          acc.Failed ∨ ∃ a ∈ groups, a.Failed := by
    clear failed
    induction groups with
    | nil => exact fun acc failed => .inl failed
    | cons a groups ih =>
      intro acc failed
      rcases ih _ failed with merged | ⟨a', member, failed⟩
      · rcases merged with scopedFailed | unscopedFailed
        · rcases someFailed_mergeAssertions scopedFailed with before | here
          · exact .inl (.inl before)
          · exact .inr ⟨a, List.mem_cons_self .., .inl here⟩
        · rcases someFailed_mergeAssertions unscopedFailed with before | here
          · exact .inl (.inr before)
          · exact .inr ⟨a, List.mem_cons_self .., .inr here⟩
      · exact .inr ⟨a', List.mem_cons_of_mem _ member, failed⟩
  rcases general _ failed with nothing | some
  · exact (nothing.elim not_someFailed_empty not_someFailed_empty).elim
  · exact some

theorem follows_assertAll (formed : arena.WellFormed)
    {items : List (List AssertionItem)}
    (same : List.Forall₂ (SameAssertions inputs arena) groups items) (name : String) :
    Follows Arena.WellFormed arena (EvalLogic.assertAll name groups : Evaluating ε EvalAssertions)
      (CompilerLogic.assertAll name items : Compiling ε E (List AssertionItem))
      (SameAssertions inputs) := by
  refine (follows_ensure formed).bind fun {_ _ arena₁} grown₁ formed₁ _ => ?_
  refine follows_of_eq (a := EvalLogic.mergeAll groups) (fun {t a u} ran => ?_) fun {scope} => ?_
  · rw [StateT.run_bind] at ran
    obtain ⟨_, _, rest⟩ := bind_eq_ok.mp ran
    exact (Prod.mk.inj (Except.ok.inj rest)).1.symm
  · rw [StateT.run_bind]
    refine (CompilerLogic.ensures_takeItems formed₁ name (fun _ member => by cases member)
      items.flatten scope).bind fun {state arena₂} grown₂ formed₂ takes => ?_
    refine ensures_pure formed₂ ⟨fun item member => ?_, fun clean failed => ?_⟩
    · rcases takes.only item member with nothing | listed
      · cases nothing
      · obtain ⟨group, isGroup, inside⟩ := List.mem_flatten.mp listed
        obtain ⟨a, _, sameA⟩ := exists_of_mem_right same isGroup
        exact lt_of_lt_of_le (sameA.bounds item inside) (grown₁.trans grown₂).1.length_le
    · obtain ⟨a, member, failed⟩ := EvalLogic.failed_mergeAll failed
      obtain ⟨group, isGroup, sameA⟩ := exists_of_mem_left same member
      refine ((sameA.mono (grown₁.trans grown₂) formed).fails clean failed).mono le_rfl
        fun {c} ⟨item, inside, here⟩ => ⟨item, takes.new item ?_, here⟩
      exact List.mem_flatten.mpr ⟨group, isGroup, inside⟩

/-! ### Precious sums -/

theorem ensures_extractAssertions (inputs : Nat → E) (fuel : Nat) (formed : arena.WellFormed)
    {x : NodeId} (bound : x < arena.nodes.length) :
    Ensures Arena.WellFormed arena
      (extractAssertions fuel x : Build ε E (List (List AssertionItem) × NodeId))
      fun arena' around =>
        around.2 < arena'.nodes.length ∧
        arena'.value inputs around.2 = arena'.value inputs x ∧
        (∀ items ∈ around.1, ∀ item ∈ items, item.expr < arena'.nodes.length) ∧
        ∀ {c}, c ∈ arena'.attachedTo x →
          (∃ items ∈ around.1, Asserted arena' items c) ∨ c ∈ arena'.attachedTo around.2 := by
  induction fuel generalizing x with
  | zero => exact ⟨fun ran => by cases ran⟩
  | succ fuel ih =>
    refine ensures_nodeAt_bind fun {v} found => ?_
    split
    · rename_i items y
      have child : y < arena.nodes.length :=
        (formed.descends found y (List.mem_cons_self ..)).trans bound
      refine (ih child).bind fun {around arena'} grown formed' ⟨inner, value, bounds, kept⟩ => ?_
      have found' := getElem?_mono grown found
      have bound' := lt_of_lt_of_le bound grown.1.length_le
      refine ensures_pure formed' ⟨inner, ?_, ?_, fun {c} attached => ?_⟩
      · rw [formed'.value_eq inputs found', value]
        rfl
      · intro items' member item listed
        rcases List.mem_cons.mp member with rfl | later
        · exact (formed'.descends found' item.expr
            (List.mem_cons_of_mem _ (List.mem_map_of_mem listed))).trans bound'
        · exact bounds items' later item listed
      · rw [formed'.attachedTo_eq found'] at attached
        rcases List.mem_append.mp attached with here | below
        · obtain ⟨item, listed, here⟩ := List.mem_flatMap.mp here
          exact .inl ⟨items, List.mem_cons_self .., item, listed, List.mem_cons.mp here⟩
        · rcases kept below with ⟨items', member, asserted⟩ | inside
          · exact .inl ⟨items', List.mem_cons_of_mem _ member, asserted⟩
          · exact .inr inside
    · exact ensures_pure formed ⟨bound, rfl, by simp, fun {c} attached => .inr attached⟩

theorem ensures_rewrap (inputs : Nat → E) (formed : arena.WellFormed)
    {groups : List (List AssertionItem)}
    (bounds : ∀ items ∈ groups, ∀ item ∈ items, item.expr < arena.nodes.length) {x : NodeId}
    (denotes : Denotes inputs arena x v kept) :
    Ensures Arena.WellFormed arena
      (groups.foldlM (fun acc items => Algsimp.withAssertions items acc) x : Build ε E NodeId)
      fun arena' y => Denotes inputs arena' y v fun c =>
        (∃ items ∈ groups, Asserted arena items c) ∨ kept c := by
  induction groups generalizing arena x kept with
  | nil =>
    refine ensures_pure formed (denotes.weaken rfl fun _ {c} isKept => ?_)
    rcases isKept with ⟨_, nothing, _⟩ | isKept
    · cases nothing
    · exact isKept
  | cons items groups ih =>
    obtain ⟨here, later⟩ := List.forall_mem_cons.mp bounds
    rw [List.foldlM_cons]
    refine (ensures_withAssertions inputs formed denotes.bound here).bind
      fun {y arena₁} grown formed₁ made => ?_
    have later₁ : ∀ items ∈ groups, ∀ item ∈ items, item.expr < arena₁.nodes.length :=
      fun items member item listed =>
        lt_of_lt_of_le (later items member item listed) grown.1.length_le
    have denotes₁ : Denotes inputs arena₁ y v fun c => Asserted arena items c ∨ kept c :=
      made.weaken denotes.value fun clean {c} isKept => isKept.imp_right
        fun isKept => denotes.keeps (formed.clean_anti grown clean) isKept
    refine (ih formed₁ later₁ denotes₁).mono fun grown₂ _ made₂ => ?_
    refine made₂.weaken rfl fun _ {c} isKept => ?_
    rcases isKept with ⟨items', member, asserted⟩ | isKept
    · rcases List.mem_cons.mp member with rfl | rest
      · exact .inr (.inl asserted)
      · exact .inl ⟨items', rest, asserted.mono grown (later items' rest)⟩
    · exact .inr (.inr isKept)

/-- **A promoted sum denotes what the sum denotes.** -/
theorem ensures_promoteSumToPrecious (inputs : Nat → E) (formed : arena.WellFormed) {x : NodeId}
    (bound : x < arena.nodes.length) :
    Ensures Arena.WellFormed arena (promoteSumToPrecious cmp fuel x : Build ε E NodeId)
      fun arena' y =>
        Denotes inputs arena' y (arena.value inputs x) fun c => c ∈ arena.attachedTo x := by
  refine (ensures_extractAssertions inputs fuel formed bound).bind
    fun {around arena₁} grown formed₁ ⟨inner, value, bounds, kept⟩ => ?_
  refine ensures_nodeAt_bind fun {v} found => ?_
  have bound₁ := lt_of_lt_of_le bound grown.1.length_le
  rw [← value_mono grown bound, ← attachedTo_mono grown bound]
  split
  · rename_i elements _
    have below : ∀ y ∈ elements, y < arena₁.nodes.length := fun y member =>
      (formed₁.descends found y member).trans inner
    refine ((Algsimp.correct ε cmp inputs fuel).sum formed₁ below).bind
      fun {promoted arena₂} grown₂ formed₂ denotes => ?_
    have bounds₂ : ∀ items ∈ around.1.reverse, ∀ item ∈ items,
        item.expr < arena₂.nodes.length := fun items member item listed =>
      lt_of_lt_of_le (bounds items (List.mem_reverse.mp member) item listed) grown₂.1.length_le
    refine (ensures_rewrap inputs formed₂ bounds₂ denotes).mono fun _ _ made => ?_
    refine made.weaken ?_ fun _ {c} attached => ?_
    · rw [← value, formed₁.value_eq inputs found]
      rfl
    · rcases kept attached with ⟨items, member, asserted⟩ | inside
      · exact .inl ⟨items, List.mem_reverse.mpr member, asserted.mono grown₂ (bounds items member)⟩
      · rw [formed₁.attachedTo_eq found] at inside
        exact .inr (List.mem_flatMap.mp inside)
  · exact ensures_pure formed₁ (denotes_self bound₁)

/-! ### Programs -/

/-- The wires and the assertions of both runs. -/
structure SameEnv (inputs : Nat → E) (arena : Arena E) (env : Env (EvalWire E) EvalAssertions)
    (env' : Env NodeId (List AssertionItem)) : Prop where
  wires : List.Forall₂ (SameWire inputs arena) env.wires env'.wires
  assertions : List.Forall₂ (SameAssertions inputs arena) env.assertions env'.assertions

/-- What an operation makes in both runs. -/
inductive SameMade (inputs : Nat → E) (arena : Arena E) :
    EvalWire E ⊕ EvalAssertions → NodeId ⊕ List AssertionItem → Prop where
  | wire {w x} (same : SameWire inputs arena w x) : SameMade inputs arena (.inl w) (.inl x)
  | assertions {a items} (same : SameAssertions inputs arena a items) :
      SameMade inputs arena (.inr a) (.inr items)

variable {env : Env (EvalWire E) EvalAssertions} {env' : Env NodeId (List AssertionItem)}

theorem SameEnv.mono (grown : arena ≤ arena') (formed : arena.WellFormed)
    (same : SameEnv inputs arena env env') : SameEnv inputs arena' env env' where
  wires := same.wires.imp fun _ _ wire => wire.mono grown formed
  assertions := same.assertions.imp fun _ _ asserted => asserted.mono grown formed

theorem SameEnv.push {made : EvalWire E ⊕ EvalAssertions} {made' : NodeId ⊕ List AssertionItem}
    (same : SameEnv inputs arena env env') (here : SameMade inputs arena made made') :
    SameEnv inputs arena (env.push made) (env'.push made') := by
  cases here with
  | wire here => exact ⟨List.rel_append same.wires (.cons here .nil), same.assertions⟩
  | assertions here => exact ⟨same.wires, List.rel_append same.assertions (.cons here .nil)⟩

section

variable (formed : arena.WellFormed) (same : SameEnv inputs arena env env')
include formed same

theorem follows_env_wire (i : Nat) :
    Follows Arena.WellFormed arena (env.wire (ε := ε) i : Evaluating ε (EvalWire E))
      (env'.wire (ε := ε) i : Compiling ε E NodeId) (SameWire inputs) :=
  follows_getAt formed same.wires i

theorem follows_env_assertion (i : Nat) :
    Follows Arena.WellFormed arena (env.assertion (ε := ε) i : Evaluating ε EvalAssertions)
      (env'.assertion (ε := ε) i : Compiling ε E (List AssertionItem)) (SameAssertions inputs) :=
  follows_getAt formed same.assertions i

theorem follows_unary {f : EvalWire E → Evaluating ε (EvalWire E)}
    {f' : NodeId → Compiling ε E NodeId} (i : Nat)
    (each : ∀ {arena' w x}, arena'.WellFormed → SameWire inputs arena' w x →
      Follows Arena.WellFormed arena' (f w) (f' x) (SameWire inputs)) :
    Follows Arena.WellFormed arena
      (do let w ← env.wire (ε := ε) i; .inl <$> f w : Evaluating ε (EvalWire E ⊕ EvalAssertions))
      (do let x ← env'.wire (ε := ε) i; .inl <$> f' x :
        Compiling ε E (NodeId ⊕ List AssertionItem)) (SameMade inputs) :=
  (follows_env_wire formed same i).bind fun _ formed' here => (each formed' here).map .wire

theorem follows_binary {f : EvalWire E → EvalWire E → Evaluating ε (EvalWire E)}
    {f' : NodeId → NodeId → Compiling ε E NodeId} (i j : Nat)
    (each : ∀ {arena' w x v y}, arena'.WellFormed → SameWire inputs arena' w x →
      SameWire inputs arena' v y →
        Follows Arena.WellFormed arena' (f w v) (f' x y) (SameWire inputs)) :
    Follows Arena.WellFormed arena
      (do
        let w ← env.wire (ε := ε) i
        let v ← env.wire (ε := ε) j
        .inl <$> f w v : Evaluating ε (EvalWire E ⊕ EvalAssertions))
      (do
        let x ← env'.wire (ε := ε) i
        let y ← env'.wire (ε := ε) j
        .inl <$> f' x y : Compiling ε E (NodeId ⊕ List AssertionItem)) (SameMade inputs) := by
  refine (follows_env_wire formed same i).bind fun grown formed₁ first => ?_
  refine (follows_env_wire formed₁ (same.mono grown formed) j).bind
    fun grown₂ formed₂ second => ?_
  exact (each formed₂ (first.mono grown₂ formed₁) second).map .wire

end

theorem EvalLogic.combine_add_spec {v : EvalWire E} {value : E} (sum : value = w.value + v.value) :
    (EvalLogic.combine w v value).value = ([w, v].map EvalWire.value).sum ∧
      (SomeFailed (EvalLogic.combine w v value).assertions →
        ∃ u ∈ [w, v], SomeFailed u.assertions) := by
  refine ⟨by simpa [EvalLogic.combine] using sum, fun failed => ?_⟩
  rcases someFailed_mergeAssertions failed with first | second
  · exact ⟨w, by simp, first⟩
  · exact ⟨v, by simp, second⟩

theorem follows_sub (formed : arena.WellFormed) {v : EvalWire E} {x y : NodeId}
    (first : SameWire inputs arena w x) (second : SameWire inputs arena v y) :
    Follows Arena.WellFormed arena
      ((evalLogic debug : Logic (Evaluating ε) E _ _).sub w v)
      ((compilerLogic cmp fuel : Logic (Compiling ε E) E _ _).sub x y) (SameWire inputs) := by
  have negated : (evalLogic debug : Logic (Evaluating ε) E _ _).sub w v =
      (pure ⟨-v.value, v.assertions⟩ : Evaluating ε (EvalWire E)) >>= fun n =>
        pure (EvalLogic.combine w n (w.value + n.value)) := by
    rw [pure_bind, ← sub_eq_add_neg]
    rfl
  rw [negated]
  refine (follows_linear formed second (neg_one_mul _).symm).bind fun grown formed₁ here => ?_
  exact follows_sum formed₁ (.cons (first.mono grown formed) (.cons here .nil))
    (EvalLogic.combine_add_spec rfl).1 (EvalLogic.combine_add_spec rfl).2

/-- **One operation in both runs.** -/
theorem call_follows (formed : arena.WellFormed) (same : SameEnv inputs arena env env') (op : Op E) :
    Follows Arena.WellFormed arena
      ((evalLogic debug : Logic (Evaluating ε) E _ _).call (ε := ε) env op)
      ((compilerLogic cmp fuel : Logic (Compiling ε E) E _ _).call (ε := ε) env' op)
      (SameMade inputs) := by
  cases op with
  | zero => exact (follows_constant formed 0).map .wire
  | one => exact (follows_constant formed 1).map .wire
  | konst x => exact (follows_constant formed x).map .wire
  | precious x =>
    exact follows_unary formed same x fun formed' here =>
      follows_wire formed' (ensures_promoteSumToPrecious inputs formed' here.bound)
        here.value.symm here.fails
  | sum xs =>
    refine (follows_mapM (SameWire inputs) (fun grown formed wire => wire.mono grown formed) formed
      fun i _ _ grown formed' => follows_env_wire formed' (same.mono grown formed) i).bind
      fun {ws _ _} _ formed' wires => ?_
    obtain ⟨value, failed⟩ := EvalLogic.sum_spec ws
    exact (follows_sum formed' wires value failed).map .wire
  | neg x =>
    exact follows_unary formed same x fun formed' here =>
      follows_linear formed' here (neg_one_mul _).symm
  | add x y =>
    exact follows_binary formed same x y fun formed' first second =>
      follows_sum formed' (.cons first (.cons second .nil))
        (EvalLogic.combine_add_spec rfl).1 (EvalLogic.combine_add_spec rfl).2
  | sub x y =>
    exact follows_binary formed same x y fun formed' first second =>
      follows_sub formed' first second
  | mul x y =>
    exact follows_binary formed same x y fun formed' first second =>
      follows_quadratic formed' first second (one_mul _).symm
  | mulk e y =>
    exact follows_unary formed same y fun formed' here => follows_linear formed' here rfl
  | quadratic e x y =>
    exact follows_binary formed same x y fun formed' first second =>
      follows_quadratic formed' first second rfl
  | ok =>
    refine (follows_pure formed ?_).map .assertions
    exact ⟨by simp, fun _ failed => (failed.elim not_someFailed_empty not_someFailed_empty).elim⟩
  | assert0 name x =>
    exact (follows_env_wire formed same x).bind fun _ formed' here =>
      (follows_assert0 formed' here name).map .assertions
  | assertAll name groups =>
    exact (follows_mapM (SameAssertions inputs)
      (fun grown formed asserted => asserted.mono grown formed) formed
      fun i _ _ grown formed' => follows_env_assertion formed' (same.mono grown formed) i).bind
      fun _ formed' groups => (follows_assertAll formed' groups name).map .assertions
  | withAssertions a x =>
    refine (follows_env_assertion formed same a).bind fun grown formed₁ asserted => ?_
    refine (follows_env_wire formed₁ (same.mono grown formed) x).bind
      fun grown₂ formed₂ wire => ?_
    exact (follows_withAssertions formed₂ (asserted.mono grown₂ formed₁) wire).map .wire

theorem ops_follow (ε : Type) (cmp : E → E → Ordering) (fuel : Nat) (debug : E → String)
    (formed : arena.WellFormed) (same : SameEnv inputs arena env env') (ops : List (Op E)) :
    Follows Arena.WellFormed arena
      (ops.foldlM (fun env op => do
        let made ← (evalLogic debug : Logic (Evaluating ε) E _ _).call (ε := ε) env op
        pure (env.push made)) env)
      (ops.foldlM (fun env op => do
        let made ← (compilerLogic cmp fuel : Logic (Compiling ε E) E _ _).call (ε := ε) env op
        pure (env.push made)) env') (SameEnv inputs) := by
  induction ops generalizing arena env env' with
  | nil => exact follows_pure formed same
  | cons op ops ih =>
    rw [List.foldlM_cons, List.foldlM_cons]
    refine ((call_follows formed same op).bind fun grown formed₁ made => ?_).bind
      fun _ formed₂ same₂ => ih formed₂ same₂
    exact follows_pure formed₁ ((same.mono grown formed).push made)

/-- The input array of a circuit: the constant one, and the inputs. -/
def inputArray (inputs : List E) : Nat → E
  | 0 => 1
  | position + 1 => inputs.getD position 0

theorem ensures_inputs (inputs : List E) (formed : arena.WellFormed) :
    Ensures Arena.WellFormed arena
      ((List.range inputs.length).mapM fun i => input (i + 1) : Build ε E (List NodeId))
      fun arena' xs =>
        List.Forall₂ (SameWire (inputArray inputs) arena') (inputs.map EvalWire.ok) xs := by
  refine (ensures_mapM (fun arena' i x =>
      SameWire (inputArray inputs) arena' (EvalWire.ok (inputs.getD i 0)) x)
    (fun grown formed same => same.mono grown formed) formed
    fun i _ arena₁ _ formed₁ => ?_).mono fun _ _ same => ?_
  · refine ensures_lift_bind fun _ => ?_
    refine (ensures_memoExpr formed₁ (by simp [Expr.children]) (by simp)).mono
      fun grown formed₂ found => ?_
    exact (formed₂.denotes found).sameWire formed₁ grown
      fun _ failed => (not_someFailed_empty failed).elim
  · have listed : inputs.map EvalWire.ok =
        (List.range inputs.length).map fun i => EvalWire.ok (inputs.getD i 0) := by
      refine List.ext_getElem (by simp) fun i bound _ => ?_
      have inside : i < inputs.length := by simpa using bound
      simp [List.getD_eq_getElem?_getD, List.getElem?_eq_getElem inside]
    rw [listed, List.forall₂_map_left_iff]
    exact same

/-- **What fails in the evaluation fails in the graph.** If the evaluation of a program records a
failed assertion and nothing with an assertion was dropped while the program was compiled, some
assertion of the graph is not zero: one of the program, or one attached to it. -/
theorem compiled_fails (cmp : E → E → Ordering) (debug : E → String) (fuel : Nat)
    (inputs : List E) (ops : List (Op E)) (result : Nat) {assertions : EvalAssertions}
    {items : List AssertionItem} {arena : Arena E}
    (evaluated : (evalProgram debug inputs ops result : Exec ε _) = .ok assertions)
    (compiled : (compileProgram cmp fuel inputs.length ops result : Exec ε _) = .ok (items, arena))
    (clean : arena.Clean) (failed : assertions.isErr = true) :
    ∃ c, Asserted arena items c ∧ arena.value (inputArray inputs) c ≠ 0 := by
  obtain ⟨⟨assertions', scope⟩, ran, same⟩ := bind_eq_ok.mp evaluated
  obtain rfl : assertions' = assertions := Except.ok.inj same
  obtain ⟨⟨wires, arena₀⟩, made, rest⟩ := bind_eq_ok.mp compiled
  obtain ⟨⟨⟨items', scope'⟩, arena'⟩, built, same⟩ := bind_eq_ok.mp rest
  obtain ⟨rfl, rfl⟩ := Prod.mk.inj (Except.ok.inj same)
  obtain ⟨_, formed, sameWires⟩ := (ensures_inputs inputs wellFormed_new).ran made
  have start : SameEnv (inputArray inputs) arena₀ ⟨inputs.map EvalWire.ok, []⟩ ⟨wires, []⟩ :=
    ⟨sameWires, List.Forall₂.nil⟩
  have follows := (ops_follow ε cmp fuel debug formed start ops).bind fun _ formed₁ same₁ =>
    follows_env_assertion formed₁ same₁ result
  obtain ⟨_, _, sameAssertions⟩ := (follows.ran ran).ran built
  have isFailed : assertions'.Failed := by
    rw [EvalAssertions.isErr, Bool.not_eq_true'] at failed
    exact someFailed_mergeAssertions (someFailed_iff.mpr failed)
  obtain ⟨c, asserted, _, nonzero⟩ := sameAssertions.fails clean isFailed
  exact ⟨c, asserted, nonzero⟩

/-- A wire that carries an assertion on the input, used as the given operation says. -/
def carrying (use : Op Goldi) : List (Op Goldi) :=
  [.assert0 "x" 0, .one, .withAssertions 0 1, use, .assert0 "y" 3]

/-- The order of the representatives. -/
def compareValues (a b : Goldi) : Ordering := compare a.val b.val

/-- The wire is used. -/
theorem compiled_fails_used :
    ∃ items arena, (compileProgram compareValues 3 1 (carrying (.mulk 2 2)) 1 :
        Exec String _) = .ok (items, arena) ∧
      ∃ c, Asserted arena items c ∧ arena.value (inputArray [1]) c ≠ 0 :=
  ⟨_, _, rfl, compiled_fails compareValues (fun _ => "") 3 [1] (carrying (.mulk 2 2)) 1
    (rfl : (_ : Exec String _) = _) rfl (by decide) (by decide)⟩

/-- **A lost failure.** The wire is multiplied by zero: the evaluation fails, and the graph has no
assertion. -/
theorem failure_lost :
    ∃ assertions items arena,
      (evalProgram (fun _ => "") [1] (carrying (.mulk 0 2)) 1 : Exec String _) = .ok assertions ∧
      (compileProgram compareValues 3 1 (carrying (.mulk 0 2)) 1 :
        Exec String _) = .ok (items, arena) ∧
      assertions.isErr = true ∧
      ¬ ∃ c, Asserted arena items c ∧ arena.value (inputArray [1]) c ≠ 0 := by
  refine ⟨_, _, _, rfl, rfl, by decide, ?_⟩
  rintro ⟨c, ⟨item, member, _⟩, _⟩
  cases member

end Longfellow.Compile
