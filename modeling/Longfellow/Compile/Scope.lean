/-
**The scopes of assertions** (`compile/logic/src/scope.rs`).

Every assertion has a number and a path of names. Paths share their tails in a tree, and
assertions that turn out to be the same are merged in a union-find structure whose classes are
renamed together.

* `AssertionScope.failedPaths` — the paths of the classes with a failed fate.
-/

import Longfellow.Compile.Eval

namespace Longfellow.Compile

open Lib

variable {ε : Type}

/-! ### Paths -/

/-- The number of a path. -/
abbrev ScopeId := UInt32

/-- A path: empty, or a name in front of a path. -/
inductive ScopeNode where
  | empty
  | cons (name : String) (next : ScopeId)
  deriving DecidableEq, Repr

/-- All paths, and for every path the paths with one more name. -/
structure ScopeTree where
  scopes : List ScopeNode
  children : AList fun _ : ScopeId => AList fun _ : String => ScopeId

def ScopeTree.new : ScopeTree := ⟨[.empty], ∅⟩

/-- The path with `name` in front of `parent`. -/
def ScopeTree.cons (tree : ScopeTree) (name : String) (parent : ScopeId) : ScopeId × ScopeTree :=
  let childMap := (tree.children.lookup parent).getD ∅
  match childMap.lookup name with
  | some id => (id, tree)
  | none =>
    let id := UInt32.ofNat tree.scopes.length
    (id, ⟨tree.scopes ++ [.cons name parent],
      tree.children.insert parent (childMap.insert name id)⟩)

/-- The names of a path. -/
def ScopeTree.resolvePath (tree : ScopeTree) : Nat → ScopeId → Exec ε (List String)
  | 0, _ => abort "out of fuel"
  | fuel + 1, scope =>
    if scope = 0 then pure []
    else do
      match ← getAt tree.scopes scope.toNat with
      | .empty => pure []
      | .cons name next =>
        let parts ← tree.resolvePath fuel next
        pure (name :: parts)

/-- The path is `pathPrefix`, or goes on below it. -/
def pathMatches (path pathPrefix : String) : Bool :=
  path = pathPrefix || pathPrefix = "" ||
    match path.toList.dropPrefix? pathPrefix.toList with
    | some suffix => suffix.head? = some '/'
    | none => false

/-! ### Classes of assertions -/

/-- The path of an assertion, and its parent in the union-find structure. -/
structure AssertionRecord where
  scope : ScopeId
  parent : AssertionId
  deriving DecidableEq, Repr

/-- The assertions made so far. Number zero is no assertion. -/
structure AssertionScope where
  records : List AssertionRecord
  members : AList fun _ : AssertionId => List AssertionId
  tree : ScopeTree

def AssertionScope.new : AssertionScope := ⟨[⟨0, 0⟩], ∅, ScopeTree.new⟩

def AssertionScope.newLeaf (state : AssertionScope) (name : String) :
    AssertionId × AssertionScope :=
  let id := UInt32.ofNat state.records.length
  let (scope, tree) := state.tree.cons name 0
  (id, ⟨state.records ++ [⟨scope, id⟩], state.members.insert id [id], tree⟩)

/-- Follow the parents to a record that is its own parent. -/
def findRoot (records : List AssertionRecord) : Nat → AssertionId → Exec ε AssertionId
  | 0, _ => abort "out of fuel"
  | fuel + 1, root => do
    let record ← getAt records root.toNat
    if record.parent ≠ root ∧ record.parent ≠ 0 then findRoot records fuel record.parent
    else pure root

/-- Make the root the parent of every record on the way to it. -/
def compressPath (root : AssertionId) :
    Nat → List AssertionRecord → AssertionId → Exec ε (List AssertionRecord)
  | 0, _, _ => abort "out of fuel"
  | fuel + 1, records, curr =>
    if curr ≠ root ∧ curr ≠ 0 then do
      let record ← getAt records curr.toNat
      let records ← setAt records curr.toNat { record with parent := root }
      compressPath root fuel records record.parent
    else pure records

/-- The representative of an assertion, or zero if there is no such assertion. -/
def findRep (records : List AssertionRecord) (id : AssertionId) :
    Exec ε (AssertionId × List AssertionRecord) :=
  if id = 0 ∨ records.length ≤ id.toNat then pure (0, records)
  else do
    let root ← findRoot records (records.length + 1) id
    let records ← compressPath root (records.length + 1) records id
    pure (root, records)

def AssertionScope.find (state : AssertionScope) (id : AssertionId) :
    Exec ε (AssertionId × AssertionScope) :=
  if id = 0 then pure (0, state)
  else do
    let (rep, records) ← findRep state.records id
    pure (rep, { state with records })

/-- Put a name in front of the path of one assertion. -/
def AssertionScope.prependTo (name : String) (state : AssertionScope) (id : AssertionId) :
    Exec ε AssertionScope := do
  let record ← getAt state.records id.toNat
  let (scope, tree) := state.tree.cons name record.scope
  let records ← setAt state.records id.toNat { record with scope }
  pure { state with records, tree }

/-- Put a name in front of the paths of a class. -/
def AssertionScope.prependScope (state : AssertionScope) (id : AssertionId) (name : String) :
    Exec ε AssertionScope :=
  if id = 0 then pure state
  else do
    let (rep, records) ← findRep state.records id
    let state := { state with records }
    if rep = 0 then pure state
    else match state.members.lookup rep with
      | some members => members.foldlM (AssertionScope.prependTo name) state
      | none => pure state

/-- Make the classes of two assertions one. -/
def AssertionScope.union (state : AssertionScope) (id1 id2 : AssertionId) :
    Exec ε AssertionScope :=
  if id1 = 0 ∨ id2 = 0 then pure state
  else do
    let (rep1, records) ← findRep state.records id1
    let (rep2, records) ← findRep records id2
    if rep1 = 0 ∨ rep2 = 0 ∨ rep1 = rep2 then pure { state with records }
    else do
      let record ← getAt records rep2.toNat
      let records ← setAt records rep2.toNat { record with parent := rep1 }
      match state.members.lookup rep2 with
      | some m2 =>
        let rest := state.members.erase rep2
        let m1 := (rest.lookup rep1).getD []
        pure ⟨records, rest.insert rep1 (m1 ++ m2), state.tree⟩
      | none => pure { state with records }

/-! ### Reports -/

/-- The records, the fate of every class, and the classes in the order they were met. -/
abbrev GroupedFates := List AssertionRecord × Fates × List AssertionId

/-- Add the fate of an assertion to the fate of its class. -/
def groupFate (state : GroupedFates) (entry : Σ _ : AssertionId, AssertionStatus) :
    Exec ε GroupedFates := do
  let (records, groupFates, reps) := state
  let (rep, records) ← findRep records entry.1
  if rep = 0 then pure (records, groupFates, reps)
  else match groupFates.lookup rep with
    | none => pure (records, groupFates.insert rep entry.2, reps ++ [rep])
    | some _ => match entry.2 with
      | .passed => pure (records, groupFates, reps)
      | .failed message => pure (records, groupFates.insert rep (.failed message), reps)

/-- Report the fate of a class for one of its members. -/
def AssertionScope.reportMember (state : AssertionScope) (pathPrefix : String)
    (fate : AssertionStatus) (results : List (String × AssertionStatus)) (id : AssertionId) :
    Exec ε (List (String × AssertionStatus)) := do
  let record ← getAt state.records id.toNat
  let parts ← state.tree.resolvePath (state.tree.scopes.length + 1) record.scope
  let fullPath := "/".intercalate parts
  pure (if pathMatches fullPath pathPrefix then results ++ [(fullPath, fate)] else results)

/-- Report the fate of a class for all its members. -/
def AssertionScope.reportClass (state : AssertionScope) (pathPrefix : String)
    (groupFates : Fates) (results : List (String × AssertionStatus)) (rep : AssertionId) :
    Exec ε (List (String × AssertionStatus)) := do
  let fate ← expect (groupFates.lookup rep) "no entry found for key"
  match state.members.lookup rep with
  | some members => members.foldlM (state.reportMember pathPrefix fate) results
  | none => pure results

/-- The paths below `pathPrefix` whose class has a fate, with the fate of the class. -/
def AssertionScope.queryFates (state : AssertionScope) (pathPrefix : String) (fates : Fates) :
    Exec ε (List (String × AssertionStatus) × AssertionScope) := do
  let sortedFates := fates.entries.mergeSort fun a b => a.1 ≤ b.1
  let (records, groupFates, reps) ← sortedFates.foldlM groupFate (state.records, ∅, [])
  let state := { state with records }
  let results ← reps.foldlM (state.reportClass pathPrefix groupFates) []
  pure (results, state)

def AssertionScope.failedPaths (state : AssertionScope) (fates : Fates) :
    Exec ε (List String × AssertionScope) := do
  let (results, state) ← state.queryFates "" fates
  pure ((results.filter fun result => result.2 ≠ .passed).map Prod.fst, state)

/-! ### Calls -/

/-- A call that changes the scope. -/
inductive ScopeCall where
  | newLeaf (name : String)
  | prependScope (id : AssertionId) (name : String)
  | find (id : AssertionId)
  | union (id1 id2 : AssertionId)
  deriving DecidableEq, Repr

/-- The number that a call returns, zero where it returns nothing, and the scope after it. -/
def AssertionScope.call (state : AssertionScope) :
    ScopeCall → Exec ε (AssertionId × AssertionScope)
  | .newLeaf name => pure (state.newLeaf name)
  | .prependScope id name => do
    let state ← state.prependScope id name
    pure (0, state)
  | .find id => state.find id
  | .union id1 id2 => do
    let state ← state.union id1 id2
    pure (0, state)

/-- Make calls one after the other, and collect what they return. -/
def AssertionScope.runCalls (calls : List ScopeCall) :
    Exec ε (List AssertionId × AssertionScope) :=
  calls.foldlM (fun state call => do
    let (id, scope) ← state.2.call call
    pure (state.1 ++ [id], scope)) ([], AssertionScope.new)

end Longfellow.Compile
