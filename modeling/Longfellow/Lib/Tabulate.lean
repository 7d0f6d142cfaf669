/-
**Tables of values, filled in order.**

The nodes of a graph are listed behind the nodes they refer to, so a value for each node is
computed in one pass: `tabulate step nodes` appends to a table what `step` makes of the table so
far and the next node.

* `tabulate_prefix` — **entries do not change when nodes are added at the end.**
-/

import Mathlib.Data.List.Infix

namespace Lib

variable {α β : Type}

/-- A value for each node, from the values before it. -/
def tabulate (step : List β → α → β) (nodes : List α) : List β :=
  nodes.foldl (fun table node => table ++ [step table node]) []

variable {step : List β → α → β}

theorem tabulate_concat (nodes : List α) (node : α) :
    tabulate step (nodes ++ [node]) = tabulate step nodes ++ [step (tabulate step nodes) node] := by
  rw [tabulate, List.foldl_append, List.foldl_cons, List.foldl_nil, ← tabulate]

@[simp] theorem length_tabulate (nodes : List α) : (tabulate step nodes).length = nodes.length := by
  induction nodes using List.reverseRecOn with
  | nil => rfl
  | append_singleton nodes node ih =>
    rw [tabulate_concat, List.length_append, ih, List.length_append, List.length_singleton,
      List.length_singleton]

/-- **Entries do not change when nodes are added at the end.** -/
theorem tabulate_prefix {nodes nodes' : List α} (grown : nodes <+: nodes') :
    tabulate step nodes <+: tabulate step nodes' := by
  obtain ⟨more, rfl⟩ := grown
  induction more using List.reverseRecOn with
  | nil => rw [List.append_nil]
  | append_singleton more node ih =>
    rw [← List.append_assoc, tabulate_concat]
    exact ih.trans (List.prefix_append ..)

/-- An entry is made from the entries before it. -/
theorem getElem?_tabulate {nodes : List α} {i : Nat} {node : α} (found : nodes[i]? = some node) :
    (tabulate step nodes)[i]? = some (step ((tabulate step nodes).take i) node) := by
  obtain ⟨bound, here⟩ := List.getElem?_eq_some_iff.mp found
  have split : nodes.take (i + 1) = nodes.take i ++ [node] := by
    rw [List.take_add_one, found, Option.toList_some]
  have size : (tabulate step (nodes.take i)).length = i := by
    rw [length_tabulate, List.length_take, min_eq_left (le_of_lt bound)]
  have front : tabulate step (nodes.take i) <+: tabulate step nodes :=
    tabulate_prefix (List.take_prefix ..)
  have grown : tabulate step (nodes.take (i + 1)) <+: tabulate step nodes :=
    tabulate_prefix (List.take_prefix ..)
  rw [split, tabulate_concat] at grown
  obtain ⟨more, rest⟩ := grown
  have taken : (tabulate step nodes).take i = tabulate step (nodes.take i) := by
    rw [List.prefix_iff_eq_take, size] at front
    exact front.symm
  rw [taken, ← rest, List.getElem?_append_left (by simp [size]), List.getElem?_append_right
    (by omega), size, Nat.sub_self, List.getElem?_cons_zero]

end Lib
