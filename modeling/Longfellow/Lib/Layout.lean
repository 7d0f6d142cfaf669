/-
**Layouts: named slots at consecutive positions.**

Values are written one after the other and found again through a layout that computes the position
of each named slot. `Laid` says that a list of slots, the positions of a layout and the values
written agree, and it is built chunk by chunk for layouts in layers (`LaidLayers.laid`).

* `Laid.agrees`, `Laid.value_at` — the value of a slot stands at its position;
* `Laid.position_bijective` — **the slots with a position are in bijection with the positions of the
  values**.
-/

import Mathlib.Data.List.Nodup
import Mathlib.Data.List.Range

namespace Lib

variable {S L D R A : Type} {values : List R} {slots : List S} {base : Nat}

/-- The slots in order, their positions from `base` on, and their values. -/
structure Laid (slots : List S) (position : S → Option Nat) (value : S → Option R) (base : Nat)
    (values : List R) : Prop where
  positions : slots.map position = (List.range' base values.length).map some
  holds : slots.map value = values.map some
  located : ∀ {s i}, position s = some i → s ∈ slots
  valued : ∀ {s v}, value s = some v → s ∈ slots

namespace Laid

variable {position : S → Option Nat} {value : S → Option R} {s : S}

theorem at_place (laid : Laid slots position value base values) {j : Nat}
    (here : slots[j]? = some s) :
    ∃ v, values[j]? = some v ∧ value s = some v ∧ position s = some (base + j) := by
  have places := congrArg (fun list => list[j]?) laid.positions
  have contents := congrArg (fun list => list[j]?) laid.holds
  simp only [List.getElem?_map, here, Option.map_some] at places contents
  cases found : values[j]? with
  | none =>
    rw [found] at contents
    simp at contents
  | some v =>
    obtain ⟨bound, _⟩ := List.getElem?_eq_some_iff.mp found
    refine ⟨v, rfl, ?_, ?_⟩
    · simpa [found] using contents
    · simpa [List.getElem?_range' bound] using places

theorem agrees (laid : Laid slots position value base values) {v : R}
    (valued : value s = some v) :
    ∃ j, position s = some (base + j) ∧ values[j]? = some v := by
  obtain ⟨j, here⟩ := List.mem_iff_getElem?.mp (laid.valued valued)
  obtain ⟨v', found, valued', place⟩ := laid.at_place here
  rw [valued] at valued'
  exact ⟨j, place, by rw [found, Option.some.inj valued']⟩

theorem agrees_behind {front : List R} (laid : Laid slots position value front.length values)
    {v : R} (valued : value s = some v) :
    ∃ w, position s = some w ∧ (front ++ values)[w]? = some v := by
  obtain ⟨j, located, content⟩ := laid.agrees valued
  exact ⟨_, located, by rw [List.getElem?_append_right (by omega)]; simpa using content⟩

theorem value_at (laid : Laid slots position value base values) {i : Nat}
    (place : position s = some i) :
    base ≤ i ∧ i < base + values.length ∧ values[i - base]? = value s := by
  obtain ⟨j, here⟩ := List.mem_iff_getElem?.mp (laid.located place)
  obtain ⟨v, found, valued, place'⟩ := laid.at_place here
  obtain ⟨bound, _⟩ := List.getElem?_eq_some_iff.mp found
  obtain rfl : base + j = i := by simpa [place'] using place
  rw [Nat.add_sub_cancel_left]
  exact ⟨by omega, by omega, found.trans valued.symm⟩

/-- **The slots with a position are in bijection with the positions of the values.** -/
theorem position_bijective (laid : Laid slots position value base values) {i : Nat}
    (low : base ≤ i) (high : i < base + values.length) : ∃! s, position s = some i := by
  have count : slots.length = values.length := by
    simpa using congrArg List.length laid.holds
  have bound : i - base < slots.length := by omega
  obtain ⟨v, _, _, place⟩ := laid.at_place (List.getElem?_eq_getElem bound)
  rw [Nat.add_sub_cancel' low] at place
  refine ⟨slots[i - base], place, fun s same => ?_⟩
  -- Two slots at one position are the same entry of the list.
  obtain ⟨j, here⟩ := List.mem_iff_getElem?.mp (laid.located same)
  obtain ⟨_, _, _, place'⟩ := laid.at_place here
  rw [same] at place'
  obtain rfl : i - base = j := by
    have := Option.some.inj place'
    omega
  rw [List.getElem?_eq_getElem bound] at here
  exact (Option.some.inj here).symm

end Laid

/-! ### Layouts in layers -/

/-- Look a slot up in the layer it names; the layers are counted from `first` on. -/
def layered (get : L → S → Option A) : Nat → List L → Nat × S → Option A
  | _, [], _ => none
  | first, l :: ls, s => if s.1 = first then get l s.2 else layered get (first + 1) ls s

theorem layered_eq (get : L → S → Option A) (first : Nat) (ls : List L) (i : Nat) (s : S) :
    layered get first ls (first + i, s) = ls[i]?.bind (get · s) := by
  induction ls generalizing first i with
  | nil => rfl
  | cons l ls ih =>
    cases i with
    | zero => simp [layered]
    | succ i =>
      have later := ih (first + 1) i
      rw [layered, if_neg (by simp), List.getElem?_cons_succ, ← later]
      congr 2
      omega

theorem layered_zero (get : L → S → Option A) (ls : List L) :
    layered get 0 ls = fun s => ls[s.1]?.bind (get · s.2) := by
  funext s
  have found := layered_eq get 0 ls s.1 s.2
  rwa [Nat.zero_add] at found

/-- The slots of the layers, counted from `first` on. -/
def layeredSlots : Nat → List (List S) → List (Nat × S)
  | _, [] => []
  | first, slots :: rest => slots.map (first, ·) ++ layeredSlots (first + 1) rest

variable {first : Nat} {layers : List (List S)} {position : L → S → Option Nat}
  {value : D → S → Option R}

theorem le_of_mem_layeredSlots {s : Nat × S} (member : s ∈ layeredSlots first layers) :
    first ≤ s.1 := by
  induction layers generalizing first with
  | nil => simp [layeredSlots] at member
  | cons slots rest ih =>
    rcases List.mem_append.mp member with here | later
    · obtain ⟨_, _, rfl⟩ := List.mem_map.mp here
      exact le_rfl
    · exact Nat.le_of_succ_le (ih later)

/-- Every layer is laid out behind the one before it. -/
inductive LaidLayers (position : L → S → Option Nat) (value : D → S → Option R) :
    Nat → List (List S) → List L → List D → List R → Prop where
  | nil (base : Nat) : LaidLayers position value base [] [] [] []
  | cons {base : Nat} {slots : List S} {layout : L} {data : D} {chunk : List R}
      {layers : List (List S)} {layouts : List L} {datas : List D} {values : List R}
      (here : Laid slots (position layout) (value data) base chunk)
      (later : LaidLayers position value (base + chunk.length) layers layouts datas values) :
      LaidLayers position value base (slots :: layers) (layout :: layouts) (data :: datas)
        (chunk ++ values)

theorem LaidLayers.length_layouts {layouts : List L} {datas : List D}
    (laid : LaidLayers position value base layers layouts datas values) :
    layouts.length = layers.length := by
  induction laid with
  | nil => rfl
  | cons _ _ ih => rw [List.length_cons, List.length_cons, ih]

theorem map_layered_cons (get : L → S → Option A) {l : L} {ls : List L} :
    (layeredSlots first (slots :: layers)).map (layered get first (l :: ls)) =
      slots.map (get l) ++
        (layeredSlots (first + 1) layers).map (layered get (first + 1) ls) := by
  rw [layeredSlots, List.map_append, List.map_map]
  congr 1
  · exact List.map_congr_left fun s _ => by simp [layered]
  · refine List.map_congr_left fun s member => ?_
    have below := le_of_mem_layeredSlots member
    rw [layered, if_neg (by omega)]

theorem mem_layeredSlots_cons {get : L → S → Option A} {l : L} {ls : List L}
    {s : Nat × S} {a : A} (here : ∀ {x a}, get l x = some a → x ∈ slots)
    (later : ∀ {s a}, layered get (first + 1) ls s = some a → s ∈ layeredSlots (first + 1) layers)
    (found : layered get first (l :: ls) s = some a) :
    s ∈ layeredSlots first (slots :: layers) := by
  rw [layered] at found
  split at found
  · rename_i same
    refine List.mem_append_left _ (List.mem_map.mpr ⟨s.2, here found, ?_⟩)
    rw [← same]
  · exact List.mem_append_right _ (later found)

/-- **Layers laid out one behind the other are laid out.** -/
theorem LaidLayers.laid
    {layouts : List L} {datas : List D}
    (laid : LaidLayers position value base layers layouts datas values) (first : Nat) :
    Laid (layeredSlots first layers) (layered position first layouts) (layered value first datas)
      base values := by
  induction laid generalizing first with
  | nil base => exact ⟨rfl, rfl, fun found => by simp [layered] at found,
      fun found => by simp [layered] at found⟩
  | cons here _ ih =>
    have later := ih (first + 1)
    refine ⟨?_, ?_, mem_layeredSlots_cons here.located later.located,
      mem_layeredSlots_cons here.valued later.valued⟩
    · rw [map_layered_cons, here.positions, later.positions, ← List.map_append,
        List.range'_append_1, List.length_append]
    · rw [map_layered_cons, here.holds, later.holds, List.map_append]

end Lib
