/-
**The approximate delta table** (`core/proto/src/cache.rs`).

The reader of the older circuit format deduplicates deltas through a two-way set-associative cache
in front of a growing table. A miss stores a delta again, so the table may hold duplicates, but an
index that was handed out stays an index of its delta.

* `dedup_returns`, `dedup_spec` — **one lookup**: the index returned is an index of the delta, and the
  table only grows at its end.
-/

import Longfellow.Circuit.Basic

namespace Longfellow

open Lib

variable {ε : Type}

/-- A slot of the cache. -/
structure Slot where
  d : TermDelta
  index : UInt32
  valid : Bool
  deriving DecidableEq, Repr, Inhabited

/-- A bucket: slot 0 is the most recently used one, slot 1 the least recently used one. -/
structure CacheEntry where
  slot0 : Slot
  slot1 : Slot
  deriving DecidableEq, Repr, Inhabited

/-- The table and its cache. -/
structure ApproximateDeltaTableBuilder where
  deltas : List TermDelta
  cache : List CacheEntry
  deriving DecidableEq, Repr

namespace ApproximateDeltaTableBuilder

/-- An empty table. -/
def new (cacheSize : Nat) : ApproximateDeltaTableBuilder :=
  ⟨[], List.replicate cacheSize ⟨⟨⟨0, 0, 0, 0⟩, 0, false⟩, ⟨⟨0, 0, 0, 0⟩, 0, false⟩⟩⟩

/-- One step of the hash, modulo `2^64`. -/
def hashCombine (seed : UInt64) (v : UInt32) : UInt64 := (seed * 0x100000001b3) ^^^ v.toUInt64

/-- The hash of a delta. -/
def hashDelta (d : TermDelta) : UInt64 :=
  hashCombine (hashCombine (hashCombine (hashCombine 0xcbf29ce484222325 d.g) d.h0) d.h1) d.kIndex

/-- The index of a delta in the table, which is extended on a miss. -/
def dedup (db : ApproximateDeltaTableBuilder) (d : TermDelta) :
    Exec ε (UInt32 × ApproximateDeltaTableBuilder) := do
  ensure (db.cache.length ≠ 0) "attempt to calculate the remainder with a divisor of zero"
  let idx := (hashDelta d).toNat % db.cache.length
  let ent ← getAt db.cache idx
  if ent.slot0.valid = true ∧ ent.slot0.d = d then pure (ent.slot0.index, db)
  else if ent.slot1.valid = true ∧ ent.slot1.d = d then do
    let cache ← setAt db.cache idx ⟨ent.slot1, ent.slot0⟩
    pure (ent.slot1.index, ⟨db.deltas, cache⟩)
  else do
    let index := UInt32.ofNat db.deltas.length
    let cache ← setAt db.cache idx ⟨⟨d, index, true⟩, ent.slot0⟩
    pure (index, ⟨db.deltas ++ [d], cache⟩)

/-! ### The invariant -/

/-- A valid slot points to its delta. -/
def SlotSound (deltas : List TermDelta) (slot : Slot) : Prop :=
  slot.valid = true → deltas[slot.index.toNat]? = some slot.d

/-- Every valid slot points to its delta. -/
structure Sound (db : ApproximateDeltaTableBuilder) : Prop where
  buckets : db.cache ≠ []
  slots : ∀ ent ∈ db.cache, SlotSound db.deltas ent.slot0 ∧ SlotSound db.deltas ent.slot1

theorem sound_new (cacheSize : Nat) (positive : 0 < cacheSize) : Sound (new cacheSize) := by
  refine ⟨?_, fun ent member => ?_⟩
  · intro empty
    have := congrArg List.length empty
    simp only [new, List.length_replicate, List.length_nil] at this
    omega
  · obtain rfl := List.eq_of_mem_replicate member
    exact ⟨fun valid => Bool.noConfusion valid, fun valid => Bool.noConfusion valid⟩

theorem SlotSound.mono {deltas deltas' : List TermDelta} {slot : Slot}
    (grown : deltas <+: deltas') (sound : SlotSound deltas slot) : SlotSound deltas' slot :=
  fun valid => getElem?_of_prefixed grown (sound valid)

variable {db : ApproximateDeltaTableBuilder}

theorem Sound.set (sound : Sound db) {deltas : List TermDelta} (grown : db.deltas <+: deltas)
    {idx : Nat} {ent : CacheEntry} (first : SlotSound deltas ent.slot0)
    (second : SlotSound deltas ent.slot1) :
    Sound ⟨deltas, db.cache.set idx ent⟩ := by
  refine ⟨?_, fun other member => ?_⟩
  · intro empty
    exact sound.buckets ((List.set_eq_nil_iff idx ent).mp empty)
  · rcases List.mem_or_eq_of_mem_set member with old | rfl
    · exact ⟨(sound.slots other old).1.mono grown, (sound.slots other old).2.mono grown⟩
    · exact ⟨first, second⟩

/-- What lookups keep: there are buckets, and the slots are sound as long as every entry of the table
has an index of its own. -/
structure Kept (db : ApproximateDeltaTableBuilder) : Prop where
  buckets : db.cache ≠ []
  sound : db.deltas.length ≤ 2 ^ 32 → Sound db

theorem Sound.kept (sound : Sound db) : Kept db :=
  ⟨sound.buckets, fun _ => sound⟩

/-- **One lookup**: it returns, the table only grows at its end, and while its entries have indices
the index returned is one of the delta. -/
theorem dedup_returns (kept : Kept db) (d : TermDelta) :
    ∃ index db', (dedup db d : Exec ε _) = .ok (index, db') ∧ Kept db' ∧
      db.deltas <+: db'.deltas ∧ db'.deltas.length ≤ db.deltas.length + 1 ∧
      (db'.deltas.length ≤ 2 ^ 32 → db'.deltas[index.toNat]? = some d) := by
  have nonempty : db.cache.length ≠ 0 := fun empty =>
    kept.buckets (List.eq_nil_of_length_eq_zero empty)
  have bound : (hashDelta d).toNat % db.cache.length < db.cache.length :=
    Nat.mod_lt _ (Nat.pos_of_ne_zero nonempty)
  simp only [dedup, ensure_of nonempty, getAt_of_lt bound, setAt_of_lt bound, ok_bind, pure_eq_ok]
  generalize found : db.cache[(hashDelta d).toNat % db.cache.length] = ent
  have member : ent ∈ db.cache := found ▸ List.getElem_mem bound
  have replaced : ∀ idx ent', db.cache.set idx ent' ≠ [] := fun idx ent' empty =>
    kept.buckets ((List.set_eq_nil_iff idx ent').mp empty)
  by_cases hit0 : ent.slot0.valid = true ∧ ent.slot0.d = d
  · rw [if_pos hit0]
    refine ⟨_, db, rfl, kept, List.prefix_rfl, by omega, fun fits => ?_⟩
    exact hit0.2 ▸ ((kept.sound fits).slots ent member).1 hit0.1
  by_cases hit1 : ent.slot1.valid = true ∧ ent.slot1.d = d
  · rw [if_neg hit0, if_pos hit1]
    refine ⟨_, _, rfl, ⟨replaced _ _, fun fits => ?_⟩, List.prefix_rfl, Nat.le_succ _,
      fun fits => ?_⟩
    · obtain ⟨sound0, sound1⟩ := (kept.sound fits).slots ent member
      exact (kept.sound fits).set List.prefix_rfl sound1 sound0
    · exact hit1.2 ▸ ((kept.sound fits).slots ent member).2 hit1.1
  · rw [if_neg hit0, if_neg hit1]
    have grown : db.deltas <+: db.deltas ++ [d] := List.prefix_append ..
    have stored : (db.deltas ++ [d]).length ≤ 2 ^ 32 →
        (db.deltas ++ [d])[(UInt32.ofNat db.deltas.length).toNat]? = some d := by
      intro fits
      rw [List.length_append, List.length_singleton] at fits
      have small : db.deltas.length < 2 ^ 32 := by omega
      rw [UInt32.toNat_ofNat_of_lt' small, List.getElem?_concat_length]
    refine ⟨_, _, rfl, ⟨replaced _ _, fun fits => ?_⟩, grown, by simp, stored⟩
    have sound := kept.sound (grown.length_le.trans fits)
    exact sound.set grown (fun _ => stored fits) ((sound.slots ent member).1.mono grown)

/-- **One lookup** returns an index of the delta and keeps the table as a prefix. -/
theorem dedup_spec (sound : Sound db) (fits : db.deltas.length < 2 ^ 32) (d : TermDelta) :
    ∃ index db', (dedup db d : Exec ε _) = .ok (index, db') ∧ Sound db' ∧
      db.deltas <+: db'.deltas ∧ db'.deltas[index.toNat]? = some d ∧
      db'.deltas.length ≤ db.deltas.length + 1 := by
  obtain ⟨index, db', ran, kept, grown, growth, points⟩ := dedup_returns (ε := ε) sound.kept d
  have small : db'.deltas.length ≤ 2 ^ 32 := by omega
  exact ⟨index, db', ran, kept.sound small, grown, points small, growth⟩

theorem mem_of_dedup {db' : ApproximateDeltaTableBuilder} {d other : TermDelta} {index : UInt32}
    (ran : (dedup db d : Exec ε _) = .ok (index, db')) (member : other ∈ db'.deltas) :
    other ∈ db.deltas ∨ other = d := by
  obtain ⟨_, _, ran⟩ := bind_eq_ok.mp ran
  obtain ⟨ent, _, ran⟩ := bind_eq_ok.mp ran
  split at ran
  · obtain ⟨_, rfl⟩ := Prod.mk.inj (Except.ok.inj ran)
    exact .inl member
  · split at ran
    · obtain ⟨cache, _, ran⟩ := bind_eq_ok.mp ran
      obtain ⟨_, rfl⟩ := Prod.mk.inj (Except.ok.inj ran)
      exact .inl member
    · obtain ⟨cache, _, ran⟩ := bind_eq_ok.mp ran
      obtain ⟨_, rfl⟩ := Prod.mk.inj (Except.ok.inj ran)
      simpa using member

end ApproximateDeltaTableBuilder

end Longfellow
