import Monty.Table.Valid
import Monty.Lib.Simulation

/-!
# The table is an insertion-ordered association list

What a `dict` or a `set` is for: a list of entries in the order they were put in. An operation
appends an entry, takes one out of the middle or off the end, or overwrites one where it stands; the
entry it works on is one with a given hash that passes a test, and which of several it is, is left
open. `TableOp.exec` runs an operation on the source's table, `Association.Step` is what it means on
the list.

Tombstones, compaction and the buckets do not show in the meaning. `Valid.exec` is the
simulation of one operation, `run_represents` that of a whole run.
-/

namespace Monty

open BucketTable TableEntry
open TableEntry (isLive tombstone isLive_tombstone)

variable {T E K : Type} [BucketTable T] [TableEntry E K]

/-- An operation on a table. Those that need a slot use the one `find` has just returned. The
constructors carry what their caller owes: pushed entries are live, and an entry that is overwritten
keeps its hash. -/
inductive TableOp (E : Type) {K : Type} [TableEntry E K]
  | push (e : E) (live : isLive e = true)
  | remove (h : UInt64) (p : E → Bool)
  | entryMut (h : UInt64) (p : E → Bool) (f : E → E)
    (keeps : ∀ e, isLive e = true → isLive (f e) = true ∧ TableEntry.hash (f e) = TableEntry.hash e)
  | replace (h : UInt64) (p : E → Bool) (e : E) (live : isLive e = true)
    (keeps : TableEntry.hash e = h)
  | popLast
  | takeEntries
  | fromEntries (entries : List E) (live : ∀ e ∈ entries, isLive e = true)
  /-- `serialize`, then `deserialize`. -/
  | reload

/-- Runs an operation. The output are the entries it hands to its caller. -/
def TableOp.exec (t : PyHashTable T E) : TableOp E → Except TablePanic (List E × PyHashTable T E)
  | .push e _ => .ok ([], t.push e)
  | .remove h p => do
    match ← t.find h p with
    | none => return ([], t)
    | some slot =>
      let (e, t') ← t.remove slot
      return ([e], t')
  | .entryMut h p f _ => do
    match ← t.find h p with
    | none => return ([], t)
    | some slot =>
      let t' ← t.entryMut slot f
      return ([], t')
  | .replace h p e _ _ => do
    match ← t.find h p with
    | none => return ([], t)
    | some slot =>
      let (old, t') ← t.replace slot e
      return ([old], t')
  | .popLast => do
    let (e, t') ← t.popLast
    return (e.toList, t')
  | .takeEntries => .ok t.takeEntries
  | .fromEntries entries _ => .ok ([], .fromEntries entries)
  | .reload => .ok ([], .deserialize t.serialize)

/-! ## The association list -/

namespace Association

/-- The entry is one that a search under the hash may return. -/
def Matches (h : UInt64) (p : E → Bool) (e : E) : Prop := TableEntry.hash e = h ∧ p e = true

/-- What an operation does to the list of entries, and which entries it hands out. -/
inductive Step : List E → TableOp E → List E → List E → Prop
  | push (xs : List E) (e : E) (live : isLive e = true) : Step xs (.push e live) [] (xs ++ [e])
  | remove {h : UInt64} {p : E → Bool} (A B : List E) {e : E} : Matches h p e →
    Step (A ++ e :: B) (.remove h p) [e] (A ++ B)
  | removeMissing {h : UInt64} {p : E → Bool} {xs : List E} : (∀ e ∈ xs, ¬ Matches h p e) →
    Step xs (.remove h p) [] xs
  | entryMut {h : UInt64} {p : E → Bool} {f : E → E} {keeps} (A B : List E) {e : E} :
    Matches h p e → Step (A ++ e :: B) (.entryMut h p f keeps) [] (A ++ f e :: B)
  | entryMutMissing {h : UInt64} {p : E → Bool} {f : E → E} {keeps} {xs : List E} :
    (∀ e ∈ xs, ¬ Matches h p e) → Step xs (.entryMut h p f keeps) [] xs
  | replace {h : UInt64} {p : E → Bool} {new : E} {live keeps} (A B : List E) {e : E} :
    Matches h p e → Step (A ++ e :: B) (.replace h p new live keeps) [e] (A ++ new :: B)
  | replaceMissing {h : UInt64} {p : E → Bool} {new : E} {live keeps} {xs : List E} :
    (∀ e ∈ xs, ¬ Matches h p e) → Step xs (.replace h p new live keeps) [] xs
  | popLast (xs : List E) (e : E) : Step (xs ++ [e]) .popLast [e] xs
  | popLastEmpty : Step [] .popLast [] []
  | takeEntries (xs : List E) : Step xs .takeEntries xs []
  | fromEntries (xs entries : List E) (live) : Step xs (.fromEntries entries live) [] entries
  | reload (xs : List E) : Step xs .reload [] xs

end Association

/-- **How a table stands for a list of entries.** -/
structure PyHashTable.Represents (t : PyHashTable T E) (xs : List E) : Prop where
  /-- Every live slot has one bucket, and a tombstone has none. -/
  buckets : ∀ i, ((contents t.indices).map Prod.snd).count i = if (t.getLive i).isSome then 1 else 0
  /-- A bucket is filed under the hash of its entry. -/
  hashes : ∀ h i, (h, i) ∈ contents t.indices → ∃ e, t.getLive i = some e ∧ TableEntry.hash e = h
  /-- The live entries are those of the list, in its order. -/
  live : t.live = xs
  len : t.len = xs.length
  /-- A search returns a live entry that matches exactly when the list has one. -/
  find : ∀ h p, (∃ slot e, t.find h p = .ok (some slot) ∧ t.entry slot = .ok e ∧ e ∈ xs ∧
      Association.Matches h p e) ∨ (t.find h p = .ok none ∧ ∀ e ∈ xs, ¬ Association.Matches h p e)

namespace PyHashTable

variable {t : PyHashTable T E}

omit [BucketTable T] in
theorem live_of_split {A B : List E} {e : E} (hsplit : t.entries = A ++ e :: B)
    (he : isLive e = true) : t.live = A.filter isLive ++ e :: B.filter isLive := by
  simp [live, hsplit, he]

omit [BucketTable T] in
theorem live_of_tombstone {A B : List E} (hsplit : t.entries = A ++ tombstone :: B) :
    t.live = A.filter isLive ++ B.filter isLive := by
  simp [live, hsplit, isLive_tombstone]

/-- The operation succeeds, does to the live entries what it does to the list, and leaves a valid
table. -/
def Simulates (t : PyHashTable T E) (op : TableOp E) : Prop :=
  ∃ out t', op.exec t = .ok (out, t') ∧ Association.Step t.live op out t'.live ∧ t'.Valid

section

variable {t : PyHashTable T E}

section

variable (ht : t.Valid)

include ht

/-- The shape of the operations that work on the slot `find` returns: one outcome for an entry that
matches, one for none. -/
theorem Valid.find_cases (h : UInt64) (p : E → Bool) :
    (∃ slot e, t.find h p = .ok (some slot) ∧ t.getLive slot = some e ∧ Association.Matches h p e) ∨
      (t.find h p = .ok none ∧ ∀ e ∈ t.live, ¬ Association.Matches h p e) := by
  rcases ht.position_spec h p with ⟨slot, e, hpos, hslot, he⟩ | ⟨hpos, hnone⟩
  · exact .inl ⟨slot, e, hpos, hslot, he⟩
  · exact .inr ⟨hpos, fun e he hmatch => by simpa [hmatch.2] using hnone e he hmatch.1⟩

theorem Valid.represents : t.Represents t.live where
  buckets := ht.count_slots
  hashes _ _ := ht.mem_contents_iff.mp
  live := rfl
  len := ht.len_eq
  find h p := by
    rcases ht.find_cases h p with ⟨slot, e, hfind, hslot, hmatch⟩ | hnone
    · exact .inl ⟨slot, e, hfind, by rw [entry, hslot], mem_live.mpr ⟨slot, hslot⟩, hmatch⟩
    · exact .inr hnone

theorem Valid.exec_remove (h : UInt64) (p : E → Bool) : t.Simulates (.remove h p) := by
  rcases ht.find_cases h p with ⟨slot, e, hfind, hslot, hmatch⟩ | ⟨hfind, hnone⟩
  · obtain ⟨t', A, B, hremove, ht', hsplit, -, hsplit'⟩ := ht.tombstoneAt_spec hslot
    refine ⟨[e], t', ?_, ?_, ht'⟩
    · simp only [TableOp.exec, hfind, remove, hremove, bind, Except.bind, pure, Except.pure]
    · rw [live_of_split hsplit (getLive_eq_some_iff.mp hslot).2, live_of_tombstone hsplit']
      exact .remove _ _ hmatch
  · refine ⟨[], t, ?_, .removeMissing hnone, ht⟩
    simp only [TableOp.exec, hfind, bind, Except.bind, pure, Except.pure]

/-- An entry is overwritten where it stands. -/
theorem Valid.exec_set {op : TableOp E} {out : List E} {slot : Nat} {e e' : E}
    (hslot : t.getLive slot = some e) (hlive : isLive e' = true) (hhash : hash e' = hash e)
    (hexec : op.exec t = .ok (out, { t with entries := t.entries.set slot e' }))
    (hstep : ∀ A B, Association.Step (A ++ e :: B) op out (A ++ e' :: B)) : t.Simulates op := by
  obtain ⟨ht', A, B, hsplit, hsplit'⟩ := ht.set_spec hslot hlive hhash
  refine ⟨out, _, hexec, ?_, ht'⟩
  rw [live_of_split hsplit (getLive_eq_some_iff.mp hslot).2, live_of_split hsplit' hlive]
  exact hstep ..

theorem Valid.exec_entryMut (h : UInt64) (p : E → Bool) (f : E → E) (keeps : ∀ e, isLive e = true →
      isLive (f e) = true ∧ hash (f e) = hash e) : t.Simulates (.entryMut h p f keeps) := by
  rcases ht.find_cases h p with ⟨slot, e, hfind, hslot, hmatch⟩ | ⟨hfind, hnone⟩
  · obtain ⟨hlive, hhash⟩ := keeps e (getLive_eq_some_iff.mp hslot).2
    refine ht.exec_set hslot hlive hhash ?_ fun _ _ => .entryMut _ _ hmatch
    simp only [TableOp.exec, hfind, entryMut, hslot, bind, Except.bind, pure, Except.pure]
  · refine ⟨[], t, ?_, .entryMutMissing hnone, ht⟩
    simp only [TableOp.exec, hfind, bind, Except.bind, pure, Except.pure]

theorem Valid.exec_replace (h : UInt64) (p : E → Bool) (new : E) (live : isLive new = true)
    (keeps : hash new = h) : t.Simulates (.replace h p new live keeps) := by
  rcases ht.find_cases h p with ⟨slot, e, hfind, hslot, hmatch⟩ | ⟨hfind, hnone⟩
  · refine ht.exec_set hslot live (keeps.trans hmatch.1.symm) ?_ fun _ _ => .replace _ _ hmatch
    simp only [TableOp.exec, hfind, replace, hslot, bind, Except.bind, pure, Except.pure]
  · refine ⟨[], t, ?_, .replaceMissing hnone, ht⟩
    simp only [TableOp.exec, hfind, bind, Except.bind, pure, Except.pure]

theorem Valid.exec_popLast : t.Simulates .popLast := by
  cases hlast : t.lastLiveSlot with
  | none =>
    refine ⟨[], t, ?_, ?_, ht⟩
    · simp only [TableOp.exec, popLast, hlast, bind, Except.bind, pure, Except.pure,
        Option.toList_none]
    · rw [lastLiveSlot_eq_none hlast]
      exact .popLastEmpty
  | some slot =>
    obtain ⟨e, hslot, hafter⟩ := lastLiveSlot_eq_some hlast
    obtain ⟨t', A, B, hremove, ht', hsplit, hA, hsplit'⟩ := ht.tombstoneAt_spec hslot
    refine ⟨[e], t', ?_, ?_, ht'⟩
    · simp only [TableOp.exec, popLast, hlast, hremove, bind, Except.bind, pure, Except.pure,
        Option.toList_some]
    · -- nothing live stands after the entry
      rw [live_of_split hsplit (getLive_eq_some_iff.mp hslot).2, live_of_tombstone hsplit',
        hafter A B hsplit hA, List.append_nil]
      exact .popLast _ _

/-- **One operation** on a valid table. -/
theorem Valid.exec (op : TableOp E) : t.Simulates op := by
  cases op with
  | push e live =>
    obtain ⟨ht', hlive⟩ := push_spec ht live
    exact ⟨[], _, rfl, hlive ▸ .push _ e live, ht'⟩
  | remove h p => exact ht.exec_remove h p
  | entryMut h p f keeps => exact ht.exec_entryMut h p f keeps
  | replace h p e live keeps => exact ht.exec_replace h p e live keeps
  | popLast => exact ht.exec_popLast
  | takeEntries => exact ⟨_, _, rfl, .takeEntries _, contents_clear _⟩
  | fromEntries entries live =>
    have hlive : (fromEntries entries : PyHashTable T E).live = entries :=
      List.filter_eq_self.mpr live
    refine ⟨[], _, rfl, ?_, valid_reindex _⟩
    rw [hlive]
    exact .fromEntries _ _ live
  | reload => exact ⟨[], _, rfl, .reload _, valid_reindex _⟩

end

end

/-- **The table refines the insertion-ordered list.**  Every sequence of operations on a new table
succeeds, hands out what the same operations on the empty list hand out, and leaves a table that
stands for the list they leave. -/
theorem run_represents (ops : List (TableOp E)) :
    ∃ outs t xs, Simulation.run (fun t op => TableOp.exec t op) (default : PyHashTable T E) ops
        = .ok (outs, t) ∧
      Simulation.Trace Association.Step [] ops outs xs ∧ t.Represents xs := by
  obtain ⟨outs, t, xs, hrun, htrace, ht, rfl⟩ := Simulation.exists_trace
    (R := fun (t : PyHashTable T E) xs => t.Valid ∧ t.live = xs)
    (by
      rintro t _ op ⟨ht, rfl⟩
      obtain ⟨out, t', hexec, hstep, ht'⟩ := ht.exec op
      exact ⟨out, t', t'.live, hexec, hstep, ht', rfl⟩)
    ops ⟨valid_default, rfl⟩
  exact ⟨outs, t, _, hrun, htrace, ht.represents⟩

end PyHashTable

end Monty
