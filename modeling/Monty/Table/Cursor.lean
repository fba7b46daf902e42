import Monty.Table.Valid

/-!
# Cursors over a table

A `TableCursor` walks the slots of a table that may change between its steps. It remembers the slot
to resume from, the number of entries the table had when the walk began and how many of them are
still owed. Two guards keep it from going wrong: a step on a table of another size raises, and keeps
raising; and a live slot found when nothing is owed means that a compaction has renumbered the
entries, which ends the walk. `PyHashTable.Stepped` lists the ways a step can go.
-/

namespace Monty

open TableEntry (isLive changedSizeError changedKeysError)

variable {T E K : Type}

/-- The position of an iteration over a table. -/
structure TableCursor where
  /-- The slot to resume from. -/
  slot : Nat
  /-- The length the table had when the walk began. -/
  expectedLen : Nat
  /-- How many entries are still owed. -/
  remaining : Nat
  exhausted : Bool
  sizeChanged : Bool
  deriving DecidableEq, Repr

namespace TableCursor

/-- A cursor that is owed `expectedLen` entries. -/
def new (expectedLen : Nat) : TableCursor := ⟨0, expectedLen, expectedLen, false, false⟩

/-- Checks the guards and takes the next live slot. -/
def advance (E : Type) [TableEntry E K] (c : TableCursor) (currentLen : Nat)
    (nextLive : Nat → Option Nat) : Except RunError (Option Nat) × TableCursor :=
  if c.exhausted then (.ok none, c)
  else if c.sizeChanged ∨ currentLen ≠ c.expectedLen then
    (.error (changedSizeError E), { c with sizeChanged := true })
  else
    match nextLive c.slot with
    | none => (.ok none, { c with exhausted := true })
    | some slot =>
      if c.remaining = 0 then
        ((changedKeysError E).elim (.ok none) .error, { c with exhausted := true })
      else (.ok (some slot), { c with slot := slot + 1, remaining := c.remaining - 1 })

end TableCursor

variable [BucketTable T] [TableEntry E K]

/-- A step of an iteration over the table. -/
def PyHashTable.step (t : PyHashTable T E) (c : TableCursor) :
    Except TablePanic (Except RunError (Option E) × TableCursor) :=
  match c.advance E t.len t.nextLiveSlot with
  | (.error err, c') => .ok (.error err, c')
  | (.ok none, c') => .ok (.ok none, c')
  | (.ok (some slot), c') =>
    match t.entries[slot]? with
    | none => .error .outOfRange
    | some e => .ok (.ok (some e), c')

/-! ## What a step can do -/

namespace PyHashTable

omit [BucketTable T] in
theorem nextLiveSlotIn_eq_none {l : List E} {i : Nat} (hnext : nextLiveSlotIn l i = none) :
    l.filter isLive = [] := by
  induction l generalizing i with
  | nil => rfl
  | cons e l ih =>
    rw [nextLiveSlotIn] at hnext
    split_ifs at hnext with he
    rw [List.filter_cons_of_neg he, ih hnext]

omit [BucketTable T] in
theorem nextLiveSlotIn_eq_some {l : List E} {i j : Nat} (hnext : nextLiveSlotIn l i = some j) :
    ∃ A e B, l = A ++ e :: B ∧ A.filter isLive = [] ∧ isLive e = true ∧ j = i + A.length := by
  induction l generalizing i with
  | nil => cases hnext
  | cons e l ih =>
    rw [nextLiveSlotIn] at hnext
    split_ifs at hnext with he
    · exact ⟨[], e, l, rfl, rfl, he, (Option.some.inj hnext).symm⟩
    obtain ⟨A, e', B, rfl, hA, he', rfl⟩ := ih hnext
    refine ⟨e :: A, e', B, rfl, ?_, he', ?_⟩
    · rw [List.filter_cons_of_neg he, hA]
    · rw [List.length_cons]
      omega

/-- The ways a step of the cursor can go. -/
inductive Stepped (t : PyHashTable T E) (c : TableCursor) :
    Except RunError (Option E) → TableCursor → Prop
  | exhausted : c.exhausted = true → Stepped t c (.ok none) c
  | sizeChanged : c.exhausted = false → c.sizeChanged = true ∨ t.len ≠ c.expectedLen →
    Stepped t c (.error (changedSizeError E)) { c with sizeChanged := true }
  | done : c.exhausted = false → c.sizeChanged = false →
    (t.entries.drop c.slot).filter isLive = [] → Stepped t c (.ok none) { c with exhausted := true }
  | keysChanged : c.exhausted = false → c.sizeChanged = false → c.remaining = 0 →
    (t.entries.drop c.slot).filter isLive ≠ [] →
    Stepped t c ((changedKeysError E).elim (.ok none) .error) { c with exhausted := true }
  | yielded {A B : List E} {e : E} : c.exhausted = false → c.sizeChanged = false →
    c.remaining ≠ 0 → t.entries.drop c.slot = A ++ e :: B → A.filter isLive = [] →
    isLive e = true → Stepped t c (.ok (some e))
      { c with slot := c.slot + A.length + 1, remaining := c.remaining - 1 }

/-- A step never reads past the slots, and goes one of these ways. -/
theorem exists_stepped (t : PyHashTable T E) (c : TableCursor) :
    ∃ result c', t.step c = .ok (result, c') ∧ Stepped t c result c' := by
  by_cases hex : c.exhausted = true
  · exact ⟨_, _, by simp only [step, TableCursor.advance, hex, if_true], .exhausted hex⟩
  by_cases hsize : c.sizeChanged = true ∨ t.len ≠ c.expectedLen
  · refine ⟨_, _, ?_, .sizeChanged (by simpa using hex) hsize⟩
    simp only [step, TableCursor.advance, if_neg hex, if_pos hsize]
  have hchanged : c.sizeChanged = false := by simpa using fun h => hsize (.inl h)
  cases hnext : t.nextLiveSlot c.slot with
  | none =>
    refine ⟨_, _, ?_, .done (by simpa using hex) hchanged (nextLiveSlotIn_eq_none hnext)⟩
    simp only [step, TableCursor.advance, if_neg hex, if_neg hsize, hnext]
  | some slot =>
    obtain ⟨A, e, B, hsplit, hA, he, rfl⟩ := nextLiveSlotIn_eq_some hnext
    by_cases hrem : c.remaining = 0
    · refine ⟨_, _, ?_, .keysChanged (by simpa using hex) hchanged hrem (by simp [hsplit, he])⟩
      simp only [step, TableCursor.advance, if_neg hex, if_neg hsize, hnext, if_pos hrem]
      cases changedKeysError E <;> rfl
    refine ⟨_, _, ?_, .yielded (by simpa using hex) hchanged hrem hsplit hA he⟩
    have hget : t.entries[c.slot + A.length]? = some e := by
      rw [← List.getElem?_drop, hsplit]
      simp
    simp only [step, TableCursor.advance, if_neg hex, if_neg hsize, hnext, if_neg hrem, hget]

end PyHashTable

end Monty
