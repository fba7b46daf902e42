import Monty.Table.Cursor
import Monty.Table.Refine

/-!
# Iterating over a table that changes

To say that no entry is yielded twice, entries have to be told apart even when they are equal, and a
slot number does not do it, since a compaction renumbers the slots. A `Walk` therefore carries
along what the source does not keep: the list of all entries ever inserted, and for each slot the
position of its entry in that list, its *stamp*. A key that is removed and inserted again has a new
stamp.

The stamps stand in increasing order in the slots, because entries are only ever appended and a
compaction keeps their order. What carries the argument is that the stamps ahead of the cursor are
larger than all that were yielded (`Walk.Recorded.ahead`): a compaction never moves an entry from
behind the cursor to ahead of it. `Walk.foldlM_sound` is what follows for every interleaving of
steps and mutations.
-/

namespace Monty

open List PyHashTable Prod
open TableEntry (isLive tombstone isLive_tombstone changedSizeError changedKeysError
  changedKeysError_ne)

variable {T E K : Type} [BucketTable T] [TableEntry E K]

/-! ## Walks -/

/-- What one step of a walk returned. -/
inductive Outcome (E : Type)
  /-- An entry, and its position among all insertions. -/
  | yield (stamp : Nat) (e : E)
  | stop
  | raise (err : RunError)

namespace Outcome

/-- What the caller gets to see. -/
def result : Outcome E → Except RunError (Option E)
  | .yield _ e => .ok (some e)
  | .stop => .ok none
  | .raise err => .error err

/-- The position of the entry yielded, if any. -/
def stamp? : Outcome E → Option Nat
  | .yield n _ => some n
  | .stop => none
  | .raise _ => none

end Outcome

/-- A mutation of the table that is walked over. -/
inductive Mutation (E : Type) {K : Type} [TableEntry E K]
  | push (e : E) (live : isLive e = true)
  | remove (h : UInt64) (p : E → Bool)
  | popLast
  | takeEntries

def Mutation.op : Mutation E → TableOp E
  | .push e live => .push e live
  | .remove h p => .remove h p
  | .popLast => .popLast
  | .takeEntries => .takeEntries

/-- A table with a cursor on it, and a record of what happened to them. -/
structure Walk (T E : Type) where
  table : PyHashTable T E
  cursor : TableCursor
  /-- Every entry ever inserted. -/
  inserted : List E
  /-- For every slot, where its entry stands in `inserted`. -/
  stamps : List Nat
  /-- What the steps returned so far, each with the entries that were live at the time. -/
  history : List (Outcome E × List E)

/-- One thing that happens in a walk. -/
inductive WalkOp (E : Type) {K : Type} [TableEntry E K]
  | step
  | mutate (m : Mutation E)

namespace Walk

/-- A walk over a table begins. -/
def start (t : PyHashTable T E) : Walk T E :=
  { table := t
    cursor := .new t.len
    inserted := t.entries
    stamps := range t.entries.length
    history := [] }

variable (w : Walk T E)

/-- The stamps of the entries that survive a compaction. -/
def survivors : List Nat := ((w.table.entries.zip w.stamps).filter (isLive ∘ Prod.fst)).map Prod.snd

/-- Where the entries stand after a mutation. -/
def stampsAfter : Mutation E → List Nat
  | .push _ _ => (if w.table.wantsCompact then w.survivors else w.stamps) ++ [w.inserted.length]
  | .remove _ _ => w.stamps
  | .popLast => w.stamps
  | .takeEntries => []

def insertedAfter : Mutation E → List E
  | .push e _ => w.inserted ++ [e]
  | .remove _ _ => w.inserted
  | .popLast => w.inserted
  | .takeEntries => w.inserted

/-- What a step that returned `result` and left the cursor behind is recorded as. A yielding step
leaves the cursor after the slot it yielded. -/
def outcome (c : TableCursor) : Except RunError (Option E) → Outcome E
  | .ok (some e) => .yield (w.stamps.getD (c.slot - 1) 0) e
  | .ok none => .stop
  | .error err => .raise err

/-- The walk after a step with the given outcome. -/
def record (cursor : TableCursor) (o : Outcome E) : Walk T E :=
  { w with cursor := cursor, history := w.history ++ [(o, w.table.live)] }

/-- Takes a step, or mutates the table. -/
def exec (w : Walk T E) : WalkOp E → Except TablePanic (Walk T E)
  | .step => do
    let (result, cursor) ← w.table.step w.cursor
    return w.record cursor (w.outcome cursor result)
  | .mutate m => do
    let (_, table) ← m.op.exec w.table
    return { w with
      table := table
      inserted := w.insertedAfter m
      stamps := w.stampsAfter m }

/-- The positions of the entries yielded so far. -/
def yielded : List Nat := w.history.filterMap fun p => p.1.stamp?

end Walk

/-! ## What a mutation does to the slots -/

def Mutation.SlotsAfter (t : PyHashTable T E) (entries : List E) : Mutation E → Prop
  | .push e _ => entries = (if t.wantsCompact then t.entries.filter isLive else t.entries) ++ [e]
  | .takeEntries => entries = []
  | .remove _ _ => entries = t.entries ∨ ∃ i, entries = t.entries.set i tombstone
  | .popLast => entries = t.entries ∨ ∃ i, entries = t.entries.set i tombstone

variable {t : PyHashTable T E}

namespace PyHashTable

theorem entries_push (t : PyHashTable T E) (e : E) : (t.push e).entries
      = (if t.wantsCompact then t.entries.filter isLive else t.entries) ++ [e] := by
  rw [push]
  split_ifs <;> rfl

theorem entries_remove {t' : PyHashTable T E} {slot : Nat} {e : E}
    (hremove : t.tombstoneAt slot = .ok (e, t')) : t'.entries = t.entries.set slot tombstone := by
  rw [tombstoneAt] at hremove
  split at hremove
  · cases hremove
  · cases hremove
    rfl

/-- A mutation of a valid table succeeds, and changes the slots as its kind allows. -/
theorem Valid.exec_mutation (ht : t.Valid) (m : Mutation E) :
    ∃ out t', m.op.exec t = .ok (out, t') ∧ t'.Valid ∧ m.SlotsAfter t t'.entries := by
  obtain ⟨out, t', hexec, -, ht'⟩ := ht.exec m.op
  refine ⟨out, t', hexec, ht', ?_⟩
  cases m with
  | push e live =>
    cases hexec
    exact entries_push t e
  | takeEntries =>
    cases hexec
    rfl
  | remove h p =>
    simp only [Mutation.op, TableOp.exec, bind, Except.bind] at hexec
    split at hexec
    · cases hexec
    split at hexec
    · cases hexec
      exact .inl rfl
    split at hexec
    · cases hexec
    · next hremove =>
      cases hexec
      exact .inr ⟨_, entries_remove hremove⟩
  | popLast =>
    simp only [Mutation.op, TableOp.exec, popLast, bind, Except.bind] at hexec
    split at hexec
    · cases hexec
    next hpop =>
    cases hexec
    split at hpop
    · cases hpop
      exact .inl rfl
    split at hpop
    · cases hpop
    · next hremove =>
      cases hpop
      exact .inr ⟨_, entries_remove hremove⟩

end PyHashTable

/-! ## The stamps -/

/-- Every live slot has the stamp of the entry inserted there. -/
structure Stamped (entries : List E) (stamps : List Nat) (inserted : List E) : Prop where
  length_eq : stamps.length = entries.length
  inserted_of_get : ∀ (i : Nat) (e : E), entries[i]? = some e → isLive e = true →
    ∃ n, stamps[i]? = some n ∧ inserted[n]? = some e

namespace Stamped

variable {entries inserted : List E} {stamps : List Nat}

section

variable (hst : Stamped entries stamps inserted)

include hst

theorem concat (e : E) :
    Stamped (entries ++ [e]) (stamps ++ [inserted.length]) (inserted ++ [e]) where
  length_eq := by simp [hst.length_eq]
  inserted_of_get i e' hi he' := by
    rcases Nat.lt_or_ge i entries.length with hlt | hge
    · rw [getElem?_append_left hlt] at hi
      obtain ⟨n, hn, hins⟩ := hst.inserted_of_get i e' hi he'
      exact ⟨n, by rw [getElem?_append_left (hst.length_eq ▸ hlt), hn],
        by rw [List.getElem?_append_left (List.getElem?_eq_some_iff.mp hins).1, hins]⟩
    obtain ⟨hlt, rfl⟩ := List.getElem?_eq_some_iff.mp hi
    obtain rfl : i = entries.length := by
      rw [length_append, length_singleton] at hlt
      omega
    exact ⟨inserted.length, by simp [← hst.length_eq], by simp⟩

theorem set (i : Nat) : Stamped (entries.set i tombstone) stamps inserted where
  length_eq := by rw [length_set, hst.length_eq]
  inserted_of_get j e hj he := by
    rw [getElem?_set] at hj
    split_ifs at hj
    · obtain rfl := Option.some.inj hj
      rw [isLive_tombstone] at he
      cases he
    · exact hst.inserted_of_get j e hj he

/-- The entries that survive a compaction take their stamps along. -/
theorem filter : Stamped (entries.filter isLive)
      (((entries.zip stamps).filter (isLive ∘ fst)).map snd) inserted := by
  have hfilter : entries.filter isLive
      = ((entries.zip stamps).filter (isLive ∘ fst)).map fst := by
    rw [← filter_map, map_fst_zip hst.length_eq.ge]
  refine ⟨by simp [hfilter], fun j e hj he => ?_⟩
  rw [hfilter, getElem?_map, Option.map_eq_some_iff] at hj
  obtain ⟨⟨a, n⟩, hpair, rfl⟩ := hj
  refine ⟨n, by rw [getElem?_map, hpair]; rfl, ?_⟩
  obtain ⟨i, hi⟩ := mem_iff_getElem?.mp (mem_filter.mp (mem_of_getElem? hpair)).1
  obtain ⟨ha, hn⟩ := getElem?_zip_eq_some.mp hi
  obtain ⟨n', hn', hins⟩ := hst.inserted_of_get i a ha he
  obtain rfl := Option.mem_unique hn hn'
  exact hins

end

end Stamped

namespace Walk

/-- The stamps belong to the slots, and stand in increasing order. -/
structure Placed (w : Walk T E) : Prop where
  valid : w.table.Valid
  stamped : Stamped w.table.entries w.stamps w.inserted
  sorted : w.stamps.Pairwise (· < ·)
  stamps_lt : ∀ n ∈ w.stamps, n < w.inserted.length

theorem Placed.start (ht : t.Valid) : (start t).Placed where
  valid := ht
  stamped := ⟨length_range, fun i _ hi _ =>
    ⟨i, List.getElem?_range (List.getElem?_eq_some_iff.mp hi).1, hi⟩⟩
  sorted := pairwise_lt_range
  stamps_lt _ hn := mem_range.mp hn

variable {w : Walk T E}

theorem Placed.survivors_sublist (hw : w.Placed) : w.survivors.Sublist w.stamps := by
  have hzip : (w.table.entries.zip w.stamps).map snd = w.stamps :=
    map_snd_zip hw.stamped.length_eq.le
  have hsub : w.survivors.Sublist ((w.table.entries.zip w.stamps).map snd) :=
    filter_sublist.map snd
  rwa [hzip] at hsub

/-- A mutation drops some stamps, and a push appends a new one. -/
theorem Placed.stampsAfter_cases (hw : w.Placed) (m : Mutation E) :
    ((w.stampsAfter m).Sublist w.stamps ∧ w.insertedAfter m = w.inserted) ∨
      ∃ kept e, w.stampsAfter m = kept ++ [w.inserted.length] ∧ kept.Sublist w.stamps ∧
        w.insertedAfter m = w.inserted ++ [e] := by
  cases m with
  | push e live =>
    refine .inr ⟨_, e, rfl, ?_, rfl⟩
    split_ifs
    · exact hw.survivors_sublist
    · exact .refl _
  | remove h p => exact .inl ⟨.refl _, rfl⟩
  | popLast => exact .inl ⟨.refl _, rfl⟩
  | takeEntries => exact .inl ⟨nil_sublist _, rfl⟩

theorem Placed.sorted_stampsAfter (hw : w.Placed) (m : Mutation E) :
    (w.stampsAfter m).Pairwise (· < ·) ∧ ∀ n ∈ w.stampsAfter m, n < (w.insertedAfter m).length := by
  rcases hw.stampsAfter_cases m with ⟨hsub, hins⟩ | ⟨kept, e, hstamps, hsub, hins⟩
  · exact ⟨hw.sorted.sublist hsub, fun n hn => hins ▸ hw.stamps_lt n (hsub.subset hn)⟩
  have hlt : ∀ n ∈ kept, n < w.inserted.length := fun n hn => hw.stamps_lt n (hsub.subset hn)
  rw [hstamps, hins]
  refine ⟨pairwise_append.mpr ⟨hw.sorted.sublist hsub, pairwise_singleton _ _, ?_⟩, ?_⟩
  · simpa using hlt
  intro n hn
  rw [length_append, length_singleton]
  rcases mem_append.mp hn with hn | hn
  · exact Nat.lt_succ_of_lt (hlt n hn)
  · exact Nat.lt_succ_of_le (mem_singleton.mp hn).le

theorem Placed.stamped_after (hw : w.Placed) {m : Mutation E} {entries : List E}
    (hslots : m.SlotsAfter w.table entries) :
    Stamped entries (w.stampsAfter m) (w.insertedAfter m) := by
  cases m with
  | push e live =>
    rw [show entries = _ from hslots]
    refine .concat ?_ e
    split_ifs
    · exact hw.stamped.filter
    · exact hw.stamped
  | remove h p =>
    rcases hslots with rfl | ⟨i, rfl⟩
    · exact hw.stamped
    · exact hw.stamped.set i
  | popLast =>
    rcases hslots with rfl | ⟨i, rfl⟩
    · exact hw.stamped
    · exact hw.stamped.set i
  | takeEntries =>
    obtain rfl : entries = [] := hslots
    exact ⟨rfl, fun i e hi _ => by simp at hi⟩

/-- **A mutation keeps the stamps where they belong.** -/
theorem Placed.mutate (hw : w.Placed) {m : Mutation E} (ht : t.Valid)
    (hslots : m.SlotsAfter w.table t.entries) :
    ({ w with table := t, inserted := w.insertedAfter m, stamps := w.stampsAfter m } :
      Walk T E).Placed where
  valid := ht
  stamped := hw.stamped_after hslots
  sorted := (hw.sorted_stampsAfter m).1
  stamps_lt := (hw.sorted_stampsAfter m).2

end Walk

/-! ## The record -/

namespace Outcome

/-- The walk is over, other than by a change of size. -/
def Ended (o : Outcome E) : Prop := o = .stop ∨ ∃ err, o = .raise err ∧ err ≠ changedSizeError E

/-- What an outcome asks of every later one: the error for a change of size stays, and so does the
end. -/
def Before (a b : Outcome E) : Prop :=
  (a = .raise (changedSizeError E) → b = .raise (changedSizeError E)) ∧ (a.Ended → b = .stop)

theorem not_ended_sizeError : ¬ (raise (changedSizeError E) : Outcome E).Ended := by
  rintro (h | ⟨err, h, hne⟩)
  · cases h
  · cases h
    exact hne rfl

end Outcome

namespace Walk

/-- The outcomes so far. -/
def outcomes (w : Walk T E) : List (Outcome E) := w.history.map Prod.fst

/-- The record agrees with the cursor. -/
structure Recorded (pinned : Nat) (w : Walk T E) : Prop where
  yielded_lt : ∀ y ∈ w.yielded, y < w.inserted.length
  /-- What lies ahead was inserted after what was yielded. -/
  ahead : ∀ y ∈ w.yielded, ∀ n ∈ w.stamps.drop w.cursor.slot, y < n
  increasing : w.yielded.Pairwise (· < ·)
  count : w.yielded.length + w.cursor.remaining = pinned
  entries : ∀ n e live, (.yield n e, live) ∈ w.history → w.inserted[n]? = some e ∧ e ∈ live
  sticky : w.outcomes.Pairwise Outcome.Before
  failed : .raise (changedSizeError E) ∈ w.outcomes →
    w.cursor.sizeChanged = true ∧ w.cursor.exhausted = false
  ended : ∀ o ∈ w.outcomes, o.Ended → w.cursor.exhausted = true

theorem Recorded.start (t : PyHashTable T E) : (start t).Recorded t.len where
  yielded_lt := by simp [Walk.start, yielded]
  ahead := by simp [Walk.start, yielded]
  increasing := .nil
  count := Nat.zero_add _
  entries := by simp [Walk.start]
  sticky := .nil
  failed := by simp [Walk.start, outcomes]
  ended := by simp [Walk.start, outcomes]

variable {w : Walk T E} {pinned : Nat} (hw : w.Recorded pinned)

include hw in
theorem Recorded.mutate (hplaced : w.Placed) (m : Mutation E) (t : PyHashTable T E) :
    ({ w with table := t, inserted := w.insertedAfter m, stamps := w.stampsAfter m } :
      Walk T E).Recorded pinned := by
  rcases hplaced.stampsAfter_cases m with ⟨hsub, hins⟩ | ⟨kept, e, hstamps, hsub, hins⟩
  · exact { hw with
        yielded_lt := hins ▸ hw.yielded_lt
        ahead := fun y hy n hn => hw.ahead y hy n ((hsub.drop _).subset hn)
        entries := hins ▸ hw.entries }
  refine { hw with
      yielded_lt := fun y hy => ?_
      ahead := fun y hy n hn => ?_
      entries := fun n e' live hmem => ?_ }
  · rw [hins, length_append]
    exact Nat.lt_add_right _ (hw.yielded_lt y hy)
  · -- the new stamp is larger than all others
    rw [hstamps, drop_append] at hn
    rcases mem_append.mp hn with hn | hn
    · exact hw.ahead y hy n ((hsub.drop _).subset hn)
    · obtain rfl := mem_singleton.mp (mem_of_mem_drop hn)
      exact hw.yielded_lt y hy
  · obtain ⟨hn, hlive⟩ := hw.entries n e' live hmem
    refine ⟨?_, hlive⟩
    rw [hins, List.getElem?_append_left (List.getElem?_eq_some_iff.mp hn).1, hn]

omit [BucketTable T] in
theorem outcomes_record (w : Walk T E) (cursor : TableCursor) (o : Outcome E) :
    (w.record cursor o).outcomes = w.outcomes ++ [o] := by
  simp [record, outcomes]

omit [BucketTable T] in
theorem yielded_record (w : Walk T E) (cursor : TableCursor) (o : Outcome E) :
    (w.record cursor o).yielded = w.yielded ++ o.stamp?.toList := by
  cases h : o.stamp? <;> simp [record, yielded, h]

include hw in
omit [BucketTable T] in
/-- While neither guard has fired, there is nothing to stick to. -/
theorem Recorded.before_of_running (hex : w.cursor.exhausted = false)
    (hsize : w.cursor.sizeChanged = false) (o : Outcome E) : ∀ a ∈ w.outcomes, a.Before o := by
  intro a ha
  refine ⟨?_, fun hend => ?_⟩
  · rintro rfl
    have := (hw.failed ha).1
    rw [hsize] at this
    cases this
  · have := hw.ended a ha hend
    rw [hex] at this
    cases this

variable {c : TableCursor} {o : Outcome E}

include hw in
omit [BucketTable T] in
theorem Recorded.record (hstamp : o.stamp? = none) (hslot : c.slot = w.cursor.slot)
    (hrem : c.remaining = w.cursor.remaining) (hbefore : ∀ a ∈ w.outcomes, a.Before o)
    (hfailed : .raise (changedSizeError E) ∈ w.outcomes ++ [o] →
      c.sizeChanged = true ∧ c.exhausted = false)
    (hended : ∀ a ∈ w.outcomes ++ [o], a.Ended → c.exhausted = true) :
    (w.record c o).Recorded pinned := by
  have hyielded : (w.record c o).yielded = w.yielded := by simp [yielded_record, hstamp]
  exact
    { yielded_lt := hyielded ▸ hw.yielded_lt
      ahead := fun y hy n hn => hw.ahead y (hyielded ▸ hy) n (hslot ▸ hn)
      increasing := hyielded ▸ hw.increasing
      count := by rw [hyielded, ← hw.count, Walk.record, hrem]
      entries := fun n e live hmem => by
        rcases mem_append.mp hmem with hmem | hmem
        · exact hw.entries n e live hmem
        · obtain ⟨rfl, -⟩ := Prod.mk.inj (mem_singleton.mp hmem)
          cases hstamp
      sticky := by
        rw [outcomes_record, pairwise_append]
        exact ⟨hw.sticky, pairwise_singleton _ _, by simpa using hbefore⟩
      failed := outcomes_record w c o ▸ hfailed
      ended := outcomes_record w c o ▸ hended }

include hw in
omit [BucketTable T] in
theorem Recorded.recordEnd (hstamp : o.stamp? = none) (hsize : o ≠ .raise (changedSizeError E))
    (hex : w.cursor.exhausted = false) (hchanged : w.cursor.sizeChanged = false) :
    (w.record { w.cursor with exhausted := true } o).Recorded pinned := by
  refine hw.record hstamp rfl rfl (hw.before_of_running hex hchanged o) (fun hmem => ?_)
    fun _ _ _ => rfl
  rcases mem_append.mp hmem with hmem | hmem
  · have := (hw.failed hmem).1
    rw [hchanged] at this
    cases this
  · exact absurd (mem_singleton.mp hmem).symm hsize

include hw in
/-- Recording a yield. The stamp is the first one ahead of a live slot, so it is larger than those
yielded and smaller than those behind it. -/
theorem Recorded.recordYield (hplaced : w.Placed) {A B : List E} {e : E}
    (hex : w.cursor.exhausted = false) (hchanged : w.cursor.sizeChanged = false)
    (hrem : w.cursor.remaining ≠ 0) (hsplit : w.table.entries.drop w.cursor.slot = A ++ e :: B)
    (he : isLive e = true) :
    (w.record
      { w.cursor with slot := w.cursor.slot + A.length + 1, remaining := w.cursor.remaining - 1 }
      (.yield (w.stamps.getD (w.cursor.slot + A.length) 0) e)).Recorded pinned := by
  have hget : w.table.entries[w.cursor.slot + A.length]? = some e := by
    rw [← getElem?_drop, hsplit]
    simp
  obtain ⟨n, hn, hins⟩ := hplaced.stamped.inserted_of_get _ e hget he
  have hstamp : w.stamps.getD (w.cursor.slot + A.length) 0 = n := by
    rw [getD_eq_getElem?_getD, hn, Option.getD_some]
  have hlt : ∀ y ∈ w.yielded, y < n := fun y hy =>
    hw.ahead y hy n (mem_of_getElem? (by rw [getElem?_drop, hn]))
  have hlive : e ∈ w.table.live :=
    PyHashTable.mem_live.mpr ⟨_, PyHashTable.getLive_eq_some_iff.mpr ⟨hget, he⟩⟩
  rw [hstamp]
  exact
    { yielded_lt := fun y hy => by
        rw [yielded_record] at hy
        rcases mem_append.mp hy with hy | hy
        · exact hw.yielded_lt y hy
        · obtain rfl : y = n := mem_singleton.mp hy
          exact (List.getElem?_eq_some_iff.mp hins).1
      ahead := fun y hy m hm => by
        obtain ⟨j, hj⟩ := mem_iff_getElem?.mp hm
        rw [getElem?_drop] at hj
        have hnm : n < m := by
          obtain ⟨hlt1, rfl⟩ := List.getElem?_eq_some_iff.mp hn
          obtain ⟨hlt2, rfl⟩ := List.getElem?_eq_some_iff.mp hj
          refine pairwise_iff_getElem.mp hplaced.sorted _ _ hlt1 hlt2 ?_
          dsimp only [Walk.record]
          omega
        rw [yielded_record] at hy
        rcases mem_append.mp hy with hy | hy
        · exact (hlt y hy).trans hnm
        · obtain rfl : y = n := mem_singleton.mp hy
          exact hnm
      increasing := by
        rw [yielded_record, pairwise_append]
        exact ⟨hw.increasing, pairwise_singleton _ _, by simpa [Outcome.stamp?] using hlt⟩
      count := by
        have hcount := hw.count
        rw [yielded_record, length_append]
        simp only [Walk.record, Outcome.stamp?, Option.toList_some, length_singleton]
        omega
      entries := fun k e' live hmem => by
        rcases mem_append.mp hmem with hmem | hmem
        · exact hw.entries k e' live hmem
        · cases mem_singleton.mp hmem
          exact ⟨hins, hlive⟩
      sticky := by
        rw [outcomes_record, pairwise_append]
        refine ⟨hw.sticky, pairwise_singleton _ _, ?_⟩
        simpa using hw.before_of_running hex hchanged _
      failed := fun hmem => by
        rw [outcomes_record] at hmem
        rcases mem_append.mp hmem with hmem | hmem
        · exact hw.failed hmem
        · cases mem_singleton.mp hmem
      ended := fun o ho hend => by
        rw [outcomes_record] at ho
        rcases mem_append.mp ho with ho | ho
        · exact hw.ended o ho hend
        · rcases mem_singleton.mp ho ▸ hend with h | ⟨_, h, -⟩ <;> cases h }

variable {result : Except RunError (Option E)}

include hw in
/-- **A step leaves the record right.** -/
theorem Recorded.step (hplaced : w.Placed) (hstep : w.table.Stepped w.cursor result c) :
    (w.record c (w.outcome c result)).Recorded pinned := by
  cases hstep with
  | exhausted hex =>
    refine hw.record rfl rfl rfl (fun a ha => ⟨?_, fun _ => rfl⟩) (fun hmem => ?_) fun _ _ _ => hex
    · rintro rfl
      have := (hw.failed ha).2
      rw [hex] at this
      cases this
    · rcases mem_append.mp hmem with hmem | hmem
      · exact hw.failed hmem
      · cases mem_singleton.mp hmem
  | sizeChanged hex hsize =>
    have hrunning : ∀ a ∈ w.outcomes, ¬ a.Ended := fun a ha hend => by
      have := hw.ended a ha hend
      rw [hex] at this
      cases this
    refine hw.record rfl rfl rfl
      (fun a ha => ⟨fun _ => rfl, fun hend => absurd hend (hrunning a ha)⟩)
      (fun _ => ⟨rfl, hex⟩) fun a ha hend => ?_
    rcases mem_append.mp ha with ha | ha
    · exact absurd hend (hrunning a ha)
    · exact absurd (mem_singleton.mp ha ▸ hend) Outcome.not_ended_sizeError
  | done hex hchanged _ => exact hw.recordEnd rfl (by simp [outcome]) hex hchanged
  | keysChanged hex hchanged _ _ =>
    cases hkeys : changedKeysError E with
    | none => exact hw.recordEnd rfl (by simp [outcome]) hex hchanged
    | some err =>
      refine hw.recordEnd rfl ?_ hex hchanged
      intro h
      exact changedKeysError_ne (hkeys.trans (congrArg some (Outcome.raise.inj h)))
  | yielded hex hchanged hrem hsplit _ he =>
    exact hw.recordYield hplaced hex hchanged hrem hsplit he

/-- **Anything that happens in a walk succeeds and keeps both invariants.** -/
theorem exec_spec (hplaced : w.Placed) (hw : w.Recorded pinned) (op : WalkOp E) :
    ∃ w', w.exec op = .ok w' ∧ w'.Placed ∧ w'.Recorded pinned := by
  cases op with
  | step =>
    obtain ⟨result, c, hstep, hstepped⟩ := w.table.exists_stepped w.cursor
    refine ⟨w.record c (w.outcome c result), ?_, { hplaced with }, hw.step hplaced hstepped⟩
    simp only [exec, hstep, bind, Except.bind, pure, Except.pure]
  | mutate m =>
    obtain ⟨out, t, hexec, ht, hslots⟩ := hplaced.valid.exec_mutation m
    refine ⟨_, ?_, hplaced.mutate ht hslots, hw.mutate hplaced m t⟩
    simp only [exec, hexec, bind, Except.bind, pure, Except.pure]

/-! ## Walks without mutations -/

/-- What `n` steps over the given entries return: the entries, each once and in order, and then
the end. -/
def undisturbed : List E → Nat → List (Except RunError (Option E))
  | _, 0 => []
  | [], n + 1 => .ok none :: undisturbed [] n
  | e :: entries, n + 1 => .ok (some e) :: undisturbed entries n

/-- The results the caller has seen so far. -/
def results (w : Walk T E) : List (Except RunError (Option E)) := w.outcomes.map Outcome.result

omit [BucketTable T] in
theorem results_record (w : Walk T E) (c : TableCursor) (result : Except RunError (Option E)) :
    (w.record c (w.outcome c result)).results = w.results ++ [result] := by
  rw [results, outcomes_record, map_append]
  congr 1
  rcases result with _ | _ | _ <;> rfl

theorem exec_step (hstep : w.table.step w.cursor = .ok (result, c)) :
    w.exec .step = .ok (w.record c (w.outcome c result)) := by
  simp only [exec, hstep, bind, Except.bind, pure, Except.pure]

theorem results_of_exhausted (n : Nat) {w' : Walk T E} (hex : w.cursor.exhausted = true)
    (hrun : (replicate n WalkOp.step).foldlM exec w = .ok w') :
    w'.results = w.results ++ undisturbed [] n := by
  induction n generalizing w with
  | zero =>
    cases hrun
    exact (append_nil _).symm
  | succ n ih =>
    have hstep : w.table.step w.cursor = .ok (.ok none, w.cursor) := by
      simp only [step, TableCursor.advance, hex, if_true]
    rw [replicate_succ, foldlM_cons, exec_step hstep] at hrun
    rw [ih (w := w.record _ _) hex hrun, results_record, append_assoc, undisturbed]
    rfl

/-- A walk that is owed what lies ahead of it yields that, and then the end. -/
theorem results_of_undisturbed (n : Nat) {w' : Walk T E} (hex : w.cursor.exhausted = false)
    (hchanged : w.cursor.sizeChanged = false) (hlen : w.table.len = w.cursor.expectedLen)
    (hrem : w.cursor.remaining = ((w.table.entries.drop w.cursor.slot).filter isLive).length)
    (hrun : (replicate n WalkOp.step).foldlM exec w = .ok w') :
    w'.results
      = w.results ++ undisturbed ((w.table.entries.drop w.cursor.slot).filter isLive) n := by
  induction n generalizing w with
  | zero =>
    cases hrun
    rw [undisturbed, append_nil]
  | succ n ih =>
    obtain ⟨result, c, hstep, hstepped⟩ := w.table.exists_stepped w.cursor
    rw [replicate_succ, foldlM_cons, exec_step hstep] at hrun
    cases hstepped with
    | exhausted hex' => rw [hex] at hex'; cases hex'
    | sizeChanged _ hsize =>
      rcases hsize with hsize | hsize
      · rw [hchanged] at hsize; cases hsize
      · exact absurd hlen hsize
    | done _ _ hnil =>
      rw [results_of_exhausted n rfl hrun, results_record, hnil,
        undisturbed, append_assoc, singleton_append]
    | keysChanged _ _ hzero hne =>
      rw [hzero] at hrem
      exact absurd (length_eq_zero_iff.mp hrem.symm) hne
    | @yielded A B e _ _ _ hsplit hA he =>
      have hdrop : w.table.entries.drop (w.cursor.slot + A.length + 1) = B := by
        rw [Nat.add_assoc, ← drop_drop, hsplit]
        simp
      have hfilter : (w.table.entries.drop w.cursor.slot).filter isLive = e :: B.filter isLive := by
        rw [hsplit, filter_append, hA, nil_append, filter_cons_of_pos he]
      have hrest := ih (w := w.record { w.cursor with
          slot := w.cursor.slot + A.length + 1, remaining := w.cursor.remaining - 1 } _)
        hex hchanged hlen (by simp [record, hdrop, hrem, hfilter]) hrun
      rw [hrest, results_record, hfilter, undisturbed, append_assoc, singleton_append]
      simp only [record, hdrop]

/-! ## Every interleaving -/

/-- **What a walk promises**, whatever happened in between. -/
structure Sound (pinned : Nat) (w : Walk T E) : Prop where
  /-- Every yield is of an entry that was inserted later than those of the yields before it. -/
  increasing : w.yielded.Pairwise (· < ·)
  /-- No more entries are yielded than the table had when the walk began. -/
  bounded : w.yielded.length ≤ pinned
  /-- What is yielded is the entry inserted under that stamp, and was live in the table. -/
  entries : ∀ n e live, (.yield n e, live) ∈ w.history → w.inserted[n]? = some e ∧ e ∈ live
  /-- An error for a change of size comes again, and so does the end. -/
  sticky : w.outcomes.Pairwise Outcome.Before

/-- **Iteration under mutation.**  However the steps of a cursor and mutations of its table follow
each other, every one of them succeeds and the walk keeps its promises; and if there were no
mutations, the walk has yielded the live entries, each once and in order, and then the end. -/
theorem foldlM_sound {t : PyHashTable T E} (ht : t.Valid) (ops : List (WalkOp E)) :
    ∃ w, ops.foldlM exec (start t) = .ok w ∧ w.Sound t.len ∧ ((∀ op ∈ ops, op = .step) →
        w.results = undisturbed t.live ops.length) := by
  obtain ⟨w, hrun, hplaced, hw⟩ := Simulation.exists_foldlM 
    (fun w op hw => exec_spec hw.1 hw.2 op) ops ⟨.start ht, .start t⟩
  refine ⟨w, hrun, ⟨hw.increasing, ?_, hw.entries, hw.sticky⟩, fun hsteps => ?_⟩
  · rw [← hw.count]
    exact Nat.le_add_right _ _
  · rw [eq_replicate_of_mem hsteps] at hrun
    exact results_of_undisturbed ops.length rfl rfl rfl ht.len_eq hrun

/-- A set of one element, walked over while the element is taken out and put back. -/
theorem foldlM_sound_reinserted :
    let e : SetEntry Nat := ⟨some 7, 7⟩
    let t : PyHashTable (List (UInt64 × Nat)) (SetEntry Nat) := PyHashTable.default.push e
    t.Valid ∧
      ∃ w, [.step, .mutate .popLast, .mutate (.push e rfl), .step].foldlM exec (start t) = .ok w ∧
        w.Sound t.len ∧ ((∀ op ∈ [WalkOp.step, .mutate .popLast, .mutate (.push e rfl), .step],
          op = .step) → w.results = undisturbed t.live 4) :=
  have hvalid := (push_spec valid_default rfl).1
  ⟨hvalid, foldlM_sound hvalid _⟩

end Walk

end Monty
