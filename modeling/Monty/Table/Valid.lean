import Monty.Table.Basic

/-!
# What the table's operations keep

`PyHashTable.Valid` ties the two halves of a table together: the buckets hold the slot of every live
entry, under the entry's cached hash, once, and nothing else. It is an equation between multisets,
so one equation per operation carries it along, and everything a reader of the table relies on
follows from it:

* the number of buckets is the number of live entries (`Valid.len_eq`);
* a lookup never leaves the slots (`Valid.mem_probeSeq`), and finds an entry with the hash it is
  given if there is one (`Valid.position_spec`).
-/

namespace Monty.PyHashTable

open BucketTable List TableEntry Option
open TableEntry (isLive tombstone isLive_tombstone)

variable {T E K : Type} [TableEntry E K]

/-! ## Live slots -/

variable {t : PyHashTable T E} {i : Nat} {e : E}

theorem getLive_eq_some_iff : t.getLive i = some e ↔ t.entries[i]? = some e ∧ isLive e = true := by
  simp [getLive, filter_eq_some_iff]

theorem lt_of_getLive (hi : t.getLive i = some e) : i < t.entries.length :=
  (List.getElem?_eq_some_iff.mp (getLive_eq_some_iff.mp hi).1).1

theorem mem_live : e ∈ t.live ↔ ∃ i, t.getLive i = some e := by
  rw [live, mem_filter, mem_iff_getElem?]
  simp only [getLive_eq_some_iff, exists_and_right]

/-- A live slot splits the entries around it, and with them the live ones. -/
theorem exists_split (hi : t.getLive i = some e) :
    ∃ A B, t.entries = A ++ e :: B ∧ A.length = i ∧ isLive e = true := by
  obtain ⟨hget, hlive⟩ := getLive_eq_some_iff.mp hi
  obtain ⟨hlt, rfl⟩ := List.getElem?_eq_some_iff.mp hget
  refine ⟨t.entries.take i, t.entries.drop (i + 1), ?_, ?_, hlive⟩
  · rw [getElem_cons_drop, take_append_drop]
  · exact length_take_of_le hlt.le

/-! ## The last entry -/

theorem lastLiveSlotBelow_eq_none {n : Nat}
    (hlast : t.lastLiveSlotBelow n = none) {j : Nat} (hj : j < n) : t.getLive j = none := by
  induction n with
  | zero => omega
  | succ n ih =>
    rw [lastLiveSlotBelow] at hlast
    split_ifs at hlast with hn
    rcases Nat.lt_succ_iff_lt_or_eq.mp hj with hj | rfl
    · exact ih hlast hj
    · exact Option.not_isSome_iff_eq_none.mp hn

theorem lastLiveSlotBelow_eq_some {n : Nat} (hlast : t.lastLiveSlotBelow n = some i) :
    (t.getLive i).isSome ∧ ∀ j, i < j → j < n → t.getLive j = none := by
  induction n with
  | zero => cases hlast
  | succ n ih =>
    rw [lastLiveSlotBelow] at hlast
    split_ifs at hlast with hn
    · obtain rfl := Option.some.inj hlast
      exact ⟨hn, fun j hij hj => by omega⟩
    obtain ⟨hi, hafter⟩ := ih hlast
    refine ⟨hi, fun j hij hj => ?_⟩
    rcases Nat.lt_succ_iff_lt_or_eq.mp hj with hj | rfl
    · exact hafter j hij hj
    · exact Option.not_isSome_iff_eq_none.mp hn

theorem lastLiveSlot_eq_none (hlast : t.lastLiveSlot = none) : t.live = [] := by
  refine eq_nil_iff_forall_not_mem.mpr fun e he => ?_
  obtain ⟨i, hi⟩ := mem_live.mp he
  rw [lastLiveSlotBelow_eq_none hlast (lt_of_getLive hi)] at hi
  cases hi

theorem lastLiveSlot_eq_some (hlast : t.lastLiveSlot = some i) :
    ∃ e, t.getLive i = some e ∧ ∀ A B, t.entries = A ++ e :: B → A.length = i →
      B.filter isLive = [] := by
  obtain ⟨hi, hafter⟩ := lastLiveSlotBelow_eq_some hlast
  obtain ⟨e, he⟩ := Option.isSome_iff_exists.mp hi
  refine ⟨e, he, fun A B hsplit hA => filter_eq_nil_iff.mpr fun b hb hlive => ?_⟩
  obtain ⟨k, hk⟩ := mem_iff_getElem?.mp hb
  have hget : t.entries[i + (k + 1)]? = some b := by
    rw [hsplit, ← hA, List.getElem?_append_right (Nat.le_add_right _ _), Nat.add_sub_cancel_left,
      List.getElem?_cons_succ, hk]
  have hb : t.getLive (i + (k + 1)) = some b := getLive_eq_some_iff.mpr ⟨hget, hlive⟩
  rw [hafter _ (by omega) (lt_of_getLive hb)] at hb
  cases hb

/-! ## The buckets of the live slots -/

variable [BucketTable T]

/-- The buckets that the entries need, their slots numbered from `i`. -/
def liveBuckets : List E → Nat → List (UInt64 × Nat)
  | [], _ => []
  | e :: rest, i =>
    if isLive e then (TableEntry.hash e, i) :: liveBuckets rest (i + 1)
      else liveBuckets rest (i + 1)

theorem liveBuckets_append (A B : List E) (i : Nat) :
    liveBuckets (A ++ B) i = liveBuckets A i ++ liveBuckets B (i + A.length) := by
  induction A generalizing i with
  | nil => simp [liveBuckets]
  | cons e A ih =>
    have hlen : i + 1 + A.length = i + (e :: A).length := by simp; omega
    by_cases he : isLive e = true <;> simp [liveBuckets, he, ih, hlen]

theorem length_liveBuckets (entries : List E) (i : Nat) :
    (liveBuckets entries i).length = (entries.filter isLive).length := by
  induction entries generalizing i with
  | nil => rfl
  | cons e rest ih => by_cases he : isLive e = true <;> simp [liveBuckets, he, ih]

variable {h : UInt64}

theorem mem_liveBuckets_iff {entries : List E} {j : Nat} : (h, j) ∈ liveBuckets entries i ↔
      ∃ k e, j = i + k ∧ entries[k]? = some e ∧ isLive e = true ∧ hash e = h := by
  induction entries generalizing i with
  | nil => simp [liveBuckets]
  | cons a rest ih =>
    have hrest : (h, j) ∈ liveBuckets rest (i + 1) ↔ ∃ k e, j = i + (k + 1) ∧
        (a :: rest)[k + 1]? = some e ∧ isLive e = true ∧ hash e = h := by
      simp only [ih, List.getElem?_cons_succ, add_assoc, add_comm 1]
    constructor
    · intro hmem
      by_cases ha : isLive a = true
      · rw [liveBuckets, if_pos ha, mem_cons, Prod.mk.injEq] at hmem
        rcases hmem with ⟨rfl, rfl⟩ | hmem
        · exact ⟨0, a, rfl, rfl, ha, rfl⟩
        · obtain ⟨k, e, hk⟩ := hrest.mp hmem
          exact ⟨k + 1, e, hk⟩
      · rw [liveBuckets, if_neg ha] at hmem
        obtain ⟨k, e, hk⟩ := hrest.mp hmem
        exact ⟨k + 1, e, hk⟩
    · rintro ⟨k, e, hj, hget, hlive, rfl⟩
      cases k with
      | zero =>
        obtain rfl : a = e := by simpa using hget
        simp [liveBuckets, hlive, hj]
      | succ k =>
        have hmem := hrest.mpr ⟨k, e, hj, hget, hlive, rfl⟩
        by_cases ha : isLive a = true <;> simp [liveBuckets, ha, hmem]

theorem nodup_liveBuckets (entries : List E) (i : Nat) :
    ((liveBuckets entries i).map Prod.snd).Nodup := by
  induction entries generalizing i with
  | nil => simp [liveBuckets]
  | cons a rest ih =>
    by_cases ha : isLive a = true
    · rw [liveBuckets, if_pos ha, map_cons, nodup_cons]
      refine ⟨fun hmem => ?_, ih (i + 1)⟩
      obtain ⟨⟨h, j⟩, hpair, hj⟩ := mem_map.mp hmem
      obtain ⟨k, -, rfl, -⟩ := mem_liveBuckets_iff.mp hpair
      omega
    · rw [liveBuckets, if_neg ha]
      exact ih (i + 1)

theorem hashAt_of_mem_liveBuckets {A B : List E} {p : UInt64 × Nat}
    (hp : p ∈ liveBuckets A 0) : hashAt (A ++ B) p.2 = p.1 := by
  obtain ⟨k, e, hk, hget, -, hhash⟩ := mem_liveBuckets_iff.mp hp
  have hlt := (List.getElem?_eq_some_iff.mp hget).1
  rw [hk, zero_add, hashAt, List.getElem?_append_left hlt, hget]
  exact hhash

/-- The last slot's bucket comes on top of the others. -/
theorem liveBuckets_concat (A : List E) (he : isLive e = true) :
    (liveBuckets (A ++ [e]) 0 : Multiset (UInt64 × Nat))
      = (hash e, A.length) ::ₘ liveBuckets A 0 := by
  rw [liveBuckets_append, Multiset.cons_coe, Multiset.coe_eq_coe, zero_add, liveBuckets, if_pos he]
  exact perm_append_singleton _ _

/-- **The invariant of a table**: the buckets are those of the live slots. -/
def Valid (t : PyHashTable T E) : Prop := contents t.indices = liveBuckets t.entries 0

/-! ## Building tables -/

theorem valid_default : (default : PyHashTable T E).Valid := contents_empty

/-- `reindex` adds the buckets of the slots that are still to come. -/
theorem contents_reindexFrom (rest pre : List E) (indices : T)
    (hpre : contents indices = liveBuckets pre 0) :
    contents (reindexFrom (pre ++ rest) rest pre.length indices) = liveBuckets (pre ++ rest) 0 := by
  induction rest generalizing pre indices with
  | nil => rw [reindexFrom, append_nil, hpre]
  | cons e rest ih =>
    have happ : pre ++ e :: rest = (pre ++ [e]) ++ rest := by simp
    have hlen : pre.length + 1 = (pre ++ [e]).length := by simp
    rw [reindexFrom, happ, hlen]
    apply ih
    by_cases he : isLive e = true
    · rw [if_pos he, contents_insertUnique, hpre, liveBuckets_concat _ he]
      intro p hp
      rw [hpre, Multiset.mem_coe] at hp
      rw [← happ]
      exact hashAt_of_mem_liveBuckets hp
    · simp [liveBuckets_append, liveBuckets, he, hpre]

theorem valid_reindex (t : PyHashTable T E) : t.reindex.Valid :=
  contents_reindexFrom t.entries [] _ (contents_clear _)

theorem valid_pushEntry (ht : t.Valid) (he : isLive e = true) : (t.pushEntry e).Valid := by
  have hhash : ∀ p ∈ contents t.indices, hashAt (t.entries ++ [e]) p.2 = p.1 := by
    intro p hp
    rw [ht, Multiset.mem_coe] at hp
    exact hashAt_of_mem_liveBuckets hp
  rw [Valid, pushEntry, contents_insertUnique _ _ _ _ hhash, ht, liveBuckets_concat _ he]

@[simp] theorem live_compact (t : PyHashTable T E) : t.compact.live = t.live := by
  simp [compact, reindex, live]

theorem live_pushEntry (t : PyHashTable T E) (he : isLive e = true) :
    (t.pushEntry e).live = t.live ++ [e] := by
  simp [pushEntry, live, he]

/-- Pushing appends the entry, whether or not it compacts. -/
theorem push_spec (ht : t.Valid) (he : isLive e = true) :
    (t.push e).Valid ∧ (t.push e).live = t.live ++ [e] := by
  rw [push]
  split_ifs
  · refine ⟨valid_pushEntry (valid_reindex _) he, ?_⟩
    rw [live_pushEntry _ he, live_compact]
  · exact ⟨valid_pushEntry ht he, live_pushEntry t he⟩

/-! ## Reading a valid table -/

/-- The live entries of the given slots satisfy `P`. -/
def AllAt (t : PyHashTable T E) (slots : List Nat) (P : E → Prop) : Prop :=
  ∀ i ∈ slots, ∀ e, t.getLive i = some e → P e

omit [BucketTable T] in
theorem AllAt.concat {slots : List Nat} {P : E → Prop} (hall : t.AllAt slots P)
    (hi : t.getLive i = some e) (he : P e) : t.AllAt (slots ++ [i]) P := by
  intro j hj e' hj'
  rcases mem_append.mp hj with hj | hj
  · exact hall j hj e' hj'
  · obtain rfl := mem_singleton.mp hj
    exact mem_unique hi hj' ▸ he

namespace Valid

section

variable (ht : t.Valid)

include ht

theorem len_eq : t.len = t.live.length := by
  rw [len, BucketTable.len_eq, ht, Multiset.coe_card, length_liveBuckets, live]

theorem mem_contents_iff :
    (h, i) ∈ contents t.indices ↔ ∃ e, t.getLive i = some e ∧ hash e = h := by
  rw [ht, Multiset.mem_coe, mem_liveBuckets_iff]
  constructor
  · rintro ⟨k, e, hk, hget, hlive, rfl⟩
    rw [zero_add] at hk
    exact ⟨e, getLive_eq_some_iff.mpr ⟨hk ▸ hget, hlive⟩, rfl⟩
  · rintro ⟨e, hi, rfl⟩
    obtain ⟨hget, hlive⟩ := getLive_eq_some_iff.mp hi
    exact ⟨i, e, (zero_add i).symm, hget, hlive, rfl⟩

theorem nodup_slots : ((contents t.indices).map Prod.snd).Nodup := by
  rw [ht]
  exact Multiset.coe_nodup.mpr (nodup_liveBuckets t.entries 0)

/-- **Every live slot has one bucket, and a tombstone has none.** -/
theorem count_slots (i : Nat) :
    ((contents t.indices).map Prod.snd).count i = if (t.getLive i).isSome then 1 else 0 := by
  have hmem : i ∈ (contents t.indices).map Prod.snd ↔ (t.getLive i).isSome = true := by
    rw [Multiset.mem_map, isSome_iff_exists]
    constructor
    · rintro ⟨⟨h, j⟩, hpair, rfl⟩
      obtain ⟨e, hi, -⟩ := ht.mem_contents_iff.mp hpair
      exact ⟨e, hi⟩
    · rintro ⟨e, hi⟩
      exact ⟨(hash e, i), ht.mem_contents_iff.mpr ⟨e, hi, rfl⟩, rfl⟩
  rw [Multiset.count_eq_of_nodup ht.nodup_slots]
  exact if_congr hmem rfl rfl

theorem getLive_of_mem_probeSeq (hi : i ∈ probeSeq t.indices h) : ∃ e, t.getLive i = some e := by
  obtain ⟨h', hmem⟩ := exists_hash_of_mem_probeSeq hi
  obtain ⟨e, he, -⟩ := ht.mem_contents_iff.mp hmem
  exact ⟨e, he⟩

theorem mem_probeSeq (hi : t.getLive i = some e) : i ∈ probeSeq t.indices (hash e) :=
  BucketTable.mem_probeSeq _ _ _ (ht.mem_contents_iff.mpr ⟨e, hi, rfl⟩)

/-- What holds of the slots that a lookup visits holds of every entry with the hash. -/
theorem allAt_probeSeq {P : E → Prop}
    (hall : t.AllAt (probeSeq t.indices h) fun e => hash e = h → P e)
    (he : e ∈ t.live) (hh : hash e = h) : P e := by
  obtain ⟨i, hi⟩ := mem_live.mp he
  exact hall i (hh ▸ ht.mem_probeSeq hi) e hi hh

end

/-! ## Lookups -/

/-- The rule for lookups. `I` holds of the slots passed over so far and of the state carried along,
`Q` holds when a slot is accepted. -/
theorem probe_induct (ht : t.Valid) {σ : Type} {f : σ → Nat → E → σ × Bool} {s : σ}
    {I : List Nat → σ → Prop} {Q : Nat → σ → Prop} (start : I [] s)
    (pass : ∀ pre i s e, i ∈ probeSeq t.indices h → I pre s → t.getLive i = some e →
      (f s i e).2 = false → I (pre ++ [i]) (f s i e).1)
    (accept : ∀ pre i s e, i ∈ probeSeq t.indices h → I pre s → t.getLive i = some e →
      (f s i e).2 = true → Q i (f s i e).1) :
    ∃ s' found, t.probe h f s = .ok (s', found) ∧
      match found with
      | some i => Q i s'
      | none => I (probeSeq t.indices h) s' := by
  suffices hgen : ∀ rest pre s, pre ++ rest = probeSeq t.indices h → I pre s →
      ∃ s' found, t.probeFrom f rest s = .ok (s', found) ∧
        match found with
        | some i => Q i s'
        | none => I (probeSeq t.indices h) s' from
    hgen _ [] s (nil_append _) start
  intro rest
  induction rest with
  | nil =>
    rintro pre s hpre hI
    rw [append_nil] at hpre
    exact ⟨s, none, rfl, hpre ▸ hI⟩
  | cons i rest ih =>
    intro pre s hpre hI
    have hi : i ∈ probeSeq t.indices h := by simp [← hpre]
    obtain ⟨e, he⟩ := ht.getLive_of_mem_probeSeq hi
    have hget := (getLive_eq_some_iff.mp he).1
    rcases hf : f s i e with ⟨s', _ | _⟩
    · have hpass := pass pre i s e hi hI he (by rw [hf])
      obtain ⟨s'', found, hprobe, hfound⟩ := ih (pre ++ [i]) s' (by simp [hpre]) (by
        simpa only [hf] using hpass)
      exact ⟨s'', found, by simp only [probeFrom, hget, hf, hprobe], hfound⟩
    · have haccept := accept pre i s e hi hI he (by rw [hf])
      exact ⟨s', some i, by simp only [probeFrom, hget, hf], by simpa only [hf] using haccept⟩

/-- **A search finds a live entry with the hash it is given that passes the test, if there is
one.** -/
theorem position_spec (ht : t.Valid) (h : UInt64) (p : E → Bool) :
    (∃ slot e, t.position h p = .ok (some slot) ∧ t.getLive slot = some e ∧
        hash e = h ∧ p e = true) ∨
      (t.position h p = .ok none ∧ ∀ e ∈ t.live, hash e = h → p e = false) := by
  obtain ⟨u, found, hprobe, hfound⟩ := ht.probe_induct
    (f := fun s _ e => (s, hash e == h && p e))
    (I := fun pre _ => t.AllAt pre fun e => hash e = h → p e = false)
    (Q := fun i _ => ∃ e, t.getLive i = some e ∧ hash e = h ∧ p e = true)
    (by simp [AllAt])
    (fun pre i _ e _ hpre hi hf => hpre.concat hi fun hh => by simpa [hh] using hf)
    (fun pre i _ e _ _ hi hf => ⟨e, hi, by simpa using hf⟩)
  have hpos : t.position h p = .ok found := by
    rw [position, hprobe]
    rfl
  cases found with
  | some slot =>
    obtain ⟨e, hslot, he⟩ := hfound
    exact .inl ⟨slot, e, hpos, hslot, he⟩
  | none => exact .inr ⟨hpos, fun e he hh => ht.allAt_probeSeq hfound he hh⟩

/-! ## Removing -/

/-- Removing a live slot takes the entry out of the live ones and leaves the others in order. -/
theorem tombstoneAt_spec (ht : t.Valid) (hi : t.getLive i = some e) :
    ∃ t' A B, t.tombstoneAt i = .ok (e, t') ∧ t'.Valid ∧ t.entries = A ++ e :: B ∧ A.length = i ∧
      t'.entries = A ++ tombstone :: B := by
  obtain ⟨A, B, hsplit, rfl, hlive⟩ := exists_split hi
  have hget : t.entries[A.length]? = some e := (getLive_eq_some_iff.mp hi).1
  have hset : t.entries.set A.length tombstone = A ++ tombstone :: B := by
    rw [hsplit, set_append_right _ _ le_rfl, Nat.sub_self, set_cons_zero]
  refine ⟨_, A, B, by rw [tombstoneAt, hget], ?_, hsplit, rfl, hset⟩
  -- the lookup under the entry's hash reaches the slot, and the bucket found is the entry's
  have hfind : (probeSeq t.indices (hash e)).find? (· == A.length) = some A.length := by
    cases hf : (probeSeq t.indices (hash e)).find? (· == A.length) with
    | none => simpa using List.find?_eq_none.mp hf _ (ht.mem_probeSeq hi)
    | some j => exact congrArg some (by simpa using List.find?_some hf)
  obtain ⟨h', hmem, hremove⟩ := contents_removeFirst _ _ _ _ hfind
  obtain ⟨e', hi', rfl⟩ := ht.mem_contents_iff.mp hmem
  obtain rfl : e = e' := mem_unique hi hi'
  have hbuckets : (liveBuckets t.entries 0 : Multiset (UInt64 × Nat))
      = (hash e, A.length) ::ₘ ↑(liveBuckets A 0 ++ liveBuckets B (A.length + 1)) := by
    rw [hsplit, liveBuckets_append, zero_add, liveBuckets, if_pos hlive]
    exact Multiset.coe_eq_coe.mpr perm_middle
  rw [Valid, hremove, ht, hbuckets, Multiset.erase_cons_head, hset, liveBuckets_append,
    zero_add, liveBuckets, if_neg (by simp [isLive_tombstone])]

/-! ## Overwriting -/

/-- Overwriting a live entry with one of the same hash keeps its bucket right. -/
theorem set_spec (ht : t.Valid) {e' : E} (hi : t.getLive i = some e)
    (he' : isLive e' = true) (hhash : hash e' = hash e) :
    ({ t with entries := t.entries.set i e' } : PyHashTable T E).Valid ∧
      ∃ A B, t.entries = A ++ e :: B ∧ t.entries.set i e' = A ++ e' :: B := by
  obtain ⟨A, B, hsplit, rfl, hlive⟩ := exists_split hi
  have hset : t.entries.set A.length e' = A ++ e' :: B := by
    rw [hsplit, set_append_right _ _ le_rfl, Nat.sub_self, set_cons_zero]
  refine ⟨?_, A, B, hsplit, hset⟩
  rw [Valid, ht, hset, hsplit]
  simp [liveBuckets_append, liveBuckets, hlive, he', hhash]

end Valid

end Monty.PyHashTable
